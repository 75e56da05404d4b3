import GoLabs.Reasoning.GoMap
import GoLabs.Tester.Requests

/-!
# The clients of the tester

A `Clnt` makes an end for a server when a clerk first calls that server.  Whether the end is enabled
is decided by `srvs` then, and by `ConnectAll` and `DisconnectAll` later.
-/

open GoLabs.Reasoning

namespace GoLabs.Tester

/-- `srvs` is `none` for nil: the client may connect to all servers. -/
structure Clnt where
  ends : GoMap GoString EndName
  srvs : Option (List GoString)

def makeClntTo (srvs : Option (List GoString)) : Clnt := ⟨∅, srvs⟩

namespace Clnt

def allowedL (clnt : Clnt) (server : GoString) : Bool :=
  match clnt.srvs with
  | none => true
  | some srvs => server ∈ srvs

/-- The end for `server`, which may be new; `name` is what `Randstring` returns.  `none` is the
`log.Fatalf` of `MakeEnd`. -/
def makeEnd (clnt : Clnt) (net : Network) (server : GoString) (name : EndName) :
    Option (Clnt × Network × EndName) :=
  match clnt.ends.lookup server with
  | some e => some (clnt, net, e)
  | none =>
      (net.makeEnd name).map fun net =>
        ({ clnt with ends := clnt.ends.insert server name },
          (net.connect name server).enable name (clnt.allowedL server), name)

/-- The loop of `ConnectAll` and `DisconnectAll`. -/
def enableAll (clnt : Clnt) (it : Iteration GoString) (net : Network) (enabled : Bool) : Network :=
  (clnt.ends.range it).foldl (fun net e => net.enable e.2 enabled) net

def connectAll (clnt : Clnt) (it : Iteration GoString) (net : Network) : Clnt × Network :=
  ({ clnt with srvs := none }, clnt.enableAll it net true)

def disconnectAll (clnt : Clnt) (it : Iteration GoString) (net : Network) : Clnt × Network :=
  ({ clnt with srvs := some [] }, clnt.enableAll it net false)

/-! ## What they do -/

/-- The end was there, or it is made, connected and switched. -/
inductive Makes (clnt : Clnt) (net : Network) (server : GoString) :
    Clnt → Network → EndName → Prop where
  | old {e : EndName} (hend : clnt.ends.lookup server = some e) : Makes clnt net server clnt net e
  | fresh {name : EndName} (hnone : clnt.ends.lookup server = none) (hname : name ∉ net.ends) :
      Makes clnt net server { clnt with ends := clnt.ends.insert server name }
        { net with
          ends := net.ends ++ [name]
          enabled := Function.update net.enabled name (clnt.allowedL server)
          connections := Function.update net.connections name (some server) } name

theorem makeEnd_cases {clnt clnt' : Clnt} {net net' : Network} {server : GoString}
    {name e : EndName} (h : clnt.makeEnd net server name = some (clnt', net', e)) :
    clnt.Makes net server clnt' net' e := by
  unfold makeEnd at h
  split at h
  · rename_i hend
    cases h
    exact .old hend
  · rename_i hnone
    obtain ⟨made, hmade, heq⟩ := Option.map_eq_some_iff.mp h
    obtain ⟨hname, rfl⟩ := Network.makeEnd_eq_some.mp hmade
    cases heq
    simpa [Network.connect, Network.enable] using Makes.fresh hnone hname

theorem mem_ends {clnt : Clnt} {it : Iteration GoString} {e : EndName} :
    e ∈ (clnt.ends.range it).map Prod.snd ↔ ∃ server, clnt.ends.lookup server = some e := by
  constructor
  · intro h
    obtain ⟨⟨server, e'⟩, hmem, rfl⟩ := List.mem_map.mp h
    exact ⟨server, GoMap.mem_range.mp hmem⟩
  · rintro ⟨server, h⟩
    exact List.mem_map.mpr ⟨(server, e), GoMap.mem_range.mpr h, rfl⟩

theorem enabled_enableAll_own {clnt : Clnt} {server : GoString} {e : EndName}
    (h : clnt.ends.lookup server = some e) (it : Iteration GoString) (net : Network) (v : Bool) :
    (clnt.enableAll it net v).enabled e = v := by
  rw [enableAll, Network.enabled_foldl, if_pos (mem_ends.mpr ⟨server, h⟩)]

theorem enabled_enableAll_other {clnt : Clnt} {e : EndName}
    (h : ∀ server, clnt.ends.lookup server ≠ some e) (it : Iteration GoString) (net : Network)
    (v : Bool) : (clnt.enableAll it net v).enabled e = net.enabled e := by
  rw [enableAll, Network.enabled_foldl, if_neg]
  intro hmem
  obtain ⟨server, hend⟩ := mem_ends.mp hmem
  exact h server hend

theorem ends_enableAll (clnt : Clnt) (it : Iteration GoString) (net : Network) (v : Bool) :
    (clnt.enableAll it net v).ends = net.ends := Network.ends_foldl _ Prod.snd v net

theorem servers_enableAll (clnt : Clnt) (it : Iteration GoString) (net : Network) (v : Bool) :
    (clnt.enableAll it net v).servers = net.servers := Network.servers_foldl _ Prod.snd v net

theorem enableAll_rest (clnt : Clnt) (it : Iteration GoString) (net : Network) (v : Bool) :
    (clnt.enableAll it net v).connections = net.connections ∧
      (clnt.enableAll it net v).reliable = net.reliable := by
  unfold enableAll
  induction clnt.ends.range it generalizing net with
  | nil => exact ⟨rfl, rfl⟩
  | cons e l ih => exact ih (net.enable e.2 v)

end Clnt

end GoLabs.Tester
