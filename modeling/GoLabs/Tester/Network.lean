import GoLabs.Reasoning.Strings
import Mathlib.Logic.Function.Basic

/-!
# The simulated network

The maps of a `labrpc.Network`.  A Go map that is only read by key is a function with the zero value
where nothing is stored, a `*labrpc.Server` is its address, and `none` is a nil pointer or
interface.
-/

open GoLabs.Reasoning

namespace GoLabs.Tester

abbrev EndName := GoString

def itoa : Int → GoString
  | .ofNat k => dec k
  | .negSucc k => lit "-" ++ dec (k + 1)

/-- The name of the `i`'th server of group `gid`. -/
def serverName (gid : Int) (i : Nat) : GoString := lit "server-" ++ itoa gid ++ lit "-" ++ dec i

structure Network where
  reliable : Bool
  longReordering : Bool
  ends : List EndName
  enabled : EndName → Bool
  servers : GoString → Option Nat
  connections : EndName → Option GoString

def makeNetwork : Network where
  reliable := true
  longReordering := false
  ends := []
  enabled _ := false
  servers _ := none
  connections _ := none

namespace Network

variable {net net' : Network} {e : EndName}

/-- `none` is the `log.Fatalf` for a name that is taken. -/
def makeEnd (net : Network) (e : EndName) : Option Network :=
  if e ∈ net.ends then none
  else some { net with
    ends := net.ends ++ [e]
    enabled := Function.update net.enabled e false
    connections := Function.update net.connections e none }

/-- `none` is the `log.Fatalf` for a name that is not there. -/
def deleteEnd (net : Network) (e : EndName) : Option Network :=
  if e ∈ net.ends then
    some { net with
      ends := net.ends.erase e
      enabled := Function.update net.enabled e false
      connections := Function.update net.connections e none }
  else none

def connect (net : Network) (e : EndName) (servername : GoString) : Network :=
  { net with connections := Function.update net.connections e (some servername) }

def enable (net : Network) (e : EndName) (enabled : Bool) : Network :=
  { net with enabled := Function.update net.enabled e enabled }

def addServer (net : Network) (servername : GoString) (rs : Nat) : Network :=
  { net with servers := Function.update net.servers servername (some rs) }

def deleteServer (net : Network) (servername : GoString) : Network :=
  { net with servers := Function.update net.servers servername none }

/-- The switches of an end, of those it is connected to, and of the network, as `processReq` reads
them under one lock. -/
structure EndnameInfo where
  enabled : Bool
  servername : Option GoString
  server : Option Nat
  reliable : Bool
  longReordering : Bool
  deriving DecidableEq

def readEndnameInfo (net : Network) (e : EndName) : EndnameInfo where
  enabled := net.enabled e
  servername := net.connections e
  server := (net.connections e).bind net.servers
  reliable := net.reliable
  longReordering := net.longReordering

def isServerDead (net : Network) (e : EndName) (servername : GoString) (server : Nat) : Bool :=
  net.enabled e = false || net.servers servername ≠ some server

@[simp] theorem enabled_enable {v : Bool} {e' : EndName} :
    (net.enable e v).enabled e' = if e' = e then v else net.enabled e' := by
  simp only [enable, Function.update_apply]

@[simp] theorem ends_enable {v : Bool} : (net.enable e v).ends = net.ends := rfl

/-- What a loop of `Enable` calls with one switch does to an end. -/
theorem enabled_foldl {ι : Type*} (l : List ι) (name : ι → EndName) (v : Bool) (net : Network) :
    (l.foldl (fun net j => net.enable (name j) v) net).enabled e =
      if e ∈ l.map name then v else net.enabled e := by
  induction l generalizing net with
  | nil => simp
  | cons j l ih =>
      rw [List.foldl_cons, ih, enabled_enable, List.map_cons]
      simp only [List.mem_cons]
      split <;> split <;> simp_all

theorem ends_foldl {ι : Type*} (l : List ι) (name : ι → EndName) (v : Bool) (net : Network) :
    (l.foldl (fun net j => net.enable (name j) v) net).ends = net.ends := by
  induction l generalizing net with
  | nil => rfl
  | cons j l ih => exact ih _

theorem servers_foldl {ι : Type*} (l : List ι) (name : ι → EndName) (v : Bool) (net : Network) :
    (l.foldl (fun net j => net.enable (name j) v) net).servers = net.servers := by
  induction l generalizing net with
  | nil => rfl
  | cons j l ih => exact ih _

theorem makeEnd_eq_some : net.makeEnd e = some net' ↔ e ∉ net.ends ∧
    net' = { net with
      ends := net.ends ++ [e]
      enabled := Function.update net.enabled e false
      connections := Function.update net.connections e none } := by
  unfold makeEnd
  split <;> simp_all [eq_comm]

/-- A loop that makes ends and connects them: every name is new, and every new end is disabled. -/
structure Makes (net : Network) (names : List EndName) (net' : Network) : Prop where
  fresh : ∀ e ∈ names, e ∉ net.ends
  nodup : names.Nodup
  ends : net'.ends = net.ends ++ names
  enabled : ∀ e, net'.enabled e = if e ∈ names then false else net.enabled e
  servers : net'.servers = net.servers

theorem Makes.nil (net : Network) : Makes net [] net where
  fresh := by simp
  nodup := List.nodup_nil
  ends := by simp
  enabled := by simp
  servers := rfl

theorem Makes.append {u v : List EndName} {mid : Network} (h : Makes net u mid)
    (h' : Makes mid v net') : Makes net (u ++ v) net' where
  fresh := by
    intro e he
    obtain hu | hv := List.mem_append.mp he
    · exact h.fresh e hu
    · intro hmem
      exact h'.fresh e hv (by rw [h.ends]; exact List.mem_append_left _ hmem)
  nodup := by
    refine List.nodup_append.mpr ⟨h.nodup, h'.nodup, ?_⟩
    intro a ha b hb heq
    subst heq
    exact h'.fresh a hb (by rw [h.ends]; exact List.mem_append_right _ ha)
  ends := by rw [h'.ends, h.ends, List.append_assoc]
  enabled := by
    intro e
    rw [h'.enabled, h.enabled]
    simp only [List.mem_append]
    split <;> split <;> simp_all
  servers := h'.servers.trans h.servers

theorem makes_makeEnd (servername : GoString) (h : net.makeEnd e = some net') :
    Makes net [e] (net'.connect e servername) := by
  obtain ⟨hfresh, rfl⟩ := makeEnd_eq_some.mp h
  exact
    { fresh := by simpa using hfresh
      nodup := List.nodup_singleton e
      ends := rfl
      enabled := by
        intro e'
        show Function.update net.enabled e false e' = _
        rw [Function.update_apply]
        simp only [List.mem_singleton]
      servers := rfl }

/-- The rule for such a loop, from what one round does. -/
theorem makes_foldlM {ι : Type*} {body : Network → ι → Option Network} (names : ι → List EndName)
    (hbody : ∀ net j net', body net j = some net' → Makes net (names j) net') (l : List ι)
    (h : l.foldlM body net = some net') : Makes net (l.flatMap names) net' := by
  induction l generalizing net with
  | nil =>
      simp only [List.foldlM_nil, Option.pure_def, Option.some.injEq] at h
      subst h
      exact Makes.nil net
  | cons j l ih =>
      simp only [List.foldlM_cons, Option.bind_eq_bind, Option.bind_eq_some_iff] at h
      obtain ⟨mid, hmid, hrest⟩ := h
      rw [List.flatMap_cons]
      exact (hbody net j mid hmid).append (ih hrest)

end Network

end GoLabs.Tester
