import GoLabs.Reasoning.Tables
import GoLabs.Tester.Network

/-!
# A group of servers

`ServerGrp` of the tester: its servers with their ends, the switches of the network, and the
persisters that were made so far, each at its address in `persisters`.  A started server is an
`Instance`, at the address of its `labrpc.Server` in `instances`.  The ends' names are random in the
source; here they are arguments, and a name that is taken is fatal.
-/

open GoLabs.Reasoning

namespace GoLabs.Tester

/-- A slice is never written to after it is stored in a persister, so sharing it is copying it. -/
structure Persister where
  raftstate : GoString
  snapshot : GoString
  deriving DecidableEq, Repr

def makePersister : Persister := ⟨[], []⟩

structure Server (n : Nat) where
  endNames : Vector EndName n
  saved : Option Nat
  deriving DecidableEq

/-- What `mks` was called with: the server's index and its persister. -/
structure Instance (n : Nat) where
  srv : Fin n
  persister : Nat
  deriving DecidableEq

structure ServerGrp (n : Nat) where
  net : Network
  persisters : List Persister
  instances : List (Instance n)
  srvs : Vector (Server n) n
  gid : Int
  connected : Vector Bool n

/-- The ends of one server, one to each server of the group. -/
def makeServer {n : Nat} (gid : Int) (net : Network) (endNames : Vector EndName n) :
    Option Network :=
  (List.finRange n).foldlM
    (fun net j => (net.makeEnd endNames[j]).map (·.connect endNames[j] (serverName gid j))) net

theorem makes_makeServer {n : Nat} {gid : Int} {net net' : Network} {endNames : Vector EndName n}
    (h : makeServer gid net endNames = some net') :
    Network.Makes net ((List.finRange n).map fun j => endNames[j]) net' := by
  have hbody : ∀ (net : Network) (j : Fin n) (net' : Network),
      (net.makeEnd endNames[j]).map (·.connect endNames[j] (serverName gid j)) = some net' →
      Network.Makes net [endNames[j]] net' := by
    intro net j net' hbody
    obtain ⟨mid, hmid, rfl⟩ := Option.map_eq_some_iff.mp hbody
    exact Network.makes_makeEnd _ hmid
  rw [List.map_eq_flatMap]
  exact Network.makes_foldlM _ hbody _ h

def makeSrvGrp {n : Nat} (net : Network) (gid : Int) (names : Vector (Vector EndName n) n) :
    Option (ServerGrp n) :=
  ((List.finRange n).foldlM (fun net i => makeServer gid net names[i]) net).map fun net =>
    { net
      persisters := []
      instances := []
      srvs := names.map (⟨·, none⟩)
      gid
      connected := Vector.replicate n false }

namespace ServerGrp

variable {n : Nat}

def endName (sg : ServerGrp n) (a b : Fin n) : EndName := sg.srvs[a].endNames[b]

def isConnected (sg : ServerGrp n) (i : Fin n) : Bool := sg.connected[i]

/-- The end from `a` to `b` is enabled. -/
def link (sg : ServerGrp n) (a b : Fin n) : Bool := sg.net.enabled (sg.endName a b)

def all (n : Nat) : List (Fin n) := List.finRange n

/-- The loop over the incoming ends asks `IsConnected` about the position in the list. -/
def connect (sg : ServerGrp n) (i : Fin n) (peers : List (Fin n)) : ServerGrp n :=
  let connected := sg.connected.set i true i.isLt
  let outgoing := peers.foldl (fun net j => net.enable (sg.endName i j) true) sg.net
  let incoming := (peers.zipIdx.filter fun p => connected[p.2]? = some true).foldl
    (fun net p => net.enable (sg.endName p.1 i) true) outgoing
  { sg with connected, net := incoming }

-- `endNames` is never nil: `makeServer` is the only place that makes a `Server`
def disconnect (sg : ServerGrp n) (i : Fin n) (peers : List (Fin n)) : ServerGrp n :=
  let outgoing := peers.foldl (fun net j => net.enable (sg.endName i j) false) sg.net
  let incoming := peers.foldl (fun net j => net.enable (sg.endName j i) false) outgoing
  { sg with connected := sg.connected.set i false i.isLt, net := incoming }

def connectOne (sg : ServerGrp n) (i : Fin n) : ServerGrp n := sg.connect i (all n)

def connectAll (sg : ServerGrp n) : ServerGrp n := (all n).foldl connectOne sg

def disconnectAll (sg : ServerGrp n) (i : Fin n) : ServerGrp n := sg.disconnect i (all n)

/-- `Persister.Copy`, at a new address; `MakePersister` for a nil pointer. -/
def copy (sg : ServerGrp n) (p : Option Nat) : Persister :=
  (p.bind (sg.persisters[·]?)).getD makePersister

/-- `startServer` of the server, which replaces it in the group. -/
def startSaved (sg : ServerGrp n) (i : Fin n) (endNames : Vector EndName n) :
    Option (ServerGrp n) :=
  (makeServer sg.gid sg.net endNames).map fun net =>
    { sg with
      net
      persisters := sg.persisters ++ [sg.copy sg.srvs[i].saved]
      srvs := sg.srvs.set i ⟨endNames, some sg.persisters.length⟩ i.isLt }

/-- The call of `mks`, with the `labrpc.Server` made for its services. -/
def boot (sg : ServerGrp n) (i : Fin n) (persister : Nat) : ServerGrp n :=
  { sg with instances := sg.instances ++ [⟨i, persister⟩] }

def addServer (sg : ServerGrp n) (i : Fin n) (labsrv : Nat) : ServerGrp n :=
  { sg with net := sg.net.addServer (serverName sg.gid i) labsrv }

def startServer (sg : ServerGrp n) (i : Fin n) (endNames : Vector EndName n) :
    Option (ServerGrp n) :=
  (sg.startSaved i endNames).map fun sg' =>
    (sg'.boot i sg.persisters.length).addServer i sg'.instances.length

def deleteServer (sg : ServerGrp n) (i : Fin n) : ServerGrp n :=
  { sg with net := sg.net.deleteServer (serverName sg.gid i) }

/-- `shutdownServer` of the server: a nil `saved` stays nil. -/
def shutdownSaved (sg : ServerGrp n) (i : Fin n) : ServerGrp n :=
  match sg.srvs[i].saved with
  | none => sg
  | some p =>
      { sg with
        persisters := sg.persisters ++ [sg.copy (some p)]
        srvs := sg.srvs.set i { sg.srvs[i] with saved := some sg.persisters.length } i.isLt }

def shutdownServer (sg : ServerGrp n) (i : Fin n) : ServerGrp n :=
  ((sg.disconnectAll i).deleteServer i).shutdownSaved i

def startServers (sg : ServerGrp n) (names : Vector (Vector EndName n) n) :
    Option (ServerGrp n) :=
  ((all n).foldlM (fun (sg : ServerGrp n) i => sg.startServer i names[i]) sg).map connectAll

end ServerGrp

end GoLabs.Tester
