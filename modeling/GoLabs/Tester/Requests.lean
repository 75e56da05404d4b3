import GoLabs.Reasoning.Runs
import GoLabs.Reasoning.Tables
import GoLabs.Tester.Group

/-!
# Requests, restarts and persisters

A group whose servers are shut down and started while `Call`s are under way.  `ShutdownServer` and
`StartServer` run in the steps that other goroutines can see, `processReq` and the handler it starts
are one goroutine each, and a handler may save into the persister of its instance until it returns,
also long after that instance was shut down.  Ends are made, connected, enabled and deleted at any
time.
-/

open GoLabs.Reasoning

namespace GoLabs.Tester

/-- Calls on the network by the tester and its clients, which are not about servers. -/
inductive NetOp where
  | makeEnd (e : EndName)
  | deleteEnd (e : EndName)
  | connect (e : EndName) (servername : GoString)
  | enable (e : EndName) (enabled : Bool)
  | reliable (yes : Bool)
  | longReordering (yes : Bool)

def Network.perform (net : Network) : NetOp → Option Network
  | .makeEnd e => net.makeEnd e
  | .deleteEnd e => net.deleteEnd e
  | .connect e servername => some (net.connect e servername)
  | .enable e enabled => some (net.enable e enabled)
  | .reliable yes => some { net with reliable := yes }
  | .longReordering yes => some { net with longReordering := yes }

/-! ## `processReq` -/

/-- The goroutine that runs the handler, with the address of its `labrpc.Server`. -/
inductive Handler where
  | idle
  | running (server : Nat)
  | returned (server : Nat)
  deriving DecidableEq

/-- Where `processReq` stands with a request. -/
inductive ReqPc where
  /-- In the channel of the network. -/
  | sent
  | accepted (servername : GoString) (server : Nat) (reliable : Bool)
  | waiting (servername : GoString) (server : Nat) (reliable : Bool)
  /-- The handler's reply was taken, `replyOK` is true. -/
  | answered (servername : GoString) (server : Nat) (reliable : Bool)
  /-- The server was dead before the handler returned. -/
  | gaveUp
  /-- The server was not dead after the handler returned. -/
  | alive (reliable : Bool)
  /-- The reply is on its way, perhaps in `time.AfterFunc`. -/
  | replying (ok : Bool)
  /-- `Call` has returned. -/
  | returned (ok : Bool)
  deriving DecidableEq

structure Req where
  endname : EndName
  pc : ReqPc
  handler : Handler
  deriving DecidableEq

inductive ReqStep where
  | read
  | dropRequest
  | dispatch
  | handlerReturn
  | receive
  | giveUp
  | check
  | dropReply
  | reply
  | deliver
  deriving DecidableEq

namespace Req

def next (net : Network) (q : Req) : ReqStep → Option Req
  | .read =>
      match q.pc with
      | .sent =>
          let info := net.readEndnameInfo q.endname
          match info.enabled, info.servername, info.server with
          | true, some servername, some server =>
              some { q with pc := .accepted servername server info.reliable }
          | _, _, _ => some { q with pc := .replying false }
      | _ => none
  | .dropRequest =>
      match q.pc with
      | .accepted _ _ false => some { q with pc := .replying false }
      | _ => none
  | .dispatch =>
      match q.pc with
      | .accepted servername server reliable =>
          some { q with pc := .waiting servername server reliable, handler := .running server }
      | _ => none
  | .handlerReturn =>
      match q.handler with
      | .running server => some { q with handler := .returned server }
      | _ => none
  | .receive =>
      match q.pc, q.handler with
      | .waiting servername server reliable, .returned _ =>
          some { q with pc := .answered servername server reliable }
      | _, _ => none
  -- every 100 ms, while no reply is there; a server that is not dead is asked about again
  | .giveUp =>
      match q.pc with
      | .waiting servername server _ =>
          if net.isServerDead q.endname servername server then some { q with pc := .gaveUp }
          else none
      | _ => none
  -- `isServerDead` once more; with `replyOK` false the answer does not matter
  | .check =>
      match q.pc with
      | .answered servername server reliable =>
          if net.isServerDead q.endname servername server then
            some { q with pc := .replying false }
          else some { q with pc := .alive reliable }
      | .gaveUp => some { q with pc := .replying false }
      | _ => none
  | .dropReply =>
      match q.pc with
      | .alive false => some { q with pc := .replying false }
      | _ => none
  | .reply =>
      match q.pc with
      | .alive _ => some { q with pc := .replying true }
      | _ => none
  | .deliver =>
      match q.pc with
      | .replying ok => some { q with pc := .returned ok }
      | _ => none

end Req

/-! ## The life of a server -/

/-- Where the tester stands with a server; the address is that of its last `labrpc.Server`. -/
inductive Phase where
  | down
  /-- `startServer` has returned, `mks` is not called yet. -/
  | saved
  /-- The services run, `AddServer` is not called yet. -/
  | booted (labsrv : Nat)
  | up (labsrv : Nat)
  | isolated (labsrv : Nat)
  | deleted (labsrv : Nat)
  deriving DecidableEq

inductive LifeStep (n : Nat) where
  | start (endNames : Vector EndName n)
  | boot
  | add
  | disconnect
  | delete
  | shutdown

def ServerGrp.saved {n : Nat} (sg : ServerGrp n) (i : Fin n) : Option Nat := sg.srvs[i].saved

/-- The steps of `StartServer` and `ShutdownServer`, one after the other. -/
def ServerGrp.live {n : Nat} (sg : ServerGrp n) (i : Fin n) :
    Phase → LifeStep n → Option (ServerGrp n × Phase)
  | .down, .start endNames => (sg.startSaved i endNames).map (·, .saved)
  | .saved, .boot => (sg.saved i).map fun p => (sg.boot i p, .booted sg.instances.length)
  | .booted labsrv, .add => some (sg.addServer i labsrv, .up labsrv)
  | .up labsrv, .disconnect => some (sg.disconnectAll i, .isolated labsrv)
  | .isolated labsrv, .delete => some (sg.deleteServer i, .deleted labsrv)
  | .deleted _, .shutdown => some (sg.shutdownSaved i, .down)
  | _, _ => none

/-! ## The cluster -/

structure Cluster (n : Nat) where
  grp : ServerGrp n
  phases : Vector Phase n
  reqs : List Req

inductive ClusterStep (n : Nat) where
  | net (op : NetOp)
  | live (i : Fin n) (step : LifeStep n)
  | call (endname : EndName)
  | req (r : Nat) (step : ReqStep)
  /-- The handler of request `r` calls `Save`. -/
  | save (r : Nat) (contents : Persister)
  /-- Another goroutine of an instance does. -/
  | background (k : Nat) (contents : Persister)

/-- What is recorded of a run, in order. -/
inductive SaveEvent where
  | save (r : Option Nat) (k : Nat) (contents : Persister)
  | copy (src dst : Nat) (contents : Persister)
  deriving DecidableEq

namespace Cluster

variable {n : Nat}

def init (sg : ServerGrp n) : Cluster n :=
  { grp := sg, phases := Vector.replicate n .down, reqs := [] }

/-- `Save` of instance `k`. -/
def saveBy (c : Cluster n) (k : Nat) (contents : Persister) : Option (Cluster n) :=
  (c.grp.instances[k]?).map fun inst =>
    { c with grp :=
      { c.grp with persisters := c.grp.persisters.set inst.persister contents } }

/-- The instance whose handler runs for request `r`. -/
def runningOn (c : Cluster n) (r : Nat) : Option Nat :=
  match c.reqs[r]? with
  | some ⟨_, _, .running server⟩ => some server
  | _ => none

def step (c : Cluster n) : ClusterStep n → Option (Cluster n)
  | .net op => (c.grp.net.perform op).map fun net => { c with grp := { c.grp with net } }
  | .live i step =>
      (c.grp.live i c.phases[i] step).map fun (grp, phase) =>
        { c with grp, phases := c.phases.set i phase i.isLt }
  | .call endname => some { c with reqs := c.reqs ++ [⟨endname, .sent, .idle⟩] }
  | .req r step =>
      (c.reqs[r]?).bind fun q =>
        (q.next c.grp.net step).map fun q' => { c with reqs := c.reqs.set r q' }
  | .save r contents => (c.runningOn r).bind (c.saveBy · contents)
  | .background k contents => c.saveBy k contents

/-- The copies and saves of a step. -/
def note (c : Cluster n) : ClusterStep n → List SaveEvent
  | .live i (.start _) | .live i .shutdown =>
      match c.grp.saved i with
      | some p => [.copy p c.grp.persisters.length (c.grp.copy (some p))]
      | none => []
  | .save r contents => (c.runningOn r).toList.map (.save (some r) · contents)
  | .background k contents => [.save none k contents]
  | _ => []

/-- What instance `k` reads from its persister. -/
def read (c : Cluster n) (k : Nat) : Option Persister :=
  (c.grp.instances[k]?).bind (c.grp.persisters[·.persister]?)

/-- What the tester keeps for server `i`. -/
def kept (c : Cluster n) (i : Fin n) : Option Persister :=
  (c.grp.saved i).bind (c.grp.persisters[·]?)

end Cluster

end GoLabs.Tester
