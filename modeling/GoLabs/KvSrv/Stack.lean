import GoLabs.KvSrv.Clerk
import GoLabs.LabRpc
import GoLabs.Tester.Clnts

/-!
# The key/value service over labrpc

The Clerks of `kvsrv1/client.go`, the `Clnt`s they call through, the ends and the goroutines of the
simulated network, and the one server of `MakeTestKV`, with everything that happens to a request
between `Clerk.Get` or `Clerk.Put` and the handler.  The goroutines of the network take their steps
in any order, and the tester may enable and disable ends, make the network unreliable, delete the
server and destroy the network at any time.  labgob is left out: an argument arrives as it was sent.
-/

open GoLabs.Reasoning
open GoLabs.LabRpc (Method Server makeService makeServer)
open GoLabs.Tester

namespace GoLabs.KvSrv

/-! ## The server -/

/-- The methods of `*KVServer`. -/
def kvMethods : List Method :=
  [⟨lit "Get", [], 3, true, 0⟩, ⟨lit "Kill", [], 1, false, 0⟩, ⟨lit "Put", [], 3, true, 0⟩]

/-- The server that `StartServer` makes of the services of `StartKVServer`. -/
def kvLabServer : Server := makeServer.addService (makeService (lit "KVServer") kvMethods)

/-- The name by which a Clerk calls the method. -/
def Request.svcMeth : Request → GoString
  | .get _ => lit "KVServer.Get"
  | .put _ => lit "KVServer.Put"

/-- `Service.dispatch` calls the method that it has found; `none` is a panic of `reflect`. -/
def callMethod (kv : KVServer) (method : Method) : Request → Option (KVServer × Reply)
  | .get args => if method.name = lit "Get" then some (kv, .get (kv.get args)) else none
  | .put args =>
      if method.name = lit "Put" then some ((kv.put args).1, .put (kv.put args).2) else none

/-- `Server.dispatch` and `Service.dispatch`. -/
def handle (kv : KVServer) (svcMeth : GoString) (args : Request) : Option (KVServer × Reply) :=
  (kvLabServer.dispatch svcMeth).bind fun found => callMethod kv found.2 args

/-- The handlers are found under the names that the Clerks use. -/
theorem handle_svcMeth (kv : KVServer) (req : Request) :
    handle kv req.svcMeth req = some (kv.dispatch req) := by
  cases req with
  | get args =>
      have hfound : kvLabServer.dispatch (lit "KVServer.Get") = some
          (makeService (lit "KVServer") kvMethods, ⟨lit "Get", [], 3, true, 0⟩) := by rfl
      rw [handle, Request.svcMeth, hfound]
      rfl
  | put args =>
      have hfound : kvLabServer.dispatch (lit "KVServer.Put") = some
          (makeService (lit "KVServer") kvMethods, ⟨lit "Put", [], 3, true, 0⟩) := by rfl
      rw [handle, Request.svcMeth, hfound]
      rfl

/-! ## The stack -/

structure Clerk where
  clnt : Nat
  server : GoString

/-- A `reqMsg`, the goroutines that work on it, and the reply of its handler. -/
structure RpcReq where
  req : Req
  call : Nat
  svcMeth : GoString
  args : Request
  reply : Option Reply

/-- What a Clerk knows of a request: whose it is, and whether its handler has run. -/
def RpcReq.attempt (q : RpcReq) : Attempt := ⟨q.call, q.args, q.reply⟩

/-- `history` is not read by any step. -/
structure Stack where
  net : Network
  destroyed : Bool
  clnts : List Clnt
  clerks : List Clerk
  kv : KVServer
  reqs : List RpcReq
  calls : List ClerkCall
  history : List Event

inductive StackAction where
  | perform (op : NetOp)
  | deleteServer (servername : GoString)
  | cleanup
  | makeClientTo (srvs : Option (List GoString))
  | connectAll (i : Nat) (it : Iteration GoString)
  | disconnectAll (i : Nat) (it : Iteration GoString)
  | makeClerk (clnt : Nat) (server : GoString)
  /-- `name` is the random name of the end, if the call needs a new one. -/
  | invoke (clerk : Nat) (req : Request) (name : EndName)
  | resend (call : Nat) (name : EndName)
  /-- `Call` finds the network destroyed. -/
  | refuse (r : Nat)
  | req (r : Nat) (step : ReqStep)

namespace Stack

/-- `MakeConfig` has started the server; what else it has done to the network is left open. -/
def init (net : Network) : Stack where
  net
  destroyed := false
  clnts := []
  clerks := []
  kv := makeKVServer
  reqs := []
  calls := []
  history := []

/-- `Clnt.Call` of clerk `k`, up to the sending of the request for call `n`. -/
def send (s : Stack) (k n : Nat) (req : Request) (name : EndName) : Option Stack := do
  let ck ← s.clerks[k]?
  let clnt ← s.clnts[ck.clnt]?
  let (clnt', net, e) ← clnt.makeEnd s.net ck.server name
  pure { s with
    net
    clnts := s.clnts.set ck.clnt clnt'
    reqs := s.reqs ++ [⟨⟨e, .sent, .idle⟩, n, req.svcMeth, req, none⟩] }

/-- `Call` returns false for request `r`. -/
def fail (s : Stack) (r : Nat) (q : RpcReq) (q' : Req) : Option Stack :=
  (s.calls[q.call]?).map fun c =>
    { s with
      reqs := s.reqs.set r { q with req := q' }
      calls := s.calls.set q.call { c with pc := .sleeping } }

/-- `Call` returns true for request `r`, and the Clerk method returns. -/
def succeed (s : Stack) (r : Nat) (q : RpcReq) (q' : Req) : Option Stack :=
  (s.calls[q.call]?).bind fun c =>
    q.reply.map fun reply =>
      { s with
        reqs := s.reqs.set r { q with req := q' }
        calls := s.calls.set q.call { c with pc := .returned r (clerkReturn c.retried reply) }
        history := s.history ++ [.ret q.call r c.req (clerkReturn c.retried reply)] }

/-- A step of `processReq` or of the goroutine that runs the handler. -/
def process (s : Stack) (r : Nat) (q : RpcReq) (q' : Req) : ReqStep → Option Stack
  | .handlerReturn =>
      (handle s.kv q.svcMeth q.args).map fun (kv, reply) =>
        { s with
          kv
          reqs := s.reqs.set r { q with req := q', reply := some reply }
          history := s.history ++ [.exec q.call r q.args reply] }
  | .deliver => if q'.pc = .returned true then s.succeed r q q' else s.fail r q q'
  | _ => some { s with reqs := s.reqs.set r { q with req := q' } }

def step (s : Stack) : StackAction → Option Stack
  | .perform op => (s.net.perform op).map fun net => { s with net }
  | .deleteServer servername => some { s with net := s.net.deleteServer servername }
  | .cleanup => some { s with destroyed := true }
  | .makeClientTo srvs => some { s with clnts := s.clnts ++ [makeClntTo srvs] }
  | .connectAll i it =>
      (s.clnts[i]?).map fun clnt =>
        { s with
          clnts := s.clnts.set i (clnt.connectAll it s.net).1
          net := (clnt.connectAll it s.net).2 }
  | .disconnectAll i it =>
      (s.clnts[i]?).map fun clnt =>
        { s with
          clnts := s.clnts.set i (clnt.disconnectAll it s.net).1
          net := (clnt.disconnectAll it s.net).2 }
  | .makeClerk clnt server => some { s with clerks := s.clerks ++ [⟨clnt, server⟩] }
  | .invoke k req name =>
      (s.send k s.calls.length req name).map fun t =>
        { t with
          calls := s.calls ++ [⟨k, req, false, .calling s.reqs.length⟩]
          history := s.history ++ [.invoke s.calls.length req] }
  | .resend n name =>
      match s.calls[n]? with
      | some ⟨k, req, _, .sleeping⟩ =>
          (s.send k n req name).map fun t =>
            { t with calls := s.calls.set n ⟨k, req, true, .calling s.reqs.length⟩ }
      | _ => none
  | .refuse r =>
      (s.reqs[r]?).bind fun q =>
        if s.destroyed = true ∧ q.req.pc = .sent then
          s.fail r q { q.req with pc := .returned false }
        else none
  | .req r step =>
      (s.reqs[r]?).bind fun q => (q.req.next s.net step).bind fun q' => s.process r q q' step

/-! ## The view of the Clerks -/

/-- The network as a Clerk sees it. -/
def abs (s : Stack) : Net where
  server := s.kv
  attempts := s.reqs.map RpcReq.attempt
  calls := s.calls
  history := s.history

end Stack

end GoLabs.KvSrv
