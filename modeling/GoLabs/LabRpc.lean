import GoLabs.Reasoning.GoMap
import GoLabs.Reasoning.Strings

/-!
# Services and dispatch

`MakeService` picks the methods of a receiver that look like handlers, and a `labrpc.Server` finds
the handler of a request by the text before and after the last dot of `svcMeth`.  The counters of
the server are left out.
-/

open GoLabs.Reasoning

namespace GoLabs.LabRpc

/-- What `reflect` says of a method.  The receiver is the first of the `numIn` arguments; `ptrReply`
is asked for only when there are three. -/
structure Method where
  name : GoString
  pkgPath : GoString
  numIn : Nat
  ptrReply : Bool
  numOut : Nat
  deriving DecidableEq

structure Service where
  name : GoString
  methods : GoMap GoString Method

def makeService (name : GoString) (methods : List Method) : Service where
  name
  methods := methods.foldl
    (fun ms m =>
      if m.pkgPath ≠ [] || m.numIn ≠ 3 || !m.ptrReply || m.numOut ≠ 0 then ms
      else ms.insert m.name m) ∅

structure Server where
  services : GoMap GoString Service

def makeServer : Server := ⟨∅⟩

def Server.addService (rs : Server) (svc : Service) : Server :=
  { rs with services := rs.services.insert svc.name svc }

/-- `strings.LastIndex` for a string of one byte; `none` is -1. -/
def lastIndex (s : GoString) (b : UInt8) : Option Nat :=
  (s.reverse.findIdx? (· = b)).map fun i => s.length - 1 - i

/-- The handler of a request.  `none` is the panic of `svcMeth[:dot]` without a dot, and the two
`log.Fatalf`s for an unknown service and an unknown method. -/
def Server.dispatch (rs : Server) (svcMeth : GoString) : Option (Service × Method) := do
  let dot ← lastIndex svcMeth 46
  let service ← rs.services.lookup (svcMeth.take dot)
  let method ← service.methods.lookup (svcMeth.drop (dot + 1))
  pure (service, method)

end GoLabs.LabRpc
