import Mathlib.Algebra.Group.Nat.Defs
import GoLabs.Reasoning.GoString

/-! The RPC vocabulary of the key/value service (`kvsrv1/rpc/rpc.go`). -/

open GoLabs.Reasoning

namespace GoLabs.KvSrv

inductive Err where
  | ok
  | errNoKey
  | errVersion
  /-- Returned by the Clerk only. -/
  | errMaybe
  | errWrongLeader
  | errWrongGroup
  deriving DecidableEq, Repr

/-- `type Tversion uint64`: the arithmetic wraps at `2 ^ 64`. -/
abbrev Tversion := UInt64

structure PutArgs where
  key : GoString
  value : GoString
  version : Tversion
  deriving DecidableEq, Repr

structure PutReply where
  err : Err
  deriving DecidableEq, Repr

structure GetArgs where
  key : GoString
  deriving DecidableEq, Repr

structure GetReply where
  value : GoString
  version : Tversion
  err : Err
  deriving DecidableEq, Repr

/-- A request as the server's dispatcher sees it: the method and its decoded arguments. -/
inductive Request where
  | get (args : GetArgs)
  | put (args : PutArgs)
  deriving DecidableEq, Repr

inductive Reply where
  | get (reply : GetReply)
  | put (reply : PutReply)
  deriving DecidableEq, Repr

def Request.key : Request → GoString
  | .get args => args.key
  | .put args => args.key

end GoLabs.KvSrv
