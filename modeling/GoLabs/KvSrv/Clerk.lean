import GoLabs.Reasoning.Runs
import GoLabs.KvSrv.Server

/-!
# Clerks over a lossy network

`Clerk.Get` and `Clerk.Put` (`kvsrv1/client.go`) send an RPC attempt and resend it until a `Call`
returns true.  `Net` holds the server, every attempt ever sent and every Clerk call ever made.  An
attempt is executed by the server at most once, at any time after it was sent, or never; a `Call`
may return false at any time, and returns true only with the reply of its own attempt.  That is
the network of `labrpc` with late handlers; `withinCall` keeps the runs in which a handler runs
between the start and the return of its `Call`.

A Clerk has no mutable state, so a call is identified by its index and the Clerk is a label of it.
-/

open GoLabs.Reasoning

namespace GoLabs.KvSrv

/-- What a Clerk call returns. -/
inductive Result where
  | get (value : GoString) (version : Tversion) (err : Err)
  | put (err : Err)
  deriving DecidableEq, Repr

/-- The tail of `Clerk.Get`, after a `Call` returned true. -/
def clerkGet (reply : GetReply) : Result :=
  if reply.err ≠ .ok then .get [] 0 reply.err else .get reply.value reply.version .ok

/-- The tail of `Clerk.Put`, after a `Call` returned true. -/
def clerkPut (retried : Bool) (reply : PutReply) : Result :=
  -- an earlier attempt of the same call may have moved the version on
  if reply.err = .errVersion ∧ retried then .put .errMaybe else .put reply.err

def clerkReturn (retried : Bool) : Reply → Result
  | .get reply => clerkGet reply
  | .put reply => clerkPut retried reply

/-- Where a Clerk call stands: in `Call`, in `time.Sleep` before a resend, or returned with the
reply of an attempt. -/
inductive ClerkPc where
  | calling (attempt : Nat)
  | sleeping
  | returned (attempt : Nat) (result : Result)
  deriving DecidableEq, Repr

structure ClerkCall where
  clerk : Nat
  req : Request
  retried : Bool
  pc : ClerkPc
  deriving DecidableEq, Repr

/-- One RPC attempt of a Clerk call, with the server's reply once the handler has run. -/
structure Attempt where
  call : Nat
  req : Request
  reply : Option Reply
  deriving DecidableEq, Repr

inductive Event where
  | invoke (call : Nat) (req : Request)
  | exec (call attempt : Nat) (req : Request) (reply : Reply)
  | ret (call attempt : Nat) (req : Request) (result : Result)
  deriving DecidableEq, Repr

/-- `history` is not read by any step: it records what happened, in order. -/
structure Net where
  server : KVServer
  attempts : List Attempt
  calls : List ClerkCall
  history : List Event

def Net.init : Net := { server := makeKVServer, attempts := [], calls := [], history := [] }

inductive Action where
  | invoke (clerk : Nat) (req : Request)
  | exec (attempt : Nat)
  | lose (call : Nat)
  | resend (call : Nat)
  | deliver (call : Nat)
  deriving DecidableEq, Repr

namespace Net

/-- A Clerk method is called and sends its first attempt. -/
def invoke (s : Net) (clerk : Nat) (req : Request) : Net :=
  { s with
    attempts := s.attempts ++ [⟨s.calls.length, req, none⟩]
    calls := s.calls ++ [⟨clerk, req, false, .calling s.attempts.length⟩]
    history := s.history ++ [.invoke s.calls.length req] }

/-- The server runs the handler for attempt `a` of call `n`. -/
def exec (s : Net) (a n : Nat) (req : Request) : Net :=
  { s with
    server := (s.server.dispatch req).1
    attempts := s.attempts.set a ⟨n, req, some (s.server.dispatch req).2⟩
    history := s.history ++ [.exec n a req (s.server.dispatch req).2] }

/-- `Call` returns false. -/
def lose (s : Net) (n : Nat) (c : ClerkCall) : Net :=
  { s with calls := s.calls.set n { c with pc := .sleeping } }

/-- The body of the retry loop: a new attempt, and `retried = true`. -/
def resend (s : Net) (n : Nat) (c : ClerkCall) : Net :=
  { s with
    attempts := s.attempts ++ [⟨n, c.req, none⟩]
    calls := s.calls.set n { c with retried := true, pc := .calling s.attempts.length } }

/-- `Call` returns true with the reply to attempt `a`, and the Clerk method returns. -/
def deliver (s : Net) (n : Nat) (c : ClerkCall) (a : Nat) (reply : Reply) : Net :=
  { s with
    calls := s.calls.set n { c with pc := .returned a (clerkReturn c.retried reply) }
    history := s.history ++ [.ret n a c.req (clerkReturn c.retried reply)] }

def step (s : Net) : Action → Option Net
  | .invoke clerk req => some (s.invoke clerk req)
  | .exec a =>
      match s.attempts[a]? with
      | some ⟨n, req, none⟩ => some (s.exec a n req)
      | _ => none
  | .lose n =>
      match s.calls[n]? with
      | some ⟨clerk, req, retried, .calling a⟩ => some (s.lose n ⟨clerk, req, retried, .calling a⟩)
      | _ => none
  | .resend n =>
      match s.calls[n]? with
      | some ⟨clerk, req, retried, .sleeping⟩ => some (s.resend n ⟨clerk, req, retried, .sleeping⟩)
      | _ => none
  | .deliver n =>
      match s.calls[n]? with
      | some ⟨clerk, req, retried, .calling a⟩ =>
          match s.attempts[a]? with
          -- a reply to an earlier attempt of the call is not waited for any more
          | some ⟨_, _, some reply⟩ => some (s.deliver n ⟨clerk, req, retried, .calling a⟩ a reply)
          | _ => none
      | _ => none

/-- A handler may only run while the `Call` that sent its attempt is waiting. -/
def withinCall (s : Net) : Action → Bool
  | .exec a => s.calls.any fun c => c.pc = .calling a
  | _ => true

/-- What each action needs and does. -/
inductive Step (s : Net) : Action → Net → Prop where
  | invoke (clerk : Nat) (req : Request) : Step s (.invoke clerk req) (s.invoke clerk req)
  | exec {a n : Nat} {req : Request} (hat : s.attempts[a]? = some ⟨n, req, none⟩) :
      Step s (.exec a) (s.exec a n req)
  | lose {n a : Nat} {c : ClerkCall} (hc : s.calls[n]? = some c) (hpc : c.pc = .calling a) :
      Step s (.lose n) (s.lose n c)
  | resend {n : Nat} {c : ClerkCall} (hc : s.calls[n]? = some c) (hpc : c.pc = .sleeping) :
      Step s (.resend n) (s.resend n c)
  | deliver {n a m : Nat} {c : ClerkCall} {req : Request} {reply : Reply}
      (hc : s.calls[n]? = some c) (hpc : c.pc = .calling a)
      (hat : s.attempts[a]? = some ⟨m, req, some reply⟩) :
      Step s (.deliver n) (s.deliver n c a reply)

theorem step_iff {s t : Net} {act : Action} : s.step act = some t ↔ Step s act t := by
  constructor
  · intro h
    cases act with
    | invoke clerk req =>
        simp only [step, Option.some.injEq] at h
        exact h ▸ .invoke clerk req
    | exec a =>
        simp only [step] at h
        split at h
        · rename_i n req hat
          simp only [Option.some.injEq] at h
          exact h ▸ .exec hat
        · exact absurd h (by simp)
    | lose n =>
        simp only [step] at h
        split at h
        · rename_i clerk req retried a hc
          simp only [Option.some.injEq] at h
          exact h ▸ .lose hc rfl
        · exact absurd h (by simp)
    | resend n =>
        simp only [step] at h
        split at h
        · rename_i clerk req retried hc
          simp only [Option.some.injEq] at h
          exact h ▸ .resend hc rfl
        · exact absurd h (by simp)
    | deliver n =>
        simp only [step] at h
        split at h
        · rename_i clerk req retried a hc
          split at h
          · rename_i m req' reply hat
            simp only [Option.some.injEq] at h
            exact h ▸ .deliver hc rfl hat
          · exact absurd h (by simp)
        · exact absurd h (by simp)
  · intro h
    cases h with
    | invoke clerk req => rfl
    | exec hat => simp only [step, hat]
    | @lose n a c hc hpc =>
        rcases c with ⟨clerk, req, retried, pc⟩
        change pc = _ at hpc
        subst hpc
        simp only [step, hc]
    | @resend n c hc hpc =>
        rcases c with ⟨clerk, req, retried, pc⟩
        change pc = _ at hpc
        subst hpc
        simp only [step, hc]
    | @deliver n a m c req reply hc hpc hat =>
        rcases c with ⟨clerk, req', retried, pc⟩
        change pc = _ at hpc
        subst hpc
        simp only [step, hc, hat]

end Net

end GoLabs.KvSrv
