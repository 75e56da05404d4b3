import GoLabs.KvSrv.Linearizable
import GoLabs.KvSrv.Porcupine
import GoLabs.KvSrv.StackReliable

/-!
# The recorded operations and the linearizability check

`Get` and `Put` of `kvtest1/porcupine.go` read the clock, call the Clerk, read the clock again and
append what they saw to the log; `checkPorcupine` hands the log to the checker.  The clock is read
outside the Clerk call, so the recorded interval contains it, and an operation that is recorded to
end before another one began did so.
-/

open GoLabs.KvSrv GoLabs.LabRpc GoLabs.Tester GoLabs.Reasoning

namespace GoLabs.KvTest

/-- Where a goroutine stands in `Get` or `Put`. -/
inductive RecorderPc where
  | idle
  /-- `start` has been read. -/
  | started (req : Request) (start : Int)
  /-- In the Clerk. -/
  | calling (call : Nat) (start : Int)
  /-- `end` has been read, and the operation is not in the log yet. -/
  | ended (call : Nat) (op : Operation)

/-- The Clerk call that a goroutine has in hand. -/
def RecorderPc.holds : RecorderPc → Option Nat
  | .calling n _ | .ended n _ => some n
  | .idle | .started _ _ => none

structure Recorder where
  clerk : Nat
  cli : Int
  pc : RecorderPc

/-- `spans` and `logged` are not read by any step: for every Clerk call the start that was read and
the operation that was made of it, and the calls of the operations in the log. -/
structure Recording where
  stack : Stack
  recorders : List Recorder
  now : Int
  oplog : List Operation
  spans : List (Int × Option Operation)
  logged : List Nat

inductive RecordAction where
  /-- The clock is monotonic. -/
  | tick (d : Nat)
  /-- A step of the network, the server or the tester. -/
  | stack (act : StackAction)
  | spawn (clerk : Nat) (cli : Int)
  | start (i : Nat) (req : Request)
  | call (i : Nat) (name : EndName)
  | finish (i : Nat)
  | append (i : Nat)

/-- Whether a Clerk method is called. -/
def invokes : StackAction → Bool
  | .invoke _ _ _ => true
  | _ => false

namespace Recording

def init (net : Network) : Recording where
  stack := Stack.init net
  recorders := []
  now := 0
  oplog := []
  spans := []
  logged := []

def step (s : Recording) : RecordAction → Option Recording
  | .tick d => some { s with now := s.now + d }
  | .stack act =>
      -- the tests call the Clerks through `Get` and `Put` only
      if invokes act then none else (s.stack.step act).map fun stack => { s with stack }
  | .spawn clerk cli => some { s with recorders := s.recorders ++ [⟨clerk, cli, .idle⟩] }
  | .start i req =>
      match s.recorders[i]? with
      | some ⟨clerk, cli, .idle⟩ =>
          some { s with recorders := s.recorders.set i ⟨clerk, cli, .started req s.now⟩ }
      | _ => none
  | .call i name =>
      match s.recorders[i]? with
      | some ⟨clerk, cli, .started req start⟩ =>
          (s.stack.step (.invoke clerk req name)).map fun stack =>
            { s with
              stack
              recorders := s.recorders.set i ⟨clerk, cli, .calling s.stack.calls.length start⟩
              spans := s.spans ++ [(start, none)] }
      | _ => none
  | .finish i =>
      match s.recorders[i]? with
      | some ⟨clerk, cli, .calling n start⟩ =>
          match s.stack.calls[n]? with
          | some ⟨_, req, _, .returned _ res⟩ =>
              let op : Operation := ⟨cli, kvInput req, start, kvOutput res, s.now⟩
              some { s with
                recorders := s.recorders.set i ⟨clerk, cli, .ended n op⟩
                spans := s.spans.set n (start, some op) }
          | _ => none
      | _ => none
  | .append i =>
      match s.recorders[i]? with
      | some ⟨clerk, cli, .ended n op⟩ =>
          some { s with
            recorders := s.recorders.set i ⟨clerk, cli, .idle⟩
            oplog := s.oplog ++ [op]
            logged := s.logged ++ [n] }
      | _ => none

/-- No end is disabled or deleted, and neither is the server. -/
def steady (s : Recording) : RecordAction → Bool
  | .stack act => s.stack.steady act
  | _ => true

/-! ## What a step does -/

variable {s t : Recording} {act : RecordAction} {net : Network}

inductive Step (s : Recording) : RecordAction → Recording → Prop where
  | tick (d : Nat) : Step s (.tick d) { s with now := s.now + d }
  | stack {act : StackAction} {stack : Stack} (hquiet : invokes act = false)
      (hs : s.stack.step act = some stack) : Step s (.stack act) { s with stack }
  | spawn (clerk : Nat) (cli : Int) :
      Step s (.spawn clerk cli) { s with recorders := s.recorders ++ [⟨clerk, cli, .idle⟩] }
  | start {i : Nat} {req : Request} {r : Recorder} (hr : s.recorders[i]? = some r)
      (hpc : r.pc = .idle) :
      Step s (.start i req)
        { s with recorders := s.recorders.set i { r with pc := .started req s.now } }
  | call {i : Nat} {name : EndName} {r : Recorder} {req : Request} {start : Int} {stack : Stack}
      (hr : s.recorders[i]? = some r) (hpc : r.pc = .started req start)
      (hs : s.stack.step (.invoke r.clerk req name) = some stack) :
      Step s (.call i name) { s with
        stack
        recorders := s.recorders.set i { r with pc := .calling s.stack.calls.length start }
        spans := s.spans ++ [(start, none)] }
  | finish {i n a : Nat} {r : Recorder} {c : ClerkCall} {start : Int} {res : Result}
      {op : Operation} (hr : s.recorders[i]? = some r) (hpc : r.pc = .calling n start)
      (hc : s.stack.calls[n]? = some c) (hres : c.pc = .returned a res)
      (hop : op = ⟨r.cli, kvInput c.req, start, kvOutput res, s.now⟩) :
      Step s (.finish i) { s with
        recorders := s.recorders.set i { r with pc := .ended n op }
        spans := s.spans.set n (start, some op) }
  | append {i n : Nat} {r : Recorder} {op : Operation} (hr : s.recorders[i]? = some r)
      (hpc : r.pc = .ended n op) :
      Step s (.append i) { s with
        recorders := s.recorders.set i { r with pc := .idle }
        oplog := s.oplog ++ [op]
        logged := s.logged ++ [n] }

theorem step_cases (h : s.step act = some t) : Step s act t := by
  cases act with
  | tick d =>
      cases h
      exact .tick d
  | stack act =>
      simp only [step, Option.ite_none_left_eq_some, Bool.not_eq_true] at h
      obtain ⟨hquiet, h⟩ := h
      obtain ⟨stack, hs, rfl⟩ := Option.map_eq_some_iff.mp h
      exact .stack hquiet hs
  | spawn clerk cli =>
      cases h
      exact .spawn clerk cli
  | start i req =>
      simp only [step] at h
      split at h
      · rename_i hr
        cases h
        exact .start hr rfl
      · cases h
  | call i name =>
      simp only [step] at h
      split at h
      · rename_i hr
        obtain ⟨stack, hs, rfl⟩ := Option.map_eq_some_iff.mp h
        exact .call hr rfl hs
      · cases h
  | finish i =>
      simp only [step] at h
      split at h
      · rename_i hr
        split at h
        · rename_i hc
          cases h
          exact .finish hr rfl hc rfl rfl
        · cases h
      · cases h
  | append i =>
      simp only [step] at h
      split at h
      · rename_i hr
        cases h
        exact .append hr rfl
      · cases h

/-! ## The log and the history -/

/-- The operation that call `n` was recorded as. -/
def record (s : Recording) (n : Nat) : Option Operation := (s.spans[n]?).bind Prod.snd

/-- What a goroutine knows is what was noted of its call. -/
def Knows (s : Recording) : RecorderPc → Prop
  | .idle => True
  | .started _ start => start ≤ s.now
  | .calling n start => s.spans[n]? = some (start, none)
  | .ended n op => s.spans[n]? = some (op.call, some op)

structure Inv (s : Recording) : Prop where
  length : s.spans.length = s.stack.calls.length
  held : ∀ n < s.spans.length, n ∈ s.logged ∨
    ∃ (i : Nat) (r : Recorder), s.recorders[i]? = some r ∧ r.pc.holds = some n
  apart : ∀ (i j n : Nat) (r r' : Recorder), s.recorders[i]? = some r →
    s.recorders[j]? = some r' → r.pc.holds = some n → r'.pc.holds = some n → i = j
  unlogged : ∀ r ∈ s.recorders, ∀ n, r.pc.holds = some n → n ∉ s.logged
  nodup : s.logged.Nodup
  below : ∀ n ∈ s.logged, n < s.spans.length
  knows : ∀ r ∈ s.recorders, s.Knows r.pc
  clock : ∀ p ∈ s.spans, p.1 ≤ s.now
  log : s.oplog.map some = s.logged.map s.record
  made : ∀ (n : Nat) (start : Int) (op : Operation), s.spans[n]? = some (start, some op) →
    op.call = start ∧ ∃ a req res, .ret n a req res ∈ s.stack.history ∧
      op.input = kvInput req ∧ op.output = kvOutput res
  order : ∀ (n m : Nat) (x : Int) (op : Operation) (y : Int × Option Operation),
    s.spans[n]? = some (x, some op) → s.spans[m]? = some y → op.ret < y.1 →
    (clerkHistory s.stack.history).before n m

theorem Inv.init : Inv (Recording.init net) := by
  constructor <;> simp [Recording.init, Stack.init]

theorem Inv.lt_of_holds (h : Inv s) {r : Recorder} {n : Nat} (hr : r ∈ s.recorders)
    (hn : r.pc.holds = some n) : n < s.spans.length := by
  have hknows := h.knows r hr
  cases hpc : r.pc with
  | idle | started =>
      rw [hpc] at hn
      cases hn
  | calling m start =>
      rw [hpc] at hn hknows
      cases hn
      exact lt_length_of_getElem? hknows
  | ended m op =>
      rw [hpc] at hn hknows
      cases hn
      exact lt_length_of_getElem? hknows

theorem before_append {h : List Event} {n m : Nat} (hb : (clerkHistory h).before n m)
    (es : List Event) : (clerkHistory (h ++ es)).before n m := by
  obtain ⟨a, req, res, req', hp⟩ := hb
  exact ⟨a, req, res, req', hp.append es⟩

/-- The stack makes a step that calls no Clerk. -/
theorem Inv.stack (h : Inv s) {stack : Stack} {es : List Event}
    (hlen : stack.calls.length = s.stack.calls.length)
    (hhistory : stack.history = s.stack.history ++ es) : Inv { s with stack } := by
  refine ⟨h.length.trans hlen.symm, h.held, h.apart, h.unlogged, h.nodup, h.below, h.knows, h.clock,
    h.log, ?_, ?_⟩
  · intro n start op hn
    obtain ⟨hcall, a, req, res, hret, hio⟩ := h.made n start op hn
    exact ⟨hcall, a, req, res, hhistory ▸ List.mem_append_left es hret, hio⟩
  · intro n m x op y hn hm hlt
    exact hhistory ▸ before_append (h.order n m x op y hn hm hlt) es

/-- A goroutine that goes on with the call it has in hand. -/
theorem holds_set {rs : List Recorder} {i : Nat} {r : Recorder} {pc : RecorderPc}
    (hr : rs[i]? = some r) (hholds : pc.holds = r.pc.holds) (j n : Nat) :
    (∃ r', (rs.set i { r with pc })[j]? = some r' ∧ r'.pc.holds = some n) ↔
      ∃ r', rs[j]? = some r' ∧ r'.pc.holds = some n := by
  by_cases hji : j = i
  · subst hji
    rw [List.getElem?_set_self (lt_length_of_getElem? hr), hr]
    simp [hholds]
  · rw [List.getElem?_set_ne (Ne.symm hji)]

/-- Whose hands the calls are in does not change with it. -/
theorem Inv.hands (h : Inv s) {i : Nat} {r : Recorder} {pc : RecorderPc}
    (hr : s.recorders[i]? = some r) (hholds : pc.holds = r.pc.holds) :
    let rs := s.recorders.set i { r with pc }
    (∀ n < s.spans.length, n ∈ s.logged ∨
      ∃ (j : Nat) (r' : Recorder), rs[j]? = some r' ∧ r'.pc.holds = some n) ∧
    (∀ (j k n : Nat) (r' r'' : Recorder), rs[j]? = some r' → rs[k]? = some r'' →
      r'.pc.holds = some n → r''.pc.holds = some n → j = k) ∧
    ∀ r' ∈ rs, ∀ n, r'.pc.holds = some n → n ∉ s.logged := by
  refine ⟨?_, ?_, ?_⟩
  · intro n hn
    refine (h.held n hn).imp_right ?_
    rintro ⟨j, hj⟩
    exact ⟨j, (holds_set hr hholds j n).mpr hj⟩
  · intro j k n r' r'' hj hk hr' hr''
    obtain ⟨a, ha, hna⟩ := (holds_set hr hholds j n).mp ⟨r', hj, hr'⟩
    obtain ⟨b, hb, hnb⟩ := (holds_set hr hholds k n).mp ⟨r'', hk, hr''⟩
    exact h.apart j k n a b ha hb hna hnb
  · intro r' hmem n hn
    obtain ⟨j, hj⟩ := List.mem_iff_getElem?.mp hmem
    obtain ⟨a, ha, hna⟩ := (holds_set hr hholds j n).mp ⟨r', hj, hn⟩
    exact h.unlogged a (List.mem_of_getElem? ha) n hna

/-- A goroutine moves on and keeps its hands off the notes. -/
theorem Inv.move (h : Inv s) {i : Nat} {r : Recorder} {pc : RecorderPc}
    (hr : s.recorders[i]? = some r) (hholds : pc.holds = r.pc.holds) (hknows : s.Knows pc) :
    Inv { s with recorders := s.recorders.set i { r with pc } } := by
  obtain ⟨hheld, hapart, hunlogged⟩ := h.hands hr hholds
  exact ⟨h.length, hheld, hapart, hunlogged, h.nodup, h.below, forall_mem_set h.knows hknows,
    h.clock, h.log, h.made, h.order⟩

/-- What a goroutine that a step leaves alone knows stays true. -/
theorem Knows.keep {pc : RecorderPc} (h : s.Knows pc) (hnow : s.now ≤ t.now)
    (hspans : ∀ n x, pc.holds = some n → s.spans[n]? = some x → t.spans[n]? = some x) :
    t.Knows pc := by
  cases pc with
  | idle => trivial
  | started req start => exact le_trans (show start ≤ s.now from h) hnow
  | calling n start => exact hspans n _ rfl h
  | ended n op => exact hspans n _ rfl h

theorem Inv.call (h : Inv s) {i : Nat} {r : Recorder} {req : Request} {start : Int} {stack : Stack}
    (hr : s.recorders[i]? = some r) (hpc : r.pc = .started req start)
    (hlen : stack.calls.length = s.stack.calls.length + 1)
    (hhistory : stack.history = s.stack.history ++ [.invoke s.stack.calls.length req]) :
    Inv { s with
      stack
      recorders := s.recorders.set i { r with pc := .calling s.stack.calls.length start }
      spans := s.spans ++ [(start, none)] } := by
  have hmem := List.mem_of_getElem? hr
  have hfree : r.pc.holds = none := by rw [hpc]; rfl
  have hstart := h.knows r hmem
  rw [hpc] at hstart
  rw [← h.length] at hlen hhistory ⊢
  -- the others hold calls that were there before
  have hold : ∀ {j n : Nat} {r' : Recorder},
      (s.recorders.set i { r with pc := .calling s.spans.length start })[j]? = some r' →
      r'.pc.holds = some n → j = i ∧ n = s.spans.length ∨
        j ≠ i ∧ s.recorders[j]? = some r' ∧ n < s.spans.length := by
    intro j n r' hj hn
    obtain ⟨rfl, -, rfl⟩ | ⟨hne, hj⟩ := getElem?_set_eq_some.mp hj
    · exact .inl ⟨rfl, (Option.some.inj hn).symm⟩
    · exact .inr ⟨hne, hj, h.lt_of_holds (List.mem_of_getElem? hj) hn⟩
  have hspans : ∀ {n : Nat} {x : Int × Option Operation}, s.spans[n]? = some x →
      (s.spans ++ [(start, none)])[n]? = some x := fun hn ↦ getElem?_append_of_some hn _
  refine ⟨by simp [hlen], ?_, ?_, ?_, h.nodup, ?_, ?_, ?_, ?_, ?_, ?_⟩
  · intro n hn
    rw [List.length_append, List.length_singleton] at hn
    by_cases hnew : n = s.spans.length
    · exact .inr ⟨i, _, List.getElem?_set_self (lt_length_of_getElem? hr), by rw [hnew]; rfl⟩
    · refine (h.held n (by omega)).imp_right ?_
      rintro ⟨j, r', hj, hr'⟩
      refine ⟨j, r', getElem?_set_eq_some.mpr (.inr ⟨?_, hj⟩), hr'⟩
      rintro rfl
      rw [hr, Option.some.injEq] at hj
      rw [← hj, hfree] at hr'
      cases hr'
  · intro j k n r' r'' hj hk hr' hr''
    obtain ⟨rfl, hn⟩ | ⟨hne, hj, hn⟩ := hold hj hr' <;>
      obtain ⟨rfl, hn'⟩ | ⟨hne', hk, hn'⟩ := hold hk hr''
    · rfl
    · omega
    · omega
    · exact h.apart j k n r' r'' hj hk hr' hr''
  · intro r' hr' n hn hlogged
    obtain ⟨j, hj⟩ := List.mem_iff_getElem?.mp hr'
    obtain ⟨-, rfl⟩ | ⟨-, hj, -⟩ := hold hj hn
    · exact absurd (h.below _ hlogged) (lt_irrefl _)
    · exact h.unlogged r' (List.mem_of_getElem? hj) n hn hlogged
  · intro n hn
    rw [List.length_append]
    exact Nat.lt_add_right _ (h.below n hn)
  · refine forall_mem_set (fun r' hr' ↦ (h.knows r' hr').keep le_rfl fun n x _ hx ↦ hspans hx) ?_
    exact getElem?_snoc_eq_some.mpr (.inr ⟨rfl, rfl⟩)
  · exact List.forall_mem_append.mpr ⟨h.clock, List.forall_mem_singleton.mpr hstart⟩
  · rw [h.log]
    apply List.map_congr_left
    intro n hn
    simp only [record, List.getElem?_append_left (h.below n hn)]
  · intro n x op hn
    obtain hn | ⟨-, heq⟩ := getElem?_snoc_eq_some.mp hn
    · obtain ⟨hcall, a, req', res, hret, hio⟩ := h.made n x op hn
      exact ⟨hcall, a, req', res, hhistory ▸ List.mem_append_left _ hret, hio⟩
    · cases heq
  · intro n m x op y hn hm hlt
    obtain hn | ⟨-, heq⟩ := getElem?_snoc_eq_some.mp hn
    · rw [hhistory]
      obtain hm | ⟨rfl, -⟩ := getElem?_snoc_eq_some.mp hm
      · exact before_append (h.order n m x op y hn hm hlt) _
      · -- whatever has returned has done so before the new call
        obtain ⟨-, a, req', res, hret, -⟩ := h.made n x op hn
        exact ⟨a, req', res, req, precedes_snoc hret _⟩
    · cases heq

theorem Inv.finish (h : Inv s) {i n a : Nat} {r : Recorder} {start : Int} {req : Request}
    {res : Result} {op : Operation} (hr : s.recorders[i]? = some r)
    (hpc : r.pc = .calling n start) (hret : .ret n a req res ∈ s.stack.history)
    (hop : op = ⟨r.cli, kvInput req, start, kvOutput res, s.now⟩) :
    Inv { s with
      recorders := s.recorders.set i { r with pc := .ended n op }
      spans := s.spans.set n (start, some op) } := by
  have hmem := List.mem_of_getElem? hr
  have hn : r.pc.holds = some n := by rw [hpc]; rfl
  have hspan : s.spans[n]? = some (start, none) := by
    have hknows := h.knows r hmem
    rwa [hpc] at hknows
  have hlt := lt_length_of_getElem? hspan
  subst hop
  have hholds : (RecorderPc.ended n ⟨r.cli, kvInput req, start, kvOutput res, s.now⟩).holds =
      r.pc.holds := hn.symm
  obtain ⟨hheld, hapart, hunlogged⟩ := h.hands hr hholds
  rw [← List.length_set] at hheld
  refine ⟨by rw [List.length_set]; exact h.length, hheld, hapart, hunlogged, h.nodup, ?_, ?_, ?_,
    ?_, ?_, ?_⟩
  · intro m hm
    rw [List.length_set]
    exact h.below m hm
  · intro r' hr'
    obtain ⟨j, hj⟩ := List.mem_iff_getElem?.mp hr'
    obtain ⟨rfl, -, rfl⟩ | ⟨hne, hother⟩ := getElem?_set_eq_some.mp hj
    · exact List.getElem?_set_self hlt
    · refine (h.knows r' (List.mem_of_getElem? hother)).keep le_rfl ?_
      intro m x hm hx
      refine getElem?_set_eq_some.mpr (.inr ⟨?_, hx⟩)
      rintro rfl
      exact hne (h.apart j i m r' r hother hr hm hn)
  · exact forall_mem_set h.clock (h.clock (start, none) (List.mem_of_getElem? hspan))
  · rw [h.log]
    apply List.map_congr_left
    intro m hm
    have hne : n ≠ m := by
      rintro rfl
      exact h.unlogged r hmem n hn hm
    simp only [record, List.getElem?_set_ne hne]
  · intro m x op hm
    obtain ⟨rfl, -, heq⟩ | ⟨-, hm⟩ := getElem?_set_eq_some.mp hm
    · cases heq
      exact ⟨rfl, a, req, res, hret, rfl, rfl⟩
    · exact h.made m x op hm
  · intro m k x op y hm hk hlt'
    have hk' : ∃ y₀, s.spans[k]? = some y₀ ∧ y₀.1 = y.1 := by
      obtain ⟨rfl, -, rfl⟩ | ⟨-, hk⟩ := getElem?_set_eq_some.mp hk
      · exact ⟨_, hspan, rfl⟩
      · exact ⟨y, hk, rfl⟩
    obtain ⟨y₀, hy₀, hstart⟩ := hk'
    obtain ⟨rfl, -, heq⟩ | ⟨-, hm⟩ := getElem?_set_eq_some.mp hm
    · -- no call was started after now
      cases heq
      have hclock := h.clock y₀ (List.mem_of_getElem? hy₀)
      dsimp only at hlt'
      omega
    · exact h.order m k x op y₀ hm hy₀ (hstart ▸ hlt')

theorem Inv.append (h : Inv s) {i n : Nat} {r : Recorder} {op : Operation}
    (hr : s.recorders[i]? = some r) (hpc : r.pc = .ended n op) :
    Inv { s with
      recorders := s.recorders.set i { r with pc := .idle }
      oplog := s.oplog ++ [op]
      logged := s.logged ++ [n] } := by
  have hmem := List.mem_of_getElem? hr
  have hn : r.pc.holds = some n := by rw [hpc]; rfl
  have hspan : s.spans[n]? = some (op.call, some op) := by
    have hknows := h.knows r hmem
    rwa [hpc] at hknows
  -- whoever still holds a call is another goroutine
  have hold : ∀ {j m : Nat} {r' : Recorder},
      (s.recorders.set i { r with pc := .idle })[j]? = some r' → r'.pc.holds = some m →
      j ≠ i ∧ s.recorders[j]? = some r' := by
    intro j m r' hj hm
    obtain ⟨rfl, -, rfl⟩ | hj := getElem?_set_eq_some.mp hj
    · cases hm
    · exact hj
  refine ⟨h.length, ?_, ?_, ?_, ?_, ?_, forall_mem_set h.knows trivial, h.clock, ?_, h.made,
    h.order⟩
  · intro m hm
    obtain hlogged | ⟨j, r', hj, hr'⟩ := h.held m hm
    · exact .inl (List.mem_append_left _ hlogged)
    · by_cases hji : j = i
      · subst hji
        rw [hr, Option.some.injEq] at hj
        rw [← hj, hn, Option.some.injEq] at hr'
        exact .inl (List.mem_append_right _ (List.mem_singleton.mpr hr'.symm))
      · exact .inr ⟨j, r', getElem?_set_eq_some.mpr (.inr ⟨hji, hj⟩), hr'⟩
  · intro j k m r' r'' hj hk hr' hr''
    exact h.apart j k m r' r'' (hold hj hr').2 (hold hk hr'').2 hr' hr''
  · intro r' hr' m hm hlogged
    obtain ⟨j, hj⟩ := List.mem_iff_getElem?.mp hr'
    obtain ⟨hne, hj⟩ := hold hj hm
    obtain hlogged | hlast := List.mem_append.mp hlogged
    · exact h.unlogged r' (List.mem_of_getElem? hj) m hm hlogged
    · rw [List.mem_singleton.mp hlast] at hm
      exact hne (h.apart j i n r' r hj hr hm hn)
  · exact nodup_snoc h.nodup (h.unlogged r hmem n hn)
  · exact List.forall_mem_append.mpr
      ⟨h.below, List.forall_mem_singleton.mpr (lt_length_of_getElem? hspan)⟩
  · rw [List.map_append, List.map_append, h.log, List.map_singleton, List.map_singleton]
    congr 2
    simp [record, hspan]

/-- A step of the stack that calls no Clerk. -/
theorem quiet_step {s t : Stack} {act : StackAction} (hquiet : invokes act = false)
    (hs : s.step act = some t) :
    t.calls.length = s.calls.length ∧ ∃ es, t.history = s.history ++ es := by
  have hsame : s.history = s.history ++ [] := (List.append_nil _).symm
  cases Stack.step_cases hs with
  | perform | deleteServer | cleanup | makeClientTo | connectAll | disconnectAll | makeClerk |
    goroutine => exact ⟨rfl, [], hsame⟩
  | invoke => cases hquiet
  | resend hc hpc hsend =>
      cases hsend
      exact ⟨List.length_set, [], hsame⟩
  | refuse | fail => exact ⟨List.length_set, [], hsame⟩
  | handlerReturn => exact ⟨rfl, _, rfl⟩
  | succeed => exact ⟨List.length_set, _, rfl⟩

/-- A recorded run over a steady network, down to the network of the Clerks. -/
structure Tracked (net : Network) (s : Recording) : Prop where
  inv : Inv s
  stack : Reaches (restrict Stack.step Stack.steady) (Stack.init net) s.stack
  within : Reaches (restrict Net.step Net.withinCall) Net.init s.stack.abs

theorem Tracked.next (h : Tracked net s) {act : StackAction} {stack : Stack}
    (hsteady : s.stack.steady act = true) (hs : s.stack.step act = some stack) :
    Reaches (restrict Stack.step Stack.steady) (Stack.init net) stack ∧
      Reaches (restrict Net.step Net.withinCall) Net.init stack.abs := by
  refine ⟨h.stack.snoc (restrict_eq_some.mpr ⟨hsteady, hs⟩), ?_⟩
  obtain heq | ⟨act', hact⟩ := Stack.abs_step_within h.stack hs
  · rw [heq]
    exact h.within
  · exact h.within.snoc hact

theorem Tracked.step (h : Tracked net s) (hs : restrict Recording.step steady s act = some t) :
    Tracked net t := by
  obtain ⟨hsteady, hs⟩ := restrict_eq_some.mp hs
  have hi := h.inv
  cases step_cases hs with
  | tick d =>
      have hlater : s.now ≤ s.now + d := by omega
      refine ⟨⟨hi.length, hi.held, hi.apart, hi.unlogged, hi.nodup, hi.below, ?_, ?_, hi.log,
        hi.made, hi.order⟩, h.stack, h.within⟩
      · exact fun r hr ↦ (hi.knows r hr).keep hlater fun _ _ _ hx ↦ hx
      · exact fun p hp ↦ (hi.clock p hp).trans hlater
  | stack hquiet hstack =>
      obtain ⟨hreach, hwithin⟩ := h.next hsteady hstack
      obtain ⟨hlen, es, hes⟩ := quiet_step hquiet hstack
      exact ⟨hi.stack hlen hes, hreach, hwithin⟩
  | spawn clerk cli =>
      refine ⟨⟨hi.length, ?_, ?_, ?_, hi.nodup, hi.below, ?_, hi.clock, hi.log, hi.made, hi.order⟩,
        h.stack, h.within⟩
      · intro n hn
        refine (hi.held n hn).imp_right ?_
        rintro ⟨i, r, hr, hholds⟩
        exact ⟨i, r, getElem?_append_of_some hr _, hholds⟩
      · intro i j n r r' hr hr' hn hn'
        obtain hr | ⟨-, rfl⟩ := getElem?_snoc_eq_some.mp hr
        · obtain hr' | ⟨-, rfl⟩ := getElem?_snoc_eq_some.mp hr'
          · exact hi.apart i j n r r' hr hr' hn hn'
          · cases hn'
        · cases hn
      · have hnew : ∀ n, RecorderPc.holds .idle = some n → n ∉ s.logged := by
          simp [RecorderPc.holds]
        exact List.forall_mem_append.mpr ⟨hi.unlogged, List.forall_mem_singleton.mpr hnew⟩
      · exact List.forall_mem_append.mpr ⟨hi.knows, List.forall_mem_singleton.mpr trivial⟩
  | start hr hpc => exact ⟨hi.move hr (by rw [hpc]; rfl) (le_refl s.now), h.stack, h.within⟩
  | @call i name r req start stack hr hpc hstack =>
      have hguard : s.stack.steady (.invoke r.clerk req name) = true := rfl
      obtain ⟨hreach, hwithin⟩ := h.next hguard hstack
      -- the call gets the next number, and its invocation is the last event
      refine ⟨hi.call hr hpc ?_ ?_, hreach, hwithin⟩
      all_goals cases Stack.step_cases hstack with | invoke hsend => simp
  | finish hr hpc hc hres hop =>
      have hret := ((Stack.net_inv_of_reaches h.stack.of_restrict).ret_iff _ _ _ _).mpr
        ⟨_, hc, rfl, hres⟩
      exact ⟨hi.finish hr hpc hret hop, h.stack, h.within⟩
  | append hr hpc => exact ⟨hi.append hr hpc, h.stack, h.within⟩

theorem tracked_of_reaches (h : Reaches (restrict Recording.step steady) (Recording.init net) s) :
    Tracked net s :=
  h.invariant ⟨Inv.init, Reaches.refl _, Reaches.refl _⟩ fun _ _ _ _ hs hu ↦ hu.step hs

end Recording

end GoLabs.KvTest
