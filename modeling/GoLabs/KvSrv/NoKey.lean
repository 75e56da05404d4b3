import GoLabs.KvSrv.PutResults

/-!
# `ErrNoKey` from `Clerk.Put`

The Clerk returns `ErrNoKey` as it is, also after a resend.  A key that is there stays there, so no
attempt that was executed before the refused one took effect; but an earlier attempt that is still
under way may find the key created later, at just its version.
-/

open GoLabs.Reasoning

namespace GoLabs.KvSrv

namespace Net

/-- The server has told a later attempt of the same call that the key does not exist. -/
def overtaken (s : Net) (a : Nat) : Bool :=
  match s.attempts[a]? with
  | some x => (s.attempts.drop (a + 1)).any fun y =>
      y.call = x.call && y.reply = some (.put ⟨.errNoKey⟩)
  | none => false

/-- An attempt is not executed after a later one of its call was answered with `ErrNoKey`. -/
def notOvertaken (s : Net) : Action → Bool
  | .exec a => ! s.overtaken a
  | _ => true

variable {s t : Net}

theorem not_overtaken {a b : Nat} {x y : Attempt} (h : s.overtaken a = false)
    (hx : s.attempts[a]? = some x) (hy : s.attempts[b]? = some y) (hlt : a < b)
    (hcall : y.call = x.call) : y.reply ≠ some (.put ⟨.errNoKey⟩) := by
  intro hreply
  have hmem : y ∈ s.attempts.drop (a + 1) := by
    apply List.mem_of_getElem? (i := b - (a + 1))
    rw [List.getElem?_drop, show a + 1 + (b - (a + 1)) = b by omega]
    exact hy
  unfold overtaken at h
  rw [hx] at h
  have hall := List.any_eq_false.mp h y hmem
  simp [hcall, hreply] at hall

/-! ## The attempt that a call waits for -/

/-- The attempt that a call waits for, or whose reply it returned, is its latest. -/
def Latest (s : Net) : Prop :=
  ∀ (n : Nat) (c : ClerkCall) (a b : Nat) (x : Attempt), s.calls[n]? = some c →
    (c.pc = .calling a ∨ ∃ res, c.pc = .returned a res) → s.attempts[b]? = some x → x.call = n →
    b ≤ a

theorem Latest.step {act : Action} (h : Latest s) (hi : s.Inv) (hs : s.step act = some t) :
    Latest t := by
  intro n c a b x hc hpc hx hcall
  cases step_iff.mp hs with
  | invoke clerk req =>
      obtain hold | ⟨hn, rfl⟩ := getElem?_snoc_eq_some.mp hc <;>
        obtain hx' | ⟨hb, rfl⟩ := getElem?_snoc_eq_some.mp hx
      · exact h n c a b x hold hpc hx' hcall
      · -- the new attempt is of the new call
        have hlt := lt_length_of_getElem? hold
        dsimp only at hcall
        omega
      · obtain ⟨d, hd, _⟩ := hi.attempt_call b x hx'
        have hlt := lt_length_of_getElem? hd
        omega
      · have ha : a = s.attempts.length := by simpa [eq_comm] using hpc
        omega
  | @exec a' n' req hat =>
      obtain ⟨rfl, _, rfl⟩ | ⟨_, hold⟩ := getElem?_set_eq_some.mp hx
      · exact h n c a b _ hc hpc hat hcall
      · exact h n c a b x hc hpc hold hcall
  | @lose m a' d hd hdpc =>
      obtain ⟨_, _, rfl⟩ | ⟨_, hold⟩ := getElem?_set_eq_some.mp hc
      · simp at hpc
      · exact h n c a b x hold hpc hx hcall
  | @resend m d hd hdpc =>
      obtain hx' | ⟨hb, rfl⟩ := getElem?_snoc_eq_some.mp hx
      · obtain ⟨_, _, rfl⟩ | ⟨_, hold⟩ := getElem?_set_eq_some.mp hc
        · have ha : a = s.attempts.length := by simpa [eq_comm] using hpc
          have hlt := lt_length_of_getElem? hx'
          omega
        · exact h n c a b x hold hpc hx' hcall
      · obtain ⟨_, _, rfl⟩ | ⟨hne, _⟩ := getElem?_set_eq_some.mp hc
        · have ha : a = s.attempts.length := by simpa [eq_comm] using hpc
          omega
        · exact absurd hcall.symm hne
  | @deliver m a' m' d req reply hd hdpc hat =>
      obtain ⟨rfl, _, rfl⟩ | ⟨_, hold⟩ := getElem?_set_eq_some.mp hc
      · have ha : a' = a := by simpa using hpc
        subst ha
        exact h n d a' b x hd (.inl hdpc) hx hcall
      · exact h n c a b x hold hpc hx hcall

/-! ## Attempts before the refused one -/

/-- No attempt before one that was answered with `ErrNoKey` took effect. -/
def Refused (s : Net) : Prop :=
  ∀ (a b : Nat) (x y : Attempt), a < b → s.attempts[a]? = some x → s.attempts[b]? = some y →
    x.call = y.call → y.reply = some (.put ⟨.errNoKey⟩) → x.reply ≠ some (.put ⟨.ok⟩)

/-- A handler answers `ErrNoKey` only if no attempt with the same request took effect before. -/
theorem Inv.not_ok_of_noKey (hi : s.Inv) {a b : Nat} {x y : Attempt}
    (hx : s.attempts[a]? = some x) (hy : s.attempts[b]? = some y) (hcall : x.call = y.call)
    (hreply : (s.server.dispatch y.req).2 = .put ⟨.errNoKey⟩) : x.reply ≠ some (.put ⟨.ok⟩) := by
  intro hok
  obtain ⟨c, hc, hreq⟩ := hi.attempt_call a x hx
  obtain ⟨d, hd, hreq'⟩ := hi.attempt_call b y hy
  rw [hcall, hd, Option.some.injEq] at hc
  have hsame : x.req = y.req := by rw [← hreq, ← hreq', hc]
  have hexec : .exec x.call a x.req (.put ⟨.ok⟩) ∈ s.history :=
    (hi.exec_iff _ _ _ _).mpr (by rw [hx, ← hok])
  obtain ⟨args, hargs⟩ := hi.exec_put hexec
  rw [hargs] at hexec
  have hsome := hi.served.isSome_of_ok (mem_execLog.mpr ⟨_, _, hexec⟩)
  rw [← hsame, hargs] at hreply
  have hnone : s.server.m args.key = none := by
    apply put_noKey
    simp only [KVServer.dispatch, Reply.put.injEq] at hreply
    rw [hreply]
  rw [hnone] at hsome
  cases hsome

theorem Refused.step {act : Action} (h : Refused s) (hi : s.Inv) (hs : s.step act = some t)
    (hguard : s.notOvertaken act = true) : Refused t := by
  intro a b x y hlt hx hy hcall hreply
  cases step_iff.mp hs with
  | invoke clerk req =>
      obtain hy' | ⟨_, rfl⟩ := getElem?_snoc_eq_some.mp hy
      · obtain hx' | ⟨hlast, rfl⟩ := getElem?_snoc_eq_some.mp hx
        · exact h a b x y hlt hx' hy' hcall hreply
        · simp
      · cases hreply
  | @exec a' n req hat =>
      have hguard' : s.overtaken a' = false := by simpa [notOvertaken] using hguard
      obtain ⟨rfl, _, rfl⟩ | ⟨_, hx'⟩ := getElem?_set_eq_some.mp hx <;>
        obtain ⟨rfl, _, rfl⟩ | ⟨_, hy'⟩ := getElem?_set_eq_some.mp hy
      · omega
      · -- the attempt that runs now was not overtaken
        exact absurd hreply (not_overtaken hguard' hat hy' hlt hcall.symm)
      · exact hi.not_ok_of_noKey hx' hat hcall (Option.some.inj hreply)
      · exact h a b x y hlt hx' hy' hcall hreply
  | lose hd hdpc => exact h a b x y hlt hx hy hcall hreply
  | @resend m d hd hdpc =>
      obtain hy' | ⟨_, rfl⟩ := getElem?_snoc_eq_some.mp hy
      · obtain hx' | ⟨hlast, rfl⟩ := getElem?_snoc_eq_some.mp hx
        · exact h a b x y hlt hx' hy' hcall hreply
        · simp
      · cases hreply
  | deliver hd hdpc hat => exact h a b x y hlt hx hy hcall hreply

end Net

theorem clerkReturn_eq_errNoKey {retried : Bool} {reply : Reply}
    (h : clerkReturn retried reply = .put .errNoKey) : reply = .put ⟨.errNoKey⟩ := by
  obtain ⟨hreply, -⟩ | ⟨-, -, herr⟩ := clerkReturn_eq_put h
  · exact hreply
  · cases herr

/-- As long as no attempt is executed after a later one of its call was answered with `ErrNoKey`, no
attempt of a `Put` that returned `ErrNoKey` takes effect, before or after the return. -/
theorem errNoKey_definite {s : Net} (h : Reaches (restrict Net.step Net.notOvertaken) Net.init s)
    {n a : Nat} {req : Request} (hret : .ret n a req (.put .errNoKey) ∈ s.history) :
    effects n s.history = [] := by
  have hinv : s.Latest ∧ s.Refused := by
    apply h.invariant
    · exact ⟨by simp [Net.Latest, Net.init], by simp [Net.Refused, Net.init]⟩
    · intro u act v hu hs hinv
      obtain ⟨hguard, hstep⟩ := restrict_eq_some.mp hs
      have hi := Net.inv_of_reaches hu.of_restrict
      exact ⟨hinv.1.step hi hstep, hinv.2.step hi hstep hguard⟩
  obtain ⟨hlatest, hrefused⟩ := hinv
  have hi := Net.inv_of_reaches h.of_restrict
  obtain ⟨c, hc, _, hpc⟩ := (hi.ret_iff _ _ _ _).mp hret
  obtain ⟨reply, hat, hres⟩ := hi.returned n c a _ hc hpc
  have hnoKey := clerkReturn_eq_errNoKey hres.symm
  subst hnoKey
  apply List.eq_nil_iff_forall_not_mem.mpr
  intro e he
  obtain ⟨b, args, rfl, hexec⟩ := mem_effects.mp he
  have hatb := (hi.exec_iff _ _ _ _).mp hexec
  -- the attempt that took effect is the refused one, or one before it
  have hle := hlatest n c a b _ hc (.inr ⟨_, hpc⟩) hatb rfl
  obtain hlt | heq := Nat.lt_or_eq_of_le hle
  · exact hrefused b a _ _ hlt hatb hat rfl rfl rfl
  · subst heq
    rw [hat] at hatb
    simp at hatb

/-- The first attempt is lost, the resend is answered with `ErrNoKey`, and then somebody else
creates the key. -/
def noKeyResent : List Action :=
  [.invoke 0 (.put ⟨lit "k", lit "v", 1⟩), .lose 0, .resend 0, .exec 1, .deliver 0,
   .invoke 1 (.put ⟨lit "k", lit "w", 0⟩), .exec 2, .deliver 1]

theorem errNoKey_definite_noKeyResent :
    ∃ s, run (restrict Net.step Net.notOvertaken) Net.init noKeyResent = some s ∧
      .ret 0 1 (.put ⟨lit "k", lit "v", 1⟩) (.put .errNoKey) ∈ s.history ∧
      effects 0 s.history = [] :=
  ⟨_, rfl, by decide,
    errNoKey_definite (reaches_of_run (l := noKeyResent) rfl)
      (show Event.ret 0 1 (.put ⟨lit "k", lit "v", 1⟩) (.put .errNoKey) ∈ _ by decide)⟩

/-- The first attempt was not lost but late: it finds the key at version 1. -/
theorem errNoKey_takes_effect :
    ∃ s, run Net.step Net.init (noKeyResent ++ [.exec 0]) = some s ∧
      .ret 0 1 (.put ⟨lit "k", lit "v", 1⟩) (.put .errNoKey) ∈ s.history ∧
      effects 0 s.history = [.exec 0 0 (.put ⟨lit "k", lit "v", 1⟩) (.put ⟨.ok⟩)] ∧
      s.server.m (lit "k") = some ⟨lit "v", 2⟩ :=
  ⟨_, rfl, by decide, by decide, by decide⟩

end GoLabs.KvSrv
