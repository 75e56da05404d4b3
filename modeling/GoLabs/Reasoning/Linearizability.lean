import GoLabs.Reasoning.Precedence

/-!
# Linearizations of a concurrent history

A history says which operations were called, with which input, which of them returned, with which
output, and which operation returned before which other one was called.  A linearization is one
total order of operations that contains every completed one, may contain pending ones, and never
contradicts `before`.
-/

namespace GoLabs.Reasoning

variable {ι I O α : Type*}

/-- One operation as it stands in a linearization. -/
structure Op (ι I O : Type*) where
  id : ι
  input : I
  output : O

/-- What the clients of a concurrent object observe. -/
structure History (ι I O : Type*) where
  called : ι → I → Prop
  returned : ι → O → Prop
  before : ι → ι → Prop

structure Linearization (h : History ι I O) (ops : List (Op ι I O)) : Prop where
  nodup : (ops.map Op.id).Nodup
  /-- Every completed operation is there, with its input and the output its caller got. -/
  complete : ∀ n i o, h.called n i → h.returned n o → ⟨n, i, o⟩ ∈ ops
  /-- Nothing is there that nobody called. -/
  called : ∀ op ∈ ops, h.called op.id op.input
  /-- An operation that returned has the output its caller got. -/
  returned : ∀ op ∈ ops, ∀ o, h.returned op.id o → o = op.output
  realTime : ∀ x ∈ ops, ∀ y ∈ ops, h.before x.id y.id → Precedes ops x y

/-- Linearization points.  When every operation to be kept has exactly one point in a log of
events, and the points of operations ordered by `before` are ordered in the log, the operations in
the order of their points are a linearization. -/
theorem linearization_of_points {h : History ι I O} {log : List α} (hlog : log.Nodup)
    {point : α → Option (Op ι I O)}
    (hone : ∀ x ∈ log, ∀ y ∈ log, ∀ p q, point x = some p → point y = some q →
      p.id = q.id → x = y)
    (hcalled : ∀ x ∈ log, ∀ p, point x = some p → h.called p.id p.input)
    (hreturned : ∀ x ∈ log, ∀ p o, point x = some p → h.returned p.id o → o = p.output)
    (hcomplete : ∀ n i o, h.called n i → h.returned n o → ∃ x ∈ log, point x = some ⟨n, i, o⟩)
    (hbefore : ∀ x ∈ log, ∀ y ∈ log, ∀ p q, point x = some p → point y = some q →
      h.before p.id q.id → Precedes log x y) :
    Linearization h (log.filterMap point) where
  nodup := by
    rw [List.map_filterMap, List.nodup_iff_pairwise_ne, List.pairwise_filterMap]
    refine hlog.pairwise_of_forall_ne fun x hx y hy hne n hn m hm heq ↦ hne ?_
    obtain ⟨p, hp, rfl⟩ := Option.map_eq_some_iff.mp hn
    obtain ⟨q, hq, rfl⟩ := Option.map_eq_some_iff.mp hm
    exact hone x hx y hy p q hp hq heq
  complete n i o hc hr := by
    obtain ⟨x, hx, hp⟩ := hcomplete n i o hc hr
    exact List.mem_filterMap.mpr ⟨x, hx, hp⟩
  called op hop := by
    obtain ⟨x, hx, hp⟩ := List.mem_filterMap.mp hop
    exact hcalled x hx op hp
  returned op hop o hr := by
    obtain ⟨x, hx, hp⟩ := List.mem_filterMap.mp hop
    exact hreturned x hx op o hp hr
  realTime p hp q hq hpq := by
    obtain ⟨x, hx, hxp⟩ := List.mem_filterMap.mp hp
    obtain ⟨y, hy, hyq⟩ := List.mem_filterMap.mp hq
    exact (hbefore x hx y hy p q hxp hyq hpq).filterMap hxp hyq

end GoLabs.Reasoning
