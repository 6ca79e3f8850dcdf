import AbstractBits.Proofs.AbstractValue.Lattice
import AbstractBits.Proofs.IntervalSet.Canonical
/-!
# The order of the operands of a lattice operation

Two operands are brought to the same shape whichever of them comes first, and in each shape a union
and an intersection are made of the same members, regions or bounds in either order. Only the names
of members of sets can differ.

Results:
  * `align_comm` — operands in the other order are aligned to the same values in the other order.
  * `commutes_of_acts` — an operation does not depend on the order if it does not in any shape.
  * `commutes_union`, `commutes_intersection` — the two operations do not depend on the order.
-/

namespace AbstractBits

namespace AbstractValue

variable {a b : AbstractValue}

/-! ## Alignment -/

namespace Aligned

/-- Two values of one shape in the other order. -/
def exchanged : Aligned → Aligned
  | intervals x y => intervals y x
  | sets s t => sets t s
  | valueSets v w => valueSets w v

end Aligned

theorem align_comm (a b : AbstractValue) : align b a = (align a b).exchanged := by
  cases a <;> cases b <;> rfl

/-! ## Operations -/

/-- An operation that makes the same, up to names, of valid values of one width in either order. -/
def Commutes (op : AbstractValue → AbstractValue → Except OperationError AbstractValue) : Prop :=
  ∀ a b : AbstractValue, a.Valid → b.Valid → a.bits = b.bits →
    (op b a).map unnamed = (op a b).map unnamed

/-- An operation on two values of one shape that does the same. -/
def Aligned.Commutes (op : Aligned → Except OperationError AbstractValue) : Prop :=
  ∀ p : Aligned, p.left.Valid → p.right.Valid → p.left.bits = p.right.bits →
    (op p.exchanged).map unnamed = (op p).map unnamed

theorem commutes_of_aligned {op : Aligned → Except OperationError AbstractValue}
    (h : Aligned.Commutes op) : Commutes fun a b => op (align a b) := by
  intro a b ha hb hbits
  obtain ⟨hleft, hright⟩ := lifted_align ha hb
  show (op (align b a)).map unnamed = (op (align a b)).map unnamed
  rw [align_comm]
  exact h (align a b) hleft.valid hright.valid (hleft.width.trans (hbits.trans hright.width.symm))

/-- An operation that does so in each shape does so on all values. -/
theorem commutes_of_acts {op : Aligned → Except OperationError AbstractValue}
    {f : Interval → Interval → Interval} {g : IntervalSet → IntervalSet → IntervalSet}
    {h : RegionMap → RegionMap → RegionMap} (acts : Aligned.Acts op f set g h)
    (hf : ∀ x y : Interval, x.Valid → y.Valid → x.bits = y.bits → f x y = f y x)
    (hg : ∀ s t : IntervalSet, s.Valid → t.Valid → s.bits = t.bits →
      (g s t).unnamed = (g t s).unnamed)
    (hh : ∀ v w : ValueSet, v.Valid → w.Valid → v.bits = w.bits →
      ValueSet.combine h v w = ValueSet.combine h w v) :
    Commutes fun a b => op (align a b) := by
  refine commutes_of_aligned fun p hleft hright hsame => ?_
  cases p with
  | intervals x y =>
    have hxy : x.bits = y.bits := hsame
    rw [Aligned.exchanged, acts.intervals, acts.intervals, hf x y hleft hright hxy, hxy]
  | sets s t =>
    have hst : s.bits = t.bits := hsame
    rw [Aligned.exchanged, acts.sets, acts.sets, map_requireSameWidth hst,
      map_requireSameWidth hst.symm]
    exact congrArg (Except.ok <| set ·) (hg s t hleft hright hst).symm
  | valueSets v w =>
    rw [Aligned.exchanged, acts.valueSets, acts.valueSets, hh v w hleft hright hsame]

theorem commutes_union : Commutes union :=
  commutes_of_acts acts_union (fun _ _ => Interval.join_comm)
    (fun _ _ => IntervalSet.unnamed_union_comm) fun _ _ => ValueSet.union_comm

theorem commutes_intersection : Commutes intersection :=
  commutes_of_acts acts_intersection (fun _ _ => Interval.meet_comm)
    (fun _ _ => IntervalSet.unnamed_intersection_comm) fun _ _ => ValueSet.intersection_comm

end AbstractValue

end AbstractBits
