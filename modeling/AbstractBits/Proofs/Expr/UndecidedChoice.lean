import AbstractBits.Proofs.AbstractValue.SwappedUnion
import AbstractBits.Proofs.Expr.OperandOrder
/-!
# Choices that are not decided

A choice by an unknown truth value joins its branches as they are, while the operator for unions
takes their pending byte swaps off before and puts one on afterwards. Both succeed for branches of
one width, and they come to the same wherever that byte swap goes through the union.

Results:
  * `sameOutcome_ite_union_iff` — when an undecided choice and the union of its branches come to the
    same.
  * `undecided_choice_iff` — the same for branches of any widths, with what makes both succeed.
  * `undecided_choice_not_union` — a choice that does not come to the union.
-/

namespace AbstractBits

namespace Operator

variable {a b : AbstractValue}

/-- A choice that is not decided joins different branches. -/
theorem call_ite_maybe (hne : a.unnamed ≠ b.unnamed) (bits : Nat) :
    Operator.ite.call [.bool .maybe, .abstract a, .abstract b] bits =
      (ofOperation (a.union b)).map .abstract := by
  have hsame : (Value.abstract a).same (.abstract b) = false := beq_eq_false_iff_ne.2 hne
  have hargs : Expr.evaluateAll [.bool .maybe, .abstract a, .abstract b] =
      .ok [.bool .maybe, .abstract a, .abstract b] :=
    Expr.evaluateAll_map_ofValue [.bool .maybe, .abstract a, .abstract b]
  simp only [call, Expr.evaluate, hargs]
  show applyIte [.bool .maybe, .abstract a, .abstract b] = _
  simp [applyIte, Value.toVerdict, Verdict.hasFalse, Verdict.hasTrue, hsame, bind, Except.bind]

theorem exists_call_ite_iff (ha : a.Valid) (hb : b.Valid) (hne : a.unnamed ≠ b.unnamed)
    (bits : Nat) :
    (∃ w, Operator.ite.call [.bool .maybe, .abstract a, .abstract b] bits = .ok w) ↔
    a.bits = b.bits := by
  rw [call_ite_maybe hne, ← AbstractValue.combines_union.exists_iff ha hb]
  constructor
  · rintro ⟨w, hw⟩
    obtain ⟨c, hc, -⟩ := map_eq_ok.1 hw
    exact ⟨c, ofOperation_eq_ok.1 hc⟩
  · rintro ⟨c, hc⟩
    exact ⟨_, map_eq_ok.2 ⟨c, ofOperation_eq_ok.2 hc, rfl⟩⟩

theorem exists_call_union_iff (ha : a.Valid) (hb : b.Valid) (bits : Nat) :
    (∃ w, Operator.union.call [.abstract a, .abstract b] bits = .ok w) ↔ a.bits = b.bits := by
  rw [exists_call_lattice_iff rfl (.abstract ha) (.abstract hb)]
  constructor
  · rintro ⟨a', b', ha', hb', hbits⟩
    cases ha'
    cases hb'
    exact hbits
  · intro hbits
    exact ⟨a, b, by rw [Expr.evaluate], by rw [Expr.evaluate], hbits⟩

/-- An undecided choice between branches of one width and the union of them come to the same exactly
if no byte swap is pending or byte-swapping the union of what is stored restores the union. -/
theorem sameOutcome_ite_union_iff (ha : a.Valid) (hb : b.Valid) (hbits : a.bits = b.bits)
    (hne : a.unnamed ≠ b.unnamed) (bits : Nat) :
    SameOutcome (Operator.ite.call [.bool .maybe, .abstract a, .abstract b] bits)
        (Operator.union.call [.abstract a, .abstract b] bits) ↔
      a.isReversed = false ∧ b.isReversed = false ∨ (AbstractValue.align a b).RestoresUnion := by
  obtain ⟨c, hc, -⟩ := AbstractValue.combines_union.succeeds a b ha hb hbits
  have hlattice : Operator.union.isLattice = true := rfl
  obtain ⟨m, hm, -, -, hcall⟩ := call_lattice_eq_ok hlattice ha hb hbits bits
  rw [call_ite_maybe hne, hc, hcall]
  show (Value.abstract c).same (.abstract _) = true ↔ _
  rw [same_abstract]
  cases hany : a.isReversed || b.isReversed with
  | false =>
    obtain ⟨harev, hbrev⟩ := Bool.or_eq_false_iff.1 hany
    have hplain : a.union b = .ok m := by
      rwa [AbstractValue.unreversed, AbstractValue.unreversed, harev, hbrev] at hm
    rw [hc] at hplain
    cases hplain
    exact iff_of_true rfl (.inl ⟨harev, hbrev⟩)
  | true =>
    have hsome := Bool.or_eq_true_iff.1 hany
    have hpending : ¬(a.isReversed = false ∧ b.isReversed = false) := by
      rintro ⟨harev, hbrev⟩
      rw [harev, hbrev] at hany
      cases hany
    rw [or_iff_right hpending, ← AbstractValue.byteSwapped_union_iff ha hb hbits hsome hc hm]
    exact eq_comm

/-- An undecided choice between two different values, and the union of them: both fail for two
widths, and for one width both have values. These are equal exactly if none of the two values has a
byte swap pending or byte-swapping the union of what is stored restores the union. -/
theorem undecided_choice_iff (ha : a.Valid) (hb : b.Valid) (hne : a.unnamed ≠ b.unnamed)
    (bits : Nat) :
    let choice := Operator.ite.call [.bool .maybe, .abstract a, .abstract b] bits
    let union := Operator.union.call [.abstract a, .abstract b] bits
    ((∃ v, choice = .ok v) ↔ a.bits = b.bits) ∧ ((∃ v, union = .ok v) ↔ a.bits = b.bits) ∧
      (SameOutcome choice union ↔
        a.bits ≠ b.bits ∨ a.isReversed = false ∧ b.isReversed = false ∨
          (AbstractValue.align a b).RestoresUnion) := by
  have hchoice := exists_call_ite_iff ha hb hne bits
  have hunion := exists_call_union_iff ha hb bits
  refine ⟨hchoice, hunion, ?_⟩
  by_cases hbits : a.bits = b.bits
  · rw [sameOutcome_ite_union_iff ha hb hbits hne, or_iff_right (not_not_intro hbits)]
  · refine iff_of_true (sameOutcome_of_iff (hchoice.trans hunion.symm) fun v w hv _ => ?_)
      (.inl hbits)
    exact absurd (hchoice.1 ⟨v, hv⟩) hbits

/-- Two byte-swapped ranges, as branches and as operands. -/
theorem swapped_choice_is_union :
    let a := AbstractValue.interval ⟨16, some ⟨256, 512, 256⟩, true, none⟩
    let b := AbstractValue.interval ⟨16, some ⟨768, 1280, 256⟩, true, none⟩
    SameOutcome (Operator.ite.call [.bool .maybe, .abstract a, .abstract b] 16)
        (Operator.union.call [.abstract a, .abstract b] 16) ∧
      ∃ v, Operator.ite.call [.bool .maybe, .abstract a, .abstract b] 16 = .ok v := by
  intro a b
  have ha : a.Valid :=
    Interval.valid_pending (by decide) ⟨by decide, by decide⟩ (by decide) (by decide) (by decide)
  have hb : b.Valid :=
    Interval.valid_pending (by decide) ⟨by decide, by decide⟩ (by decide) (by decide) (by decide)
  obtain ⟨hchoice, -, hsame⟩ := undecided_choice_iff ha hb (by decide) 16
  exact ⟨hsame.2 (.inr (.inr rfl)), hchoice.2 rfl⟩

/-- Between 256 and 512 with a pending byte swap and 2 the choice is any number, whereas the union
of 256, 512 and 2 is byte-swapped. -/
theorem undecided_choice_not_union :
    ¬∀ a b : AbstractValue, a.Valid → b.Valid → a.unnamed ≠ b.unnamed → ∀ bits,
      SameOutcome (Operator.ite.call [.bool .maybe, .abstract a, .abstract b] bits)
        (Operator.union.call [.abstract a, .abstract b] bits) := by
  intro hall
  have ha : (AbstractValue.interval ⟨16, some ⟨256, 512, 256⟩, true, none⟩).Valid :=
    Interval.valid_pending (by decide) ⟨by decide, by decide⟩ (by decide) (by decide) (by decide)
  have hb : (AbstractValue.interval (.constant 16 2)).Valid := Interval.valid_constant (by decide) 2
  have hne : (AbstractValue.interval ⟨16, some ⟨256, 512, 256⟩, true, none⟩).unnamed ≠
      (AbstractValue.interval (.constant 16 2)).unnamed := by decide
  have hrestores := (sameOutcome_ite_union_iff ha hb rfl hne 16).1 (hall _ _ ha hb hne 16)
  rcases hrestores with ⟨hrev, -⟩ | hboth
  · cases hrev
  · cases hboth

end Operator

end AbstractBits
