import AbstractBits.Proofs.Expr.Dispatch
import AbstractBits.Proofs.Interval.ExactImage
/-!
# Shift amounts

The amount of a shift can be an interval of any width, and some of its numbers can be past the width
of what is shifted. It can also be an integer, which then is cut off at that width, as far as it
shifts anything.

Results:
  * `call_shiftRight_integer` — an integer as the amount.
  * `shiftRight_bounds` — the bounds of a shift are shifts, whichever way the amount is given.
-/

namespace AbstractBits

namespace Interval

variable {x y : Interval} {p : Progression} {bits i : Nat}

/-- Past the width of the shifted numbers all amounts are the same. -/
theorem shiftRight_constant_min (hx : x.Plain bits) (hrange : x.range = some p) (i : Nat) :
    x.shiftRight (constant x.bits (min i x.bits)) =
      ofRange bits (some (p.shiftRight bits (.single i))) := by
  have valid : ValidWidth bits := hx.width ▸ hx.valid.width
  have hfit : truncate bits (min i bits) = min i bits := by
    refine Nat.mod_eq_of_lt ?_
    rw [modulus_of_valid valid]
    exact Nat.lt_of_le_of_lt (Nat.min_le_right i bits) Nat.lt_two_pow_self
  rw [hx.width, hx.shiftRight_eq (plain_constant valid _) hrange rfl, hfit,
    Progression.shiftRight_single, Progression.shiftRight_single, Nat.min_assoc, Nat.min_self]

end Interval

namespace Operator

variable {a : AbstractValue} {x y : Interval} {m n bits : Nat}

/-! ## Calls of shifts -/

theorem applyShiftRight_of_amount {amount : Value} {b : AbstractValue}
    (h : shiftAmount a.bits amount = .ok b) :
    applyShiftRight [.abstract a, amount] = (ofOperation (a.shiftRight b)).map .abstract := by
  simp only [applyShiftRight, Value.toAbstract, h, bind, Except.bind]

theorem applyShiftRight_of_refused {amount : Value} {e : EvalError}
    (h : shiftAmount a.bits amount = .error e) :
    applyShiftRight [.abstract a, amount] = .error e := by
  simp only [applyShiftRight, Value.toAbstract, h, bind, Except.bind]

theorem call_shiftRight {args : List Expr} {vs : List Value} (h : Expr.evaluateAll args = .ok vs) :
    shiftRight.call args bits = applyShiftRight vs := call_of_evaluateAll rfl h

theorem call_shiftRight_interval (x : Interval) (hy : y.reversed = false) (bits : Nat) :
    shiftRight.call [.abstract (.interval x), .abstract (.interval y)] bits =
      .ok (.abstract (.interval (x.shiftRight y))) := by
  have hargs := Expr.evaluateAll_map_ofValue [.abstract (.interval x), .abstract (.interval y)]
  refine (call_shiftRight hargs).trans ?_
  rw [applyShiftRight_of_amount rfl]
  show Except.ok (Value.abstract (.interval (x.shiftRight y.cover))) = _
  rw [Interval.cover_of_not_reversed hy]

/-- An integer counts up to the width of what is shifted. -/
theorem call_shiftRight_integer (x : Interval) (i bits : Nat) :
    shiftRight.call [.abstract (.interval x), .int i] bits =
      .ok (.abstract (.interval (x.shiftRight (.constant x.bits (min i x.bits))))) := by
  have hargs := Expr.evaluateAll_map_ofValue [.abstract (.interval x), .int i]
  have hamount :
      shiftAmount x.bits (.int i) = .ok (.interval (.constant x.bits (min i x.bits))) := by
    rw [shiftAmount, if_neg (Int.not_lt.2 (Int.natCast_nonneg i)), Int.toNat_natCast]
  exact (call_shiftRight hargs).trans (applyShiftRight_of_amount (a := .interval x) hamount)

theorem call_shiftRight_negative (a : AbstractValue) {i : Int} (h : i < 0) (bits : Nat) :
    shiftRight.call [.abstract a, .int i] bits = .error (.negativeShift i) := by
  have hargs := Expr.evaluateAll_map_ofValue [.abstract a, .int i]
  exact (call_shiftRight hargs).trans (applyShiftRight_of_refused (if_pos h))

/-! ## Bounds -/

/-- A shift stands for the shifts of all numbers by all amounts, and its bounds are the least and
the greatest of them. An integer of any size shifts as an interval of that number does, and a
negative one is refused. -/
theorem shiftRight_bounds (hx : x.Plain m) (hy : y.Plain n) (hxsome : x.isEmpty = false)
    (hysome : y.isEmpty = false) (bits : Nat) :
    shiftRight.call [.abstract (.interval x), .abstract (.interval y)] bits =
        .ok (.abstract (.interval (x.shiftRight y))) ∧
      Interval.ShiftsBy y.Denotes x (x.shiftRight y) ∧
      (∀ v s, x.Denotes v → m ≤ s → v / twoPow s = 0) ∧
      (∀ i : Nat, ∃ z, shiftRight.call [.abstract (.interval x), .int i] bits =
        .ok (.abstract (.interval z)) ∧ Interval.ShiftsBy (· = i) x z ∧
          ∀ y' n', Interval.Plain n' y' → (∀ s, y'.Denotes s ↔ s = i) → x.shiftRight y' = z) ∧
      ∀ i : Int, i < 0 → ∃ e : EvalError, e.kind = .argumentType ∧
        shiftRight.call [.abstract (.interval x), .int i] bits = .error e := by
  obtain ⟨p, hxrange⟩ := Interval.exists_range_of_nonempty hxsome
  obtain ⟨q, hyrange⟩ := Interval.exists_range_of_nonempty hysome
  refine ⟨call_shiftRight_interval x hy.unreversed bits, ?amounts, ?cleared, ?integer, ?negative⟩
  case amounts =>
    have hshifts := Interval.shiftsBy_ofRange hx hxrange (hy.fits hyrange).1
    rw [← hx.shiftRight_eq hy hxrange hyrange] at hshifts
    simp only [← hy.denotes_iff hyrange] at hshifts
    exact hshifts
  case cleared =>
    intro v s hv hs
    have hlt := hx.valid.lt_twoPow hv
    rw [hx.width] at hlt
    exact Nat.div_eq_of_lt (Nat.lt_of_lt_of_le hlt (Progression.twoPow_le_twoPow hs))
  case integer =>
    intro i
    have hshifts := Interval.shiftsBy_ofRange hx hxrange (Progression.normal_single i)
    simp only [Progression.mem_single] at hshifts
    refine ⟨_, ?_, hshifts, fun y' n' hy' hdenotes => ?_⟩
    · rw [call_shiftRight_integer, Interval.shiftRight_constant_min hx hxrange]
    · have hysome' : y'.isEmpty = false := hy'.valid.exists_denotes.1 ⟨i, (hdenotes i).2 rfl⟩
      obtain ⟨q', hyrange'⟩ := Interval.exists_range_of_nonempty hysome'
      have hsingle : q' = .single i := Interval.eq_single_of_mem_iff (hy'.fits hyrange').1 fun t =>
        (hy'.denotes_iff hyrange').symm.trans (hdenotes t)
      rw [hx.shiftRight_eq hy' hxrange hyrange', hsingle]
  case negative =>
    intro i hi
    exact ⟨.negativeShift i, rfl, call_shiftRight_negative _ hi bits⟩

/-- The numbers 1, 65 and 129 of 8 bits, shifted by 6 to 9, by 1000 and by -1. -/
theorem shiftRight_past_width :
    Interval.EndsOf (fun w => ∃ v s, (Interval.ofRange 8 (some ⟨1, 129, 64⟩)).Denotes v ∧
        (Interval.ofRange 4 (some ⟨6, 9, 1⟩)).Denotes s ∧ v / twoPow s = w)
      ((Interval.ofRange 8 (some ⟨1, 129, 64⟩)).shiftRight (.ofRange 4 (some ⟨6, 9, 1⟩))) ∧
    (∃ z, shiftRight.call [.abstract (.interval (.ofRange 8 (some ⟨1, 129, 64⟩))),
      .int (1000 : Nat)] 8 =
        .ok (.abstract (.interval z)) ∧ z.Denotes (129 / twoPow 1000)) ∧
      ∃ e : EvalError, e.kind = .argumentType ∧
        shiftRight.call [.abstract (.interval (.ofRange 8 (some ⟨1, 129, 64⟩))), .int (-1)] 8 =
          .error e := by
  have hx : (Interval.ofRange 8 (some ⟨1, 129, 64⟩)).Plain 8 :=
    Interval.plain_ofRange (by decide) ⟨by decide, by decide⟩
  have hy : (Interval.ofRange 4 (some ⟨6, 9, 1⟩)).Plain 4 :=
    Interval.plain_ofRange (by decide) ⟨by decide, by decide⟩
  obtain ⟨-, hshifts, -, hinteger, hnegative⟩ := shiftRight_bounds hx hy rfl rfl 8
  obtain ⟨z, hz, hshifted, -⟩ := hinteger 1000
  exact ⟨hshifts.ends,
    ⟨z, hz, hshifted.covers 129 1000 (Interval.denotes_ofRange_some.2 (by decide)) rfl⟩,
    hnegative (-1) (by decide)⟩

end Operator

end AbstractBits
