import AbstractBits.Proofs.AbstractValue.BitOperators
import AbstractBits.Proofs.Expr.Concatenation
import AbstractBits.Proofs.Expr.OperandOrder
import AbstractBits.Proofs.Expr.ShiftAmount
/-!
# Bit operators made of each other

A shift to the right by a position in the value has the same result as an extraction of the bits
from there on that is extended with zeros again, and an extension with zeros the same as a
concatenation with the number 0.

Results:
  * `call_zeroExtend`, `call_shiftRight_position`, `call_concat_pair` — calls in terms of the
    operations on values.
  * `bit_operators_agree` — the operators agree.
-/

namespace AbstractBits

namespace Operator

variable {a b e : AbstractValue} {n : Nat}

/-! ## Calls -/

theorem call_zeroExtend (ha : a.Valid) (hn : n ≤ maxBits) (bits : Nat) :
    zeroExtend.call [.int n, .abstract a] bits =
      (ofOperation (a.zeroExtend (n + a.bits))).map .abstract := by
  have hargs := Expr.evaluateAll_map_ofValue [.int n, .abstract a]
  have htotal : n + a.bits < twoPow 32 :=
    Nat.lt_of_le_of_lt (Nat.add_le_add hn (AbstractValue.width ha).2) (by decide)
  refine (call_of_evaluateAll rfl hargs).trans ?_
  rw [apply, applyExtension, toBitCount_of_le hn, Value.toAbstract]
  exact if_pos htotal

theorem call_concat_pair (a b : AbstractValue) (bits : Nat) :
    concat.call [.abstract a, .abstract b] bits = (ofOperation (a.concat b)).map .abstract := by
  have hargs := Expr.evaluateAll_map_ofValue [.abstract a, .abstract b]
  refine (call_of_evaluateAll rfl hargs).trans ?_
  simp only [apply, applyConcat, concatAll, Value.toAbstract, bind, Except.bind]
  cases ofOperation (a.concat b) <;> rfl

/-- A position in the value is an amount as it stands. -/
theorem call_shiftRight_position (hn : n < a.bits)
    (h : a.shiftRight (.interval (.constant a.bits n)) = .ok b) (bits : Nat) :
    shiftRight.call [.abstract a, .int n] bits = .ok (.abstract b) := by
  have hargs := Expr.evaluateAll_map_ofValue [.abstract a, .int n]
  have hamount : shiftAmount a.bits (.int n) = .ok (.interval (.constant a.bits n)) := by
    rw [shiftAmount, if_neg (Int.not_lt.2 (Int.natCast_nonneg n)), Int.toNat_natCast,
      Nat.min_eq_left (Nat.le_of_lt hn)]
  refine (call_shiftRight hargs).trans ((applyShiftRight_of_amount hamount).trans ?_)
  rw [h]
  rfl

/-! ## The operators -/

/-- On values without regions, whatever byte swaps are pending, a shift to the right by a position
is the extraction of the bits from there on, extended with zeros to the old width. An extension with
zeros is a concatenation with the number 0 in front, and both are refused exactly for results that
are too wide. -/
theorem bit_operators_agree (ha : a.Valid) (hshape : a.shape ≠ .valueSet) (bits : Nat) :
    (∀ n < a.bits, ∃ e v w,
      extract.call [.int (a.bits - 1 : Nat), .int n, .abstract a] bits = .ok (.abstract e) ∧
        zeroExtend.call [.int n, .abstract e] bits = .ok v ∧
        shiftRight.call [.abstract a, .int n] bits = .ok w ∧ w.same v = true) ∧
      ∀ k, ValidWidth k →
        zeroExtend.call [.int k, .abstract a] bits =
            concat.call [.abstract (.interval (.constant k 0)), .abstract a] bits ∧
          ((∃ v, zeroExtend.call [.int k, .abstract a] bits = .ok v) ↔ k + a.bits ≤ maxBits) := by
  constructor
  · intro n hn
    obtain ⟨e, z, w, he, hbits, hz, hw, hsame⟩ := AbstractValue.exists_extended_extract ha hshape hn
    have hmax : n ≤ maxBits := Nat.le_trans (Nat.le_of_lt hn) (AbstractValue.width ha).2
    have hback : n + e.bits = a.bits := by rw [hbits, Nat.add_sub_cancel' (Nat.le_of_lt hn)]
    refine ⟨e, .abstract z, .abstract w, call_extract ha he bits, ?_,
      call_shiftRight_position hn hw bits, ?_⟩
    · rw [call_zeroExtend (AbstractValue.imagesOf_extract ha he).valid hmax, hback, hz]
      rfl
    · exact same_abstract.2 hsame.symm
  · intro k width
    rw [call_zeroExtend ha width.2, call_concat_pair,
      ← AbstractValue.zeroExtend_eq_concat ha hshape]
    refine ⟨rfl, ?_⟩
    simp only [map_eq_ok, ofOperation_eq_ok]
    constructor
    · rintro ⟨v, z, hz, -⟩
      exact ((AbstractValue.exists_zeroExtend_iff ha hshape (Nat.le_add_left _ _)).1 ⟨z, hz⟩).2
    · intro hmax
      have htotal : ValidWidth (k + a.bits) := ⟨Nat.le_add_right_of_le width.1, hmax⟩
      obtain ⟨z, hz⟩ :=
        (AbstractValue.exists_zeroExtend_iff ha hshape (Nat.le_add_left _ _)).2 htotal
      exact ⟨.abstract z, z, hz, rfl⟩

/-- A set with a byte-swapped member, shifted by 4 and extended by 8 and by 120 bits. -/
theorem bit_operators_on_swapped_member :
    let a :=
      AbstractValue.set (.ofMembers 16 [⟨16, some ⟨256, 512, 256⟩, true, none⟩, .constant 16 3])
    (∃ e v w, extract.call [.int (15 : Nat), .int (4 : Nat), .abstract a] 12 = .ok (.abstract e) ∧
      zeroExtend.call [.int (4 : Nat), .abstract e] 12 = .ok v ∧
      shiftRight.call [.abstract a, .int (4 : Nat)] 12 = .ok w ∧ w.same v = true) ∧
      zeroExtend.call [.int (8 : Nat), .abstract a] 12 =
        concat.call [.abstract (.interval (.constant 8 0)), .abstract a] 12 ∧
      ¬∃ v, zeroExtend.call [.int (120 : Nat), .abstract a] 12 = .ok v := by
  intro a
  have hmembers :
      IntervalSet.Uniform 16 [⟨16, some ⟨256, 512, 256⟩, true, none⟩, .constant 16 3] := by
    refine IntervalSet.uniform_cons ?_ rfl ?_
    · exact Interval.valid_pending (by decide) ⟨by decide, by decide⟩ (by decide)
        (by decide) (by decide)
    · exact IntervalSet.uniform_cons (Interval.valid_constant (by decide) 3) rfl
        (IntervalSet.uniform_nil 16)
  have ha : a.Valid := IntervalSet.valid_ofMembers (by decide) hmembers
  obtain ⟨hshift, hextend⟩ := bit_operators_agree ha nofun 12
  refine ⟨hshift 4 (by decide), (hextend 8 (by decide)).1, fun hv => ?_⟩
  exact absurd ((hextend 120 (by decide)).2.1 hv) (by decide)

end Operator

end AbstractBits
