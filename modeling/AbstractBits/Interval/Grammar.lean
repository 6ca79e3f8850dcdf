import AbstractBits.Interval.Parser
import AbstractBits.Text.Grammar
/-!
# The written forms of intervals

Which texts are intervals, and what they stand for, said by their parts. A single number takes no
stride; the stride of a range may be left out.

Results:
  * `parseNumber_eq_ok_iff`, `parseWidth_eq_ok_iff` — which texts are read as numbers.
-/

namespace AbstractBits

namespace Interval

/-- A number below `2^128`, decimal or hexadecimal behind `0x`. -/
def NumberText (cs : List Char) (n : Nat) : Prop :=
  (Numeral.Written 10 cs n ∨ ∃ digits, cs = '0' :: 'x' :: digits ∧ Numeral.Written 16 digits n)
    ∧ n < twoPow maxBits

/-- A decimal number that is a width. -/
def WidthText (cs : List Char) (bits : Nat) : Prop := Numeral.Written 10 cs bits ∧ ValidWidth bits

/-- The texts that are intervals, with the intervals that they stand for. -/
inductive OperandText : List Char → Interval → Prop where
  | range {width low high : List Char} {bits lower upper : Nat} (hwidth : WidthText width bits)
      (hlow : NumberText low lower) (hhigh : NumberText high upper)
      (ordered : truncate bits lower ≤ truncate bits upper) :
      OperandText (width ++ ':' :: (low ++ '.' :: '.' :: high))
        (ofRange bits (some (.between (truncate bits lower) (truncate bits upper) 1)))
  | strided {width low high step : List Char} {bits lower upper stride : Nat}
      (hwidth : WidthText width bits) (hlow : NumberText low lower) (hhigh : NumberText high upper)
      (hstep : NumberText step stride) (ordered : truncate bits lower ≤ truncate bits upper) :
      OperandText (width ++ ':' :: (low ++ '.' :: '.' :: (high ++ '/' :: step)))
        (ofRange bits (some (.between (truncate bits lower) (truncate bits upper) stride)))
  | point {width number : List Char} {bits value : Nat} (hwidth : WidthText width bits)
      (hnumber : NumberText number value) :
      OperandText (width ++ ':' :: number) (constant bits value)

/-! ## Numbers -/

theorem parseWidth_eq_ok_iff {cs : List Char} {bits : Nat} :
    parseWidth cs = .ok bits ↔ Numeral.Written 10 cs bits ∧ bits < twoPow 32 := by
  rw [parseWidth, mapError_eq_ok, Numeral.read_eq_ok_iff (by decide) (twoPow_pos 32)]

/-- The second character of a hexadecimal number is no decimal digit. -/
theorem not_written_hexadecimal {digits : List Char} {n : Nat} :
    ¬Numeral.Written 10 ('0' :: 'x' :: digits) n := by
  rintro (h | ⟨ds, hds, -⟩)
  · obtain ⟨-, ds, hds, -⟩ := Numeral.digits_iff.1 h
    match ds with
    | [] => cases hds
    | [d] => cases hds
    | d :: e :: ds =>
      obtain ⟨-, hrest⟩ := List.cons.inj hds
      obtain ⟨hx, -⟩ := List.cons.inj hrest
      have hnone : Numeral.digit? 10 'x' = none := by decide
      rw [hnone] at hx
      cases hx
  · cases hds

theorem parseNumber_eq_ok_iff {cs : List Char} {n : Nat} :
    parseNumber cs = .ok n ↔ NumberText cs n := by
  unfold parseNumber NumberText
  split
  · rename_i digits
    rw [mapError_eq_ok, Numeral.read_eq_ok_iff (by decide) (twoPow_pos maxBits)]
    constructor
    · rintro ⟨h, hlt⟩
      exact ⟨.inr ⟨digits, rfl, h⟩, hlt⟩
    · rintro ⟨h | ⟨ds, hds, h⟩, hlt⟩
      · exact absurd h not_written_hexadecimal
      · obtain ⟨-, hds⟩ := List.cons.inj hds
        obtain ⟨-, rfl⟩ := List.cons.inj hds
        exact ⟨h, hlt⟩
  · rename_i hplain
    rw [mapError_eq_ok, Numeral.read_eq_ok_iff (by decide) (twoPow_pos maxBits)]
    constructor
    · rintro ⟨h, hlt⟩
      exact ⟨.inl h, hlt⟩
    · rintro ⟨h | ⟨ds, hds, -⟩, hlt⟩
      · exact ⟨h, hlt⟩
      · exact absurd hds (hplain ds)

end Interval

end AbstractBits
