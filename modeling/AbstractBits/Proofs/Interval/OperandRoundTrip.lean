import AbstractBits.Proofs.Interval.OperandGrammar
import AbstractBits.Proofs.Interval.Transfer
/-!
# Intervals written as operands

An interval of which nothing is pending is read back from its width, its bounds and its stride,
whichever of the spellings of a number these are written in. One of a single number is also read
back from the number alone.

Results:
  * `Spelling.numberText` — the spellings of a number are written forms of it.
  * `parse_written` — reading what has been written gives the same interval.
-/

namespace AbstractBits

/-- The bounds and the stride of the members of a width have as many bits. -/
theorem Progression.Fits.parts_lt {p : Progression} {bits : Nat} (hp : p.Fits bits)
    (valid : ValidWidth bits) :
    p.lower < twoPow bits ∧ p.upper < twoPow bits ∧ p.stride < twoPow bits := by
  obtain ⟨⟨hle, hzero, hdvd⟩, -⟩ := id hp
  have hlower := hp.lt_twoPow valid hp.1.lower_mem
  have hupper := hp.lt_twoPow valid hp.1.upper_mem
  refine ⟨hlower, hupper, ?_⟩
  by_cases hends : p.lower = p.upper
  · rw [hzero.2 hends]
    exact twoPow_pos bits
  · have hstride := Nat.le_of_dvd (by omega) hdvd
    omega

namespace Interval

variable {x : Interval} {n bits : Nat} {text lower upper stride : String}

/-! ## Writing -/

/-- The spellings of a number: its decimal digits, or its hexadecimal digits behind `0x`, with
letters of any case. -/
inductive Spelling (n : Nat) : String → Prop where
  | decimal : Spelling n (toString n)
  | hexadecimal {digits : List Char} (h : digits.map Char.toLower = Nat.toDigits 16 n) :
      Spelling n ("0x" ++ String.ofList digits)

/-- The written form of a range with its stride. -/
def rangeOperand (bits : Nat) (lower upper stride : String) : String :=
  toString bits ++ ":" ++ lower ++ ".." ++ upper ++ "/" ++ stride

/-- The written form of a single number. -/
def pointOperand (bits : Nat) (value : String) : String := toString bits ++ ":" ++ value

theorem toList_rangeOperand (bits : Nat) (lower upper stride : String) :
    (rangeOperand bits lower upper stride).toList =
      (toString bits).toList ++ ':' ::
        (lower.toList ++ '.' :: '.' :: (upper.toList ++ '/' :: stride.toList)) := by
  simp [rangeOperand]

theorem toList_pointOperand (bits : Nat) (value : String) :
    (pointOperand bits value).toList = (toString bits).toList ++ ':' :: value.toList := by
  simp [pointOperand]

/-- The spellings of a number of 128 bits are written forms of it. -/
theorem Spelling.numberText (h : Spelling n text) (hn : n < twoPow maxBits) :
    NumberText text.toList n := by
  refine ⟨?_, hn⟩
  cases h with
  | decimal =>
    rw [Nat.toString_eq_repr, Nat.toList_repr]
    exact .inl (.inl (Numeral.digits_toDigits (by decide) (by decide) n))
  | @hexadecimal digits hdigits =>
    refine .inr ⟨digits, ?_, .inl (Numeral.digits_of_toLower (by decide) (by decide) hdigits)⟩
    simp

theorem widthText_toString (valid : ValidWidth bits) : WidthText (toString bits).toList bits := by
  rw [Nat.toString_eq_repr, Nat.toList_repr]
  exact ⟨.inl (Numeral.digits_toDigits (by decide) (by decide) bits), valid⟩

/-! ## Reading back -/

/-- Reading what has been written gives the same interval. The numbers are within the width, so that
no bits are cut off. -/
theorem parse_written (hx : x.Valid) (hsome : x.isEmpty = false) (hplain : x.reversed = false)
    (hname : x.name = none) (hlower : Spelling x.lower lower) (hupper : Spelling x.upper upper)
    (hstride : Spelling x.stride stride) :
    parse (rangeOperand x.bits lower upper stride) = .ok x ∧
      (x.isSingle = true → parse (pointOperand x.bits lower) = .ok x) := by
  obtain ⟨p, hrange⟩ := exists_range_of_nonempty hsome
  have hstored : x = ofRange x.bits (some p) := by
    cases x
    simp_all [ofRange]
  have hp := hx.fits hrange
  obtain ⟨hl, hu, hs⟩ := hp.parts_lt hx.width
  have hmax := Progression.twoPow_le_twoPow hx.width.2
  simp only [Interval.lower, Interval.upper, Interval.stride, hrange,
    Option.elim_some] at hlower hupper hstride
  have hwidth := widthText_toString hx.width
  have hlow := hlower.numberText (Nat.lt_of_lt_of_le hl hmax)
  have hhigh := hupper.numberText (Nat.lt_of_lt_of_le hu hmax)
  have hstep := hstride.numberText (Nat.lt_of_lt_of_le hs hmax)
  have hl' := truncate_of_lt hx.width hl
  have hu' := truncate_of_lt hx.width hu
  constructor
  · have hordered : truncate x.bits p.lower ≤ truncate x.bits p.upper := by
      rw [hl', hu']
      exact hp.1.1
    have htext := OperandText.strided hwidth hlow hhigh hstep hordered
    rw [hl', hu', Progression.between_eq_self hp.1, ← hstored, ← toList_rangeOperand] at htext
    exact parse_of_operandText htext
  · intro hsingle
    have hsole : p = .single p.lower := hp.1.eq_single (by simpa [isSingle, hrange] using hsingle)
    have htext := OperandText.point hwidth hlow
    rw [constant, hl', ← hsole, ← hstored, ← toList_pointOperand] at htext
    exact parse_of_operandText htext

/-- All odd numbers of 128 bits, the greatest in digits of both cases, and the greatest number of 8
bits. -/
theorem odd_numbers_and_last_byte_read :
    parse "128:1..0xFFFFfffFffffffFFffffffffffffFfff/0x2" =
      .ok (ofRange 128 (some ⟨1, twoPow 128 - 1, 2⟩)) ∧ parse "8:0xfF" = .ok (constant 8 255) := by
  have hodd : (ofRange 128 (some ⟨1, twoPow 128 - 1, 2⟩)).Valid :=
    valid_ofRange (by decide) (by decide +kernel) (Nat.le_refl _)
  have hlast : Spelling (twoPow 128 - 1) "0xFFFFfffFffffffFFffffffffffffFfff" :=
    @Spelling.hexadecimal _ "FFFFfffFffffffFFffffffffffffFfff".toList (by decide +kernel)
  have htwo : Spelling 2 "0x2" := @Spelling.hexadecimal _ ['2'] rfl
  have hconstant : (constant 8 255).Valid := valid_constant (by decide) 255
  have hbyte : Spelling 255 "0xfF" := @Spelling.hexadecimal _ ['f', 'F'] rfl
  exact ⟨(parse_written hodd rfl rfl rfl .decimal hlast htwo).1,
    (parse_written hconstant rfl rfl rfl hbyte hbyte .decimal).2 rfl⟩

end Interval

end AbstractBits
