import Mathlib.Order.Bounds.Defs
import AbstractBits.Proofs.Interval.Monotone
import AbstractBits.Proofs.Progression.ExactImage
/-!
# Images of intervals that are exact

What bit operations make of an interval without a pending byte swap, beyond covering the images of
its numbers: when the least and the greatest number of the result are images, when all its numbers
are, and what is left when the low bits of an extended interval are cut out again.

Results:
  * `extract_bit_fields` — a bit field covers those of all numbers, and it is exact where it can be.
  * `straddles_iff` — numbers of both signs, by the bounds.
  * `extensions_undone` — extensions keep the numbers, and cutting out the old bits undoes them.
  * `ShiftsBy`, `shiftsBy_ofRange` — the bounds of a shift are shifts.
-/

namespace AbstractBits

namespace Interval

variable {x y z : Interval} {p q : Progression} {F : Nat → Prop} {bits m n total high low v : Nat}

/-! ## What is stored -/

theorem denotes_ofRange_some : (ofRange bits (some p)).Denotes v ↔ v ∈ p := by
  simp [denotes_ofRange]

theorem ends_of_range (hrange : x.range = some p) :
    x.lower = p.lower ∧ x.upper = p.upper ∧ x.stride = p.stride ∧ x.isSingle = p.isSingle := by
  simp [lower, upper, stride, isSingle, hrange]

theorem Plain.image_eq (hx : x.Plain bits) (hrange : x.range = some p)
    (f : Progression → Progression) : x.image n f = ofRange n (some (f p)) := by
  rw [image, cover_of_not_reversed hx.unreversed, hrange]
  rfl

theorem Plain.extract_eq (hx : x.Plain bits) (hrange : x.range = some p)
    (field : FieldOf bits high low) :
    x.extract high low = .ok (ofRange (high - low + 1) (some (p.field (high - low + 1) low))) := by
  rw [extract, hx.width, if_pos field, slice, hx.image_eq hrange]

/-- The lowest bits. -/
theorem Plain.extract_low (hx : x.Plain bits) (hrange : x.range = some p) (hn : 1 ≤ n)
    (hle : n ≤ bits) : x.extract (n - 1) 0 = .ok (ofRange n (some (p.field n 0))) := by
  have field : FieldOf bits (n - 1) 0 :=
    ⟨Nat.zero_le _, Nat.lt_of_lt_of_le (Nat.sub_one_lt_of_lt hn) hle⟩
  have hwidth : n - 1 - 0 + 1 = n := Nat.sub_add_cancel hn
  rw [hx.extract_eq hrange field, hwidth]

/-- The highest bits. -/
theorem Plain.extract_high (hx : x.Plain (m + n)) (hrange : x.range = some p) (hm : 1 ≤ m) :
    x.extract (m + n - 1) n = .ok (ofRange m (some (p.field m n))) := by
  have field : FieldOf (m + n) (m + n - 1) n := ⟨by omega, by omega⟩
  have hwidth : m + n - 1 - n + 1 = m := by omega
  rw [hx.extract_eq hrange field, hwidth]

/-- An interval that begins in the least number of a family and ends in the greatest one. -/
structure EndsOf (F : Nat → Prop) (z : Interval) : Prop where
  least : IsLeast {v | F v} z.lower
  greatest : IsGreatest {v | F v} z.upper

theorem endsOf_ofRange (h : Progression.Spans F p) : EndsOf F (ofRange bits (some p)) where
  least := ⟨h.lower, fun v hv => (h.covers v hv).1⟩
  greatest := ⟨h.upper, fun v hv => (h.covers v hv).2.1⟩

/-! ## Bit fields -/

/-- Bits above a bit field, as what is left of a number when the field and all below it are cut
off. -/
theorem div_div_eq_iff {u : Nat} (hle : low ≤ high) :
    u / twoPow low / twoPow (high - low + 1) = v / twoPow low / twoPow (high - low + 1) ↔
      ∀ i, high < i → u.testBit i = v.testBit i := by
  have hwidth : low + (high - low + 1) = high + 1 := by omega
  rw [div_twoPow_div_twoPow, div_twoPow_div_twoPow, hwidth]
  exact div_twoPow_eq_iff

/-- A bit field of an interval stands for those of all its numbers. Its bounds are the least and the
greatest of these if the bits above it are the same in both bounds, and it stands for nothing else
if in addition no bits are cut off below it that change from one number to the next. -/
theorem extract_bit_fields (hx : x.Plain bits) (hsome : x.isEmpty = false)
    (field : FieldOf bits high low) :
    ∃ z, x.extract high low = .ok z ∧ z.Plain (high - low + 1) ∧
      (∀ v, x.Denotes v → z.Denotes (bitField high low v)) ∧
      ((∀ i, high < i → x.lower.testBit i = x.upper.testBit i) →
        EndsOf (fun w => ∃ v, x.Denotes v ∧ bitField high low v = w) z ∧
        (x.isSingle = true ∨ low = 0 ∨ twoPow low ∣ x.stride →
          ∀ w, z.Denotes w ↔ ∃ v, x.Denotes v ∧ bitField high low v = w)) := by
  obtain ⟨p, hrange⟩ := exists_range_of_nonempty hsome
  have hp := (hx.fits hrange).1
  have width := validWidth_field (hx.width ▸ hx.valid.width) field
  obtain ⟨hlower, hupper, hstride, hsingle⟩ := ends_of_range hrange
  simp only [hx.denotes_iff hrange, hlower, hupper, hstride, hsingle]
  refine ⟨_, hx.extract_eq hrange field,
    plain_ofRange width (Progression.fits_field low width hp), ?_, ?_⟩
  · intro v hv
    exact denotes_ofRange_some.2 (Progression.mem_field low width hv)
  · intro hbits
    have hsame := (div_div_eq_iff field.1).2 hbits
    refine ⟨endsOf_ofRange (Progression.spans_field width hp hsame), fun hclear w => ?_⟩
    exact denotes_ofRange_some.trans
      (Progression.mem_field_iff width hp hsame (hp.twoPow_dvd_stride hclear))

/-- The numbers 352, 360 and 368 of 9 bits: bit 8 is set in all of them, and bits 3 to 7 are 12, 13
and 14. -/
theorem extract_of_steps_of_eight :
    ∃ z, (ofRange 9 (some ⟨352, 368, 8⟩)).extract 7 3 = .ok z ∧ z.Denotes 13 ∧ ¬z.Denotes 15 := by
  have hplain : (ofRange 9 (some ⟨352, 368, 8⟩)).Plain 9 :=
    plain_ofRange (by decide) ⟨by decide, by decide⟩
  have hbits : ∀ i, 7 < i → Nat.testBit 352 i = Nat.testBit 368 i :=
    (div_div_eq_iff (by decide)).1
      (by decide : 352 / twoPow 3 / twoPow 5 = 368 / twoPow 3 / twoPow 5)
  obtain ⟨z, hz, -, -, hexact⟩ := extract_bit_fields hplain rfl (by decide : FieldOf 9 7 3)
  have hdenotes := (hexact hbits).2 (.inr (.inr (by decide)))
  refine ⟨z, hz, (hdenotes 13).2 ⟨360, denotes_ofRange_some.2 (by decide), by decide⟩, fun h => ?_⟩
  obtain ⟨v, hv, heq⟩ := (hdenotes 15).1 h
  obtain ⟨hlow, hupp, -⟩ := denotes_ofRange_some.1 hv
  have htwo : twoPow 3 = 8 ∧ twoPow (7 - 3 + 1) = 32 := by decide
  rw [bitField, htwo.1, htwo.2] at heq
  simp only at hlow hupp
  omega

/-- Bits 1 and 2 of 0, 3 and 6 are 0, 1 and 3. A stride of 3 is not cleared, and 2 is added to
them. -/
example : (ofRange 3 (some ⟨0, 6, 3⟩)).extract 2 1 = .ok (ofRange 2 (some ⟨0, 3, 1⟩)) := rfl

/-! ## Extensions -/

/-- Whether there are numbers of both signs. -/
def Straddles (x : Interval) : Prop :=
  (∃ v, x.Denotes v ∧ 0 ≤ signedValue x.bits v) ∧ ∃ v, x.Denotes v ∧ signedValue x.bits v < 0

theorem signedValue_neg_iff (h : 1 ≤ bits) (hv : v < twoPow bits) :
    signedValue bits v < 0 ↔ signWeight bits ≤ v := by
  rcases Nat.lt_or_ge v (signWeight bits) with hpositive | hnegative
  · rw [signedValue_of_lt h hpositive]
    omega
  · rw [signedValue_of_le h hnegative hv]
    omega

/-- Numbers of both signs are there if the bounds have them. -/
theorem straddles_iff (hx : x.Plain bits) (hrange : x.range = some p) :
    x.Straddles ↔ p.lower < signWeight bits ∧ signWeight bits ≤ p.upper := by
  have valid : ValidWidth bits := hx.width ▸ hx.valid.width
  have hp := hx.fits hrange
  have hneg {v : Nat} (hv : v ∈ p) := signedValue_neg_iff valid.1 (hp.lt_twoPow valid hv)
  simp only [Straddles, hx.denotes_iff hrange, hx.width]
  constructor
  · rintro ⟨⟨u, hu, hupositive⟩, v, hv, hvnegative⟩
    have hupper := (hneg hv).1 hvnegative
    have hlower : ¬signWeight bits ≤ u := fun hle => Int.not_lt.2 hupositive ((hneg hu).2 hle)
    exact ⟨Nat.lt_of_le_of_lt hu.1 (Nat.not_le.1 hlower), Nat.le_trans hupper hv.2.1⟩
  · rintro ⟨hlower, hupper⟩
    refine ⟨⟨_, hp.1.lower_mem, Int.not_lt.1 fun h => ?_⟩, _, hp.1.upper_mem,
      (hneg hp.1.upper_mem).2 hupper⟩
    exact Nat.not_le.2 hlower ((hneg hp.1.lower_mem).1 h)

theorem Plain.zeroExtend_eq (hx : x.Plain bits) (hrange : x.range = some p)
    (extension : ExtensionOf bits total) : x.zeroExtend total = .ok (ofRange total (some p)) := by
  rw [zeroExtend, hx.width, if_pos extension, hx.image_eq hrange, id]

theorem Plain.signExtend_eq (hx : x.Plain bits) (hrange : x.range = some p)
    (extension : ExtensionOf bits total) :
    x.signExtend total = .ok (ofRange total (some (p.signExtend bits total))) := by
  rw [signExtend, hx.width, if_pos extension, hx.image_eq hrange]

/-- Extensions of an interval: a zero extension stands for the same numbers, a sign extension for
the numbers with their signs, and for nothing else unless there are both signs. The old bits cut out
again are the interval as it was, or anything if a sign extension has added bits to numbers of both
signs. -/
theorem extensions_undone (hx : x.Plain bits) (hsome : x.isEmpty = false)
    (extension : ExtensionOf bits total) :
    ∃ z s, x.zeroExtend total = .ok z ∧ x.signExtend total = .ok s ∧ z.Plain total ∧ s.Plain total ∧
      (∀ v, z.Denotes v ↔ x.Denotes v) ∧
      (∀ v, x.Denotes v → s.Denotes (truncateInt total (signedValue bits v))) ∧
      (¬x.Straddles → ∀ w, s.Denotes w ↔
        ∃ v, x.Denotes v ∧ truncateInt total (signedValue bits v) = w) ∧
      z.extract (bits - 1) 0 = .ok x.unnamed ∧
      (¬(x.Straddles ∧ bits < total) → s.extract (bits - 1) 0 = .ok x.unnamed) ∧
      (x.Straddles → bits < total → s.extract (bits - 1) 0 = .ok (whole bits)) := by
  obtain ⟨p, hrange⟩ := exists_range_of_nonempty hsome
  have valid : ValidWidth bits := hx.width ▸ hx.valid.width
  have hp := hx.fits hrange
  have hextended {v : Nat} (hv : v ∈ p) :
      truncateInt total (signedValue bits v) = Progression.signExtended bits total v :=
    Progression.truncateInt_signedValue valid extension.2 extension.1 (hp.lt_twoPow valid hv)
  have hz : (ofRange total (some p)).Plain total :=
    plain_ofRange extension.1 (hp.mono valid extension.2 extension.1)
  have hs : (ofRange total (some (p.signExtend bits total))).Plain total :=
    plain_ofRange extension.1 (Progression.fits_signExtend valid extension.2 extension.1 hp)
  have hside (hsign : ¬x.Straddles) : p.upper < signWeight bits ∨ signWeight bits ≤ p.lower := by
    rw [straddles_iff hx hrange] at hsign
    omega
  simp only [hx.denotes_iff hrange, hx.unnamed_eq hrange]
  refine ⟨_, _, hx.zeroExtend_eq hrange extension, hx.signExtend_eq hrange extension, hz, hs,
    fun v => denotes_ofRange_some, ?covers, ?exact, ?_, ?_, ?_⟩
  case covers =>
    intro v hv
    rw [hextended hv]
    exact denotes_ofRange_some.2 (Progression.mem_signExtend hv)
  case exact =>
    intro hsign w
    constructor
    · intro hw
      obtain ⟨v, hv, rfl⟩ :=
        Progression.exists_of_mem_signExtend (hside hsign) (denotes_ofRange_some.1 hw)
      exact ⟨v, hv, hextended hv⟩
    · rintro ⟨v, hv, rfl⟩
      rw [hextended hv]
      exact denotes_ofRange_some.2 (Progression.mem_signExtend hv)
  · rw [hz.extract_low rfl valid.1 extension.2, Progression.field_self valid hp]
  · intro hkept
    rw [hs.extract_low rfl valid.1 extension.2]
    by_cases hsign : x.Straddles
    · obtain rfl : bits = total :=
        Nat.le_antisymm extension.2 (Nat.not_lt.1 fun hlt => hkept ⟨hsign, hlt⟩)
      rw [Progression.signExtend_self hp.1, Progression.field_self valid hp]
    · rw [Progression.field_signExtend valid extension.2 hp (hside hsign)]
  · intro hsign hlt
    obtain ⟨hlower, hupper⟩ := (straddles_iff hx hrange).1 hsign
    rw [hs.extract_low rfl valid.1 extension.2,
      Progression.field_signExtend_of_straddling valid hlt hp hlower hupper]
    rfl

/-- The numbers 126, 128 and 130 of 8 bits, which are of both signs, with 120 bits added. -/
theorem extensions_over_sign_boundary :
    ∃ z s, (ofRange 8 (some ⟨126, 130, 2⟩)).zeroExtend 128 = .ok z ∧
      (ofRange 8 (some ⟨126, 130, 2⟩)).signExtend 128 = .ok s ∧ z.Denotes 130 ∧
      s.Denotes (truncateInt 128 (signedValue 8 130)) ∧
      z.extract 7 0 = .ok (ofRange 8 (some ⟨126, 130, 2⟩)) ∧ s.extract 7 0 = .ok (whole 8) := by
  have hplain : (ofRange 8 (some ⟨126, 130, 2⟩)).Plain 8 :=
    plain_ofRange (by decide) ⟨by decide, by decide⟩
  have hsign : (ofRange 8 (some ⟨126, 130, 2⟩)).Straddles :=
    (straddles_iff hplain rfl).2 (by decide)
  have hmem : (ofRange 8 (some ⟨126, 130, 2⟩)).Denotes 130 := denotes_ofRange_some.2 (by decide)
  have extension : ExtensionOf 8 128 := by decide
  obtain ⟨z, s, hz, hs, -, -, hsame, hcovers, -, hback, -, hlost⟩ :=
    extensions_undone hplain rfl extension
  exact ⟨z, s, hz, hs, (hsame 130).2 hmem, hcovers 130 hmem, hback, hlost hsign (by decide)⟩

/-! ## Shifts -/

/-- What an interval stands for if another one is shifted to the right by amounts of a family: all
shifts, with the least and the greatest of them as bounds. -/
structure ShiftsBy (amounts : Nat → Prop) (x z : Interval) : Prop where
  plain : z.Plain x.bits
  covers : ∀ v s, x.Denotes v → amounts s → z.Denotes (v / twoPow s)
  ends : EndsOf (fun w => ∃ v s, x.Denotes v ∧ amounts s ∧ v / twoPow s = w) z
  /-- A single amount that clears the stride, or all bits, leaves nothing but shifts. -/
  exact : ∀ s, (∀ t, amounts t ↔ t = s) → x.bits ≤ s ∨ twoPow s ∣ x.stride →
    ∀ w, z.Denotes w ↔ ∃ v, x.Denotes v ∧ v / twoPow s = w

theorem Plain.shiftRight_eq (hx : x.Plain m) (hy : y.Plain n) (hxrange : x.range = some p)
    (hyrange : y.range = some q) : x.shiftRight y = ofRange m (some (p.shiftRight m q)) := by
  rw [shiftRight, cover_of_not_reversed hx.unreversed, cover_of_not_reversed hy.unreversed, hxrange,
    hyrange, hx.width]
  rfl

/-- A progression of one number. -/
theorem eq_single_of_mem_iff {s : Nat} (hq : q.Normal) (h : ∀ t, t ∈ q ↔ t = s) :
    q = .single s := by
  have hlower := (h _).1 hq.lower_mem
  have hupper := (h _).1 hq.upper_mem
  have hsingle : q.isSingle = true := beq_iff_eq.2 (hlower.trans hupper.symm)
  rw [hq.eq_single hsingle, hlower]

/-- The amounts need not fit any width. -/
theorem shiftsBy_ofRange (hx : x.Plain m) (hrange : x.range = some p) (hq : q.Normal) :
    ShiftsBy (· ∈ q) x (ofRange m (some (p.shiftRight m q))) := by
  have valid : ValidWidth m := hx.width ▸ hx.valid.width
  have hp := hx.fits hrange
  have hspans := Progression.spans_shiftRight valid hp hq
  constructor
  case plain =>
    rw [hx.width]
    exact plain_ofRange valid (Progression.fits_shiftRight hq hp)
  case covers =>
    intro v s hv hs
    exact denotes_ofRange_some.2 (hspans.covers _ ⟨v, (hx.denotes_iff hrange).1 hv, s, hs, rfl⟩)
  case ends =>
    simp only [hx.denotes_iff hrange, exists_and_left]
    exact endsOf_ofRange hspans
  case exact =>
    intro s hs hclear w
    obtain ⟨-, -, hstride, -⟩ := ends_of_range hrange
    rw [hx.width, hstride] at hclear
    rw [eq_single_of_mem_iff hq hs, denotes_ofRange_some,
      Progression.mem_shiftRight_iff valid hp hclear]
    simp only [hx.denotes_iff hrange]

end Interval

end AbstractBits
