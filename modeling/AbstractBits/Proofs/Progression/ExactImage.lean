import AbstractBits.Proofs.Progression.Monotone
/-!
# Images of progressions that are exact

Some images of a progression are described without loss, and of others at least the ends are images.
A shift always ends in images, and a bit field does so when the bits above it are the same for all
members. Both have nothing but images if the stride clears all the bits that are shifted out. A
number whose low bits are the members of a progression gives the progression back when these bits
are cut out of it.

Results:
  * `testBit_bitField` — the bits of a bit field.
  * `spans_field`, `spans_shiftRight` — the ends of bit fields and shifts are images.
  * `mem_field_iff`, `mem_shiftRight_iff` — when there are no other members than images.
  * `field_of_block`, `field_signExtend` — low bits cut out of what they were put into.
-/

namespace AbstractBits

/-- Bits `low` to `high` of a number, as a number. -/
def bitField (high low v : Nat) : Nat := v / twoPow low % twoPow (high - low + 1)

/-- Bit `i` of a bit field is bit `low + i` of the number, up to the end of the field. -/
theorem testBit_bitField (high low v i : Nat) :
    (bitField high low v).testBit i = (decide (i < high - low + 1) && v.testBit (low + i)) := by
  have hmod := Nat.testBit_mod_two_pow (v / twoPow low) (high - low + 1) i
  have hdiv : (v / twoPow low).testBit i = v.testBit (low + i) := by
    rw [Nat.add_comm]
    exact Nat.testBit_div_two_pow v i
  rw [← hdiv]
  exact hmod

/-- Numbers have the same quotient by a power of two if they have the same bits from there on. -/
theorem div_twoPow_eq_iff {n u v : Nat} :
    u / twoPow n = v / twoPow n ↔ ∀ i, n ≤ i → u.testBit i = v.testBit i := by
  have hbit (w i : Nat) : (w / twoPow n).testBit i = w.testBit (i + n) :=
    Nat.testBit_div_two_pow w i
  constructor
  · intro h i hi
    obtain ⟨k, rfl⟩ := Nat.exists_eq_add_of_le' hi
    rw [← hbit, ← hbit, h]
  · intro h
    refine Nat.eq_of_testBit_eq fun i => ?_
    rw [hbit, hbit]
    exact h _ (Nat.le_add_left _ _)

/-- The high part of a number put together from two. -/
theorem append_div_twoPow {n high low : Nat} (hlow : low < twoPow n) :
    (high * twoPow n + low) / twoPow n = high := by
  rw [Nat.mul_comm, Nat.mul_add_div (twoPow_pos n), Nat.div_eq_of_lt hlow, Nat.add_zero]

/-- The low part of a number put together from two. -/
theorem append_mod_twoPow {n high low : Nat} (hlow : low < twoPow n) :
    (high * twoPow n + low) % twoPow n = low := by
  rw [Nat.mul_comm, Nat.mul_add_mod, Nat.mod_eq_of_lt hlow]

theorem div_twoPow_zero (v : Nat) : v / twoPow 0 = v := Nat.div_one v

theorem div_twoPow_div_twoPow (m n v : Nat) : v / twoPow m / twoPow n = v / twoPow (m + n) := by
  rw [Nat.div_div_eq_div_mul, twoPow_add]

namespace Progression

variable {bits : Nat} {p q : Progression} {v w : Nat}

/-! ## Ends -/

/-- A progression with all numbers of a family that begins and ends in numbers of it. -/
structure Spans (F : Nat → Prop) (p : Progression) : Prop where
  covers : ∀ v, F v → v ∈ p
  lower : F p.lower
  upper : F p.upper

/-- An end in the class of the lower bound is kept. -/
theorem upper_between_of_dvd {lower upper stride : Nat} (hle : lower ≤ upper)
    (hdvd : stride ∣ upper - lower) : (between lower upper stride).upper = upper :=
  Nat.le_antisymm (upper_between_le stride hle) (mem_between_of hle (Nat.le_refl _) hdvd).2.1

theorem between_max (lower upper stride : Nat) :
    between lower upper (max stride 1) = between lower upper stride := by
  simp only [between, Nat.max_assoc, Nat.max_self]

theorem mem_between_add {lower upper stride : Nat} (c : Nat) (hle : lower ≤ upper)
    (hv : v ∈ between lower upper stride) : c + v ∈ between (c + lower) (c + upper) stride := by
  rw [← between_max] at hv ⊢
  obtain ⟨hlow, hupp, hstep⟩ :=
    (mem_between (Nat.lt_of_lt_of_le Nat.one_pos (Nat.le_max_right _ _)) hle).1 hv
  refine mem_between_of (Nat.add_le_add_left hlow c) (Nat.add_le_add_left hupp c) ?_
  rwa [Nat.add_sub_add_left]

/-! ## Shifts by one amount -/

/-- What is left of the members when `amount` low bits go. A member of the image comes from the
member that is as many steps above the lower bound. -/
theorem mem_shifted_iff {amount : Nat} (hp : p.Normal) (hclear : twoPow amount ∣ p.stride) :
    w ∈ between (p.lower / twoPow amount) (p.upper / twoPow amount)
      (strideAfterShift p.stride amount) ↔ ∃ v ∈ p, v / twoPow amount = w := by
  have hpos := twoPow_pos amount
  constructor
  · intro hw
    have hstride : p.lower / twoPow amount < p.upper / twoPow amount →
        0 < strideAfterShift p.stride amount := by
      intro hlt
      have hne : p.lower ≠ p.upper := fun heq => Nat.ne_of_lt hlt (by rw [heq])
      exact strideAfterShift_pos amount (hp.stride_pos_of_ne hne)
    obtain ⟨hlow, hupp, hstep⟩ := of_mem_between (Nat.div_le_div_right hp.1) hstride hw
    rw [strideAfterShift, if_pos hclear] at hstep
    obtain ⟨m, hm⟩ := hclear
    obtain ⟨k, hk⟩ := hp.2.2
    rw [hm, Nat.mul_div_cancel_left _ hpos] at hstep
    have hupper : p.upper = p.lower + twoPow amount * (m * k) := by
      rw [← Nat.mul_assoc, ← hm, ← hk, Nat.add_sub_cancel' hp.1]
    rw [hupper, Nat.add_mul_div_left _ _ hpos] at hupp
    refine ⟨p.lower + twoPow amount * (w - p.lower / twoPow amount),
      ⟨Nat.le_add_right _ _, ?_, ?_⟩, ?_⟩
    · rw [hupper]
      exact Nat.add_le_add_left (Nat.mul_le_mul_left _ (Nat.sub_le_iff_le_add'.2 hupp)) _
    · rw [Nat.add_sub_cancel_left, hm]
      exact Nat.mul_dvd_mul_left _ hstep
    · rw [Nat.add_mul_div_left _ _ hpos, Nat.add_sub_cancel' hlow]
  · rintro ⟨v, hv, rfl⟩
    exact mem_between_of (Nat.div_le_div_right hv.1) (Nat.div_le_div_right hv.2.1)
      (dvd_strideAfterShift amount hv.1 hv.2.2)

/-- The stride of a single member clears all bits. -/
theorem Normal.twoPow_dvd_stride {amount : Nat} (hp : p.Normal)
    (h : p.isSingle = true ∨ amount = 0 ∨ twoPow amount ∣ p.stride) : twoPow amount ∣ p.stride := by
  rcases h with hsingle | rfl | hdvd
  · rw [hp.eq_single hsingle]
    exact Nat.dvd_zero _
  · exact Nat.one_dvd _
  · exact hdvd

/-! ## Bit fields -/

theorem field_of_same {width low : Nat}
    (hsame : p.lower / twoPow low / twoPow width = p.upper / twoPow low / twoPow width) :
    p.field width low =
      between (p.lower / twoPow low % twoPow width) (p.upper / twoPow low % twoPow width)
        (strideAfterShift p.stride low) := by
  simp only [field, if_pos hsame]

/-- When the bits above it are the same for all members, a bit field begins in that of the first
member and ends in that of the last one. -/
theorem spans_field {width low : Nat} (valid : ValidWidth width) (hp : p.Normal)
    (hsame : p.lower / twoPow low / twoPow width = p.upper / twoPow low / twoPow width) :
    Spans (fun w => ∃ v ∈ p, v / twoPow low % twoPow width = w) (p.field width low) := by
  have hends : p.lower / twoPow low ≤ p.upper / twoPow low := Nat.div_le_div_right hp.1
  obtain ⟨hle, hsub⟩ := mod_sub_mod_of_div_eq hends hsame
  constructor
  case covers =>
    rintro _ ⟨v, hv, rfl⟩
    exact mem_field low valid hv
  case lower =>
    rw [field_of_same hsame, lower_between]
    exact ⟨p.lower, hp.lower_mem, rfl⟩
  case upper =>
    rw [field_of_same hsame, upper_between_of_dvd hle]
    · exact ⟨p.upper, hp.upper_mem, rfl⟩
    · rw [hsub]
      exact dvd_strideAfterShift low hp.1 hp.2.2

/-- When in addition the stride clears the bits below it, the bit field has no other members than
those of the members. With the common high part in front, a number of the field is what a shift
makes of a member. -/
theorem mem_field_iff {width low : Nat} (valid : ValidWidth width) (hp : p.Normal)
    (hsame : p.lower / twoPow low / twoPow width = p.upper / twoPow low / twoPow width)
    (hclear : twoPow low ∣ p.stride) :
    w ∈ p.field width low ↔ ∃ v ∈ p, v / twoPow low % twoPow width = w := by
  constructor
  · intro hw
    have hlt : w < twoPow width := (fits_field low valid hp).lt_twoPow valid hw
    rw [field_of_same hsame] at hw
    have hends := (mod_sub_mod_of_div_eq (Nat.div_le_div_right hp.1) hsame).1
    have hshifted := mem_between_add (twoPow width * (p.lower / twoPow low / twoPow width)) hends hw
    rw [Nat.div_add_mod, hsame, Nat.div_add_mod] at hshifted
    obtain ⟨v, hv, heq⟩ := (mem_shifted_iff hp hclear).1 hshifted
    exact ⟨v, hv, by rw [heq, Nat.mul_add_mod, Nat.mod_eq_of_lt hlt]⟩
  · rintro ⟨v, hv, rfl⟩
    exact mem_field low valid hv

/-- The low bits of numbers with one high part are the progression that was put there. -/
theorem field_of_block {width : Nat} (valid : ValidWidth width) (hp : p.Fits width) (high : Nat) :
    field width 0 ⟨high * twoPow width + p.lower, high * twoPow width + p.upper, p.stride⟩ = p := by
  have hlower := hp.lt_twoPow valid hp.1.lower_mem
  have hupper := hp.lt_twoPow valid hp.1.upper_mem
  have hsame : (high * twoPow width + p.lower) / twoPow 0 / twoPow width =
      (high * twoPow width + p.upper) / twoPow 0 / twoPow width := by
    rw [div_twoPow_zero, div_twoPow_zero, append_div_twoPow hlower, append_div_twoPow hupper]
  have hstride : strideAfterShift p.stride 0 = p.stride := by
    have hclear : twoPow 0 ∣ p.stride := Nat.one_dvd _
    rw [strideAfterShift, if_pos hclear, div_twoPow_zero]
  rw [field_of_same hsame]
  simp only [div_twoPow_zero, hstride, append_mod_twoPow hlower, append_mod_twoPow hupper,
    between_eq_self hp.1]

/-- All bits of a width are the progression itself. -/
theorem field_self {width : Nat} (valid : ValidWidth width) (hp : p.Fits width) :
    p.field width 0 = p := by
  have hblock := field_of_block valid hp 0
  rwa [Nat.zero_mul, Nat.zero_add, Nat.zero_add] at hblock

/-- A bit field above which the bits change admits every number. -/
theorem field_of_crossing {width low : Nat}
    (hcross : p.lower / twoPow low / twoPow width ≠ p.upper / twoPow low / twoPow width) :
    p.field width low = whole width := by
  simp only [field, if_neg hcross]

/-! ## Sign extension -/

theorem fill_eq {total : Nat} (hle : bits ≤ total) :
    twoPow total - twoPow bits = (twoPow (total - bits) - 1) * twoPow bits := by
  rw [Nat.sub_mul, Nat.one_mul, ← twoPow_add, Nat.sub_add_cancel hle]

/-- Without a change of sign the bits that a sign extension adds can be cut off again. -/
theorem field_signExtend {total : Nat} (valid : ValidWidth bits) (hle : bits ≤ total)
    (hp : p.Fits bits) (hside : p.upper < signWeight bits ∨ signWeight bits ≤ p.lower) :
    (p.signExtend bits total).field bits 0 = p := by
  by_cases hpositive : p.upper < signWeight bits
  · rw [signExtend, if_pos hpositive]
    exact field_self valid hp
  · have hblock := field_of_block valid hp (twoPow (total - bits) - 1)
    rw [← fill_eq hle, Nat.add_comm, Nat.add_comm _ p.upper] at hblock
    rw [signExtend, if_neg hpositive, if_pos (hside.resolve_left hpositive)]
    exact hblock

/-- A sign extension to the same width changes nothing. -/
theorem signExtend_self (hp : p.Normal) : p.signExtend bits bits = p := by
  simp only [signExtend, Nat.sub_self, Nat.add_zero, Nat.gcd_zero_right, between_eq_self hp,
    ite_self]

/-- With members of both signs the added bits are not the same for all of them. -/
theorem field_signExtend_of_straddling {total : Nat} (valid : ValidWidth bits) (hlt : bits < total)
    (hp : p.Fits bits) (hlower : p.lower < signWeight bits) (hupper : signWeight bits ≤ p.upper) :
    (p.signExtend bits total).field bits 0 = whole bits := by
  have hpos := twoPow_pos bits
  have hend : p.lower ≤ p.upper + (twoPow total - twoPow bits) :=
    Nat.le_trans hp.1.1 (Nat.le_add_right _ _)
  have hdvd : Nat.gcd p.stride (twoPow total - twoPow bits) ∣
      p.upper + (twoPow total - twoPow bits) - p.lower := by
    rw [Nat.sub_add_comm hp.1.1]
    exact Nat.dvd_add (Nat.dvd_trans (Nat.gcd_dvd_left _ _) hp.1.2.2) (Nat.gcd_dvd_right _ _)
  rw [signExtend, if_neg (Nat.not_lt.2 hupper), if_neg (Nat.not_le.2 hlower)]
  refine field_of_crossing ?_
  rw [lower_between, upper_between_of_dvd hend hdvd, div_twoPow_zero, div_twoPow_zero,
    fill_eq (Nat.le_of_lt hlt), Nat.div_eq_of_lt (hp.lt_twoPow valid hp.1.lower_mem),
    Nat.add_mul_div_right _ _ hpos, Nat.div_eq_of_lt (hp.lt_twoPow valid hp.1.upper_mem),
    Nat.zero_add]
  have hadded : 1 < twoPow (total - bits) := Nat.one_lt_two_pow (Nat.sub_ne_zero_of_lt hlt)
  omega

/-! ## Shifts -/

/-- A shift by any of several amounts begins and ends in shifts of members. -/
theorem spans_shiftRight (valid : ValidWidth bits) (hp : p.Fits bits) (hq : q.Normal) :
    Spans (fun w => ∃ v ∈ p, ∃ s ∈ q, v / twoPow s = w) (p.shiftRight bits q) := by
  have hlower := hp.lt_twoPow valid hp.1.lower_mem
  have hupper := hp.lt_twoPow valid hp.1.upper_mem
  constructor
  case covers =>
    rintro _ ⟨v, hv, s, hs, rfl⟩
    exact mem_shiftRight hq (hp.lt_twoPow valid hv) hv hs
  case lower =>
    refine ⟨p.lower, hp.1.lower_mem, q.upper, hq.upper_mem, ?_⟩
    rw [← div_twoPow_min hlower]
    simp only [shiftRight]
    split
    · rename_i hsingle
      rw [lower_between, hq.eq_single hsingle]
      rfl
    · rw [lower_between]
  case upper =>
    refine ⟨p.upper, hp.1.upper_mem, q.lower, hq.lower_mem, ?_⟩
    rw [← div_twoPow_min hupper]
    simp only [shiftRight]
    split
    · rw [upper_between_of_dvd (Nat.div_le_div_right hp.1.1)
        (dvd_strideAfterShift _ hp.1.1 hp.1.2.2)]
    · have hamount : min q.lower bits ≤ min q.upper bits := by
        have := hq.1
        omega
      rw [upper_between_of_dvd (div_twoPow_le_div_twoPow hamount hp.1.1) (Nat.one_dvd _)]

theorem shiftRight_single (s : Nat) :
    p.shiftRight bits (single s) =
      between (p.lower / twoPow (min s bits)) (p.upper / twoPow (min s bits))
      (strideAfterShift p.stride (min s bits)) := by
  have hsingle : (single s).isSingle = true := beq_self_eq_true s
  simp only [shiftRight, hsingle, if_true]
  rfl

/-- The bits from one position up to the top are what a shift by it leaves. -/
theorem field_to_top {n : Nat} (valid : ValidWidth bits) (hp : p.Fits bits) (hn : n ≤ bits) :
    p.field (bits - n) n = p.shiftRight bits (single n) := by
  have htop {v : Nat} (hv : v ∈ p) : v / twoPow n < twoPow (bits - n) := by
    refine Nat.div_lt_of_lt_mul ?_
    rw [← twoPow_add, Nat.add_sub_cancel' hn]
    exact hp.lt_twoPow valid hv
  have hlower := htop hp.1.lower_mem
  have hupper := htop hp.1.upper_mem
  rw [field_of_same (by rw [Nat.div_eq_of_lt hlower, Nat.div_eq_of_lt hupper]),
    Nat.mod_eq_of_lt hlower, Nat.mod_eq_of_lt hupper, shiftRight_single, Nat.min_eq_left hn]

/-- A shift by one amount that clears the stride, or all bits, has no other members than shifts of
members. -/
theorem mem_shiftRight_iff {s : Nat} (valid : ValidWidth bits) (hp : p.Fits bits)
    (hclear : bits ≤ s ∨ twoPow s ∣ p.stride) :
    w ∈ p.shiftRight bits (single s) ↔ ∃ v ∈ p, v / twoPow s = w := by
  rw [shiftRight_single]
  by_cases hall : bits ≤ s
  · have hzero {n v : Nat} (hn : bits ≤ n) (hv : v ∈ p) : v / twoPow n = 0 :=
      Nat.div_eq_of_lt (Nat.lt_of_lt_of_le (hp.lt_twoPow valid hv) (twoPow_le_twoPow hn))
    rw [Nat.min_eq_right hall, hzero (Nat.le_refl _) hp.1.lower_mem,
      hzero (Nat.le_refl _) hp.1.upper_mem, between_self, mem_single]
    constructor
    · rintro rfl
      exact ⟨p.lower, hp.1.lower_mem, hzero hall hp.1.lower_mem⟩
    · rintro ⟨v, hv, rfl⟩
      exact hzero hall hv
  · rw [Nat.min_eq_left (Nat.le_of_not_le hall)]
    exact mem_shifted_iff hp.1 (hclear.resolve_left hall)

end Progression

end AbstractBits
