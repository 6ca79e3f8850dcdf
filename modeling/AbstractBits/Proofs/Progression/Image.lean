import AbstractBits.Comparison
import AbstractBits.Progression.Operations
import AbstractBits.Proofs.Progression.Meet
/-!
# What bit operations make of members

The image of every member under a bit operation is a member of the progression that the operation
builds, and the bounds of a progression are bounds of its members in either reading.

Results:
  * `mem_field`, `mem_append`, `mem_signExtend`, `mem_shiftRight` — images of members are members.
  * `bounds_le` — no member is outside the bounds.
-/

namespace AbstractBits

namespace Progression

variable {bits : Nat} {p : Progression} {v : Nat}

theorem Fits.lt_twoPow (valid : ValidWidth bits) (hp : p.Fits bits) (hv : v ∈ p) :
    v < twoPow bits :=
  (le_allOnes_iff valid).1 (Nat.le_trans hv.2.1 hp.2)

/-! ## Bit fields -/

theorem dvd_strideAfterShift {stride lower : Nat} (amount : Nat) (hle : lower ≤ v)
    (h : stride ∣ v - lower) :
    strideAfterShift stride amount ∣ v / twoPow amount - lower / twoPow amount := by
  unfold strideAfterShift
  split
  · rename_i hclear
    obtain ⟨m, rfl⟩ := hclear
    obtain ⟨t, ht⟩ := h
    have hv : v = lower + twoPow amount * (m * t) := by
      rw [← Nat.mul_assoc]
      omega
    rw [hv, Nat.add_mul_div_left _ _ (twoPow_pos amount),
      Nat.mul_div_cancel_left _ (twoPow_pos amount), Nat.add_sub_cancel_left]
    exact Nat.dvd_mul_right m t
  · exact Nat.one_dvd _

/-- Numbers with the same high part are ordered by their low parts, at the same distance. -/
theorem mod_sub_mod_of_div_eq {m a b : Nat} (hab : a ≤ b) (h : a / m = b / m) :
    a % m ≤ b % m ∧ b % m - a % m = b - a := by
  have ha := Nat.div_add_mod a m
  have hb := Nat.div_add_mod b m
  rw [h] at ha
  omega

/-- Between two numbers with the same high part there are only numbers with that high part. -/
theorem div_eq_of_between {m a b c : Nat} (hab : a ≤ b) (hbc : b ≤ c) (h : a / m = c / m) :
    a / m = b / m :=
  Nat.le_antisymm (Nat.div_le_div_right hab) (h ▸ Nat.div_le_div_right hbc)

theorem mem_field {width : Nat} (low : Nat) (valid : ValidWidth width) (hv : v ∈ p) :
    v / twoPow low % twoPow width ∈ p.field width low := by
  have hlow : p.lower / twoPow low ≤ v / twoPow low := Nat.div_le_div_right hv.1
  have hupp : v / twoPow low ≤ p.upper / twoPow low := Nat.div_le_div_right hv.2.1
  simp only [field]
  split
  · rename_i hsame
    have hmid := div_eq_of_between hlow hupp hsame
    obtain ⟨hle, hsub⟩ := mod_sub_mod_of_div_eq hlow hmid
    refine mem_between_of hle (mod_sub_mod_of_div_eq hupp (hmid.symm.trans hsame)).1 ?_
    rw [hsub]
    exact dvd_strideAfterShift low hv.1 hv.2.2
  · exact mem_whole.2 ((le_allOnes_iff valid).2 (Nat.mod_lt _ (twoPow_pos width)))

theorem fits_field {width : Nat} (low : Nat) (valid : ValidWidth width) (hp : p.Normal) :
    (p.field width low).Fits width := by
  have hle : p.lower / twoPow low ≤ p.upper / twoPow low := Nat.div_le_div_right hp.1
  simp only [field]
  split
  · rename_i hsame
    refine fits_between _ (mod_sub_mod_of_div_eq hle hsame).1 ?_
    exact (le_allOnes_iff valid).2 (Nat.mod_lt _ (twoPow_pos width))
  · exact fits_whole width

/-! ## Joining end to end -/

/-- Numbers put one behind the other fit the sum of their widths. -/
theorem append_lt_twoPow {highBits lowBits high low : Nat} (hhigh : high < twoPow highBits)
    (hlow : low < twoPow lowBits) : high * twoPow lowBits + low < twoPow (highBits + lowBits) := by
  have hmul := Nat.mul_le_mul_right (twoPow lowBits) (Nat.succ_le_of_lt hhigh)
  rw [Nat.succ_mul] at hmul
  rw [twoPow_add]
  omega

/-- Numbers put end to end are in one class if both parts are. -/
theorem dvd_append_sub {high low : Progression} {u : Nat} (lowBits : Nat) (hu : u ∈ high)
    (hv : v ∈ low) :
    Nat.gcd (high.stride * twoPow lowBits) low.stride ∣
      u * twoPow lowBits + v - (high.lower * twoPow lowBits + low.lower) := by
  have hsub : u * twoPow lowBits + v - (high.lower * twoPow lowBits + low.lower)
      = (u - high.lower) * twoPow lowBits + (v - low.lower) := by
    have hlower := Nat.mul_le_mul_right (twoPow lowBits) hu.1
    have := hv.1
    rw [Nat.sub_mul]
    omega
  rw [hsub]
  refine Nat.dvd_add ?_ (Nat.dvd_trans (Nat.gcd_dvd_right _ _) hv.2.2)
  exact Nat.dvd_trans (Nat.gcd_dvd_left _ _) (Nat.mul_dvd_mul_right hu.2.2 _)

theorem mem_append {high low : Progression} {u : Nat} (lowBits : Nat) (hu : u ∈ high)
    (hv : v ∈ low) : u * twoPow lowBits + v ∈ high.append lowBits low := by
  have hlower := Nat.mul_le_mul_right (twoPow lowBits) hu.1
  have hupper := Nat.mul_le_mul_right (twoPow lowBits) hu.2.1
  exact mem_between_of (Nat.add_le_add hlower hv.1) (Nat.add_le_add hupper hv.2.1)
    (dvd_append_sub lowBits hu hv)

theorem fits_append {highBits lowBits : Nat} {high low : Progression} (hhigh : ValidWidth highBits)
    (hlow : ValidWidth lowBits) (total : ValidWidth (highBits + lowBits)) (hh : high.Fits highBits)
    (hl : low.Fits lowBits) : (high.append lowBits low).Fits (highBits + lowBits) := by
  refine fits_between _ ?_ ((le_allOnes_iff total).2 ?_)
  · exact Nat.add_le_add (Nat.mul_le_mul_right _ hh.1.1) hl.1.1
  · exact append_lt_twoPow ((le_allOnes_iff hhigh).1 hh.2) ((le_allOnes_iff hlow).1 hl.2)

/-! ## Sign extension -/

/-- A number of `bits` bits with its sign bit repeated up to `total` bits. -/
def signExtended (bits total value : Nat) : Nat :=
  if value < signWeight bits then value else value + (twoPow total - twoPow bits)

theorem twoPow_le_twoPow {m n : Nat} (h : m ≤ n) : twoPow m ≤ twoPow n :=
  Nat.pow_le_pow_right (by decide) h

/-- Repeating the sign bit keeps the signed reading. -/
theorem truncateInt_signedValue {total : Nat} (valid : ValidWidth bits) (hle : bits ≤ total)
    (htotal : ValidWidth total) (hv : v < twoPow bits) :
    truncateInt total (signedValue bits v) = signExtended bits total v := by
  have hpow := twoPow_le_twoPow hle
  unfold truncateInt signExtended
  rw [modulus_of_valid htotal]
  split
  · rename_i hpositive
    rw [signedValue_of_lt valid.1 hpositive, Int.emod_eq_of_lt (by omega) (by omega)]
    exact Int.toNat_natCast v
  · rename_i hnegative
    rw [signedValue_of_le valid.1 (Nat.not_lt.1 hnegative) hv]
    have hwrap : ((v : Int) - (twoPow bits : Int)) % (twoPow total : Int)
        = (v : Int) - (twoPow bits : Int) + (twoPow total : Int) := by
      rw [← Int.add_emod_right]
      exact Int.emod_eq_of_lt (by omega) (by omega)
    rw [hwrap]
    omega

theorem mem_signExtend {total : Nat} (hv : v ∈ p) :
    signExtended bits total v ∈ p.signExtend bits total := by
  obtain ⟨hlow, hupp, hdvd⟩ := hv
  simp only [signExtend, signExtended]
  split
  · rename_i hpositive
    rw [if_pos (Nat.lt_of_le_of_lt hupp hpositive)]
    exact ⟨hlow, hupp, hdvd⟩
  split
  · rename_i hnegative
    rw [if_neg (Nat.not_lt.2 (Nat.le_trans hnegative hlow))]
    refine ⟨Nat.add_le_add_right hlow _, Nat.add_le_add_right hupp _, ?_⟩
    simpa only [Nat.add_sub_add_right] using hdvd
  · split
    · refine mem_between_of hlow (Nat.le_trans hupp (Nat.le_add_right _ _)) ?_
      exact Nat.dvd_trans (Nat.gcd_dvd_left _ _) hdvd
    · refine mem_between_of (Nat.le_trans hlow (Nat.le_add_right _ _))
        (Nat.add_le_add_right hupp _) ?_
      rw [Nat.sub_add_comm hlow]
      exact Nat.dvd_add (Nat.dvd_trans (Nat.gcd_dvd_left _ _) hdvd) (Nat.gcd_dvd_right _ _)

theorem fits_signExtend {total : Nat} (valid : ValidWidth bits) (hle : bits ≤ total)
    (htotal : ValidWidth total) (hp : p.Fits bits) : (p.signExtend bits total).Fits total := by
  have hpow := twoPow_le_twoPow hle
  have hupp := (le_allOnes_iff valid).1 hp.2
  have hend : p.upper + (twoPow total - twoPow bits) ≤ allOnes total :=
    (le_allOnes_iff htotal).2 (by omega)
  simp only [signExtend]
  split
  · exact ⟨hp.1, by omega⟩
  split
  · obtain ⟨⟨hlu, hzero, hdvd⟩, -⟩ := hp
    refine ⟨⟨Nat.add_le_add_right hlu _, ?_, ?_⟩, hend⟩
    · simp only
      omega
    · simpa only [Nat.add_sub_add_right] using hdvd
  · exact fits_between _ (Nat.le_trans hp.1.1 (Nat.le_add_right _ _)) hend

/-- Numbers of a width fit every wider one. -/
theorem Fits.mono {total : Nat} (valid : ValidWidth bits) (hle : bits ≤ total)
    (htotal : ValidWidth total) (hp : p.Fits bits) : p.Fits total := by
  have hupp := (le_allOnes_iff valid).1 hp.2
  exact ⟨hp.1, (le_allOnes_iff htotal).2 (Nat.lt_of_lt_of_le hupp (twoPow_le_twoPow hle))⟩

/-! ## Shift -/

/-- All shifts by the width or more give 0. -/
theorem div_twoPow_min {s : Nat} (hv : v < twoPow bits) :
    v / twoPow (min s bits) = v / twoPow s := by
  rcases Nat.le_total s bits with hle | hle
  · rw [Nat.min_eq_left hle]
  · rw [Nat.min_eq_right hle, Nat.div_eq_of_lt hv,
      Nat.div_eq_of_lt (Nat.lt_of_lt_of_le hv (twoPow_le_twoPow hle))]

theorem div_twoPow_le_div_twoPow {s t u : Nat} (hst : s ≤ t) (huv : u ≤ v) :
    u / twoPow t ≤ v / twoPow s :=
  Nat.le_trans (Nat.div_le_div_right huv)
    (Nat.div_le_div_left (twoPow_le_twoPow hst) (twoPow_pos s))

theorem mem_shiftRight {amount : Progression} {s : Nat} (ha : amount.Normal)
    (hbits : v < twoPow bits) (hv : v ∈ p) (hs : s ∈ amount) :
    v / twoPow s ∈ p.shiftRight bits amount := by
  rw [← div_twoPow_min hbits]
  simp only [shiftRight]
  split
  · rename_i hsingle
    rw [ha.eq_single hsingle, mem_single] at hs
    subst hs
    exact mem_between_of (Nat.div_le_div_right hv.1) (Nat.div_le_div_right hv.2.1)
      (dvd_strideAfterShift _ hv.1 hv.2.2)
  · have hlow := hs.1
    have hupp := hs.2.1
    refine mem_between_of ?_ ?_ (Nat.one_dvd _)
    · exact div_twoPow_le_div_twoPow (by omega) hv.1
    · exact div_twoPow_le_div_twoPow (by omega) hv.2.1

theorem fits_shiftRight {amount : Progression} (ha : amount.Normal) (hp : p.Fits bits) :
    (p.shiftRight bits amount).Fits bits := by
  have hle := ha.1
  have hend (k : Nat) : p.upper / twoPow k ≤ allOnes bits := Nat.le_trans (Nat.div_le_self _ _) hp.2
  simp only [shiftRight]
  split
  · exact fits_between _ (Nat.div_le_div_right hp.1.1) (hend _)
  · exact fits_between _ (div_twoPow_le_div_twoPow (by omega) hp.1.1) (hend _)

/-! ## Bounds -/

/-- The numbers without the sign bit keep their order in the signed reading, and so do those with
it. -/
theorem signedValue_le_signedValue {u : Nat} (h : 1 ≤ bits) (huv : u ≤ v) (hv : v < twoPow bits)
    (hside : v < signWeight bits ∨ signWeight bits ≤ u) :
    signedValue bits u ≤ signedValue bits v := by
  rcases hside with hpos | hneg
  · rw [signedValue_of_lt h hpos, signedValue_of_lt h (Nat.lt_of_le_of_lt huv hpos)]
    omega
  · rw [signedValue_of_le h hneg (Nat.lt_of_le_of_lt huv hv),
      signedValue_of_le h (Nat.le_trans hneg huv) hv]
    omega

/-- Numbers with the sign bit come first in the signed reading. -/
theorem signedValue_le_of_sign {u : Nat} (h : 1 ≤ bits) (hu : signWeight bits ≤ u)
    (hub : u < twoPow bits) (hv : v < signWeight bits) :
    signedValue bits u ≤ signedValue bits v := by
  rw [signedValue_of_le h hu hub, signedValue_of_lt h hv]
  omega

/-- If the members cross the sign boundary, the first negative one is not past any other negative
one. -/
theorem signedEnds_le (valid : ValidWidth bits) (hp : p.Fits bits) (hv : v ∈ p) :
    (p.signedEnds bits).1 ≤ signedValue bits v ∧ signedValue bits v ≤ (p.signedEnds bits).2 := by
  have hvb := hp.lt_twoPow valid hv
  have hub := hp.lt_twoPow valid hp.1.upper_mem
  simp only [signedEnds]
  split
  · rename_i hcross
    obtain ⟨first, hfirst, hfu⟩ := exists_firstFrom (Nat.le_of_lt hcross.1) hcross.2 hp.1.2.2
      (Nat.lt_of_le_of_lt hp.2 (allOnes_lt bits))
    obtain ⟨hfloor, hclass⟩ := mem_firstFrom (Nat.le_of_lt hcross.1) hfirst
    have hhalf : p.lower ≤ signWeight bits - 1 := by omega
    have hlast : lastUpTo p.lower p.stride (signWeight bits - 1) ≤ signWeight bits - 1 :=
      lastUpTo_le hhalf
    have hstride : 0 < p.stride := by
      have hne : p.lower ≠ p.upper := by omega
      exact Nat.pos_of_ne_zero fun hzero => hne (hp.1.2.1.1 hzero)
    rw [Option.mem_def] at hfirst
    simp only [hfirst, Option.getD_some]
    rcases Nat.lt_or_ge v (signWeight bits) with hpos | hneg
    · have hreach : v ≤ lastUpTo p.lower p.stride (signWeight bits - 1) :=
        (le_lastUpTo_iff hstride hv.1 hv.2.2 hhalf).2 (by omega)
      exact ⟨signedValue_le_of_sign valid.1 hfloor (by omega) hpos,
        signedValue_le_signedValue valid.1 hreach (by omega) (.inl (by omega))⟩
    · obtain ⟨next, hnext, hle⟩ := exists_firstFrom (Nat.le_of_lt hcross.1) hneg hv.2.2
        (Nat.lt_of_le_of_lt (Nat.le_trans hv.2.1 hp.2) (allOnes_lt bits))
      rw [Option.mem_def, hfirst, Option.some.injEq] at hnext
      subst hnext
      exact ⟨signedValue_le_signedValue valid.1 hle hvb (.inr hfloor),
        signedValue_le_of_sign valid.1 hneg hvb (by omega)⟩
  · rename_i hside
    have hsame : p.upper < signWeight bits ∨ signWeight bits ≤ p.lower := by omega
    refine ⟨signedValue_le_signedValue valid.1 hv.1 hvb ?_,
      signedValue_le_signedValue valid.1 hv.2.1 hub ?_⟩
    · exact hsame.imp_left (Nat.lt_of_le_of_lt hv.2.1)
    · exact hsame.imp_right fun h => Nat.le_trans h hv.1

/-- No member is outside the bounds, in the reading of a comparison. -/
theorem bounds_le (c : Comparison) (valid : ValidWidth bits) (hp : p.Fits bits) (hv : v ∈ p) :
    (p.bounds bits c.signed).1 ≤ c.reading bits v ∧
    c.reading bits v ≤ (p.bounds bits c.signed).2 := by
  unfold bounds Comparison.reading
  split
  · exact signedEnds_le valid hp hv
  · exact ⟨Int.ofNat_le.2 hv.1, Int.ofNat_le.2 hv.2.1⟩

/-- The ends of the signed reading are the readings of members, also where the members cross the
sign boundary. -/
theorem exists_signedEnds (hp : p.Fits bits) :
    ∃ u ∈ p, ∃ w ∈ p, p.signedEnds bits = (signedValue bits u, signedValue bits w) := by
  unfold signedEnds
  dsimp only
  split
  · rename_i hcross
    obtain ⟨hlower, hupper⟩ := hcross
    obtain ⟨first, hfirst, hle⟩ := exists_firstFrom (Nat.le_of_lt hlower) hupper hp.1.2.2
      (Nat.lt_of_le_of_lt hp.2 (allOnes_lt bits))
    obtain ⟨hfloor, hclass⟩ := mem_firstFrom (Nat.le_of_lt hlower) hfirst
    have hhalf : p.lower ≤ signWeight bits - 1 := Nat.le_sub_one_of_lt hlower
    have hlast : lastUpTo p.lower p.stride (signWeight bits - 1) ≤ p.upper :=
      Nat.le_trans (lastUpTo_le hhalf) (Nat.le_trans (Nat.sub_le _ _) hupper)
    rw [Option.mem_def] at hfirst
    rw [hfirst]
    exact ⟨first, ⟨Nat.le_trans (Nat.le_of_lt hlower) hfloor, hle, hclass⟩, _,
      ⟨le_lastUpTo hhalf, hlast, dvd_lastUpTo_sub _ _ _⟩, rfl⟩
  · exact ⟨p.lower, hp.1.lower_mem, p.upper, hp.1.upper_mem, rfl⟩

/-- The bounds are the readings of members. -/
theorem exists_bounds (c : Comparison) (hp : p.Fits bits) :
    ∃ u ∈ p, ∃ w ∈ p, p.bounds bits c.signed = (c.reading bits u, c.reading bits w) := by
  unfold bounds Comparison.reading
  cases c.signed with
  | true => exact exists_signedEnds hp
  | false => exact ⟨p.lower, hp.1.lower_mem, p.upper, hp.1.upper_mem, rfl⟩

end Progression

end AbstractBits
