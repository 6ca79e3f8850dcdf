import AbstractBits.OperationError
import AbstractBits.Progression.Checked
import AbstractBits.Proofs.Progression.Enumeration
import AbstractBits.Proofs.Progression.ExactImage
import AbstractBits.Proofs.Progression.Meet
/-!
# Progressions without a step that is not defined

On progressions in normal form that fit their width, the steps that a machine takes are all defined,
and lead to what the operations are meant to compute. The order of the bounds carries the
subtractions and the neighbours in a class, the strides of several members carry the divisions, and
the width carries the shifts and the sums.

Results:
  * `checkedBetween_eq` — the steps to a normal form, from bounds in order.
  * `checkedJoin_eq`, `checkedMeet_eq`, `checkedWiden_eq`, `checkedField_eq`, `checkedAppend_eq`,
    `checkedSignExtend_eq`, `checkedShiftRight_eq`, `checkedBounds_eq` — those of the operations.
-/

namespace AbstractBits

namespace Progression

variable {bits : Nat} {p q : Progression} {lower upper stride v : Nat}

/-! ## Construction -/

theorem checkedBetween_eq (stride : Nat) (h : lower ≤ upper) :
    checkedBetween lower upper stride = .ok (between lower upper stride) := by
  unfold checkedBetween between
  split
  · rename_i heq
    rw [heq, single]
  · dsimp only
    rw [Checked.lastUpTo_eq h, Checked.ok_bind]
    rfl

theorem checkedConstant_eq (bits v : Nat) :
    checkedConstant bits v = .ok (single (truncate bits v)) := by
  rw [checkedConstant, Checked.truncate_eq, Checked.ok_bind, checkedBetween_eq 0 (Nat.le_refl _),
    between_self]

theorem checkedWhole_eq (bits : Nat) : checkedWhole bits = .ok (whole bits) := by
  rw [checkedWhole, Checked.allOnes_eq, Checked.ok_bind, checkedBetween_eq 1 (Nat.zero_le _), whole]

/-! ## Members -/

theorem checkedSize_eq (hp : p.Normal) : p.checkedSize = .ok p.size := by
  unfold checkedSize size
  split
  · rfl
  · rename_i hne
    rw [Checked.sub_of_le hp.1, Checked.ok_bind, Checked.div_of_pos (Nat.pos_of_ne_zero hne)]
    rfl

theorem checkedMem_eq (hp : p.Normal) (v : Nat) : p.checkedMem v = .ok (decide (v ∈ p)) := by
  unfold checkedMem
  split
  · rename_i hbounds
    obtain ⟨hlower, hupper⟩ := hbounds
    split
    · rename_i hzero
      have hends := hp.2.1.1 hzero
      have hv : v = p.lower := Nat.le_antisymm (hends ▸ hupper) hlower
      rw [decide_eq_true (hv ▸ hp.lower_mem)]
    · rename_i hne
      have hmem : v ∈ p ↔ (v - p.lower) % p.stride = 0 := by
        rw [mem_def, and_iff_right hlower, and_iff_right hupper]
        exact Nat.dvd_iff_mod_eq_zero
      rw [Checked.sub_of_le hlower, Checked.ok_bind, Checked.rem_of_pos (Nat.pos_of_ne_zero hne),
        Checked.ok_bind, decide_eq_decide.2 hmem]
      rfl
  · rename_i hbounds
    rw [decide_eq_false fun hv => hbounds ⟨hv.1, hv.2.1⟩]

/-- Counted members are no greater than the upper bound. -/
theorem member_le_upper (hp : p.Normal) {k : Nat} (hk : k < p.size) :
    p.lower + k * p.stride ≤ p.upper := by
  have hmem : p.lower + k * p.stride ∈ p.members := by
    rw [size_eq_min_length, length_members] at hk
    exact List.mem_map.2 ⟨k, List.mem_range.2 (Nat.lt_of_lt_of_le hk (Nat.min_le_left _ _)), rfl⟩
  exact ((mem_members hp).1 hmem).2.1

theorem checkedSample_eq (hp : p.Fits bits) (n : Nat) : p.checkedSample n = .ok (p.sample n) := by
  rw [checkedSample, checkedSize_eq hp.1, Checked.ok_bind, sample]
  refine mapM_eq_map fun k hk => ?_
  have hcount : k < p.size := Nat.lt_of_lt_of_le (List.mem_range.1 hk) (Nat.min_le_right _ _)
  have hsum : p.lower + k * p.stride < twoPow maxBits :=
    Nat.lt_of_le_of_lt (Nat.le_trans (member_le_upper hp.1 hcount) hp.2) (allOnes_lt bits)
  rw [checkedMember, Checked.mul_of_lt (Nat.lt_of_le_of_lt (Nat.le_add_left _ _) hsum),
    Checked.ok_bind, Checked.add_of_lt hsum]

/-! ## Two progressions -/

theorem checkedCommonStride_eq (p q : Progression) :
    checkedCommonStride p q = .ok (commonStride p q) := by
  rw [checkedCommonStride, Checked.gcd_eq, Checked.ok_bind, Checked.gcd_eq, commonStride]

theorem checkedJoin_eq (hp : p.Normal) : p.checkedJoin q = .ok (p.join q) := by
  have hle : min p.lower q.lower ≤ max p.upper q.upper :=
    Nat.le_trans (Nat.min_le_left _ _) (Nat.le_trans hp.1 (Nat.le_max_left _ _))
  rw [checkedJoin, checkedCommonStride_eq, Checked.ok_bind, checkedBetween_eq _ hle, join]

theorem checkedWithin_eq {low high base : Nat} (hstride : 0 < stride) (hbase : base ≤ low)
    (hlow : low < twoPow maxBits) :
    checkedWithin low high base stride = .ok (within low high base stride) := by
  rw [checkedWithin, Checked.firstFrom_eq hbase hlow, Checked.ok_bind, within]
  cases hfirst : firstFrom base stride low with
  | none => rfl
  | some first =>
    dsimp only
    split
    · rename_i hle
      obtain ⟨hfloor, hclass⟩ := mem_firstFrom hbase hfirst
      have hfirstBase := Nat.le_trans hbase hfloor
      have hlast : first ≤ lastUpTo base stride high :=
        (le_lastUpTo_iff hstride hfirstBase hclass (Nat.le_trans hfirstBase hle)).2 hle
      rw [Checked.lastUpTo_eq (Nat.le_trans hfirstBase hle), Checked.ok_bind,
        checkedBetween_eq _ hlast]
      rfl
    · rfl

/-- The classes of two operands are compared only if their bounds leave room for a common member. -/
theorem checkedMeet_eq (hp : p.Fits bits) (hq : q.Fits bits) :
    p.checkedMeet q = .ok (p.meet q) := by
  cases hps : p.isSingle with
  | true =>
    simp only [checkedMeet, meet, hps, if_true, checkedMem_eq hq.1, Checked.ok_bind,
      decide_eq_true_eq]
    rfl
  | false =>
    cases hqs : q.isSingle with
    | true =>
      simp only [checkedMeet, meet, hps, hqs, Bool.false_eq_true, if_false, if_true,
        checkedMem_eq hp.1, Checked.ok_bind, decide_eq_true_eq]
      rfl
    | false =>
      have hlow : max p.lower q.lower < twoPow maxBits :=
        Nat.max_lt.2 ⟨Nat.lt_of_le_of_lt (Nat.le_trans hp.1.1 hp.2) (allOnes_lt bits),
          Nat.lt_of_le_of_lt (Nat.le_trans hq.1.1 hq.2) (allOnes_lt bits)⟩
      have hgcd : 0 < Nat.gcd p.stride q.stride := Nat.gcd_pos_of_pos_left _ (hp.1.stride_pos hps)
      have hwithin :
          checkedWithin (max p.lower q.lower) (min p.upper q.upper) (coarser p q).lower
              (coarser p q).stride =
            .ok (within (max p.lower q.lower) (min p.upper q.upper) (coarser p q).lower
              (coarser p q).stride) :=
        checkedWithin_eq (coarser_stride_pos hp.1 hq.1 hps hqs) (coarser_lower_le p q) hlow
      rw [meet_of_several hps hqs]
      simp only [checkedMeet, hps, hqs, Bool.false_eq_true, if_false, Checked.gcd_eq,
        Checked.ok_bind, Checked.rem_of_pos hgcd]
      by_cases hbounds : min p.upper q.upper < max p.lower q.lower
      · rw [if_pos hbounds, if_pos (.inl hbounds)]
      · rw [if_neg hbounds]
        by_cases hclass : distance p.lower q.lower % Nat.gcd p.stride q.stride = 0
        · rw [if_neg (not_not_intro hclass), if_neg (not_or.2 ⟨hbounds, not_not_intro hclass⟩)]
          exact hwithin
        · rw [if_pos hclass, if_pos (.inr hclass)]
          rfl

theorem checkedWiden_eq (hp : p.Fits bits) (hq : q.Fits bits) :
    checkedWiden bits p q = .ok (widen (allOnes bits) p q) := by
  rw [checkedWiden, checkedCommonStride_eq, Checked.ok_bind]
  split
  · rename_i hzero
    rw [widen_of_commonStride_eq_zero hzero]
    rfl
  · rename_i hne
    have hpos := Nat.pos_of_ne_zero hne
    have hbase : widenedLower p q ≤ allOnes bits :=
      Nat.le_trans (widenedLower_le p q).1
        (Nat.le_trans (Nat.min_le_left _ _) (Nat.le_trans hp.1.1 hp.2))
    have hlower : checkedWidenedLower (commonStride p q) p q = .ok (widenedLower p q) := by
      rw [checkedWidenedLower, widenedLower, Checked.rem_of_pos hpos, apply_ite Except.ok]
    have hupper : checkedWidenedUpper bits (widenedLower p q) (commonStride p q) p q
        = .ok (widenedUpper (allOnes bits) p q) := by
      rw [checkedWidenedUpper, widenedUpper, Checked.allOnes_eq, Checked.ok_bind,
        Checked.lastUpTo_eq hbase, apply_ite Except.ok]
    have hlt := widenedLower_lt_widenedUpper hp.1 hq.1 hq.2 hpos
    rw [hlower, Checked.ok_bind, hupper, Checked.ok_bind, checkedBetween_eq _ (Nat.le_of_lt hlt),
      widen_of_commonStride_ne_zero hne]

/-! ## Bit operations -/

theorem checkedStrideAfterShift_eq {amount : Nat} (stride : Nat) (hamount : amount < maxBits) :
    checkedStrideAfterShift stride amount = .ok (strideAfterShift stride amount) := by
  have hroom : 1 * twoPow amount < twoPow maxBits := by
    rw [Nat.one_mul]
    exact Nat.pow_lt_pow_right (by decide) hamount
  unfold checkedStrideAfterShift strideAfterShift
  split
  · rename_i hzero
    have hone : twoPow 0 = 1 := rfl
    rw [hzero, hone, if_pos (Nat.one_dvd stride), Nat.div_one]
  · rw [Checked.shl_of_lt hamount hroom, Checked.ok_bind, Nat.one_mul,
      Checked.rem_of_pos (twoPow_pos amount), Checked.ok_bind, Checked.shr_of_lt hamount]
    simp only [Nat.dvd_iff_mod_eq_zero, apply_ite Except.ok]
    rfl

/-- Bits that are cut off to a width are the low ones. -/
theorem truncate_of_valid {width : Nat} (valid : ValidWidth width) (v : Nat) :
    truncate width v = v % twoPow width := by
  rw [truncate, modulus_of_valid valid]

theorem checkedField_eq {width low : Nat} (valid : ValidWidth bits) (hwidth : ValidWidth width)
    (hfield : low + width ≤ bits) (hp : p.Fits bits) :
    p.checkedField bits width low = .ok (p.field width low) := by
  have hlow : low < maxBits := Nat.lt_of_lt_of_le (by have := hwidth.1; omega) valid.2
  unfold checkedField
  split
  · rename_i hall
    subst hall
    have hzero : low = 0 := by omega
    rw [hzero, field_self valid hp]
  · rename_i hpart
    have hshort : width < maxBits := Nat.lt_of_lt_of_le (by omega) valid.2
    split
    · rename_i hsingle
      have hsame : p.lower / twoPow low / twoPow width = p.upper / twoPow low / twoPow width := by
        rw [hp.1.eq_single hsingle, upper_single, lower_single]
      rw [Checked.shr_of_lt hlow, Checked.ok_bind, checkedConstant_eq, field_of_same hsame,
        truncate_of_valid hwidth, hp.1.eq_single hsingle, upper_single, lower_single, between_self]
    · rw [Checked.shr_of_lt hlow, Checked.shr_of_lt hlow, Checked.ok_bind, Checked.ok_bind,
        Checked.shr_of_lt hshort, Checked.shr_of_lt hshort, Checked.ok_bind, Checked.ok_bind]
      split
      · rename_i hcross
        rw [checkedWhole_eq, field_of_crossing hcross]
      · rename_i hsame
        have hsame := Decidable.not_not.1 hsame
        have hle : p.lower / twoPow low ≤ p.upper / twoPow low := Nat.div_le_div_right hp.1.1
        rw [checkedStrideAfterShift_eq _ hlow, Checked.ok_bind, Checked.truncate_eq,
          Checked.ok_bind, Checked.truncate_eq, Checked.ok_bind, truncate_of_valid hwidth,
          truncate_of_valid hwidth, checkedBetween_eq _ (mod_sub_mod_of_div_eq hle hsame).1,
          field_of_same hsame]

/-- A number behind one that has been moved up takes the room that is left. -/
theorem mul_twoPow_or {high low lowBits : Nat} (hlow : low < twoPow lowBits) :
    high * twoPow lowBits ||| low = high * twoPow lowBits + low := by
  rw [Nat.mul_comm]
  exact (Nat.two_pow_add_eq_or_of_lt hlow high).symm

/-- A stride is no longer than the way from the lower to the upper bound, so that moving it loses no
bits. -/
theorem checkedAppend_eq {highBits lowBits : Nat} {high low : Progression}
    (hhigh : ValidWidth highBits) (hlow : ValidWidth lowBits) (total : highBits + lowBits ≤ maxBits)
    (hh : high.Fits highBits) (hl : low.Fits lowBits) :
    high.checkedAppend lowBits low = .ok (high.append lowBits low) := by
  have hshift : lowBits < maxBits := Nat.lt_of_lt_of_le (by have := hhigh.1; omega) total
  have hroom {u : Nat} (hu : u ≤ high.upper) : u * twoPow lowBits < twoPow maxBits := by
    have hlt :=
      append_lt_twoPow ((le_allOnes_iff hhigh).1 (Nat.le_trans hu hh.2)) (twoPow_pos lowBits)
    rw [Nat.add_zero] at hlt
    exact Nat.lt_of_lt_of_le hlt (twoPow_le_twoPow total)
  have hstride : high.stride ≤ high.upper := by
    rcases Nat.eq_or_lt_of_le hh.1.1 with heq | hlt
    · rw [hh.1.2.1.2 heq]
      exact Nat.zero_le _
    · exact Nat.le_trans (Nat.le_of_dvd (Nat.sub_pos_of_lt hlt) hh.1.2.2) (Nat.sub_le _ _)
  have hupper : low.upper < twoPow lowBits := (le_allOnes_iff hlow).1 hl.2
  have hlower : low.lower < twoPow lowBits := Nat.lt_of_le_of_lt hl.1.1 hupper
  have hends := Nat.add_le_add (Nat.mul_le_mul_right (twoPow lowBits) hh.1.1) hl.1.1
  rw [checkedAppend, Checked.shlExact_of_lt hshift (hroom hstride), Checked.ok_bind, Checked.gcd_eq,
    Checked.ok_bind, Checked.shl_of_lt hshift (hroom hh.1.1), Checked.ok_bind,
    Checked.shl_of_lt hshift (hroom (Nat.le_refl _)), Checked.ok_bind, mul_twoPow_or hlower,
    mul_twoPow_or hupper, checkedBetween_eq _ hends, append]

theorem checkedSignExtend_eq {total : Nat} (valid : ValidWidth bits) (extension : bits ≤ total)
    (htotal : total ≤ maxBits) (hp : p.Fits bits) :
    p.checkedSignExtend bits total = .ok (p.signExtend bits total) := by
  have hvalid : ValidWidth total := ⟨Nat.le_trans valid.1 extension, htotal⟩
  have hpos := twoPow_pos bits
  have hones : allOnes bits ≤ allOnes total := by
    rw [allOnes, allOnes, modulus_of_valid valid, modulus_of_valid hvalid]
    exact Nat.sub_le_sub_right (twoPow_le_twoPow extension) 1
  have hfill : allOnes total - allOnes bits = twoPow total - twoPow bits := by
    rw [allOnes, allOnes, modulus_of_valid valid, modulus_of_valid hvalid]
    omega
  have hroom {u : Nat} (hu : u ≤ p.upper) : u + (twoPow total - twoPow bits) < twoPow maxBits := by
    have hlt := (le_allOnes_iff valid).1 (Nat.le_trans hu hp.2)
    have hall := twoPow_le_twoPow extension
    have hmax := twoPow_le_twoPow htotal
    omega
  have hends := Nat.add_le_add_right hp.1.1 (twoPow total - twoPow bits)
  have hmoved : Progression.Normal
      ⟨p.lower + (twoPow total - twoPow bits), p.upper + (twoPow total - twoPow bits), p.stride⟩ :=
    ⟨hends, hp.1.2.1.trans Nat.add_right_cancel_iff.symm,
      by simpa only [Nat.add_sub_add_right] using hp.1.2.2⟩
  rw [checkedSignExtend, Checked.signWeight_eq valid, Checked.ok_bind, Checked.allOnes_eq,
    Checked.ok_bind, Checked.allOnes_eq, Checked.ok_bind, Checked.sub_of_le hones, Checked.ok_bind,
    hfill]
  unfold signExtend
  dsimp only
  split
  · rw [checkedBetween_eq _ hp.1.1, between_eq_self hp.1]
  · split
    · rw [Checked.add_of_lt (hroom hp.1.1), Checked.ok_bind,
        Checked.add_of_lt (hroom (Nat.le_refl _)), Checked.ok_bind, checkedBetween_eq _ hends]
      exact congrArg Except.ok (between_eq_self hmoved)
    · rw [Checked.add_of_lt (hroom (Nat.le_refl _)), Checked.ok_bind, Checked.gcd_eq,
        Checked.ok_bind, checkedBetween_eq _ (Nat.le_trans hp.1.1 (Nat.le_add_right _ _))]

theorem checkedShift_eq {amount : Nat} (valid : ValidWidth bits) (hv : v < twoPow bits) :
    checkedShift bits v amount = .ok (v / twoPow (min amount bits)) := by
  unfold checkedShift
  split
  · rename_i hlong
    rw [Nat.min_eq_right hlong, Nat.div_eq_of_lt hv]
  · rename_i hshort
    have hlt := Nat.lt_of_not_le hshort
    rw [Checked.shr_of_lt (Nat.lt_of_lt_of_le hlt valid.2), Nat.min_eq_left (Nat.le_of_lt hlt)]

theorem checkedShiftRight_eq {amount : Progression} (valid : ValidWidth bits) (hp : p.Fits bits)
    (ha : amount.Normal) : p.checkedShiftRight bits amount = .ok (p.shiftRight bits amount) := by
  have hupper : p.upper < twoPow bits := (le_allOnes_iff valid).1 hp.2
  have hlower : p.lower < twoPow bits := Nat.lt_of_le_of_lt hp.1.1 hupper
  have hends {s t : Nat} (hst : s ≤ t) :
      p.lower / twoPow (min t bits) ≤ p.upper / twoPow (min s bits) :=
    div_twoPow_le_div_twoPow (by omega) hp.1.1
  unfold checkedShiftRight shiftRight
  dsimp only
  split
  · split
    · rename_i hlong
      rw [checkedConstant_eq, Nat.min_eq_right hlong, Nat.div_eq_of_lt hlower,
        Nat.div_eq_of_lt hupper, between_self, truncate_of_valid valid, Nat.zero_mod]
    · rename_i hshort
      have hlt := Nat.lt_of_not_le hshort
      have hamount := Nat.lt_of_lt_of_le hlt valid.2
      have hbounds := hends (Nat.le_refl amount.lower)
      rw [Nat.min_eq_left (Nat.le_of_lt hlt)] at hbounds ⊢
      rw [checkedStrideAfterShift_eq _ hamount, Checked.ok_bind, Checked.shr_of_lt hamount,
        Checked.ok_bind, Checked.shr_of_lt hamount, Checked.ok_bind, checkedBetween_eq _ hbounds]
  · rw [checkedShift_eq valid hlower, Checked.ok_bind, checkedShift_eq valid hupper,
      Checked.ok_bind, checkedBetween_eq _ (hends ha.1)]

/-! ## Bounds -/

theorem checkedSignedEnds_eq (valid : ValidWidth bits) (hp : p.Fits bits) :
    p.checkedSignedEnds bits = .ok (p.signedEnds bits) := by
  have hbound {u : Nat} (hu : u ≤ p.upper) : u < twoPow bits :=
    (le_allOnes_iff valid).1 (Nat.le_trans hu hp.2)
  rw [checkedSignedEnds, Checked.signWeight_eq valid, Checked.ok_bind]
  unfold signedEnds
  dsimp only
  split
  · rename_i hcross
    obtain ⟨hlower, hupper⟩ := hcross
    have hhalf : p.lower ≤ signWeight bits - 1 := Nat.le_sub_one_of_lt hlower
    have hmax : signWeight bits < twoPow maxBits :=
      Nat.lt_of_le_of_lt (Nat.le_trans hupper hp.2) (allOnes_lt bits)
    obtain ⟨first, hfirst, hle⟩ := exists_firstFrom (Nat.le_of_lt hlower) hupper hp.1.2.2
      (Nat.lt_of_le_of_lt hp.2 (allOnes_lt bits))
    have hlast : lastUpTo p.lower p.stride (signWeight bits - 1) ≤ p.upper :=
      Nat.le_trans (lastUpTo_le hhalf) (Nat.le_trans (Nat.sub_le _ _) hupper)
    rw [Option.mem_def] at hfirst
    rw [Checked.firstFrom_eq (Nat.le_of_lt hlower) hmax, Checked.ok_bind, hfirst, Option.getD_some,
      Checked.sub_of_le (Nat.succ_le_of_lt (Nat.zero_lt_of_lt hlower)), Checked.ok_bind,
      Checked.lastUpTo_eq hhalf,
      Checked.ok_bind, Checked.signedValue_eq valid (hbound hle), Checked.ok_bind,
      Checked.signedValue_eq valid (hbound hlast)]
    rfl
  · rw [Checked.signedValue_eq valid (hbound hp.1.1), Checked.ok_bind,
      Checked.signedValue_eq valid (hbound (Nat.le_refl _))]
    rfl

theorem checkedBounds_eq (valid : ValidWidth bits) (signed : Bool) (hp : p.Fits bits) :
    p.checkedBounds bits signed = .ok (p.bounds bits signed) := by
  rw [checkedBounds, bounds, checkedSignedEnds_eq valid hp, apply_ite Except.ok]

end Progression

end AbstractBits
