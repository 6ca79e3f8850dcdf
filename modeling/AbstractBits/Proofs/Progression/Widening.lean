import Mathlib.Data.Nat.Log
import AbstractBits.Proofs.Progression.Lattice
/-!
# How often a widening can change a progression

A bound moves at most once for a stride, since it then is as near to the end of the width as the
stride lets it be. A stride that changes becomes a proper divisor, at most half of it, and both
bounds may move again. So three changes for each bit of the stride are enough, whatever the newer
progressions are.

Results:
  * `changesLeft` — a bound on the changes to come, at most three for each bit of the width.
  * `descends_widen` — a widening that changes a progression lowers the bound.
-/

namespace AbstractBits

/-- A bound that does not rise in a step, and stays only if the step has left things `unchanged`. -/
structure Descends (before after : Nat) (unchanged : Prop) : Prop where
  le : after ≤ before
  unchanged : after = before → unchanged

namespace Descends

variable {before after : Nat} {p q : Prop}

theorem of_lt (h : after < before) : Descends before after p where
  le := Nat.le_of_lt h
  unchanged := fun heq => absurd heq (Nat.ne_of_lt h)

theorem of_unchanged (n : Nat) (h : p) : Descends n n p where
  le := Nat.le_refl n
  unchanged := fun _ => h

theorem imp (h : Descends before after p) (hpq : p → q) : Descends before after q :=
  ⟨h.le, fun heq => hpq (h.unchanged heq)⟩

end Descends

namespace Progression

variable {bits : Nat} {p q : Progression}

/-- Whether the lower bound can still move without a change of the stride. -/
def lowerRoom (p : Progression) : Nat := if p.stride ≤ p.lower then 1 else 0

/-- Whether the upper bound can still move below the end of a width without a change of the
stride. -/
def upperRoom (bits : Nat) (p : Progression) : Nat :=
  if p.upper + p.stride ≤ allOnes bits then 1 else 0

/-- How often a progression can still be changed by widening: for each bit of the stride once in the
stride and in each bound. A single number has no stride yet. -/
def changesLeft (bits : Nat) (p : Progression) : Nat :=
  if p.stride = 0 then 3 * bits else 3 * Nat.log 2 p.stride + p.lowerRoom + p.upperRoom bits

theorem lowerRoom_le (p : Progression) : p.lowerRoom ≤ 1 := by
  unfold lowerRoom
  split <;> omega

theorem upperRoom_le (bits : Nat) (p : Progression) : p.upperRoom bits ≤ 1 := by
  unfold upperRoom
  split <;> omega

theorem changesLeft_of_single (hs : p.stride = 0) : p.changesLeft bits = 3 * bits := if_pos hs

theorem changesLeft_of_stride_pos (hs : 0 < p.stride) :
    p.changesLeft bits = 3 * Nat.log 2 p.stride + p.lowerRoom + p.upperRoom bits :=
  if_neg (Nat.ne_of_gt hs)

/-- The stride of a progression of several numbers is less than the number of numbers of the
width. -/
theorem Fits.log_stride_lt (valid : ValidWidth bits) (hp : p.Fits bits) (hs : 0 < p.stride) :
    Nat.log 2 p.stride < bits := by
  obtain ⟨⟨hle, hzero, hdvd⟩, hupper⟩ := hp
  have hne : p.lower ≠ p.upper := fun heq => Nat.ne_of_gt hs (hzero.2 heq)
  have hstride := Nat.le_of_dvd (by omega) hdvd
  have hlt : p.stride < twoPow bits := (le_allOnes_iff valid).1 (by omega)
  exact Nat.log_lt_of_lt_pow (Nat.ne_of_gt hs) hlt

/-- Several numbers can change less often than a single one. -/
theorem Fits.changesLeft_lt (valid : ValidWidth bits) (hp : p.Fits bits) (hs : 0 < p.stride) :
    p.changesLeft bits < 3 * bits := by
  have hlog := hp.log_stride_lt valid hs
  have hlower := p.lowerRoom_le
  have hupper := p.upperRoom_le bits
  rw [changesLeft_of_stride_pos hs]
  omega

theorem Fits.changesLeft_le (valid : ValidWidth bits) (hp : p.Fits bits) :
    p.changesLeft bits ≤ 3 * bits := by
  rcases Nat.eq_zero_or_pos p.stride with hzero | hs
  · rw [changesLeft, if_pos hzero]
  · exact Nat.le_of_lt (hp.changesLeft_lt valid hs)

/-- The progression of all numbers cannot change any more. -/
theorem changesLeft_whole (valid : ValidWidth bits) : (whole bits).changesLeft bits = 0 := by
  rw [whole_eq valid]
  simp [changesLeft, lowerRoom, upperRoom]

/-! ## One widening -/

/-- A proper divisor of a stride has fewer bits. -/
theorem log_lt_of_dvd {s t : Nat} (ht : 0 < t) (hdvd : s ∣ t) (hne : s ≠ t) :
    Nat.log 2 s < Nat.log 2 t := by
  obtain ⟨k, rfl⟩ := hdvd
  have hs : s ≠ 0 := by
    rintro rfl
    simp at ht
  have hk : 2 ≤ k := by
    rcases k with _ | _ | k
    · simp at ht
    · simp at hne
    · omega
  have hdouble : s * 2 ≤ s * k := Nat.mul_le_mul_left s hk
  have hlog := Nat.log_mono_right (b := 2) hdouble
  rw [Nat.log_mul_base (by decide) hs] at hlog
  exact hlog

/-- With the stride unchanged, a lower bound that moves cannot move again. It moves to its
remainder, which is below the stride. -/
theorem descends_lowerRoom (h : commonStride p q = p.stride) (upper : Nat) :
    Descends p.lowerRoom (lowerRoom ⟨widenedLower p q, upper, commonStride p q⟩)
      (widenedLower p q = p.lower) := by
  have hlower : widenedLower p q = p.lower % p.stride ∨ widenedLower p q = p.lower := by
    unfold widenedLower
    split
    · exact .inl (by rw [h])
    · exact .inr rfl
  simp only [lowerRoom, h]
  rcases hlower with hmove | hstay
  · rw [hmove]
    rcases Nat.lt_or_ge p.lower p.stride with hlt | hge
    · rw [Nat.mod_eq_of_lt hlt]
      exact .of_unchanged _ rfl
    rcases Nat.eq_zero_or_pos p.stride with hzero | hs
    · rw [hzero, Nat.mod_zero]
      exact .of_unchanged _ rfl
    · rw [if_pos hge, if_neg (Nat.not_le.2 (Nat.mod_lt _ hs))]
      exact .of_lt Nat.one_pos
  · rw [hstay]
    exact .of_unchanged _ rfl

/-- With the stride unchanged, an upper bound that moves cannot move again. It moves by a multiple
of the stride, to the last number of the class. -/
theorem descends_upperRoom (hp : p.Fits bits) (hq : q.Fits bits) (hs : 0 < p.stride)
    (h : commonStride p q = p.stride) :
    Descends (p.upperRoom bits)
      (upperRoom bits ⟨widenedLower p q, widenedUpper (allOnes bits) p q, commonStride p q⟩)
      (widenedUpper (allOnes bits) p q = p.upper) := by
  have hcommon : 0 < commonStride p q := h.symm ▸ hs
  have hfit : widenedUpper (allOnes bits) p q ≤ allOnes bits := widenedUpper_le hp.1 hp.2
  have hgrow := (le_widenedUpper hq.1 hq.2 hcommon).1
  have hlower := Nat.le_trans (widenedLower_le p q).1 (Nat.min_le_left _ _)
  have hstep : p.stride ∣ widenedUpper (allOnes bits) p q - p.upper :=
    h ▸ dvd_sub_of_dvd_sub (Nat.le_trans hlower hp.1.1) (dvd_sub_widenedLower_old hp.1.upper_mem)
      (dvd_widenedUpper_sub hp.1)
  simp only [upperRoom, h]
  rcases Nat.eq_or_lt_of_le hgrow with heq | hlt
  · rw [← heq]
    exact .of_unchanged _ rfl
  · have hmove : p.upper + p.stride ≤ widenedUpper (allOnes bits) p q := by
      have := Nat.le_of_dvd (by omega) hstep
      omega
    have hlast : ¬widenedUpper (allOnes bits) p q + p.stride ≤ allOnes bits := by
      unfold widenedUpper at hlt ⊢
      split at hlt
      · rw [if_pos ‹_›, lastUpTo, if_neg (Nat.ne_of_gt hcommon), h]
        have := Nat.mod_lt (allOnes bits - widenedLower p q) hs
        omega
      · omega
    rw [if_pos (Nat.le_trans hmove hfit), if_neg hlast]
    exact .of_lt Nat.one_pos

/-- A widening that changes a progression leaves it fewer changes. A single number gets a stride. -/
theorem descends_widen (valid : ValidWidth bits) (hp : p.Fits bits) (hq : q.Fits bits) :
    Descends (p.changesLeft bits) ((widen (allOnes bits) p q).changesLeft bits)
      (widen (allOnes bits) p q = p) := by
  rcases Nat.eq_zero_or_pos (commonStride p q) with hzero | hcommon
  · rw [widen_of_commonStride_eq_zero hzero]
    exact .of_unchanged _ rfl
  have heq := widen_eq hp hq hcommon
  have hfits := fits_widen hp hq
  rcases Nat.eq_zero_or_pos p.stride with hsingle | hs
  · refine .of_lt ?_
    rw [changesLeft_of_single hsingle]
    exact hfits.changesLeft_lt valid (by rwa [heq])
  rw [heq, changesLeft_of_stride_pos hs]
  have hafter :
      changesLeft bits ⟨widenedLower p q, widenedUpper (allOnes bits) p q, commonStride p q⟩ = _ :=
    changesLeft_of_stride_pos hcommon
  rw [hafter]
  by_cases hstride : commonStride p q = p.stride
  · obtain ⟨hlow, hlowEq⟩ := descends_lowerRoom hstride (widenedUpper (allOnes bits) p q)
    obtain ⟨hupp, huppEq⟩ := descends_upperRoom hp hq hs hstride
    refine ⟨by simp only [hstride] at hlow hupp ⊢; omega, ?_⟩
    intro hsame
    simp only [hstride] at hlow hlowEq hupp huppEq hsame ⊢
    rw [hlowEq (by omega), huppEq (by omega)]
  · have hlog := log_lt_of_dvd hs (commonStride_dvd_stride p q) hstride
    have hlow := lowerRoom_le ⟨widenedLower p q, widenedUpper (allOnes bits) p q, commonStride p q⟩
    have hupp :=
      upperRoom_le bits ⟨widenedLower p q, widenedUpper (allOnes bits) p q, commonStride p q⟩
    refine .of_lt ?_
    simp only
    omega

end Progression

end AbstractBits
