import AbstractBits.Progression.Operations
/-!
# What joining and widening keep

The members that joining and widening keep, and the normal form of their results. All members of a
join or of a widening are in one class modulo the common stride, which is what carries the proofs.

Results:
  * `extends_join`, `extends_widen` — the members of both operands are members of the result.
  * `join_comm` — the order of the operands of a join makes no difference.
  * `widen_eq` — the bounds and the stride of a widening.
-/

namespace AbstractBits

namespace Progression

/-- A progression in normal form whose members fit a width. -/
def Fits (bits : Nat) (p : Progression) : Prop := p.Normal ∧ p.upper ≤ allOnes bits

/-- An operation on progressions of a width whose results have the members of both operands. -/
def Extends (bits : Nat) (f : Progression → Progression → Progression) : Prop :=
  ∀ p q : Progression, p.Fits bits → q.Fits bits →
    (f p q).Fits bits ∧ ∀ v, v ∈ p ∨ v ∈ q → v ∈ f p q

/-! ## Classes -/

theorem dvd_sub_trans {s a b c : Nat} (hab : a ≤ b) (hbc : b ≤ c) (hba : s ∣ b - a)
    (hcb : s ∣ c - b) : s ∣ c - a := by
  have hsum : c - a = (b - a) + (c - b) := by omega
  rw [hsum]
  exact Nat.dvd_add hba hcb

theorem dvd_sub_of_dvd_sub {s a b c : Nat} (hab : a ≤ b) (hba : s ∣ b - a) (hca : s ∣ c - a) :
    s ∣ c - b := by
  have hdiff : c - b = (c - a) - (b - a) := by omega
  rw [hdiff]
  exact Nat.dvd_sub hca hba

theorem mem_between_of {lower upper stride v : Nat} (hlow : lower ≤ v) (hupp : v ≤ upper)
    (hdvd : stride ∣ v - lower) : v ∈ between lower upper stride := by
  have hle := Nat.le_trans hlow hupp
  rcases Nat.eq_zero_or_pos stride with hzero | hpos
  · subst hzero
    have hv : v = lower := by
      have := Nat.eq_zero_of_zero_dvd hdvd
      omega
    subst hv
    simpa only [lower_between] using (normal_between 0 hle).lower_mem
  · exact (mem_between hpos hle).2 ⟨hlow, hupp, hdvd⟩

theorem fits_between {bits lower upper : Nat} (stride : Nat) (h : lower ≤ upper)
    (hupp : upper ≤ allOnes bits) : (between lower upper stride).Fits bits :=
  ⟨normal_between stride h, Nat.le_trans (upper_between_le stride h) hupp⟩

theorem fits_whole (bits : Nat) : (whole bits).Fits bits :=
  fits_between 1 (Nat.zero_le _) (Nat.le_refl _)

theorem mem_whole {bits v : Nat} : v ∈ whole bits ↔ v ≤ allOnes bits := by
  simp [whole, mem_between Nat.one_pos (Nat.zero_le (allOnes bits))]

theorem whole_eq {bits : Nat} (valid : ValidWidth bits) : whole bits = ⟨0, allOnes bits, 1⟩ := by
  have hpos := allOnes_pos valid
  have hnormal : Normal ⟨0, allOnes bits, 1⟩ := ⟨Nat.zero_le _, by simp only; omega, Nat.one_dvd _⟩
  exact between_eq_self hnormal

/-- A progression with one member has no stride. -/
theorem Normal.eq_single {p : Progression} (h : p.Normal) (hsingle : p.isSingle = true) :
    p = single p.lower := by
  obtain ⟨lower, upper, stride⟩ := p
  obtain ⟨-, hzero, -⟩ := h
  have heq : lower = upper := by simpa [isSingle] using hsingle
  subst heq
  have hstride : stride = 0 := hzero.2 rfl
  subst hstride
  rfl

theorem Normal.stride_pos {p : Progression} (h : p.Normal) (hsingle : p.isSingle = false) :
    0 < p.stride := by
  have hne : p.lower ≠ p.upper := by simpa [isSingle] using hsingle
  exact Nat.pos_of_ne_zero fun hzero => hne (h.2.1.1 hzero)

/-! ## Common strides -/

theorem distance_comm (a b : Nat) : distance a b = distance b a := by
  rw [distance, distance, Nat.max_comm, Nat.min_comm]

theorem commonStride_comm (p q : Progression) : commonStride p q = commonStride q p := by
  rw [commonStride, commonStride, Nat.gcd_comm p.stride, distance_comm]

theorem commonStride_dvd_stride (p q : Progression) : commonStride p q ∣ p.stride :=
  Nat.dvd_trans (Nat.gcd_dvd_left _ _) (Nat.gcd_dvd_left _ _)

/-- The lower bounds are in one class modulo the common stride. -/
theorem commonStride_dvd_lower (p q : Progression) :
    commonStride p q ∣ p.lower - min p.lower q.lower := by
  have hdist : commonStride p q ∣ distance p.lower q.lower := Nat.gcd_dvd_right _ _
  rcases Nat.le_total p.lower q.lower with hle | hle
  · rw [Nat.min_eq_left hle, Nat.sub_self]
    exact Nat.dvd_zero _
  · rw [distance, Nat.max_eq_left hle, Nat.min_eq_right hle] at hdist
    rw [Nat.min_eq_right hle]
    exact hdist

/-- All members of both progressions are in one class modulo the common stride. -/
theorem commonStride_dvd_sub {p q : Progression} {v : Nat} (h : v ∈ p) :
    commonStride p q ∣ v - min p.lower q.lower :=
  dvd_sub_trans (Nat.min_le_left _ _) h.1 (commonStride_dvd_lower p q)
    (Nat.dvd_trans (commonStride_dvd_stride p q) h.2.2)

/-- Without a common stride the two progressions are one and the same number. -/
theorem eq_of_commonStride_eq_zero {p q : Progression} (hp : p.Normal) (hq : q.Normal)
    (h : commonStride p q = 0) : p = q := by
  obtain ⟨hstrides, hdist⟩ := Nat.gcd_eq_zero_iff.1 h
  obtain ⟨hps, hqs⟩ := Nat.gcd_eq_zero_iff.1 hstrides
  have hlower : p.lower = q.lower := by
    unfold distance at hdist
    omega
  have hpu := hp.2.1.1 hps
  have hqu := hq.2.1.1 hqs
  obtain ⟨pl, pu, ps⟩ := p
  obtain ⟨ql, qu, qs⟩ := q
  simp only at hlower hpu hqu hps hqs
  subst hps hqs hpu hqu hlower
  rfl

/-! ## Join -/

theorem join_comm (p q : Progression) : p.join q = q.join p := by
  rw [join, join, Nat.min_comm, Nat.max_comm, commonStride_comm]

theorem mem_join_left {p q : Progression} {v : Nat} (h : v ∈ p) : v ∈ p.join q :=
  mem_between_of (Nat.le_trans (Nat.min_le_left _ _) h.1) (Nat.le_trans h.2.1 (Nat.le_max_left _ _))
    (commonStride_dvd_sub h)

theorem mem_join_right {p q : Progression} {v : Nat} (h : v ∈ q) : v ∈ p.join q :=
  join_comm q p ▸ mem_join_left h

theorem fits_join {bits : Nat} {p q : Progression} (hp : p.Fits bits) (hq : q.Fits bits) :
    (p.join q).Fits bits := by
  obtain ⟨hpn, hpu⟩ := hp
  refine fits_between _ ?_ (Nat.max_le.2 ⟨hpu, hq.2⟩)
  exact Nat.le_trans (Nat.min_le_left _ _) (Nat.le_trans hpn.1 (Nat.le_max_left _ _))

theorem extends_join (bits : Nat) : Extends bits join := by
  intro p q hp hq
  refine ⟨fits_join hp hq, ?_⟩
  rintro v (h | h)
  · exact mem_join_left h
  · exact mem_join_right h

theorem lower_join (p q : Progression) : (p.join q).lower = min p.lower q.lower :=
  lower_between _ _ _

/-- The upper bounds of both operands are members of the join, so that it ends in one of them. -/
theorem upper_join {p q : Progression} (hp : p.Normal) (hq : q.Normal) :
    (p.join q).upper = max p.upper q.upper := by
  refine Nat.le_antisymm (upper_between_le _ ?_) (Nat.max_le.2 ⟨?_, ?_⟩)
  · exact Nat.le_trans (Nat.min_le_left _ _) (Nat.le_trans hp.1 (Nat.le_max_left _ _))
  · exact (mem_join_left hp.upper_mem).2.1
  · exact (mem_join_right hq.upper_mem).2.1

/-! ## Widening -/

/-- The lower bound of a widening. -/
def widenedLower (old new : Progression) : Nat :=
  if new.lower < old.lower then old.lower % commonStride old new else old.lower

/-- The upper bound of a widening below `limit`. -/
def widenedUpper (limit : Nat) (old new : Progression) : Nat :=
  if old.upper < new.upper then lastUpTo (widenedLower old new) (commonStride old new) limit
  else old.upper

theorem widen_of_commonStride_eq_zero {limit : Nat} {old new : Progression}
    (h : commonStride old new = 0) : widen limit old new = old := by
  simp [widen, h]

theorem widen_of_commonStride_ne_zero {limit : Nat} {old new : Progression}
    (h : commonStride old new ≠ 0) :
    widen limit old new =
      between (widenedLower old new) (widenedUpper limit old new) (commonStride old new) := by
  simp [widen, h, widenedLower, widenedUpper]

/-- Numbers of one class have one remainder. -/
theorem mod_eq_of_dvd_sub {s a b : Nat} (hab : a ≤ b) (h : s ∣ b - a) : b % s = a % s := by
  obtain ⟨k, hk⟩ := h
  have hb : b = a + s * k := by omega
  rw [hb, Nat.add_mul_mod_self_left]

theorem widenedLower_le (old new : Progression) :
    widenedLower old new ≤ min old.lower new.lower ∧
      commonStride old new ∣ min old.lower new.lower - widenedLower old new := by
  unfold widenedLower
  split
  · rename_i hlt
    have hdvd := commonStride_dvd_lower old new
    rw [Nat.min_eq_right (Nat.le_of_lt hlt)] at hdvd ⊢
    rw [mod_eq_of_dvd_sub (Nat.le_of_lt hlt) hdvd]
    exact ⟨Nat.mod_le _ _, Nat.dvd_sub_mod _⟩
  · rename_i hle
    rw [Nat.min_eq_left (Nat.not_lt.1 hle), Nat.sub_self]
    exact ⟨Nat.le_refl _, Nat.dvd_zero _⟩

/-- All members of the older progression are in the class of the new lower bound. -/
theorem dvd_sub_widenedLower_old {old new : Progression} {v : Nat} (h : v ∈ old) :
    commonStride old new ∣ v - widenedLower old new := by
  obtain ⟨hle, hdvd⟩ := widenedLower_le old new
  exact dvd_sub_trans hle (Nat.le_trans (Nat.min_le_left _ _) h.1) hdvd (commonStride_dvd_sub h)

/-- All members of the newer progression are in the class of the new lower bound. -/
theorem dvd_sub_widenedLower_new {old new : Progression} {v : Nat} (h : v ∈ new) :
    commonStride old new ∣ v - widenedLower old new := by
  obtain ⟨hle, hdvd⟩ := widenedLower_le old new
  have hsub := commonStride_dvd_sub (q := old) h
  rw [commonStride_comm, Nat.min_comm] at hsub
  exact dvd_sub_trans hle (Nat.le_trans (Nat.min_le_right _ _) h.1) hdvd hsub

theorem le_widenedUpper {limit : Nat} {old new : Progression} (hn : new.Normal)
    (hlimit : new.upper ≤ limit) (hs : 0 < commonStride old new) :
    old.upper ≤ widenedUpper limit old new ∧ new.upper ≤ widenedUpper limit old new := by
  unfold widenedUpper
  split
  · rename_i hlt
    have hbase : widenedLower old new ≤ new.upper :=
      Nat.le_trans (widenedLower_le old new).1 (Nat.le_trans (Nat.min_le_right _ _) hn.1)
    have hreach : new.upper ≤ lastUpTo (widenedLower old new) (commonStride old new) limit :=
      (le_lastUpTo_iff hs hbase (dvd_sub_widenedLower_new hn.upper_mem)
        (Nat.le_trans hbase hlimit)).2 hlimit
    exact ⟨Nat.le_trans (Nat.le_of_lt hlt) hreach, hreach⟩
  · rename_i hge
    exact ⟨Nat.le_refl _, Nat.not_lt.1 hge⟩

theorem widenedUpper_le {limit : Nat} {old new : Progression} (ho : old.Normal)
    (hlimit : old.upper ≤ limit) : widenedUpper limit old new ≤ limit := by
  unfold widenedUpper
  split
  · refine lastUpTo_le ?_
    have hle := Nat.le_trans (widenedLower_le old new).1 (Nat.min_le_left _ _)
    exact Nat.le_trans hle (Nat.le_trans ho.1 hlimit)
  · exact hlimit

theorem dvd_widenedUpper_sub {limit : Nat} {old new : Progression} (ho : old.Normal) :
    commonStride old new ∣ widenedUpper limit old new - widenedLower old new := by
  unfold widenedUpper
  split
  · exact dvd_lastUpTo_sub _ _ _
  · exact dvd_sub_widenedLower_old ho.upper_mem

/-- Two progressions with a common stride have more than one member together. -/
theorem min_lower_lt_max_upper {p q : Progression} (hp : p.Normal) (hq : q.Normal)
    (hs : 0 < commonStride p q) : min p.lower q.lower < max p.upper q.upper := by
  have hpl := hp.1
  have hql := hq.1
  rcases Nat.lt_or_ge (min p.lower q.lower) (max p.upper q.upper) with hlt | hge
  · exact hlt
  · have hps : p.stride = 0 := hp.2.1.2 (by omega)
    have hqs : q.stride = 0 := hq.2.1.2 (by omega)
    have hdist : distance p.lower q.lower = 0 := by
      unfold distance
      omega
    simp [commonStride, hps, hqs, hdist] at hs

theorem widenedLower_lt_widenedUpper {limit : Nat} {old new : Progression} (ho : old.Normal)
    (hn : new.Normal) (hlimit : new.upper ≤ limit) (hs : 0 < commonStride old new) :
    widenedLower old new < widenedUpper limit old new := by
  have hlow := (widenedLower_le old new).1
  obtain ⟨hold, hnew⟩ := le_widenedUpper hn hlimit hs
  have hlt := min_lower_lt_max_upper ho hn hs
  omega

/-- The widening of two progressions that are not the same number, in normal form as it stands. -/
theorem widen_eq {bits : Nat} {old new : Progression} (ho : old.Fits bits) (hn : new.Fits bits)
    (hs : 0 < commonStride old new) :
    widen (allOnes bits) old new =
      ⟨widenedLower old new, widenedUpper (allOnes bits) old new, commonStride old new⟩ := by
  have hlt := widenedLower_lt_widenedUpper ho.1 hn.1 hn.2 hs
  rw [widen_of_commonStride_ne_zero (Nat.ne_of_gt hs)]
  have hnormal : Normal ⟨widenedLower old new, widenedUpper (allOnes bits) old new,
      commonStride old new⟩ :=
    ⟨Nat.le_of_lt hlt, by simp only; omega, dvd_widenedUpper_sub ho.1⟩
  exact between_eq_self hnormal

theorem fits_widen {bits : Nat} {old new : Progression} (ho : old.Fits bits) (hn : new.Fits bits) :
    (widen (allOnes bits) old new).Fits bits := by
  rcases Nat.eq_zero_or_pos (commonStride old new) with hzero | hs
  · rw [widen_of_commonStride_eq_zero hzero]
    exact ho
  · have hlt := widenedLower_lt_widenedUpper ho.1 hn.1 hn.2 hs
    rw [widen_of_commonStride_ne_zero (Nat.ne_of_gt hs)]
    exact fits_between _ (Nat.le_of_lt hlt) (widenedUpper_le ho.1 ho.2)

theorem extends_widen (bits : Nat) : Extends bits (widen (allOnes bits)) := by
  intro old new ho hn
  refine ⟨fits_widen ho hn, ?_⟩
  rcases Nat.eq_zero_or_pos (commonStride old new) with hzero | hs
  · rw [widen_of_commonStride_eq_zero hzero]
    rintro v (h | h)
    · exact h
    · exact eq_of_commonStride_eq_zero ho.1 hn.1 hzero ▸ h
  · rw [widen_eq ho hn hs]
    have hlow := (widenedLower_le old new).1
    obtain ⟨hold, hnew⟩ := le_widenedUpper hn.1 hn.2 hs
    rintro v (h | h)
    · exact ⟨Nat.le_trans hlow (Nat.le_trans (Nat.min_le_left _ _) h.1), Nat.le_trans h.2.1 hold,
        dvd_sub_widenedLower_old h⟩
    · exact ⟨Nat.le_trans hlow (Nat.le_trans (Nat.min_le_right _ _) h.1), Nat.le_trans h.2.1 hnew,
        dvd_sub_widenedLower_new h⟩

end Progression

end AbstractBits
