import AbstractBits.Proofs.Progression.Lattice
/-!
# Inclusion of progressions

One progression is included in another if its members are members of the other. For normal forms
this can be read off the bounds and the strides, so that two normal forms with the same members are
the same. A join is therefore determined by what includes it, and a widening changes nothing exactly
if there is nothing new to include.

Results:
  * `subset_iff` — inclusion in terms of bounds and strides.
  * `subset_antisymm` — normal forms with the same members are the same.
  * `join_subset_iff` — the join is the least progression over two others.
  * `join_assoc`, `join_self` — it does not matter how several progressions are joined.
  * `widen_eq_self_iff` — a widening changes nothing exactly if the newer progression is included.
-/

namespace AbstractBits

namespace Progression

variable {bits : Nat} {p q r : Progression} {v : Nat}

instance : HasSubset Progression where
  Subset p q := ∀ v, v ∈ p → v ∈ q

theorem subset_refl (p : Progression) : p ⊆ p := fun _ hv => hv

theorem subset_trans (hpq : p ⊆ q) (hqr : q ⊆ r) : p ⊆ r := fun v hv => hqr v (hpq v hv)

theorem Fits.subset_whole (hp : p.Fits bits) : p ⊆ whole bits :=
  fun _ hv => mem_whole.2 (Nat.le_trans hv.2.1 hp.2)

/-! ## Bounds and strides -/

theorem Normal.second_mem (hp : p.Normal) (hs : 0 < p.stride) : p.lower + p.stride ∈ p := by
  have hlt : p.lower < p.upper := Nat.lt_of_le_of_ne hp.1 fun heq => Nat.ne_of_gt hs (hp.2.1.2 heq)
  have hstep := Nat.le_of_dvd (Nat.sub_pos_of_lt hlt) hp.2.2
  exact ⟨Nat.le_add_right _ _, Nat.add_le_of_le_sub' hp.1 hstep, 1, by omega⟩

/-- The steps of an included progression are steps of the other one. -/
theorem stride_dvd_of_subset (hp : p.Normal) (h : p ⊆ q) : q.stride ∣ p.stride := by
  rcases Nat.eq_zero_or_pos p.stride with hzero | hs
  · rw [hzero]
    exact Nat.dvd_zero _
  · have hfirst := h _ hp.lower_mem
    have hsecond := h _ (hp.second_mem hs)
    have hdvd := dvd_sub_of_dvd_sub hfirst.1 hfirst.2.2 hsecond.2.2
    rwa [Nat.add_sub_cancel_left] at hdvd

theorem subset_of_ends (hlower : p.lower ∈ q) (hupper : p.upper ≤ q.upper)
    (hdvd : q.stride ∣ p.stride) : p ⊆ q := by
  intro v hv
  exact ⟨Nat.le_trans hlower.1 hv.1, Nat.le_trans hv.2.1 hupper,
    dvd_sub_trans hlower.1 hv.1 hlower.2.2 (Nat.dvd_trans hdvd hv.2.2)⟩

/-- A progression is included if it starts in a member, goes in steps of the other one, and does not
pass its end. -/
theorem subset_iff (hp : p.Normal) :
    p ⊆ q ↔ p.lower ∈ q ∧ p.upper ≤ q.upper ∧ q.stride ∣ p.stride := by
  constructor
  · intro h
    exact ⟨h _ hp.lower_mem, (h _ hp.upper_mem).2.1, stride_dvd_of_subset hp h⟩
  · rintro ⟨hlower, hupper, hdvd⟩
    exact subset_of_ends hlower hupper hdvd

theorem subset_antisymm (hp : p.Normal) (hq : q.Normal) (hpq : p ⊆ q) (hqp : q ⊆ p) : p = q := by
  obtain ⟨hplower, hpupper, hpstride⟩ := (subset_iff hp).1 hpq
  obtain ⟨hqlower, hqupper, hqstride⟩ := (subset_iff hq).1 hqp
  have hlower : p.lower = q.lower := Nat.le_antisymm hqlower.1 hplower.1
  have hupper : p.upper = q.upper := Nat.le_antisymm hpupper hqupper
  have hstride : p.stride = q.stride := Nat.dvd_antisymm hqstride hpstride
  cases p
  cases q
  simp only at hlower hupper hstride
  rw [hlower, hupper, hstride]

/-- A normal form is determined by what it is included in. -/
theorem eq_of_subset_iff (hp : p.Normal) (hq : q.Normal) (h : ∀ r, p ⊆ r ↔ q ⊆ r) : p = q :=
  subset_antisymm hp hq ((h q).2 (subset_refl q)) ((h p).1 (subset_refl p))

/-! ## Join -/

theorem dvd_distance {s base a b : Nat} (ha : base ≤ a) (hb : base ≤ b) (hda : s ∣ a - base)
    (hdb : s ∣ b - base) : s ∣ distance a b := by
  rcases Nat.le_total a b with hle | hle
  · rw [distance, Nat.max_eq_right hle, Nat.min_eq_left hle]
    exact dvd_sub_of_dvd_sub ha hda hdb
  · rw [distance, Nat.max_eq_left hle, Nat.min_eq_right hle]
    exact dvd_sub_of_dvd_sub hb hdb hda

/-- The steps of what includes two progressions divide the common stride of the two. -/
theorem stride_dvd_commonStride (hp : p.Normal) (hq : q.Normal) (hpr : p ⊆ r) (hqr : q ⊆ r) :
    r.stride ∣ commonStride p q := by
  have hplower := hpr _ hp.lower_mem
  have hqlower := hqr _ hq.lower_mem
  refine Nat.dvd_gcd (Nat.dvd_gcd ?_ ?_) ?_
  · exact stride_dvd_of_subset hp hpr
  · exact stride_dvd_of_subset hq hqr
  · exact dvd_distance hplower.1 hqlower.1 hplower.2.2 hqlower.2.2

theorem dvd_max_upper (hp : p.Normal) (hq : q.Normal) :
    commonStride p q ∣ max p.upper q.upper - min p.lower q.lower := by
  rcases Nat.le_total p.upper q.upper with hle | hle
  · rw [Nat.max_eq_right hle, commonStride_comm, Nat.min_comm]
    exact commonStride_dvd_sub hq.upper_mem
  · rw [Nat.max_eq_left hle]
    exact commonStride_dvd_sub hp.upper_mem

/-- The join of two normal forms, in normal form as it stands. Without a common stride the two are
one number. -/
theorem join_eq (hp : p.Normal) (hq : q.Normal) :
    p.join q = ⟨min p.lower q.lower, max p.upper q.upper, commonStride p q⟩ := by
  have hnormal : Normal ⟨min p.lower q.lower, max p.upper q.upper, commonStride p q⟩ := by
    refine ⟨?_, ⟨fun hzero => ?_, fun hends => ?_⟩, dvd_max_upper hp hq⟩
    · exact Nat.le_trans (Nat.min_le_left _ _) (Nat.le_trans hp.1 (Nat.le_max_left _ _))
    · obtain rfl := eq_of_commonStride_eq_zero hp hq hzero
      have hsingle : p.stride = 0 := Nat.eq_zero_of_zero_dvd (hzero ▸ commonStride_dvd_stride p p)
      simp only [Nat.min_self, Nat.max_self]
      exact hp.2.1.1 hsingle
    · refine Nat.eq_zero_of_not_pos fun hpos => ?_
      exact Nat.ne_of_lt (min_lower_lt_max_upper hp hq hpos) hends
  exact between_eq_self hnormal

theorem normal_join (hp : p.Normal) : (p.join q).Normal := by
  refine normal_between _ ?_
  exact Nat.le_trans (Nat.min_le_left _ _) (Nat.le_trans hp.1 (Nat.le_max_left _ _))

/-- The join is the least progression over two others. -/
theorem join_subset_iff (hp : p.Normal) (hq : q.Normal) : p.join q ⊆ r ↔ p ⊆ r ∧ q ⊆ r := by
  constructor
  · intro h
    exact ⟨fun v hv => h v (mem_join_left hv), fun v hv => h v (mem_join_right hv)⟩
  · rintro ⟨hpr, hqr⟩
    rw [join_eq hp hq]
    refine subset_of_ends ?_ ?_ (stride_dvd_commonStride hp hq hpr hqr)
    · simp only
      rcases Nat.le_total p.lower q.lower with hle | hle
      · rw [Nat.min_eq_left hle]
        exact hpr _ hp.lower_mem
      · rw [Nat.min_eq_right hle]
        exact hqr _ hq.lower_mem
    · exact Nat.max_le.2 ⟨(hpr _ hp.upper_mem).2.1, (hqr _ hq.upper_mem).2.1⟩

theorem join_assoc (hp : p.Normal) (hq : q.Normal) (hr : r.Normal) :
    (p.join q).join r = p.join (q.join r) := by
  have hpq : (p.join q).Normal := normal_join hp
  have hqr : (q.join r).Normal := normal_join hq
  refine eq_of_subset_iff (normal_join hpq) (normal_join hp) fun t => ?_
  rw [join_subset_iff hpq hr, join_subset_iff hp hq, join_subset_iff hp hqr, join_subset_iff hq hr,
    and_assoc]

theorem join_self (hp : p.Normal) : p.join p = p := by
  refine eq_of_subset_iff (normal_join hp) hp fun t => ?_
  rw [join_subset_iff hp hp, and_self]

/-- All numbers of a width stay all numbers. -/
theorem whole_join (hp : p.Fits bits) : (whole bits).join p = whole bits := by
  have hwhole := fits_whole bits
  refine eq_of_subset_iff (normal_join hwhole.1) hwhole.1 fun t => ?_
  rw [join_subset_iff hwhole.1 hp.1]
  exact and_iff_left_of_imp fun h => subset_trans hp.subset_whole h

/-! ## Widening -/

/-- An included progression has no steps of its own. -/
theorem commonStride_of_subset (hp : p.Normal) (hq : q.Normal) (h : q ⊆ p) :
    commonStride p q = p.stride :=
  Nat.dvd_antisymm (commonStride_dvd_stride p q) (stride_dvd_commonStride hp hq (subset_refl p) h)

/-- A widening changes nothing exactly if the newer progression is included. -/
theorem widen_eq_self_iff (hp : p.Fits bits) (hq : q.Fits bits) :
    widen (allOnes bits) p q = p ↔ q ⊆ p := by
  constructor
  · intro heq v hv
    have hmem := (extends_widen bits p q hp hq).2 v (.inr hv)
    rwa [heq] at hmem
  · intro h
    have hstride := commonStride_of_subset hp.1 hq.1 h
    have hlower : ¬q.lower < p.lower := Nat.not_lt.2 (h _ hq.1.lower_mem).1
    have hupper : ¬p.upper < q.upper := Nat.not_lt.2 (h _ hq.1.upper_mem).2.1
    rcases Nat.eq_zero_or_pos (commonStride p q) with hzero | hs
    · exact widen_of_commonStride_eq_zero hzero
    · rw [widen_eq hp hq hs, widenedUpper, if_neg hupper, widenedLower, if_neg hlower, hstride]

end Progression

end AbstractBits
