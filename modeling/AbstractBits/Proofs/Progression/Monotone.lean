import AbstractBits.Proofs.Progression.Image
import AbstractBits.Proofs.Progression.Inclusion
/-!
# Bit operations and inclusion

What a bit operation makes of an included progression is included in what it makes of the other one,
although the smaller progression can be a case of its own: its bit field does not wrap around, its
members have one sign, its shift amount is known.

Results:
  * `between_subset_between` — inclusion of what is built from bounds and strides.
  * `field_subset_field`, `append_subset_append`, `signExtend_subset_signExtend`,
    `shiftRight_subset_shiftRight` — bit operations keep inclusion.
-/

namespace AbstractBits

namespace Progression

variable {bits : Nat} {p p' q q' : Progression} {v : Nat}

/-! ## Bounds and strides -/

/-- The members of what is built from bounds and a stride, where different bounds have a stride. -/
theorem of_mem_between {lower upper stride : Nat} (hle : lower ≤ upper)
    (hstride : lower < upper → 0 < stride) (hv : v ∈ between lower upper stride) :
    lower ≤ v ∧ v ≤ upper ∧ stride ∣ v - lower := by
  rcases Nat.eq_or_lt_of_le hle with rfl | hlt
  · rw [between_self, mem_single] at hv
    rw [hv, Nat.sub_self]
    exact ⟨Nat.le_refl _, Nat.le_refl _, Nat.dvd_zero _⟩
  · exact (mem_between (hstride hlt) hle).1 hv

theorem between_subset_between {lower upper stride lower' upper' stride' : Nat}
    (hle : lower ≤ upper) (hstride : lower < upper → 0 < stride) (hlower : lower' ≤ lower)
    (hupper : upper ≤ upper') (hclass : stride' ∣ lower - lower') (hdvd : stride' ∣ stride) :
    between lower upper stride ⊆ between lower' upper' stride' := by
  intro v hv
  obtain ⟨hlow, hupp, hstep⟩ := of_mem_between hle hstride hv
  exact mem_between_of (Nat.le_trans hlower hlow) (Nat.le_trans hupp hupper)
    (dvd_sub_trans hlower hlow hclass (Nat.dvd_trans hdvd hstep))

theorem Normal.stride_pos_of_ne (hp : p.Normal) (hne : p.lower ≠ p.upper) : 0 < p.stride :=
  hp.stride_pos (beq_false_of_ne hne)

/-! ## Bit fields -/

theorem strideAfterShift_pos {stride : Nat} (amount : Nat) (hs : 0 < stride) :
    0 < strideAfterShift stride amount := by
  unfold strideAfterShift
  split
  · rename_i hclear
    exact Nat.div_pos (Nat.le_of_dvd hs hclear) (twoPow_pos amount)
  · exact Nat.one_pos

theorem strideAfterShift_dvd {s t : Nat} (amount : Nat) (h : s ∣ t) :
    strideAfterShift s amount ∣ strideAfterShift t amount := by
  unfold strideAfterShift
  split
  · rename_i hclear
    rw [if_pos (Nat.dvd_trans hclear h)]
    exact Nat.div_dvd_div hclear h
  · exact Nat.one_dvd _

/-- What a shift leaves of an included progression. -/
theorem shifted_subset_shifted (hp : p.Normal) (amount : Nat) (h : p ⊆ p') :
    between (p.lower / twoPow amount) (p.upper / twoPow amount) (strideAfterShift p.stride amount) ⊆
      between (p'.lower / twoPow amount) (p'.upper / twoPow amount)
        (strideAfterShift p'.stride amount) := by
  obtain ⟨hlower, hupper, hdvd⟩ := (subset_iff hp).1 h
  refine between_subset_between (Nat.div_le_div_right hp.1) (fun hlt => ?_)
    (Nat.div_le_div_right hlower.1)
    (Nat.div_le_div_right hupper) (dvd_strideAfterShift amount hlower.1 hlower.2.2)
    (strideAfterShift_dvd amount hdvd)
  have hends : p.lower ≠ p.upper := fun heq => Nat.ne_of_lt hlt (by rw [heq])
  exact strideAfterShift_pos amount (hp.stride_pos_of_ne hends)

/-- If the bits above the field are the same for all members of the larger progression, they are so
for the smaller one. -/
theorem field_subset_field {width : Nat} (low : Nat) (valid : ValidWidth width) (hp : p.Normal)
    (h : p ⊆ p') : p.field width low ⊆ p'.field width low := by
  obtain ⟨hlower, hupper, hdvd⟩ := (subset_iff hp).1 h
  have hfirst : p'.lower / twoPow low ≤ p.lower / twoPow low := Nat.div_le_div_right hlower.1
  have hmid : p.lower / twoPow low ≤ p.upper / twoPow low := Nat.div_le_div_right hp.1
  have hlast : p.upper / twoPow low ≤ p'.upper / twoPow low := Nat.div_le_div_right hupper
  by_cases hsame : p'.lower / twoPow low / twoPow width = p'.upper / twoPow low / twoPow width
  · have hlowerBlock := div_eq_of_between hfirst (Nat.le_trans hmid hlast) hsame
    have hupperBlock := div_eq_of_between (Nat.le_trans hfirst hmid) hlast hsame
    have hblock := hlowerBlock.symm.trans hupperBlock
    obtain ⟨hlow, hsub⟩ := mod_sub_mod_of_div_eq hfirst hlowerBlock
    obtain ⟨hends, -⟩ := mod_sub_mod_of_div_eq hmid hblock
    obtain ⟨hupp, -⟩ := mod_sub_mod_of_div_eq hlast (hupperBlock.symm.trans hsame)
    simp only [field, if_pos hsame, if_pos hblock]
    refine between_subset_between hends (fun hlt => ?_) hlow hupp ?_ (strideAfterShift_dvd low hdvd)
    · have hne : p.lower ≠ p.upper := fun heq => Nat.ne_of_lt hlt (by rw [heq])
      exact strideAfterShift_pos low (hp.stride_pos_of_ne hne)
    · rw [hsub]
      exact dvd_strideAfterShift low hlower.1 hlower.2.2
  · have hwhole : p'.field width low = whole width := by simp only [field, if_neg hsame]
    rw [hwhole]
    exact (fits_field low valid hp).subset_whole

/-! ## Joining end to end -/

/-- Different ends are put together in steps. -/
theorem gcd_append_pos (lowBits : Nat) (hp : p.Normal) (hq : q.Normal)
    (hlt : p.lower * twoPow lowBits + q.lower < p.upper * twoPow lowBits + q.upper) :
    0 < Nat.gcd (p.stride * twoPow lowBits) q.stride := by
  refine Nat.pos_of_ne_zero fun hzero => ?_
  obtain ⟨hpzero, hqzero⟩ := Nat.gcd_eq_zero_iff.1 hzero
  have hpends :=
    hp.2.1.1 ((Nat.mul_eq_zero.1 hpzero).resolve_right (Nat.ne_of_gt (twoPow_pos lowBits)))
  have hqends := hq.2.1.1 hqzero
  rw [hpends, hqends] at hlt
  exact Nat.lt_irrefl _ hlt

theorem append_subset_append (lowBits : Nat) (hp : p.Normal) (hq : q.Normal) (hpp' : p ⊆ p')
    (hqq' : q ⊆ q') : p.append lowBits q ⊆ p'.append lowBits q' := by
  obtain ⟨hplower, hpupper, hpdvd⟩ := (subset_iff hp).1 hpp'
  obtain ⟨hqlower, hqupper, hqdvd⟩ := (subset_iff hq).1 hqq'
  refine between_subset_between ?_ (gcd_append_pos lowBits hp hq) ?_ ?_
    (dvd_append_sub lowBits hplower hqlower) ?_
  · exact Nat.add_le_add (Nat.mul_le_mul_right _ hp.1) hq.1
  · exact Nat.add_le_add (Nat.mul_le_mul_right _ hplower.1) hqlower.1
  · exact Nat.add_le_add (Nat.mul_le_mul_right _ hpupper) hqupper
  · refine Nat.dvd_gcd ?_ (Nat.dvd_trans (Nat.gcd_dvd_right _ _) hqdvd)
    exact Nat.dvd_trans (Nat.gcd_dvd_left _ _) (Nat.mul_dvd_mul_right hpdvd _)

/-! ## Sign extension -/

/-- Without a change of sign all numbers of a sign extension are sign extensions of members. -/
theorem exists_of_mem_signExtend {total u : Nat}
    (hside : p.upper < signWeight bits ∨ signWeight bits ≤ p.lower)
    (hu : u ∈ p.signExtend bits total) : ∃ v ∈ p, signExtended bits total v = u := by
  simp only [signExtend] at hu
  split at hu
  · rename_i hpositive
    exact ⟨u, hu, if_pos (Nat.lt_of_le_of_lt hu.2.1 hpositive)⟩
  · rename_i hsign
    have hnegative := hside.resolve_left hsign
    rw [if_pos hnegative] at hu
    obtain ⟨hlow, hupp, hdvd⟩ := hu
    have hfill := Nat.le_trans (Nat.le_add_left _ _) hlow
    refine ⟨u - (twoPow total - twoPow bits), ⟨?_, ?_, ?_⟩, ?_⟩
    · exact Nat.le_sub_of_add_le hlow
    · exact Nat.sub_le_of_le_add hupp
    · rwa [Nat.sub_sub, Nat.add_comm (twoPow total - twoPow bits)]
    · rw [signExtended, if_neg, Nat.sub_add_cancel hfill]
      exact Nat.not_lt.2 (Nat.le_trans hnegative (Nat.le_sub_of_add_le hlow))

/-- Where the smaller progression has members of both signs, the larger one has them too. -/
theorem signExtend_subset_signExtend (total : Nat) (hp : p.Normal) (h : p ⊆ p') :
    p.signExtend bits total ⊆ p'.signExtend bits total := by
  by_cases hside : p.upper < signWeight bits ∨ signWeight bits ≤ p.lower
  · intro u hu
    obtain ⟨v, hv, rfl⟩ := exists_of_mem_signExtend hside hu
    exact mem_signExtend (h v hv)
  · obtain ⟨hupper, hlower⟩ := not_or.1 hside
    obtain ⟨hstart, hend, hdvd⟩ := (subset_iff hp).1 h
    have hupper' : ¬p'.upper < signWeight bits := fun hlt => hupper (Nat.lt_of_le_of_lt hend hlt)
    have hlower' : ¬signWeight bits ≤ p'.lower := fun hle => hlower (Nat.le_trans hle hstart.1)
    simp only [signExtend, if_neg hupper, if_neg hlower, if_neg hupper', if_neg hlower']
    have hne : p.lower ≠ p.upper := fun heq => hlower (heq ▸ Nat.not_lt.1 hupper)
    refine between_subset_between (Nat.le_trans hp.1 (Nat.le_add_right _ _)) (fun _ => ?_) hstart.1
      (Nat.add_le_add_right hend _) ?_ ?_
    · exact Nat.gcd_pos_of_pos_left _ (hp.stride_pos_of_ne hne)
    · exact Nat.dvd_trans (Nat.gcd_dvd_left _ _) hstart.2.2
    · exact Nat.dvd_gcd (Nat.dvd_trans (Nat.gcd_dvd_left _ _) hdvd) (Nat.gcd_dvd_right _ _)

/-! ## Shift -/

/-- The bounds of a shift by any of the amounts. -/
theorem bounds_of_mem_shiftRight (hp : p.Normal) (hq : q.Normal) (hv : v ∈ p.shiftRight bits q) :
    p.lower / twoPow (min q.upper bits) ≤ v ∧ v ≤ p.upper / twoPow (min q.lower bits) := by
  have hends (amount : Nat) : p.lower / twoPow amount ≤ p.upper / twoPow amount :=
    Nat.div_le_div_right hp.1
  simp only [shiftRight] at hv
  split at hv
  · rename_i hsingle
    have hamount : q.lower = q.upper := by simpa [isSingle] using hsingle
    rw [← hamount]
    refine ⟨?_, Nat.le_trans hv.2.1 (upper_between_le _ (hends _))⟩
    have hlow := hv.1
    rwa [lower_between] at hlow
  · have hspan : p.lower / twoPow (min q.upper bits) ≤ p.upper / twoPow (min q.lower bits) :=
      div_twoPow_le_div_twoPow (by have := hq.1; omega) hp.1
    obtain ⟨hlow, hupp, -⟩ := (mem_between Nat.one_pos hspan).1 hv
    exact ⟨hlow, hupp⟩

/-- An amount that is included in a single one is the same. -/
theorem eq_of_subset_single (hq : q.Normal) (hq' : q'.Normal) (hsingle : q'.isSingle = true)
    (h : q ⊆ q') : q = q' := by
  have hlower := (hq'.mem_iff_of_single hsingle).1 (h _ hq.lower_mem)
  have hupper := (hq'.mem_iff_of_single hsingle).1 (h _ hq.upper_mem)
  have hqsingle : q.isSingle = true := by simp [isSingle, hlower, hupper]
  rw [hq.eq_single hqsingle, hq'.eq_single hsingle, hlower]

theorem shiftRight_subset_shiftRight (hp : p.Normal) (hq : q.Normal) (hq' : q'.Normal)
    (hpp' : p ⊆ p') (hqq' : q ⊆ q') : p.shiftRight bits q ⊆ p'.shiftRight bits q' := by
  cases hsingle : q'.isSingle with
  | true =>
    obtain rfl := eq_of_subset_single hq hq' hsingle hqq'
    simp only [shiftRight, hsingle, if_true]
    exact shifted_subset_shifted hp _ hpp'
  | false =>
    obtain ⟨hplower, hpupper, -⟩ := (subset_iff hp).1 hpp'
    obtain ⟨hqlower, hqupper, -⟩ := (subset_iff hq).1 hqq'
    intro v hv
    obtain ⟨hlow, hupp⟩ := bounds_of_mem_shiftRight hp hq hv
    simp only [shiftRight, hsingle, Bool.false_eq_true, if_false]
    refine mem_between_of (Nat.le_trans ?_ hlow) (Nat.le_trans hupp ?_) (Nat.one_dvd _)
    · exact div_twoPow_le_div_twoPow (by omega) hplower.1
    · exact div_twoPow_le_div_twoPow (by have := hqlower.1; omega) hpupper

end Progression

end AbstractBits
