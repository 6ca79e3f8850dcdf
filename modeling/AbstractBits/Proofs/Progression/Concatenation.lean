import Mathlib.Data.List.Forall2
import AbstractBits.Proofs.Progression.ExactImage
/-!
# Progressions put end to end

Numbers of several parts, one from each of several progressions, are in general no progression. The
least progression over them is built from the parts one after the other, in whatever groups: its
stride is the greatest number that divides all distances. Cut out of it again, the high part keeps
its bounds; either part is as it was if the other one is a single number.

Results:
  * `Hull.subset` — a hull is included in every progression over the family.
  * `hull_foldl` — the hull of the numbers made of a number of each part.
  * `appendAll_append` — parts may be put together in groups.
  * `field_append_high_of_single`, `field_append_low_of_single` — the parts cut out again.
-/

namespace AbstractBits

namespace Progression

variable {F G : Nat → Prop} {p q r : Progression} {bits lowBits v w : Nat}

/-! ## Hulls -/

/-- The least progression over a family: it begins and ends in numbers of the family, and what
divides their distances from the first one divides the stride. -/
structure Hull (F : Nat → Prop) (p : Progression) : Prop extends Spans F p where
  stride : ∀ d, (∀ v, F v → d ∣ v - p.lower) → d ∣ p.stride

theorem Hull.congr (h : Hull F p) (hiff : ∀ v, F v ↔ G v) : Hull G p where
  covers := fun v hv => h.covers v ((hiff v).2 hv)
  lower := (hiff _).1 h.lower
  upper := (hiff _).1 h.upper
  stride := fun d hd => h.stride d fun v hv => hd v ((hiff v).1 hv)

/-- A progression is the hull of its members. -/
theorem Normal.hull (hp : p.Normal) : Hull (· ∈ p) p where
  covers := fun _ hv => hv
  lower := hp.lower_mem
  upper := hp.upper_mem
  stride := by
    intro d hd
    rcases Nat.eq_zero_or_pos p.stride with hzero | hpos
    · rw [hzero]
      exact Nat.dvd_zero d
    · have hsecond := hd _ (hp.second_mem hpos)
      rwa [Nat.add_sub_cancel_left] at hsecond

/-- A hull is included in every progression over the family. -/
theorem Hull.subset (h : Hull F p) (hcovers : ∀ v, F v → v ∈ r) : p ⊆ r := by
  have hlower := hcovers _ h.lower
  refine subset_of_ends hlower (hcovers _ h.upper).2.1 (h.stride _ fun v hv => ?_)
  exact dvd_sub_of_dvd_sub hlower.1 hlower.2.2 (hcovers v hv).2.2

/-- What divides all distances of a family after a multiplication divides the stride after it. -/
theorem Hull.dvd_stride_mul {d k : Nat} (h : Hull F p) (hk : 0 < k)
    (hd : ∀ v, F v → d ∣ (v - p.lower) * k) : d ∣ p.stride * k := by
  have hgcd : 0 < Nat.gcd d k := Nat.gcd_pos_of_pos_right d hk
  have hiff (n : Nat) : d ∣ n * k ↔ d / Nat.gcd d k ∣ n := by
    rw [Nat.div_dvd_iff_dvd_mul (Nat.gcd_dvd_left d k) hgcd, Nat.dvd_gcd_mul_iff_dvd_mul,
      Nat.mul_comm]
  exact (hiff _).2 (h.stride _ fun v hv => (hiff _).1 (hd v hv))

/-! ## Two parts -/

/-- Two normal forms put end to end, in normal form as they stand. -/
theorem append_eq (hp : p.Normal) (hq : q.Normal) :
    p.append lowBits q = ⟨p.lower * twoPow lowBits + q.lower, p.upper * twoPow lowBits + q.upper,
      Nat.gcd (p.stride * twoPow lowBits) q.stride⟩ := by
  have hnormal : Normal ⟨p.lower * twoPow lowBits + q.lower, p.upper * twoPow lowBits + q.upper,
      Nat.gcd (p.stride * twoPow lowBits) q.stride⟩ := by
    refine ⟨?_, ⟨fun hzero => ?_, fun hends => ?_⟩,
      dvd_append_sub lowBits hp.upper_mem hq.upper_mem⟩
    · exact Nat.add_le_add (Nat.mul_le_mul_right _ hp.1) hq.1
    · obtain ⟨hpzero, hqzero⟩ := Nat.gcd_eq_zero_iff.1 hzero
      have hpends :=
        hp.2.1.1 ((Nat.mul_eq_zero.1 hpzero).resolve_right (Nat.ne_of_gt (twoPow_pos lowBits)))
      simp only [hpends, hq.2.1.1 hqzero]
    · simp only at hends
      have hple := Nat.mul_le_mul_right (twoPow lowBits) hp.1
      have hqle := hq.1
      have hpends : p.lower = p.upper := Nat.eq_of_mul_eq_mul_right (twoPow_pos lowBits) (by omega)
      have hqends : q.lower = q.upper := by omega
      simp only [hp.2.1.2 hpends, hq.2.1.2 hqends, Nat.zero_mul, Nat.gcd_self]
  exact between_eq_self hnormal

theorem normal_append (hp : p.Normal) (hq : q.Normal) : (p.append lowBits q).Normal :=
  normal_between _ (Nat.add_le_add (Nat.mul_le_mul_right _ hp.1) hq.1)

theorem append_assoc {m n : Nat} (hp : p.Normal) (hq : q.Normal) (hr : r.Normal) :
    (p.append m q).append n r = p.append (m + n) (q.append n r) := by
  rw [append_eq (normal_append hp hq) hr, append_eq hp (normal_append hq hr), append_eq hp hq,
    append_eq hq hr]
  simp only [twoPow_add, Nat.add_mul, ← Nat.mul_assoc, Nat.add_assoc, ← Nat.gcd_mul_right,
    Nat.gcd_assoc]

/-- Zero in front adds nothing. -/
theorem zero_append (hp : p.Normal) : (single 0).append bits p = p := by
  rw [append_eq (normal_single 0) hp]
  simp only [single, Nat.zero_mul, Nat.zero_add, Nat.gcd_zero_left]

/-- No bits behind add nothing. -/
theorem append_zero (hp : p.Normal) : p.append 0 (single 0) = p := by
  have hone : twoPow 0 = 1 := rfl
  rw [append_eq hp (normal_single 0)]
  simp only [single, hone, Nat.mul_one, Nat.add_zero, Nat.gcd_zero_right]

/-- The strides of the parts show where one of them varies and the other one stays at its lower
bound. -/
theorem hull_append (hp : p.Normal) (hq : q.Normal) (hF : Hull F p) (hG : Hull G q) :
    Hull (fun w => ∃ u v, F u ∧ G v ∧ u * twoPow lowBits + v = w) (p.append lowBits q) where
  covers := by
    rintro _ ⟨u, v, hu, hv, rfl⟩
    exact mem_append lowBits (hF.covers u hu) (hG.covers v hv)
  lower := by
    rw [append_eq hp hq]
    exact ⟨_, _, hF.lower, hG.lower, rfl⟩
  upper := by
    rw [append_eq hp hq]
    exact ⟨_, _, hF.upper, hG.upper, rfl⟩
  stride := by
    intro d hd
    rw [append_eq hp hq] at hd ⊢
    refine Nat.dvd_gcd (hF.dvd_stride_mul (twoPow_pos lowBits) fun u hu => ?_)
      (hG.stride d fun v hv => ?_)
    · have hhigh := hd _ ⟨u, q.lower, hu, hG.lower, rfl⟩
      rwa [Nat.add_sub_add_right, ← Nat.sub_mul] at hhigh
    · have hlow := hd _ ⟨p.lower, v, hF.lower, hv, rfl⟩
      rwa [Nat.add_sub_add_left] at hlow

/-! ## Several parts -/

/-- Progressions with their widths put one behind the other. -/
def appendAll (parts : List (Nat × Progression)) : Progression :=
  parts.foldl (fun joined part => joined.append part.1 part.2) (single 0)

/-- The width of progressions put one behind the other. -/
def totalBits (parts : List (Nat × Progression)) : Nat :=
  parts.foldr (fun part total => part.1 + total) 0

/-- A number of each part, with the width of the part. -/
abbrev Chosen (parts : List (Nat × Progression)) (numbers : List (Nat × Nat)) : Prop :=
  List.Forall₂ (fun part number => number.1 = part.1 ∧ number.2 ∈ part.2) parts numbers

variable {parts more : List (Nat × Progression)}

theorem normal_foldl (hp : p.Normal) (hparts : ∀ part ∈ parts, part.2.Normal) :
    (parts.foldl (fun joined part => joined.append part.1 part.2) p).Normal := by
  induction parts generalizing p with
  | nil => exact hp
  | cons part parts ih =>
    obtain ⟨hpart, hrest⟩ := List.forall_mem_cons.1 hparts
    exact ih (normal_append hp hpart) hrest

theorem normal_appendAll (hparts : ∀ part ∈ parts, part.2.Normal) : (appendAll parts).Normal :=
  normal_foldl (normal_single 0) hparts

/-- The parts behind a progression may be put together first. -/
theorem foldl_append (hp : p.Normal) (hparts : ∀ part ∈ parts, part.2.Normal) :
    parts.foldl (fun joined part => joined.append part.1 part.2) p =
      p.append (totalBits parts) (appendAll parts) := by
  induction parts generalizing p with
  | nil => exact (append_zero hp).symm
  | cons part parts ih =>
    obtain ⟨hpart, hrest⟩ := List.forall_mem_cons.1 hparts
    have hfirst :
        appendAll (part :: parts) = part.2.append (totalBits parts) (appendAll parts) := by
      rw [appendAll, List.foldl_cons, zero_append hpart]
      exact ih hpart hrest
    rw [List.foldl_cons, ih (normal_append hp hpart) hrest, hfirst,
      append_assoc hp hpart (normal_appendAll hrest)]
    rfl

theorem appendAll_append (hparts : ∀ part ∈ parts, part.2.Normal)
    (hmore : ∀ part ∈ more, part.2.Normal) :
    appendAll (parts ++ more) = (appendAll parts).append (totalBits more) (appendAll more) := by
  rw [appendAll, List.foldl_append]
  exact foldl_append (normal_appendAll hparts) hmore

/-- Numbers of several parts fit the sum of the widths. -/
theorem upper_foldl_lt (hp : p.Normal) (hupper : p.upper < twoPow bits)
    (hparts : ∀ part ∈ parts, part.2.Normal ∧ part.2.upper < twoPow part.1) :
    (parts.foldl (fun joined part => joined.append part.1 part.2) p).upper <
      twoPow (bits + totalBits parts) := by
  induction parts generalizing p bits with
  | nil => exact hupper
  | cons part parts ih =>
    obtain ⟨⟨hpart, hfits⟩, hrest⟩ := List.forall_mem_cons.1 hparts
    have hstep : (p.append part.1 part.2).upper < twoPow (bits + part.1) := by
      rw [append_eq hp hpart]
      exact append_lt_twoPow hupper hfits
    have htail := ih (normal_append hp hpart) hstep hrest
    rwa [Nat.add_assoc] at htail

/-- Parts put behind a hull give the hull of the numbers put behind those of the family. -/
theorem hull_foldl (hp : p.Normal) (hF : Hull F p) (hparts : ∀ part ∈ parts, part.2.Normal) :
    Hull (fun w => ∃ u numbers, F u ∧ Chosen parts numbers ∧
        numbers.foldl (fun joined number => joined * twoPow number.1 + number.2) u = w)
      (parts.foldl (fun joined part => joined.append part.1 part.2) p) := by
  induction parts generalizing p F with
  | nil =>
    refine hF.congr fun v => ?_
    constructor
    · intro hv
      exact ⟨v, [], hv, .nil, rfl⟩
    · rintro ⟨u, numbers, hu, hchosen, rfl⟩
      cases hchosen
      exact hu
  | cons part parts ih =>
    obtain ⟨hpart, hrest⟩ := List.forall_mem_cons.1 hparts
    have hstep : Hull _ (p.append part.1 part.2) := hull_append hp hpart hF hpart.hull
    refine (ih (normal_append hp hpart) hstep hrest).congr fun w => ?_
    constructor
    · rintro ⟨_, numbers, ⟨u, v, hu, hv, rfl⟩, hchosen, rfl⟩
      exact ⟨u, (part.1, v) :: numbers, hu, .cons ⟨rfl, hv⟩ hchosen, rfl⟩
    · rintro ⟨u, _, hu, hchosen, rfl⟩
      obtain ⟨⟨n, v⟩, numbers, ⟨rfl, hv⟩, hrestChosen, rfl⟩ := List.forall₂_cons_left_iff.1 hchosen
      exact ⟨u * twoPow part.1 + v, numbers, ⟨u, v, hu, hv, rfl⟩, hrestChosen, rfl⟩

/-- The hull of all numbers made of a number of each part. -/
theorem hull_appendAll (hparts : ∀ part ∈ parts, part.2.Normal) :
    Hull (fun w => ∃ numbers, Chosen parts numbers ∧
        numbers.foldl (fun joined number => joined * twoPow number.1 + number.2) 0 = w)
          (appendAll parts) := by
  refine (hull_foldl (normal_single 0) (normal_single 0).hull hparts).congr fun w => ?_
  simp only [mem_single, exists_and_left, exists_eq_left]

/-! ## Parts cut out again -/

/-- The high part cut out again starts and ends where it did. -/
theorem field_append_high (validHigh : ValidWidth bits) (validLow : ValidWidth lowBits)
    (hp : p.Fits bits) (hq : q.Fits lowBits) :
    (p.append lowBits q).field bits lowBits =
      between p.lower p.upper
        (strideAfterShift (Nat.gcd (p.stride * twoPow lowBits) q.stride) lowBits) := by
  have hlower : (p.lower * twoPow lowBits + q.lower) / twoPow lowBits = p.lower :=
    append_div_twoPow (hq.lt_twoPow validLow hq.1.lower_mem)
  have hupper : (p.upper * twoPow lowBits + q.upper) / twoPow lowBits = p.upper :=
    append_div_twoPow (hq.lt_twoPow validLow hq.1.upper_mem)
  have hplower := hp.lt_twoPow validHigh hp.1.lower_mem
  have hpupper := hp.lt_twoPow validHigh hp.1.upper_mem
  rw [append_eq hp.1 hq.1, field_of_same]
  · simp only [hlower, hupper, Nat.mod_eq_of_lt hplower, Nat.mod_eq_of_lt hpupper]
  · simp only [hlower, hupper, Nat.div_eq_of_lt hplower, Nat.div_eq_of_lt hpupper]

theorem strideAfterShift_mul (stride amount : Nat) :
    strideAfterShift (stride * twoPow amount) amount = stride := by
  rw [strideAfterShift, if_pos (Nat.dvd_mul_left _ _), Nat.mul_div_cancel _ (twoPow_pos amount)]

/-- The stride that is left for the high part is a stride of it. -/
theorem strideAfterShift_gcd_dvd (stride lowStride : Nat) :
    strideAfterShift (Nat.gcd (stride * twoPow lowBits) lowStride) lowBits ∣ stride := by
  have hdvd := strideAfterShift_dvd lowBits (Nat.gcd_dvd_left (stride * twoPow lowBits) lowStride)
  rwa [strideAfterShift_mul] at hdvd

theorem lower_field_append_high (validHigh : ValidWidth bits) (validLow : ValidWidth lowBits)
    (hp : p.Fits bits) (hq : q.Fits lowBits) :
    ((p.append lowBits q).field bits lowBits).lower = p.lower := by
  rw [field_append_high validHigh validLow hp hq, lower_between]

theorem upper_field_append_high (validHigh : ValidWidth bits) (validLow : ValidWidth lowBits)
    (hp : p.Fits bits) (hq : q.Fits lowBits) :
    ((p.append lowBits q).field bits lowBits).upper = p.upper := by
  rw [field_append_high validHigh validLow hp hq]
  exact upper_between_of_dvd hp.1.1 (Nat.dvd_trans (strideAfterShift_gcd_dvd _ _) hp.1.2.2)

/-- The high part cut out again is as it was in front of a single number. -/
theorem field_append_high_of_single (validHigh : ValidWidth bits) (validLow : ValidWidth lowBits)
    (hp : p.Fits bits) (hq : q.Fits lowBits) (hsingle : q.isSingle = true) :
    (p.append lowBits q).field bits lowBits = p := by
  have hstride : q.stride = 0 := by rw [hq.1.eq_single hsingle, single]
  rw [field_append_high validHigh validLow hp hq, hstride, Nat.gcd_zero_right, strideAfterShift_mul,
    between_eq_self hp.1]

/-- The low part cut out again is as it was behind a single number. -/
theorem field_append_low_of_single (valid : ValidWidth lowBits) (hp : p.Normal)
    (hq : q.Fits lowBits) (hsingle : p.isSingle = true) :
    (p.append lowBits q).field lowBits 0 = q := by
  rw [hp.eq_single hsingle, append_eq (normal_single _) hq.1]
  simp only [single, Nat.zero_mul, Nat.gcd_zero_left]
  exact field_of_block valid hq p.lower

/-- Behind several numbers the low part wraps around. -/
theorem field_append_low_of_several (valid : ValidWidth lowBits) (hp : p.Normal)
    (hq : q.Fits lowBits) (hseveral : p.isSingle = false) :
    (p.append lowBits q).field lowBits 0 = whole lowBits := by
  rw [append_eq hp hq.1]
  refine field_of_crossing ?_
  rw [div_twoPow_zero, div_twoPow_zero, append_div_twoPow (hq.lt_twoPow valid hq.1.lower_mem),
    append_div_twoPow (hq.lt_twoPow valid hq.1.upper_mem)]
  exact ne_of_beq_false hseveral

end Progression

end AbstractBits
