import AbstractBits.Proofs.Interval.Inclusion
/-!
# What the intersection of intervals keeps

The intersection of two intervals has all common numbers. It takes them from the interval with the
larger stride, between the bounds of both, and so it can have other numbers too, unless the smaller
stride divides the larger one. A single number is looked up in the other interval. Nothing is left
if the bounds or the classes are apart.

Results:
  * `denotes_meet_iff` — the numbers of an intersection in terms of what is stored.
  * `denotes_left_of_meet`, `denotes_right_of_meet` — when they are numbers of an operand.
  * `intersection_keeps` — what an intersection keeps, and when it is exact or empty.
-/

namespace AbstractBits

namespace Interval

variable {x y z : Interval} {bits v : Nat}

/-! ## Numbers of an intersection -/

theorem meet_of_not_reversed (hxrev : x.reversed = false) (hyrev : y.reversed = false) :
    x.meet y = ofRange x.bits (x.range.bind fun p => y.range.bind fun q => p.meet q) :=
  combine_of_not_reversed hxrev hyrev

theorem Plain.meet (hx : x.Plain bits) (hy : y.Plain bits) : (x.meet y).Plain bits :=
  hx.combine hy (keeps_meet _)

/-- Without pending byte swaps the numbers of an intersection are the members of the stored meet. -/
theorem denotes_meet_iff (hxrev : x.reversed = false) (hyrev : y.reversed = false) :
    (x.meet y).Denotes v ↔ ∃ p ∈ x.range, ∃ q ∈ y.range, ∃ r ∈ p.meet q, v ∈ r := by
  rw [meet_of_not_reversed hxrev hyrev, denotes_ofRange]
  simp only [Option.mem_def, Option.bind_eq_some_iff]
  constructor
  · rintro ⟨r, ⟨p, hp, q, hq, hr⟩, hv⟩
    exact ⟨p, hp, q, hq, r, hr, hv⟩
  · rintro ⟨p, hp, q, hq, r, hr, hv⟩
    exact ⟨r, ⟨p, hp, q, hq, hr⟩, hv⟩

/-- The numbers of an intersection lie between the bounds of both operands, and the lower bounds
agree modulo both strides. -/
theorem bounds_of_denotes_meet (hx : x.Plain bits) (hy : y.Plain bits) (hv : (x.meet y).Denotes v) :
    max x.lower y.lower ≤ v ∧ v ≤ min x.upper y.upper ∧
      Nat.gcd x.stride y.stride ∣ Progression.distance x.lower y.lower := by
  obtain ⟨p, hp, q, hq, r, hr, hmem⟩ := (denotes_meet_iff hx.unreversed hy.unreversed).1 hv
  have hpfits := hx.fits hp
  have hqfits := hy.fits hq
  rw [Option.mem_def] at hp hq
  obtain ⟨hlow, hupp⟩ := Progression.le_of_mem_meet hpfits hqfits hr hmem
  simp only [lower, upper, stride, hp, hq, Option.elim_some]
  exact ⟨hlow, hupp, Progression.gcd_dvd_of_mem_meet hpfits hqfits hr hmem⟩

/-- With a single number on one side, or with strides of which the smaller one divides the larger
one, the numbers of an intersection are the common numbers. -/
theorem denotes_meet_iff_common (hx : x.Plain bits) (hy : y.Plain bits)
    (h : x.isSingle = true ∨ y.isSingle = true ∨ min x.stride y.stride ∣ max x.stride y.stride) :
    (x.meet y).Denotes v ↔ x.Denotes v ∧ y.Denotes v := by
  constructor
  · intro hv
    obtain ⟨p, hp, q, hq, hmeet⟩ := (denotes_meet_iff hx.unreversed hy.unreversed).1 hv
    have hpfits := hx.fits hp
    have hqfits := hy.fits hq
    rw [Option.mem_def] at hp hq
    simp only [isSingle, stride, hp, hq, Option.any_some, Option.elim_some] at h
    obtain ⟨hvp, hvq⟩ := (Progression.mem_meet_iff hpfits hqfits h).1 hmeet
    exact ⟨(denotes_iff_mem hx.unreversed).2 ⟨p, hp, hvp⟩,
      (denotes_iff_mem hy.unreversed).2 ⟨q, hq, hvq⟩⟩
  · intro hboth
    exact (retains_meet hx.valid hy.valid (hx.same_width hy)).denotes v hboth

/-- The numbers of an intersection are numbers of an operand whose stride is not the smaller one. -/
theorem denotes_left_of_meet (hx : x.Plain bits) (hy : y.Plain bits) (hle : y.stride ≤ x.stride)
    (hv : (x.meet y).Denotes v) : x.Denotes v := by
  obtain ⟨p, hp, q, hq, r, hr, hmem⟩ := (denotes_meet_iff hx.unreversed hy.unreversed).1 hv
  have hpfits := hx.fits hp
  have hqfits := hy.fits hq
  rw [Option.mem_def] at hp hq
  simp only [stride, hp, hq, Option.elim_some] at hle
  have hdvd : p.stride ∣ max p.stride q.stride := ⟨1, by omega⟩
  exact (denotes_iff_mem hx.unreversed).2
    ⟨p, hp, Progression.mem_left_of_mem_meet hpfits hqfits hdvd hr hmem⟩

theorem denotes_right_of_meet (hx : x.Plain bits) (hy : y.Plain bits) (hle : x.stride ≤ y.stride)
    (hv : (x.meet y).Denotes v) : y.Denotes v := by
  rw [meet_comm hx.valid hy.valid (hx.same_width hy)] at hv
  exact denotes_left_of_meet hy hx hle hv

/-! ## The intersection -/

theorem intersection_eq (hbits : x.bits = y.bits) : x.intersection y = .ok (x.meet y) :=
  requireSameWidth_eq_ok.2 ⟨hbits, rfl⟩

theorem Valid.isEmpty_of_not_denotes (hx : x.Valid) (h : ∀ v, ¬x.Denotes v) : x.isEmpty = true := by
  cases hempty : x.isEmpty with
  | true => rfl
  | false =>
    obtain ⟨v, hv⟩ := hx.exists_denotes.2 hempty
    exact absurd hv (h v)

/-- What the intersection of two intervals keeps of them. -/
structure KeepsCommon (x y z : Interval) : Prop where
  common : ∀ v, x.Denotes v → y.Denotes v → z.Denotes v
  between : ∀ v, z.Denotes v → (x.lower ≤ v ∧ v ≤ x.upper) ∧ y.lower ≤ v ∧ v ≤ y.upper
  left : y.stride ≤ x.stride ∨ x.isSingle = true → z ⊆ x
  right : x.stride ≤ y.stride ∨ y.isSingle = true → z ⊆ y
  exact_of : x.isSingle = true ∨ y.isSingle = true ∨ min x.stride y.stride ∣ max x.stride y.stride →
    ∀ v, z.Denotes v ↔ x.Denotes v ∧ y.Denotes v
  disjoint : x.upper < y.lower ∨ y.upper < x.lower → z.isEmpty = true
  classes : ¬Nat.gcd x.stride y.stride ∣ Progression.distance x.lower y.lower → z.isEmpty = true

/-- Intervals of one width without pending byte swaps have an intersection. It has all common
numbers, and only numbers that lie between the bounds of both and are in the operand with the larger
stride, or with a single number. It is exact if an operand has a single number or if the smaller
stride divides the larger one, and empty if the bounds or the classes are apart. -/
theorem intersection_keeps (hx : x.Plain bits) (hy : y.Plain bits) :
    ∃ z, x.intersection y = .ok z ∧ z.Plain bits ∧ KeepsCommon x y z := by
  have hretains := retains_meet hx.valid hy.valid (hx.same_width hy)
  have hbounds {v : Nat} (hv : (x.meet y).Denotes v) := bounds_of_denotes_meet hx hy hv
  have hexact {v : Nat} := denotes_meet_iff_common (v := v) hx hy
  refine ⟨x.meet y, intersection_eq (hx.same_width hy), hx.meet hy, ?_⟩
  constructor
  case common => exact fun v hvx hvy => hretains.denotes v ⟨hvx, hvy⟩
  case between =>
    intro v hv
    obtain ⟨hlow, hupp, -⟩ := hbounds hv
    obtain ⟨hxlow, hylow⟩ := Nat.max_le.1 hlow
    obtain ⟨hxupp, hyupp⟩ := Nat.le_min.1 hupp
    exact ⟨⟨hxlow, hxupp⟩, hylow, hyupp⟩
  case left =>
    rintro (hle | hsingle) v hv
    · exact denotes_left_of_meet hx hy hle hv
    · exact ((hexact (.inl hsingle)).1 hv).1
  case right =>
    rintro (hle | hsingle) v hv
    · exact denotes_right_of_meet hx hy hle hv
    · exact ((hexact (.inr (.inl hsingle))).1 hv).2
  case exact_of => exact fun h v => hexact h
  case disjoint =>
    intro hapart
    refine hretains.valid.isEmpty_of_not_denotes fun v hv => ?_
    obtain ⟨hlow, hupp, -⟩ := hbounds hv
    omega
  case classes =>
    intro hapart
    exact hretains.valid.isEmpty_of_not_denotes fun v hv => hapart (hbounds hv).2.2

/-- The numbers 1, 5, 9 and 13 and the numbers 3, 9 and 15: only 9 is common, but the intersection
has 3 too. -/
theorem intersection_of_steps :
    ∃ z, (ofRange 8 (some ⟨1, 13, 4⟩)).intersection (ofRange 8 (some ⟨3, 15, 6⟩)) = .ok z ∧
      z = ofRange 8 (some ⟨3, 9, 6⟩) ∧ z.Denotes 9 ∧ z ⊆ ofRange 8 (some ⟨3, 15, 6⟩) := by
  have hx : (ofRange 8 (some ⟨1, 13, 4⟩)).Plain 8 :=
    plain_ofRange (by decide) ⟨by decide, by decide⟩
  have hy : (ofRange 8 (some ⟨3, 15, 6⟩)).Plain 8 :=
    plain_ofRange (by decide) ⟨by decide, by decide⟩
  obtain ⟨z, hz, -, hkeeps⟩ := intersection_keeps hx hy
  have hsteps : (ofRange 8 (some ⟨1, 13, 4⟩)).intersection (ofRange 8 (some ⟨3, 15, 6⟩)) =
      .ok (ofRange 8 (some ⟨3, 9, 6⟩)) := rfl
  obtain rfl : z = ofRange 8 (some ⟨3, 9, 6⟩) := Except.ok.inj (hz.symm.trans hsteps)
  have hnine :=
    hkeeps.common 9 (denotes_ofRange.2 ⟨_, rfl, by decide⟩) (denotes_ofRange.2 ⟨_, rfl, by decide⟩)
  exact ⟨_, hz, rfl, hnine, hkeeps.right (.inl (by decide))⟩

end Interval

end AbstractBits
