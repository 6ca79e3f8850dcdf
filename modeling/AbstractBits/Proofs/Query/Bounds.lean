import AbstractBits.Construction
import AbstractBits.Proofs.AbstractValue.Transfer
import AbstractBits.Proofs.Query.Sampling
/-!
# Lower and upper bounds

The bounds of a value are those of the interval over it. That interval gives every pending byte swap
up for the whole width, except in one place: the offsets of the only region of a value set are taken
over as they are, and if their byte swap is pending, the stored bounds are no bounds of the
byte-swapped offsets.

Results:
  * `swappedOffsets?_of_hull?` — where the interval over a value has a byte swap pending.
  * `bounds_cover_iff` — when the bounds of a value cover it, and that they belong to it where no
    byte swap is pending.
  * `bounds_miss_swapped_offsets` — a value with a place, which is sampled too, below its lower
    bound.
-/

namespace AbstractBits

namespace AbstractValue

variable {a : AbstractValue} {x : Interval}

/-- No byte swap is pending, neither of an interval that belongs to the value nor of the value as a
whole. -/
def Unswapped : AbstractValue → Prop
  | interval x => x.reversed = false
  | set s => ∀ x ∈ s.members, x.reversed = false
  | valueSet v => v.reversed = false ∧ ∀ x ∈ v.regions.values, x.reversed = false

/-- The offsets of a value set over the global region alone, if their byte swap is pending and that
of the value set is not. -/
def swappedOffsets? : AbstractValue → Option Interval
  | valueSet v =>
    match v.onlyRegion? with
    | some (region, x) =>
      if region = numberRegion ∧ v.reversed = false ∧ x.reversed = true then some x else none
    | none => none
  | _ => none

/-! ## The interval over a value -/

/-- Behind a pending byte swap of a value set, the offsets of its only region can be any. -/
theorem reversed_of_onlyRegion?_cover {v : ValueSet} {region : String} (hrev : v.reversed = true)
    (h : v.cover.onlyRegion? = some (region, x)) : x.reversed = false := by
  have hentries := ValueSet.entries_of_onlyRegion? h
  simp only [ValueSet.cover, hrev, if_true, RegionMap.map] at hentries
  have hmem : (region, x) ∈ v.regions.entries.map fun e => (e.1, Interval.whole v.bits) :=
    hentries ▸ List.mem_singleton.2 rfl
  obtain ⟨e, -, heq⟩ := List.mem_map.1 hmem
  cases heq
  rfl

/-- The interval over a value has a byte swap pending only if it is the offsets of a value set, as
they are. -/
theorem swappedOffsets?_of_hull? (h : a.hull? = some x) :
    a.swappedOffsets? = if x.reversed then some x else none := by
  cases a with
  | interval y =>
    cases h
    simp [swappedOffsets?, Interval.reversed_cover]
  | set s =>
    cases h
    simp [swappedOffsets?, IntervalSet.reversed_hull]
  | valueSet v =>
    simp only [hull?] at h
    split at h
    · rename_i region offsets honly
      split at h
      · rename_i hregion
        cases h
        cases hrev : v.reversed with
        | true =>
          simp only [swappedOffsets?, hrev, reversed_of_onlyRegion?_cover hrev honly]
          split <;> simp
        | false =>
          rw [ValueSet.cover_of_not_reversed hrev] at honly
          simp [swappedOffsets?, honly, hrev, hregion]
      · cases h
    · cases h

/-- Offsets with a pending byte swap, of a value set without one, are numbers of the value. -/
theorem denotes_of_swappedOffsets? (h : a.swappedOffsets? = some x) {v : Nat} (hv : x.Denotes v) :
    a.Denotes (.number v) := by
  cases a with
  | interval y => cases h
  | set s => cases h
  | valueSet w =>
    simp only [swappedOffsets?] at h
    split at h
    · rename_i region offsets honly
      split at h
      · rename_i hcond
        cases h
        obtain ⟨rfl, hrev, -⟩ := hcond
        refine (ValueSet.denotes_of_not_reversed hrev).2 ⟨x, ?_, hv⟩
        exact RegionMap.get?_eq_some_iff.2
          (ValueSet.entries_of_onlyRegion? honly ▸ List.mem_singleton.2 rfl)
      · cases h
    · cases h

/-- Where no byte swap is pending, the ends of the interval over a value are numbers of the
value. -/
theorem Unswapped.denotes_ends (hplain : a.Unswapped) (ha : a.Valid) (h : a.hull? = some x)
    (hsome : x.isEmpty = false) : a.Denotes (.number x.lower) ∧ a.Denotes (.number x.upper) := by
  cases a with
  | interval y =>
    cases h
    rw [Interval.cover_of_not_reversed hplain] at hsome ⊢
    obtain ⟨hlower, hupper⟩ := Interval.Valid.denotes_bounds ha hplain hsome
    exact ⟨⟨rfl, hlower⟩, rfl, hupper⟩
  | set s =>
    cases h
    have hends := IntervalSet.endsIn_hull ha hplain
    obtain ⟨y, hy, hysome, hlower⟩ := hends.lower hsome
    obtain ⟨z, hz, hzsome, hupper⟩ := hends.upper hsome
    have hyden := (IntervalSet.Valid.uniform ha y hy).1.denotes_bounds (hplain y hy) hysome
    have hzden := (IntervalSet.Valid.uniform ha z hz).1.denotes_bounds (hplain z hz) hzsome
    exact ⟨⟨rfl, y, hy, hlower ▸ hyden.1⟩, rfl, z, hz, hupper ▸ hzden.2⟩
  | valueSet v =>
    simp only [hull?] at h
    split at h
    · rename_i region offsets honly
      split at h
      · rename_i hregion
        cases h
        subst hregion
        rw [ValueSet.cover_of_not_reversed hplain.1] at honly
        have hmem : (numberRegion, x) ∈ v.regions.entries :=
          ValueSet.entries_of_onlyRegion? honly ▸ List.mem_singleton.2 rfl
        have hget := RegionMap.get?_eq_some_iff.2 hmem
        have hends := (ValueSet.Valid.uniform ha _ x hget).1.denotes_bounds
          (hplain.2 x (List.mem_map_of_mem hmem)) hsome
        exact ⟨(ValueSet.denotes_of_not_reversed hplain.1).2 ⟨x, hget, hends.1⟩,
          (ValueSet.denotes_of_not_reversed hplain.1).2 ⟨x, hget, hends.2⟩⟩
      · cases h
    · cases h

end AbstractValue

namespace Value

variable {a : AbstractValue} {lo hi : Nat}

/-- No place of a value and no sample of it lies outside of two bounds. -/
structure Within (lo hi : Nat) (a : AbstractValue) : Prop where
  places : ∀ place, a.Denotes place → lo ≤ place.offset ∧ place.offset ≤ hi
  samples : ∀ rounds n, ∃ ss, (Value.abstract a).samples rounds n = .ok ss ∧
    ∀ s ∈ ss, ∃ k, s = .bits k ∧ lo ≤ k ∧ k ≤ hi
  /-- Nor does one that there is room for. -/
  evaluated : ∀ rounds n r, (Value.abstract a).eval rounds n = some r →
    ∃ ss, r = .ok ss ∧ ∀ s ∈ ss, ∃ k, s = .bits k ∧ lo ≤ k ∧ k ≤ hi

/-- Samples belong to places, so bounds of the places are bounds of the samples. -/
theorem within_of_places (ha : a.Valid)
    (h : ∀ place, a.Denotes place → lo ≤ place.offset ∧ place.offset ≤ hi) : Within lo hi a := by
  have hsamples : ∀ rounds n, ∃ ss, (Value.abstract a).samples rounds n = .ok ss ∧
      ∀ s ∈ ss, ∃ k, s = .bits k ∧ lo ≤ k ∧ k ≤ hi := by
    intro rounds n
    obtain ⟨ss, hss, hplaces⟩ := exists_samples ha rounds n
    refine ⟨ss, hss, fun s hs => ?_⟩
    obtain ⟨place, hplace, rfl⟩ := hplaces s hs
    exact ⟨place.offset, rfl, h place hplace⟩
  refine ⟨h, hsamples, fun rounds n r hr => ?_⟩
  rw [← samples_of_eval hr]
  exact hsamples rounds n

theorem bounds_eq_ok {query : Query} {x : Interval} :
    (Value.abstract a).bounds query = .ok x ↔ a.hull? = some x ∧ x.isEmpty = false := by
  unfold bounds
  simp only [abstract?, Option.bind_some]
  cases hhull : a.hull? with
  | none => simp
  | some y =>
    simp only [Option.some.injEq]
    split
    · rename_i hempty
      refine iff_of_false nofun ?_
      rintro ⟨rfl, hsome⟩
      rw [hempty] at hsome
      cases hsome
    · rename_i hsome
      rw [Except.ok.injEq]
      refine ⟨?_, And.left⟩
      rintro rfl
      exact ⟨rfl, by simpa using hsome⟩

/-- Both bounds of a value are those of the interval over it. -/
theorem exists_hull_of_bounds (hmin : (Value.abstract a).min = .ok lo)
    (hmax : (Value.abstract a).max = .ok hi) :
    ∃ x, a.hull? = some x ∧ x.isEmpty = false ∧ x.lower = lo ∧ x.upper = hi := by
  obtain ⟨x, hx, hlower⟩ := map_eq_ok.1 hmin
  obtain ⟨y, hy, hupper⟩ := map_eq_ok.1 hmax
  obtain ⟨hhull, hsome⟩ := bounds_eq_ok.1 hx
  have hxy : x = y := Option.some.inj (hhull.symm.trans (bounds_eq_ok.1 hy).1)
  exact ⟨x, hhull, hsome, hlower, hxy ▸ hupper⟩

/-- The bounds of a value cover its places and its samples exactly if it is not a value set over the
global region whose offsets have a byte swap pending, or if the byte-swapped offsets happen to lie
between the stored bounds. If no byte swap is pending, the bounds are among the numbers of the
value. -/
theorem bounds_cover_iff (ha : a.Valid) (hmin : (Value.abstract a).min = .ok lo)
    (hmax : (Value.abstract a).max = .ok hi) :
    (Within lo hi a ↔ ∀ x ∈ a.swappedOffsets?, ∀ u, x.stored.Denotes u →
        x.lower ≤ byteReversed x.bits u ∧ byteReversed x.bits u ≤ x.upper) ∧
      (a.Unswapped → a.Denotes (.number lo) ∧ a.Denotes (.number hi)) := by
  obtain ⟨x, hhull, hsome, rfl, rfl⟩ := exists_hull_of_bounds hmin hmax
  refine ⟨?_, fun hplain => hplain.denotes_ends ha hhull hsome⟩
  obtain ⟨hvalid, -, hcovers⟩ := AbstractValue.covers_of_hull? ha hhull
  rw [AbstractValue.swappedOffsets?_of_hull? hhull]
  cases hrev : x.reversed with
  | false =>
    refine iff_of_true (within_of_places ha fun place hv => ?_) (by simp)
    exact Interval.bounds_of_denotes hrev (hcovers place hv).2
  | true =>
    have hoffsets := AbstractValue.swappedOffsets?_of_hull? hhull
    rw [hrev, if_pos rfl] at hoffsets
    constructor
    · intro hwithin y hy u hu
      cases hy
      have hdenotes := (Interval.denotes_of_reversed hrev).2 ⟨u, hu, rfl⟩
      exact hwithin.places _ (AbstractValue.denotes_of_swappedOffsets? hoffsets hdenotes)
    · intro hbetween
      refine within_of_places ha fun place hv => ?_
      obtain ⟨u, hu, hoffset⟩ := (Interval.denotes_of_reversed hrev).1 (hcovers place hv).2
      exact hoffset ▸ hbetween x rfl u hu

/-- The bounds of a value set that is byte-swapped as a whole are the ends of the width, those of a
set without byte swaps are numbers of its first and its last member. -/
theorem bounds_cover_swapped_and_plain :
    Within 0 65535
        (.valueSet ⟨16, RegionMap.empty.insert numberRegion (.ofRange 16 (some ⟨256, 512, 256⟩)),
          true⟩) ∧
      AbstractValue.Denotes (.set ⟨8, [.ofRange 8 (some ⟨1, 5, 2⟩), .constant 8 9]⟩) (.number 1) ∧
      AbstractValue.Denotes (.set ⟨8, [.ofRange 8 (some ⟨1, 5, 2⟩), .constant 8 9]⟩)
        (.number 9) := by
  have hoffsets : (Interval.ofRange 16 (some ⟨256, 512, 256⟩)).Valid :=
    Interval.valid_ofRange (by decide) (by decide) (by decide)
  have hswapped : (AbstractValue.valueSet
      ⟨16, RegionMap.empty.insert numberRegion (.ofRange 16 (some ⟨256, 512, 256⟩)), true⟩).Valid :=
    ⟨by decide,
      RegionMap.uniform_iff.1
        (RegionMap.uniform_insert (RegionMap.uniform_empty 16) hoffsets rfl),
      by decide⟩
  have hfirst : (Interval.ofRange 8 (some ⟨1, 5, 2⟩)).Valid :=
    Interval.valid_ofRange (by decide) (by decide) (by decide)
  have hplain : (AbstractValue.set ⟨8, [.ofRange 8 (some ⟨1, 5, 2⟩), .constant 8 9]⟩).Valid := by
    refine ⟨by decide, by decide, ?_, by decide⟩
    simp only [List.forall_mem_cons, List.not_mem_nil, false_imp_iff, implies_true, and_true]
    exact ⟨⟨hfirst, rfl, rfl⟩, Interval.valid_constant (by decide) 9, rfl, rfl⟩
  refine ⟨(bounds_cover_iff hswapped rfl rfl).1.2 ?_, (bounds_cover_iff hplain rfl rfl).2 ?_⟩
  · intro x hx
    cases hx
  · simp [AbstractValue.Unswapped, Interval.ofRange, Interval.constant]

/-- The offsets 256 and 512 in the global region stand for 1 and 2 once they are byte-swapped, but
the bounds of the value set stay 256 and 512. -/
theorem bounds_miss_swapped_offsets :
    ¬∀ (a : AbstractValue) (lo hi : Nat), Built a → (Value.abstract a).min = .ok lo →
      (Value.abstract a).max = .ok hi → Within lo hi a := by
  intro hall
  have hrange : Interval.ofBounds 16 256 256 512 = .ok (.ofRange 16 (some ⟨256, 512, 256⟩)) := rfl
  have hreverse : (Interval.ofRange 16 (some ⟨256, 512, 256⟩)).reverse =
      .ok ⟨16, some ⟨256, 512, 256⟩, true, none⟩ := rfl
  have hbuilt : Built (.valueSet (.ofInterval ⟨16, some ⟨256, 512, 256⟩, true, none⟩)) :=
    .valueSetOfInterval (.reverse (.ofBounds hrange) hreverse)
  have hwithin := hall _ 256 512 hbuilt rfl rfl
  have hplace := hwithin.places (.number 1) ⟨_, rfl, 1, ⟨_, rfl, 256, by decide, by decide⟩, rfl⟩
  exact absurd hplace.1 (by decide)

end Value

end AbstractBits
