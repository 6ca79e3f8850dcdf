import AbstractBits.AbstractValue.Basic
/-!
# What abstract values stand for

The concrete values that a description admits. Members of a progression are plain numbers; a pending
byte swap makes them their byte-swapped images. A value of a bit-vector is a place, an offset in a
region, and a plain number is a place in the global region, so that the three shapes speak of the
same things.

Results:
  * `Interval.denotes_cover` — without its pending byte swap an interval covers what it covered.
  * `ValueSet.denotes_ofInterval`, `AbstractValue.denotes_lift_set` — lifting an interval keeps what
    it stands for.
  * `AbstractValue.denotes_unnamed` — names play no part.
-/

namespace AbstractBits

/-- An offset in a region. -/
structure Place where
  region : String
  offset : Nat
  deriving DecidableEq, Repr, Inhabited

namespace Place

/-- A plain number as a place. -/
def number (n : Nat) : Place := ⟨numberRegion, n⟩

/-- The places of the global region are the plain numbers. -/
theorem eq_number {place : Place} (h : place.region = numberRegion) :
    place = number place.offset := by
  cases place
  cases h
  rfl

end Place

/-! ## Intervals -/

namespace Interval

/-- What becomes of a stored member: itself, or its byte-swapped image if the byte swap is
pending. -/
def shown (x : Interval) (stored : Nat) : Nat :=
  if x.reversed then byteReversed x.bits stored else stored

/-- The numbers that an interval stands for. -/
def Denotes (x : Interval) (v : Nat) : Prop := ∃ p ∈ x.range, ∃ u ∈ p, v = x.shown u

theorem denotes_unnamed (x : Interval) (v : Nat) : x.unnamed.Denotes v ↔ x.Denotes v := Iff.rfl

theorem denotes_ofRange {bits : Nat} {range : Option Progression} {v : Nat} :
    (ofRange bits range).Denotes v ↔ ∃ p ∈ range, v ∈ p := by
  constructor
  · rintro ⟨p, hp, u, hu, rfl⟩
    exact ⟨p, hp, hu⟩
  · rintro ⟨p, hp, hv⟩
    exact ⟨p, hp, v, hv, rfl⟩

theorem not_denotes_empty (bits v : Nat) : ¬(empty bits).Denotes v := by
  rintro ⟨p, hp, -⟩
  cases hp

theorem denotes_constant {bits value v : Nat} :
    (constant bits value).Denotes v ↔ v = truncate bits value := by
  unfold constant
  rw [denotes_ofRange]
  simp

theorem denotes_whole {bits v : Nat} : (whole bits).Denotes v ↔ v ≤ allOnes bits := by
  unfold whole
  rw [denotes_ofRange]
  simp [Progression.whole, Progression.mem_between (Nat.one_pos) (Nat.zero_le (allOnes bits))]

/-- What a valid interval stands for fits its width. -/
theorem Valid.le_allOnes {x : Interval} (valid : x.Valid) {v : Nat} (h : x.Denotes v) :
    v ≤ allOnes x.bits := by
  obtain ⟨p, hp, u, hu, rfl⟩ := h
  unfold shown
  split
  · rename_i hrev
    exact (le_allOnes_iff valid.width).2 (byteReversed_lt (valid.pending hrev).1 u)
  · exact Nat.le_trans hu.2.1 (valid.normal p hp).2

/-- A valid interval stands for nothing exactly when it is empty. -/
theorem Valid.exists_denotes {x : Interval} (valid : x.Valid) :
    (∃ v, x.Denotes v) ↔ x.isEmpty = false := by
  constructor
  · rintro ⟨v, p, hp, -⟩
    rw [Option.mem_def] at hp
    simp [isEmpty, hp]
  · intro h
    cases hrange : x.range with
    | none => simp [isEmpty, hrange] at h
    | some p => exact ⟨_, p, hrange, p.lower, (valid.normal p hrange).1.lower_mem, rfl⟩

/-- Giving up a pending byte swap gives up no value. -/
theorem denotes_cover {x : Interval} (valid : x.Valid) {v : Nat} (h : x.Denotes v) :
    x.cover.Denotes v := by
  unfold cover
  split
  · exact denotes_whole.2 (valid.le_allOnes h)
  · exact h

end Interval

/-! ## Sets and value sets -/

namespace IntervalSet

/-- The numbers that a set stands for: those of its members. -/
def Denotes (s : IntervalSet) (v : Nat) : Prop := ∃ x ∈ s.members, x.Denotes v

theorem denotes_unnamed (s : IntervalSet) (v : Nat) : s.unnamed.Denotes v ↔ s.Denotes v := by
  constructor
  · rintro ⟨x, hx, hv⟩
    obtain ⟨y, hy, rfl⟩ := List.mem_map.1 hx
    exact ⟨y, hy, hv⟩
  · rintro ⟨x, hx, hv⟩
    exact ⟨x.unnamed, List.mem_map_of_mem hx, hv⟩

theorem denotes_ofInterval (x : Interval) (v : Nat) : (ofInterval x).Denotes v ↔ x.Denotes v := by
  cases hrange : x.range with
  | none => simp [Denotes, ofInterval, ofMembers, arrange, capacity, Interval.isEmpty,
      Interval.Denotes, hrange]
  | some p =>
    simp [Denotes, ofInterval, ofMembers, arrange, insertMember, capacity, Interval.isEmpty,
    hrange]

end IntervalSet

namespace ValueSet

/-- What becomes of an offset: itself, or its byte-swapped image if the byte swap is pending. -/
def shown (v : ValueSet) (offset : Nat) : Nat :=
  if v.reversed then byteReversed v.bits offset else offset

/-- The places that a value set stands for. -/
def Denotes (v : ValueSet) (place : Place) : Prop :=
  ∃ x ∈ v.get? place.region, ∃ u, x.Denotes u ∧ place.offset = v.shown u

theorem denotes_unnamed (v : ValueSet) (place : Place) :
    v.unnamed.Denotes place ↔ v.Denotes place := by
  simp only [Denotes, unnamed, get?, RegionMap.get?_map, Option.mem_def, Option.map_eq_some_iff]
  constructor
  · rintro ⟨_, ⟨x, hx, rfl⟩, u, hu, hoffset⟩
    exact ⟨x, hx, u, hu, hoffset⟩
  · rintro ⟨x, hx, u, hu, hoffset⟩
    exact ⟨_, ⟨x, hx, rfl⟩, u, hu, hoffset⟩

/-- The numbers of an interval are offsets in the global region. -/
theorem denotes_ofInterval (x : Interval) (place : Place) :
    (ofInterval x).Denotes place ↔ place.region = numberRegion ∧ x.Denotes place.offset := by
  unfold Denotes ofInterval shown get?
  cases hrange : x.range with
  | none => simp [Interval.isEmpty, Interval.Denotes, hrange, RegionMap.get?_empty]
  | some p =>
    by_cases hregion : place.region = numberRegion <;>
      simp [Interval.isEmpty, hrange, RegionMap.get?_insert, RegionMap.get?_empty, hregion]

end ValueSet

/-! ## All shapes -/

namespace AbstractValue

/-- The places that an abstract value stands for. -/
def Denotes : AbstractValue → Place → Prop
  | interval x, place => place.region = numberRegion ∧ x.Denotes place.offset
  | set s, place => place.region = numberRegion ∧ s.Denotes place.offset
  | valueSet v, place => v.Denotes place

theorem denotes_unnamed (a : AbstractValue) (place : Place) :
    a.unnamed.Denotes place ↔ a.Denotes place := by
  cases a with
  | interval x => exact Iff.rfl
  | set s => exact and_congr_right fun _ => s.denotes_unnamed place.offset
  | valueSet v => exact v.denotes_unnamed place

/-- An interval as a set stands for the same numbers. -/
theorem denotes_lift_set (x : Interval) (place : Place) :
    (set (.ofInterval x)).Denotes place ↔ (interval x).Denotes place :=
  and_congr_right fun _ => IntervalSet.denotes_ofInterval x place.offset

/-- An interval as a value set stands for the same numbers. -/
theorem denotes_lift_valueSet (x : Interval) (place : Place) :
    (valueSet (.ofInterval x)).Denotes place ↔ (interval x).Denotes place :=
  ValueSet.denotes_ofInterval x place

end AbstractValue

end AbstractBits
