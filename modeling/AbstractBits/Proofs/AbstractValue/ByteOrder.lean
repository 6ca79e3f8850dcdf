import AbstractBits.Proofs.AbstractValue.Lattice
import AbstractBits.Proofs.IntervalSet.Transfer
import AbstractBits.Proofs.ValueSet.Transfer
/-!
# Byte swaps in every shape

A byte swap stands for exactly the byte-swapped places in every shape, and behind a pending byte
swap the stored value stands for the places before it.

Results:
  * `denotes_reverse` — a reversed value stands for exactly the byte-swapped places.
  * `denotes_reverse_iff` — the same, read from the reversed value.
  * `denotes_stored` — a value with a pending byte swap and the value that is stored for it.
-/

namespace AbstractBits

namespace AbstractValue

variable {a r : AbstractValue} {place : Place}

theorem lt_twoPow (ha : a.Valid) (hv : a.Denotes place) : place.offset < twoPow a.bits := by
  cases a with
  | interval x => exact Interval.Valid.lt_twoPow ha hv.2
  | set s =>
    obtain ⟨x, hx, hxv⟩ := hv.2
    obtain ⟨hvalid, hbits⟩ : x.Valid ∧ x.bits = (set s).bits := IntervalSet.Valid.uniform ha x hx
    exact hbits ▸ hvalid.lt_twoPow hxv
  | valueSet v => exact ValueSet.Valid.lt_twoPow ha hv

theorem width (ha : a.Valid) : ValidWidth a.bits := by
  cases a with
  | interval x => exact Interval.Valid.width ha
  | set s => exact IntervalSet.Valid.width ha
  | valueSet v => exact ValueSet.Valid.width ha

/-! ## Reversal -/

theorem exists_reverse (ha : a.Valid) (bytes : a.bits % 8 = 0) : ∃ r, a.reverse = .ok r := by
  cases a with
  | interval x =>
    obtain ⟨y, hy⟩ := Interval.exists_reverse bytes
    exact ⟨interval y, map_eq_ok.2 ⟨y, hy, rfl⟩⟩
  | set s =>
    obtain ⟨u, hu⟩ := IntervalSet.exists_reverse ha bytes
    exact ⟨set u, map_eq_ok.2 ⟨u, hu, rfl⟩⟩
  | valueSet v =>
    obtain ⟨w, hw⟩ := ValueSet.exists_reverse bytes
    exact ⟨valueSet w, map_eq_ok.2 ⟨w, hw, rfl⟩⟩

/-- A plain number and its byte-swapped image, as places. -/
theorem exists_swapped_number {bits : Nat} {p : Nat → Prop} :
    (place.region = numberRegion ∧ ∃ u, p u ∧ place.offset = byteReversed bits u) ↔
      ∃ q : Place, (q.region = numberRegion ∧ p q.offset) ∧ place = q.swapped bits := by
  obtain ⟨region, offset⟩ := place
  constructor
  · rintro ⟨hregion, u, hu, hoffset⟩
    refine ⟨⟨region, u⟩, ⟨hregion, hu⟩, ?_⟩
    simp only at hoffset
    rw [hoffset]
    rfl
  · rintro ⟨q, ⟨hregion, hq⟩, heq⟩
    cases heq
    exact ⟨hregion, q.offset, hq, rfl⟩

theorem valid_reverse (ha : a.Valid) (h : a.reverse = .ok r) : r.Valid ∧ r.bits = a.bits := by
  cases a with
  | interval x =>
    obtain ⟨y, hy, rfl⟩ := map_eq_ok.1 h
    exact ⟨Interval.valid_reverse ha hy, Interval.bits_reverse hy⟩
  | set s =>
    obtain ⟨u, hu, rfl⟩ := map_eq_ok.1 h
    have himages := IntervalSet.imagesOf_reverse ha hu
    exact ⟨himages.valid, himages.width⟩
  | valueSet v =>
    obtain ⟨w, hw, rfl⟩ := map_eq_ok.1 h
    exact ⟨ValueSet.valid_reverse ha hw, ValueSet.bits_reverse hw⟩

/-- A reversed value stands for exactly the byte-swapped places. -/
theorem denotes_reverse (ha : a.Valid) (h : a.reverse = .ok r) :
    r.Denotes place ↔ ∃ q, a.Denotes q ∧ place = q.swapped a.bits := by
  cases a with
  | interval x =>
    obtain ⟨y, hy, rfl⟩ := map_eq_ok.1 h
    exact (and_congr_right fun _ => Interval.denotes_reverse ha hy).trans exists_swapped_number
  | set s =>
    obtain ⟨u, hu, rfl⟩ := map_eq_ok.1 h
    exact (and_congr_right fun _ => IntervalSet.denotes_reverse ha hu).trans exists_swapped_number
  | valueSet v =>
    obtain ⟨w, hw, rfl⟩ := map_eq_ok.1 h
    exact ValueSet.denotes_reverse ha hw

/-- A reversed value stands for the places whose byte-swapped images the value stands for. -/
theorem denotes_reverse_iff (ha : a.Valid) (bytes : a.bits % 8 = 0) (h : a.reverse = .ok r) :
    r.Denotes place ↔ place.offset < twoPow a.bits ∧ a.Denotes (place.swapped a.bits) := by
  rw [denotes_reverse ha h]
  constructor
  · rintro ⟨q, hq, rfl⟩
    rw [Place.swapped_swapped bytes (lt_twoPow ha hq)]
    exact ⟨byteReversed_lt bytes _, hq⟩
  · rintro ⟨hlt, hv⟩
    exact ⟨_, hv, (Place.swapped_swapped bytes hlt).symm⟩

/-! ## Pending byte swaps -/

theorem valid_stored (ha : a.Valid) : a.stored.Valid := by
  cases a with
  | interval x => exact Interval.valid_stored ha
  | set s => exact IntervalSet.valid_stored ha
  | valueSet v => exact ValueSet.valid_stored ha

theorem bits_stored (a : AbstractValue) : a.stored.bits = a.bits := by
  cases a with
  | interval x => rfl
  | set s => exact IntervalSet.bits_ofMembers _ _
  | valueSet v => rfl

/-- Only numbers of several whole bytes can have a byte swap pending. -/
theorem several_bytes_of_isReversed (ha : a.Valid) (h : a.isReversed = true) :
    a.bits % 8 = 0 ∧ a.bits ≠ 8 := by
  cases a with
  | interval x =>
    obtain ⟨bytes, several, -⟩ := Interval.Valid.pending ha h
    exact ⟨bytes, several⟩
  | set s =>
    obtain ⟨hne, hall⟩ := IntervalSet.isReversed_iff.1 h
    obtain ⟨x, hx⟩ := List.exists_mem_of_ne_nil _ hne
    obtain ⟨hvalid, hbits⟩ : x.Valid ∧ x.bits = (set s).bits := IntervalSet.Valid.uniform ha x hx
    obtain ⟨bytes, several, -⟩ := hvalid.pending (hall x hx)
    exact hbits ▸ ⟨bytes, several⟩
  | valueSet v => exact ValueSet.Valid.pending ha h

theorem bytes_of_isReversed (ha : a.Valid) (h : a.isReversed = true) : a.bits % 8 = 0 :=
  (several_bytes_of_isReversed ha h).1

/-- Behind a pending byte swap the stored value stands for the places before it. -/
theorem denotes_stored (ha : a.Valid) (h : a.isReversed = true) (hv : a.Denotes place) :
    a.stored.Denotes (place.swapped a.bits) := by
  cases a with
  | interval x => exact ⟨hv.1, ((Interval.Valid.denotes_reversed ha h).1 hv.2).2⟩
  | set s =>
    obtain ⟨hregion, x, hx, hxv⟩ := hv
    obtain ⟨hvalid, hbits⟩ : x.Valid ∧ x.bits = (set s).bits := IntervalSet.Valid.uniform ha x hx
    have hstored := ((hvalid.denotes_reversed ((IntervalSet.isReversed_iff.1 h).2 x hx)).1 hxv).2
    rw [hbits] at hstored
    refine ⟨hregion, IntervalSet.denotes_ofMembers (IntervalSet.Valid.width ha) ?_
      ⟨x.stored, List.mem_map_of_mem hx, hstored⟩⟩
    intro y hy
    obtain ⟨z, hz, rfl⟩ := List.mem_map.1 hy
    obtain ⟨hzvalid, hzbits⟩ := IntervalSet.Valid.uniform ha z hz
    exact ⟨Interval.valid_stored hzvalid, hzbits⟩
  | valueSet v =>
    exact (ValueSet.denotes_of_not_reversed rfl).2 ((ValueSet.Valid.denotes_reversed ha h).1 hv).2

/-- The value that a lattice operator is given in the place of one with a pending byte swap. -/
def unreversed (a : AbstractValue) : AbstractValue := if a.isReversed then a.stored else a

theorem valid_unreversed (ha : a.Valid) : a.unreversed.Valid := by
  unfold unreversed
  split
  · exact valid_stored ha
  · exact ha

theorem bits_unreversed (a : AbstractValue) : a.unreversed.bits = a.bits := by
  unfold unreversed
  split
  · exact bits_stored a
  · rfl

end AbstractValue

end AbstractBits
