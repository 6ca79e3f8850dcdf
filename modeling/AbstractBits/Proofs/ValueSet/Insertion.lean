import AbstractBits.Construction
import AbstractBits.Proofs.ValueSet.Lattice
/-!
# Adding offsets to a region

Offsets are added to what is stored of a region, behind the pending byte swap of the value set. No
place is lost by that, but with a pending byte swap the added offsets are read byte-swapped, as
those that were there before.

Results:
  * `valid_insert`, `denotes_insert_new` — adding offsets keeps value sets valid, and makes one of a
    single region.
  * `denotes_addOffsets_self`, `denotes_addOffsets_other` — the places in the region and those in
    all others.
  * `insert_places_iff` — when the added offsets are at their places.
-/

namespace AbstractBits

namespace ValueSet

variable {s u : ValueSet} {x : Interval} {region : String} {place : Place} {bits v : Nat}

/-! ## What is stored -/

/-- The offsets that are stored for a region after others have been added to it. -/
def offsetsAfter (s : ValueSet) (region : String) (x : Interval) : Interval :=
  (s.get? region).elim x fun known => known.join x

theorem addOffsets_of_empty (s : ValueSet) (region : String) (hempty : x.isEmpty = true) :
    s.addOffsets region x = s := if_pos hempty

theorem addOffsets_of_nonempty (s : ValueSet) (region : String) (hsome : x.isEmpty = false) :
    s.addOffsets region x =
      { s with regions := s.regions.insert region (s.offsetsAfter region x) } :=
  if_neg (by simp [hsome])

@[simp] theorem bits_addOffsets (s : ValueSet) (region : String) (x : Interval) :
    (s.addOffsets region x).bits = s.bits := by
  unfold addOffsets
  split <;> rfl

@[simp] theorem reversed_addOffsets (s : ValueSet) (region : String) (x : Interval) :
    (s.addOffsets region x).reversed = s.reversed := by
  unfold addOffsets
  split <;> rfl

theorem shown_addOffsets (s : ValueSet) (region : String) (x : Interval) (v : Nat) :
    (s.addOffsets region x).shown v = s.shown v := by
  rw [shown, shown, bits_addOffsets, reversed_addOffsets]

theorem get?_addOffsets (s : ValueSet) (region other : String) (hsome : x.isEmpty = false) :
    (s.addOffsets region x).get? other =
      if other = region then some (s.offsetsAfter region x) else s.get? other := by
  rw [addOffsets_of_nonempty s region hsome]
  exact RegionMap.get?_insert _ _ _ _

theorem valid_offsetsAfter (region : String) (hs : s.Valid) (hx : x.Valid)
    (hbits : s.bits = x.bits) :
    (s.offsetsAfter region x).Valid ∧ (s.offsetsAfter region x).bits = s.bits := by
  unfold offsetsAfter
  cases hget : s.get? region with
  | none => exact ⟨hx, hbits.symm⟩
  | some y =>
    obtain ⟨hy, hybits⟩ := hs.uniform region y hget
    have hjoin := Interval.retains_join hy hx (hybits.trans hbits)
    exact ⟨hjoin.valid, hjoin.width.trans hybits⟩

/-- The offsets stored afterwards include the added ones. -/
theorem denotes_offsetsAfter_added (hs : s.Valid) (hx : x.Valid) (hbits : s.bits = x.bits)
    (hv : x.Denotes v) : (s.offsetsAfter region x).Denotes v := by
  unfold offsetsAfter
  cases hget : s.get? region with
  | none => exact hv
  | some y =>
    obtain ⟨hy, hybits⟩ := hs.uniform region y hget
    exact (Interval.retains_join hy hx (hybits.trans hbits)).denotes v (.inr hv)

/-- The offsets stored afterwards include those from before. -/
theorem denotes_offsetsAfter_known {y : Interval} (hs : s.Valid) (hx : x.Valid)
    (hbits : s.bits = x.bits) (hget : s.get? region = some y) (hv : y.Denotes v) :
    (s.offsetsAfter region x).Denotes v := by
  obtain ⟨hy, hybits⟩ := hs.uniform region y hget
  rw [offsetsAfter, hget]
  exact (Interval.retains_join hy hx (hybits.trans hbits)).denotes v (.inl hv)

theorem valid_addOffsets (hs : s.Valid) (hx : x.Valid) (hbits : s.bits = x.bits) :
    (s.addOffsets region x).Valid := by
  cases hempty : x.isEmpty with
  | true => rwa [addOffsets_of_empty s region hempty]
  | false =>
    rw [addOffsets_of_nonempty s region hempty]
    obtain ⟨hvalid, hwidth⟩ := valid_offsetsAfter region hs hx hbits
    exact ⟨hs.width, RegionMap.uniform_iff.1 (RegionMap.uniform_insert hs.uniform hvalid hwidth),
      hs.pending⟩

theorem insert_eq (region : String) (hbits : s.bits = x.bits) :
    s.insert region x = .ok (s.addOffsets region x) :=
  requireSameWidth_eq_ok.2 ⟨hbits, rfl⟩

theorem valid_insert (hs : s.Valid) (hx : x.Valid) (h : s.insert region x = .ok u) : u.Valid := by
  obtain ⟨hbits, rfl⟩ := requireSameWidth_eq_ok.1 h
  exact valid_addOffsets hs hx hbits

/-! ## Places -/

/-- The places in the region are those of the stored offsets, behind the pending byte swap. -/
theorem denotes_addOffsets_self (hsome : x.isEmpty = false) :
    (s.addOffsets region x).Denotes ⟨region, v⟩ ↔
    ∃ u, (s.offsetsAfter region x).Denotes u ∧ v = s.shown u := by
  simp only [Denotes, get?_addOffsets s region _ hsome, if_true, Option.mem_some_iff,
    exists_eq_left', shown_addOffsets]

/-- The places in other regions stay as they are. -/
theorem denotes_addOffsets_other (hne : place.region ≠ region) :
    (s.addOffsets region x).Denotes place ↔ s.Denotes place := by
  cases hempty : x.isEmpty with
  | true => rw [addOffsets_of_empty s region hempty]
  | false => simp only [Denotes, get?_addOffsets s region _ hempty, if_neg hne, shown_addOffsets]

/-- No place is lost when offsets are added. -/
theorem denotes_addOffsets_of_denotes (hs : s.Valid) (hx : x.Valid) (hbits : s.bits = x.bits)
    (hplace : s.Denotes place) : (s.addOffsets region x).Denotes place := by
  cases hempty : x.isEmpty with
  | true => rwa [addOffsets_of_empty s region hempty]
  | false =>
    by_cases hregion : place.region = region
    · obtain ⟨_, v⟩ := place
      subst hregion
      obtain ⟨y, hget, u, hu, hv⟩ := hplace
      exact (denotes_addOffsets_self hempty).2
        ⟨u, denotes_offsetsAfter_known hs hx hbits hget hu, hv⟩
    · exact (denotes_addOffsets_other hregion).2 hplace

/-- The added offsets become places behind the pending byte swap. -/
theorem denotes_addOffsets_shown (hs : s.Valid) (hx : x.Valid) (hbits : s.bits = x.bits)
    (hv : x.Denotes v) : (s.addOffsets region x).Denotes ⟨region, s.shown v⟩ := by
  have hsome := hx.exists_denotes.1 ⟨v, hv⟩
  exact (denotes_addOffsets_self hsome).2 ⟨v, denotes_offsetsAfter_added hs hx hbits hv, rfl⟩

/-- The offsets of an interval in one region, as a value set of its own. -/
theorem denotes_insert_new (hx : x.Valid) (h : insert ⟨bits, .empty, false⟩ region x = .ok u) :
    u.Valid ∧ u.bits = bits ∧ ∀ v, x.Denotes v → u.Denotes ⟨region, v⟩ := by
  obtain ⟨hbits, rfl⟩ := requireSameWidth_eq_ok.1 h
  have hwidth : bits = x.bits := hbits
  have hempty : (⟨bits, .empty, false⟩ : ValueSet).Valid :=
    valid_of_uniform (hwidth ▸ hx.width) (RegionMap.uniform_empty bits)
  exact ⟨valid_addOffsets hempty hx hbits, bits_addOffsets _ _ _,
    fun _ => denotes_addOffsets_shown hempty hx hbits⟩

/-- Behind a pending byte swap an added offset is at its place exactly if its byte-swapped image is
stored. -/
theorem denotes_addOffsets_of_reversed (hs : s.Valid) (hx : x.Valid) (hbits : s.bits = x.bits)
    (hrev : s.reversed = true) (hv : x.Denotes v) :
    (s.addOffsets region x).Denotes ⟨region, v⟩ ↔
    (s.offsetsAfter region x).Denotes (byteReversed s.bits v) := by
  have hlt : v < twoPow s.bits := hbits ▸ hx.lt_twoPow hv
  have hget : (s.addOffsets region x).regions.get? region = some (s.offsetsAfter region x) := by
    have hafter := get?_addOffsets s region region (hx.exists_denotes.1 ⟨v, hv⟩)
    rwa [if_pos rfl] at hafter
  rw [(valid_addOffsets hs hx hbits).denotes_reversed ((reversed_addOffsets s region x).trans hrev),
    bits_addOffsets, and_iff_right hlt]
  simp only [RegionMap.Denotes, hget, Option.mem_some_iff, exists_eq_left']

/-- Offsets of the width of a value set are added to a region without loss of a place, and without
any change in other regions. What is added is read behind the pending byte swap of the value set, so
that it is at its places exactly if none is pending or the byte-swapped images of the added offsets
are stored in the region as well. -/
theorem insert_places_iff (hs : s.Valid) (hx : x.Valid) (hbits : s.bits = x.bits)
    (region : String) :
    ∃ u, s.insert region x = .ok u ∧ u.Valid ∧ u.bits = s.bits ∧
      (∀ place, s.Denotes place → u.Denotes place) ∧
      (∀ place, place.region ≠ region → (u.Denotes place ↔ s.Denotes place)) ∧
      (∀ v, x.Denotes v → u.Denotes ⟨region, s.shown v⟩) ∧
      ((∀ v, x.Denotes v → u.Denotes ⟨region, v⟩) ↔
        s.reversed = false ∨ ∀ v, x.Denotes v →
        (s.offsetsAfter region x).Denotes (byteReversed s.bits v)) := by
  refine ⟨_, insert_eq region hbits, valid_addOffsets hs hx hbits, bits_addOffsets s region x,
    fun place => denotes_addOffsets_of_denotes hs hx hbits, fun place => denotes_addOffsets_other,
    fun v => denotes_addOffsets_shown hs hx hbits, ?_⟩
  cases hrev : s.reversed with
  | false =>
    refine iff_of_true (fun v hv => ?_) (.inl rfl)
    have hplace : (s.addOffsets region x).Denotes ⟨region, s.shown v⟩ :=
      denotes_addOffsets_shown hs hx hbits hv
    rwa [shown, hrev] at hplace
  | true =>
    have hswapped : (∀ v, x.Denotes v → (s.addOffsets region x).Denotes ⟨region, v⟩) ↔
        ∀ v, x.Denotes v → (s.offsetsAfter region x).Denotes (byteReversed s.bits v) :=
      forall₂_congr fun v hv => denotes_addOffsets_of_reversed hs hx hbits hrev hv
    rw [hswapped]
    exact ⟨.inr, fun h => h.resolve_left (by decide)⟩

/-- The number 256 in one region, behind a pending byte swap. -/
def swappedHeap : ValueSet := ⟨16, .insert .empty "heap" (.constant 16 256), true⟩

theorem built_swappedHeap : Built (.valueSet swappedHeap) := by
  have hnumber : Built (.interval (.constant 16 256)) :=
    .point (rfl : Interval.point 16 256 = .ok _)
  have hnew : Built (.valueSet ⟨16, .empty, false⟩) := .valueSetNew (rfl : new 16 = .ok _)
  have hinsert : insert ⟨16, .empty, false⟩ "heap" (.constant 16 256) =
      .ok ⟨16, .insert .empty "heap" (.constant 16 256), false⟩ := rfl
  exact .valueSetReverse (.insert hnew hnumber hinsert) (rfl : reverse _ = .ok _)

/-- The number 257 is its own byte-swapped image, so that it may be added behind a pending byte
swap. -/
theorem insert_symmetric_offset :
    ∃ u, swappedHeap.insert "heap" (.constant 16 257) = .ok u ∧ u.Denotes ⟨"heap", 1⟩ ∧
      u.Denotes ⟨"heap", 257⟩ := by
  have hs : swappedHeap.Valid := {
    width := by decide
    offsets := List.forall_mem_singleton.2 ⟨Interval.valid_constant (by decide) 256, rfl⟩
    pending := fun _ => by decide }
  have hx : (Interval.constant 16 257).Valid := Interval.valid_constant (by decide) 257
  obtain ⟨u, hu, -, -, hkeeps, -, -, hplaced⟩ := insert_places_iff hs hx rfl "heap"
  have hone : swappedHeap.Denotes ⟨"heap", 1⟩ :=
    ⟨.constant 16 256, rfl, 256, Interval.denotes_constant.2 rfl, rfl⟩
  refine ⟨u, hu, hkeeps _ hone,
    hplaced.2 (.inr fun v hv => ?_) 257 (Interval.denotes_constant.2 rfl)⟩
  obtain rfl : v = 257 := Interval.denotes_constant.1 hv
  exact denotes_offsetsAfter_added hs hx rfl hv

/-- Behind a pending byte swap the number 1 is stored as it is, and read as 256. -/
theorem insert_behind_swap_misplaces :
    ¬∀ (s : ValueSet) (x : Interval) (region : String), Built (.valueSet s) → Built (.interval x) →
    s.bits = x.bits →
      ∃ u, s.insert region x = .ok u ∧ (∀ place, s.Denotes place → u.Denotes place) ∧
        ∀ v, x.Denotes v → u.Denotes ⟨region, v⟩ := by
  intro hall
  have hone : Built (.interval (.constant 16 1)) := .point (rfl : Interval.point 16 1 = .ok _)
  obtain ⟨u, hu, -, hplaced⟩ := hall swappedHeap (.constant 16 1) "stack" built_swappedHeap hone rfl
  obtain rfl := Except.ok.inj ((insert_eq "stack" rfl).symm.trans hu)
  obtain ⟨w, hw, heq⟩ :=
    (denotes_addOffsets_self rfl).1 (hplaced 1 (Interval.denotes_constant.2 rfl))
  obtain rfl : w = 1 := Interval.denotes_constant.1 hw
  exact absurd heq (by decide)

end ValueSet

end AbstractBits
