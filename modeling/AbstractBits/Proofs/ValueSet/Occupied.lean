import AbstractBits.Proofs.Construction
/-!
# Regions without offsets

Insertion, union, intersection and widening leave out the regions that have no offsets, and the
other operations map the offsets of each region. A shift by an amount without members is the one
operation that takes all offsets of a region and keeps the region. A value set that never saw such a
shift has offsets in each of its regions, so that it is empty exactly when it stands for no place.

Results:
  * `occupied_combine` — what a union, an intersection or a widening leaves has offsets in each
    region.
  * `reached_iff_built` — the sequences of operations on value sets, with the amounts of their
    shifts.
  * `occupied_iff_amounts_not_empty` — all regions have offsets exactly if no shift is by an empty
    amount.
-/

namespace AbstractBits

namespace Interval

variable {x y : Interval}

/-! ## Operations that leave members -/

theorem isEmpty_cover_of (h : x.isEmpty = false) : x.cover.isEmpty = false := by
  unfold cover
  split
  · rfl
  · exact h

theorem isEmpty_slice (high low : Nat) (h : x.isEmpty = false) :
    (x.slice high low).isEmpty = false := by
  have hcover := isEmpty_cover_of h
  simpa [slice, image, ofRange, isEmpty] using hcover

theorem isEmpty_shiftRight : (x.shiftRight y).isEmpty = (x.cover.isEmpty || y.cover.isEmpty) := by
  cases hx : x.cover.range <;> cases hy : y.cover.range <;>
    simp [shiftRight, ofRange, isEmpty, hx, hy]

/-- The interval over two others has the members of the second, if it has some. -/
theorem isEmpty_join_of (hx : x.Valid) (hy : y.Valid) (hbits : x.bits = y.bits)
    (h : y.isEmpty = false) : (x.join y).isEmpty = false := by
  obtain ⟨v, hv⟩ := hy.exists_denotes.2 h
  have hjoin := retains_join hx hy hbits
  exact hjoin.valid.exists_denotes.1 ⟨v, hjoin.denotes v (.inr hv)⟩

end Interval

namespace RegionMap

variable {m : RegionMap} {region : String} {x : Interval}

/-- Every region of the map has offsets. -/
def Occupied (m : RegionMap) : Prop := ∀ region x, m.get? region = some x → x.isEmpty = false

theorem occupied_empty : empty.Occupied :=
  forall_get?_empty

theorem occupied_insert (hm : m.Occupied) (hx : x.isEmpty = false) : (m.insert region x).Occupied :=
  forall_get?_insert hm hx

theorem occupied_map {f : Interval → Interval} (hm : m.Occupied)
    (hf : ∀ x : Interval, x.isEmpty = false → (f x).isEmpty = false) : (m.map f).Occupied :=
  forall_get?_map hm hf

theorem occupied_filter_nonempty : (m.filter fun offsets => !offsets.isEmpty).Occupied := by
  intro region x hx
  rw [get?_filter, Option.filter_eq_some_iff] at hx
  simpa using hx.2

end RegionMap

namespace ValueSet

variable {s t u : ValueSet} {y : Interval} {admits : Interval → Prop}

/-- Every region of the value set has offsets. -/
def Occupied (s : ValueSet) : Prop := s.regions.Occupied

/-- A value set without regions stands for no place. -/
theorem not_denotes_of_isEmpty (h : s.isEmpty = true) (place : Place) : ¬s.Denotes place := by
  rintro ⟨x, hx, -⟩
  have hentries : s.regions.entries = [] := by simpa [isEmpty, RegionMap.isEmpty] using h
  have hmem := RegionMap.get?_eq_some_iff.1 hx
  rw [hentries] at hmem
  cases hmem

/-- With offsets in each region, a value set is empty exactly when it stands for no place. -/
theorem isEmpty_iff_of_occupied (hs : s.Valid) (hocc : s.Occupied) :
    s.isEmpty = true ↔ ∀ place, ¬s.Denotes place := by
  refine ⟨not_denotes_of_isEmpty, fun hnone => ?_⟩
  cases hentries : s.regions.entries with
  | nil => simp [isEmpty, RegionMap.isEmpty, hentries]
  | cons e es =>
    have hget : s.regions.get? e.1 = some e.2 :=
      RegionMap.get?_eq_some_iff.2 (hentries ▸ List.mem_cons_self)
    obtain ⟨v, hv⟩ := (hs.uniform _ _ hget).1.exists_denotes.2 (hocc _ _ hget)
    exact absurd ⟨e.2, hget, v, hv, rfl⟩ (hnone ⟨e.1, s.shown v⟩)

/-! ## What each operation leaves in the regions -/

theorem occupied_cover (hs : s.Occupied) : s.cover.regions.Occupied := by
  unfold cover
  split
  · exact RegionMap.occupied_map hs fun _ _ => rfl
  · exact hs

/-- A combination of two value sets has offsets in each region, whatever the operands have. -/
theorem occupied_combine {op : RegionMap → RegionMap → RegionMap} (h : combine op s t = .ok u) :
    u.Occupied := by
  obtain ⟨-, rfl⟩ := requireSameWidth_eq_ok.1 h
  exact RegionMap.occupied_filter_nonempty

theorem occupied_image {bits : Nat} {f : Interval → Interval} (hs : s.Occupied)
    (hf : ∀ x : Interval, x.isEmpty = false → (f x).isEmpty = false) : (s.image bits f).Occupied :=
  RegionMap.occupied_map (occupied_cover hs) hf

theorem occupied_ofInterval (x : Interval) : (ofInterval x).Occupied := by
  cases hsome : x.isEmpty with
  | true =>
    simp only [Occupied, ofInterval, hsome, if_true]
    exact RegionMap.occupied_empty
  | false =>
    simp only [Occupied, ofInterval, hsome, Bool.false_eq_true, if_false]
    exact RegionMap.occupied_insert RegionMap.occupied_empty hsome

theorem occupied_insert {region : String} (hs : s.Valid) (hocc : s.Occupied) (hy : y.Valid)
    (h : s.insert region y = .ok u) : u.Occupied := by
  obtain ⟨hbits, rfl⟩ := requireSameWidth_eq_ok.1 h
  cases hempty : y.isEmpty with
  | true => rwa [addOffsets_of_empty s region hempty]
  | false =>
    obtain ⟨v, hv⟩ := hy.exists_denotes.2 hempty
    have hadded : (s.offsetsAfter region y).Denotes v := denotes_offsetsAfter_added hs hy hbits hv
    rw [addOffsets_of_nonempty s region hempty]
    exact RegionMap.occupied_insert hocc
      ((valid_offsetsAfter region hs hy hbits).1.exists_denotes.1 ⟨v, hadded⟩)

theorem occupied_extract {high low : Nat} (hs : s.Occupied) (h : s.extract high low = .ok u) :
    u.Occupied := by
  unfold extract at h
  split at h <;> cases h
  exact occupied_image hs fun _ hx => Interval.isEmpty_slice high low hx

theorem occupied_shiftRight (hs : s.Occupied) (hy : y.isEmpty = false) :
    (s.shiftRight y).Occupied := by
  refine occupied_image hs fun x hx => ?_
  rw [Interval.isEmpty_shiftRight, Interval.isEmpty_cover_of hx, Interval.isEmpty_cover_of hy]
  rfl

theorem occupied_reverse (hs : s.Occupied) (h : s.reverse = .ok u) : u.Occupied := by
  cases reversal_of_reverse h <;> exact hs

/-- A shift by an amount without members keeps the regions and leaves no place. -/
theorem shiftRight_by_empty (s : ValueSet) (hy : y.Valid) (hempty : y.isEmpty = true) :
    (s.shiftRight y).isEmpty = s.isEmpty ∧ ∀ place, ¬(s.shiftRight y).Denotes place := by
  have hrev := hy.reversed_of_isEmpty hempty
  refine ⟨?_, ?_⟩
  · cases hcover : s.reversed <;>
      simp [isEmpty, RegionMap.isEmpty, shiftRight, image, cover, RegionMap.map, hcover]
  · rintro place ⟨z, hz, v, ⟨p, hp, -⟩, -⟩
    have hnone : z.isEmpty = true := by
      simp only [shiftRight, image, get?, RegionMap.get?_map, Option.mem_def,
        Option.map_eq_some_iff] at hz
      obtain ⟨x, -, rfl⟩ := hz
      rw [Interval.isEmpty_shiftRight, Interval.cover_of_not_reversed hrev, hempty, Bool.or_true]
    rw [Option.mem_def] at hp
    simp [Interval.isEmpty, hp] at hnone

/-! ## Sequences of operations -/

/-- The value sets that operations make, if shifts are only by the amounts that are admitted. -/
inductive Reached (admits : Interval → Prop) : ValueSet → Prop where
  | new {bits : Nat} {s : ValueSet} (h : new bits = .ok s) : Reached admits s
  | ofInterval {x : Interval} (hx : Built (.interval x)) : Reached admits (.ofInterval x)
  | insert {s u : ValueSet} {region : String} {x : Interval} (hs : Reached admits s)
      (hx : Built (.interval x))
      (h : s.insert region x = .ok u) : Reached admits u
  | union {s t u : ValueSet} (hs : Reached admits s) (ht : Reached admits t)
      (h : s.union t = .ok u) :
      Reached admits u
  | intersection {s t u : ValueSet} (hs : Reached admits s) (ht : Reached admits t)
      (h : s.intersection t = .ok u) : Reached admits u
  | widen {s t u : ValueSet} (hs : Reached admits s) (ht : Reached admits t)
      (h : s.widen t = .ok u) :
      Reached admits u
  | extract {s u : ValueSet} {high low : Nat} (hs : Reached admits s)
      (h : s.extract high low = .ok u) :
      Reached admits u
  | shiftRight {s : ValueSet} {y : Interval} (hs : Reached admits s) (hy : Built (.interval y))
      (admitted : admits y) : Reached admits (s.shiftRight y)
  | reverse {s u : ValueSet} (hs : Reached admits s) (h : s.reverse = .ok u) : Reached admits u
  | stored {s : ValueSet} (hs : Reached admits s) : Reached admits s.stored

theorem Reached.built (h : Reached admits s) : Built (.valueSet s) := by
  induction h with
  | new h => exact .valueSetNew h
  | ofInterval hx => exact .valueSetOfInterval hx
  | insert _ hx h hs => exact .insert hs hx h
  | union _ _ h hs ht => exact .valueSetUnion hs ht h
  | intersection _ _ h hs ht => exact .valueSetIntersection hs ht h
  | widen _ _ h hs ht => exact .valueSetWiden hs ht h
  | extract _ h hs => exact .valueSetExtract hs h
  | shiftRight _ hy _ hs => exact .valueSetShiftRight hs hy
  | reverse _ h hs => exact .valueSetReverse hs h
  | stored _ hs => exact .valueSetStored hs

/-- Values of other shapes than value sets do not matter. -/
def ReachedAt : AbstractValue → Prop
  | .valueSet s => Reached (fun _ => True) s
  | _ => True

theorem reachedAt_of_built {a : AbstractValue} (h : Built a) : ReachedAt a := by
  induction h with
  | valueSetNew h => exact .new h
  | valueSetOfInterval hx => exact .ofInterval hx
  | insert _ hx h hs => exact .insert hs hx h
  | valueSetUnion _ _ h hs ht => exact .union hs ht h
  | valueSetIntersection _ _ h hs ht => exact .intersection hs ht h
  | valueSetWiden _ _ h hs ht => exact .widen hs ht h
  | valueSetExtract _ h hs => exact .extract hs h
  | valueSetShiftRight _ hy hs => exact .shiftRight hs hy trivial
  | valueSetReverse _ h hs => exact .reverse hs h
  | valueSetStored _ hs => exact .stored hs
  | _ => exact trivial

/-- With any amount admitted these are the value sets that can be built. -/
theorem reached_iff_built : Reached (fun _ => True) s ↔ Built (.valueSet s) :=
  ⟨Reached.built, fun h => reachedAt_of_built h⟩

/-- Without shifts by empty amounts every region has offsets. -/
theorem Reached.occupied (hadmits : ∀ y, Built (.interval y) → admits y → y.isEmpty = false)
    (h : Reached admits s) : s.Occupied := by
  induction h with
  | new h =>
    obtain ⟨-, rfl⟩ := requireWidth_eq_ok.1 h
    exact RegionMap.occupied_empty
  | ofInterval => exact occupied_ofInterval _
  | insert hs hx h ih => exact occupied_insert hs.built.valid ih hx.valid h
  | union _ _ h | intersection _ _ h | widen _ _ h => exact occupied_combine h
  | extract _ h ih => exact occupied_extract ih h
  | shiftRight _ hy admitted ih => exact occupied_shiftRight ih (hadmits _ hy admitted)
  | reverse _ h ih => exact occupied_reverse ih h
  | stored _ ih => exact ih

/-- The offsets of all regions have the width of the value set, and a value set without regions
stands for no place. Each region has offsets, and a value set that stands for no place has no
regions, exactly if no amount is empty: a shift by an empty one takes all offsets and keeps the
regions. -/
theorem occupied_iff_amounts_not_empty (admits : Interval → Prop) :
    (∀ s, Reached admits s →
      (∀ region x, s.get? region = some x → x.bits = s.bits) ∧
      (s.isEmpty = true → ∀ place, ¬s.Denotes place)) ∧
    ((∀ s, Reached admits s →
        (∀ region x, s.get? region = some x → x.isEmpty = false) ∧
          (s.isEmpty = true ↔ ∀ place, ¬s.Denotes place)) ↔
      ∀ y, Built (.interval y) → admits y → y.isEmpty = false) ∧
    ∀ (s : ValueSet) (y : Interval), Built (.interval y) → y.isEmpty = true →
      (s.shiftRight y).isEmpty = s.isEmpty ∧ ∀ place, ¬(s.shiftRight y).Denotes place := by
  refine ⟨?_, ⟨?_, ?_⟩, ?_⟩
  · intro s hs
    exact ⟨fun region x hx => (Valid.uniform hs.built.valid region x hx).2, not_denotes_of_isEmpty⟩
  · intro hall y hy admitted
    cases hempty : y.isEmpty with
    | false => rfl
    | true =>
      have hwhole := (Built.exists_of_validWidth (Interval.Valid.width hy.valid)).1
      obtain ⟨hstays, hnone⟩ := shiftRight_by_empty (.ofInterval (.whole y.bits)) hy.valid hempty
      have hshifted := (hall _ (.shiftRight (.ofInterval hwhole) hy admitted)).2.2 hnone
      rw [hstays] at hshifted
      cases hshifted
  · intro hadmits s hs
    have hocc := hs.occupied hadmits
    exact ⟨hocc, isEmpty_iff_of_occupied hs.built.valid hocc⟩
  · intro s y hy hempty
    exact shiftRight_by_empty s hy.valid hempty

/-- The offsets 0 to 3 in one region. -/
def stackOffsets : ValueSet := ⟨8, .insert .empty "stack" (.ofRange 8 (some ⟨0, 3, 1⟩)), false⟩

theorem reached_stackOffsets : Reached admits stackOffsets := by
  have hoffsets : Built (.interval (.ofRange 8 (some ⟨0, 3, 1⟩))) :=
    .ofBounds (rfl : Interval.ofBounds 8 1 0 3 = .ok _)
  have hnew : Reached admits ⟨8, .empty, false⟩ := .new (rfl : new 8 = .ok _)
  have hinsert :
      insert ⟨8, .empty, false⟩ "stack" (.ofRange 8 (some ⟨0, 3, 1⟩)) = .ok stackOffsets :=
    rfl
  exact hnew.insert hoffsets hinsert

/-- A shift by 1 leaves offsets in the region. -/
theorem shift_by_one_leaves_offsets :
    (stackOffsets.shiftRight (.constant 8 1)).isEmpty = true ↔
      ∀ place, ¬(stackOffsets.shiftRight (.constant 8 1)).Denotes place := by
  have hone : Built (.interval (.constant 8 1)) := .point (rfl : Interval.point 8 1 = .ok _)
  obtain ⟨-, hexact, -⟩ := occupied_iff_amounts_not_empty (·.isEmpty = false)
  exact (hexact.2 (fun y _ h => h) _ (.shiftRight reached_stackOffsets hone rfl)).2

/-- A shift by an amount without members leaves a region without offsets. -/
theorem shift_by_nothing_leaves_region :
    ¬∀ s, Built (.valueSet s) →
      (∀ region x, s.get? region = some x → x.isEmpty = false ∧ x.bits = s.bits) ∧
        (s.isEmpty = true ↔ ∀ place, ¬s.Denotes place) := by
  intro hall
  have hstack : Reached (fun _ => True) stackOffsets := reached_stackOffsets
  have hnone : Built (.interval (.empty 8)) := .bottom (rfl : Interval.bottom 8 = .ok _)
  have hget : (stackOffsets.shiftRight (.empty 8)).get? "stack" = some (.empty 8) := rfl
  have hsome := ((hall _ (.valueSetShiftRight hstack.built hnone)).1 _ _ hget).1
  cases hsome

end ValueSet

end AbstractBits
