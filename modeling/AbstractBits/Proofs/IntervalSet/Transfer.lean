import AbstractBits.IntervalSet.Basic
import AbstractBits.Proofs.Interval.Transfer
import AbstractBits.Proofs.IntervalSet.Members
/-!
# Images of sets under bit operations

An operation on every member of a set stands for the images of all its numbers, since it does so on
each member. A byte swap does not add a number, because it does not add a member.

Results:
  * `imagesOf_ofMembers`, `imagesOf_mapMembers` — images of the members make up a set of the images.
  * `imagesOf_extract`, `imagesOf_zeroExtend`, `imagesOf_signExtend`, `imagesOf_shiftRight`,
    `denotes_concat` — the operations that may add numbers.
  * `denotes_reverse` — a reversed set stands for exactly the byte-swapped numbers.
-/

namespace AbstractBits

namespace IntervalSet

open AbstractBits.Interval (Images)

variable {s t u : IntervalSet} {bits : Nat} {f : Nat → Nat} {v w : Nat}

/-- The result of an operation on every member of a list that refuses none. -/
theorem mapM_eq_ok {α β ε : Type} {f : α → Except ε β} {xs : List α} {ys : List β}
    (h : xs.mapM f = .ok ys) :
    ys.length = xs.length ∧ (∀ x ∈ xs, ∃ y ∈ ys, f x = .ok y) ∧
    ∀ y ∈ ys, ∃ x ∈ xs, f x = .ok y := by
  induction xs generalizing ys with
  | nil =>
    cases h
    simp
  | cons x xs ih =>
    rw [List.mapM_cons] at h
    obtain ⟨y, hx, h⟩ := bind_eq_ok.1 h
    obtain ⟨rest, hxs, h⟩ := bind_eq_ok.1 h
    cases h
    obtain ⟨hlength, hleft, hright⟩ := ih hxs
    refine ⟨by simp [hlength], fun z hz => ?_, fun z hz => ?_⟩
    · rcases List.mem_cons.1 hz with rfl | hz
      · exact ⟨y, List.mem_cons_self, hx⟩
      · obtain ⟨z', hz', hzz⟩ := hleft z hz
        exact ⟨z', List.mem_cons_of_mem _ hz', hzz⟩
    · rcases List.mem_cons.1 hz with rfl | hz
      · exact ⟨x, List.mem_cons_self, hx⟩
      · obtain ⟨z', hz', hzz⟩ := hright z hz
        exact ⟨z', List.mem_cons_of_mem _ hz', hzz⟩

theorem exists_mapM {α β ε : Type} {f : α → Except ε β} {xs : List α}
    (h : ∀ x ∈ xs, ∃ y, f x = .ok y) : ∃ ys, xs.mapM f = .ok ys := by
  induction xs with
  | nil => exact ⟨[], rfl⟩
  | cons x xs ih =>
    obtain ⟨y, hy⟩ := h x List.mem_cons_self
    obtain ⟨ys, hys⟩ := ih fun z hz => h z (List.mem_cons_of_mem _ hz)
    refine ⟨y :: ys, ?_⟩
    rw [List.mapM_cons, hy, hys]
    rfl

/-! ## Operations on every member -/

/-- A valid set of a width that stands for the images of what another one stands for. -/
structure ImagesOf (bits : Nat) (f : Nat → Nat) (s u : IntervalSet) : Prop where
  valid : u.Valid
  width : u.bits = bits
  denotes : ∀ v, s.Denotes v → u.Denotes (f v)

/-- Images of the members make up a set of the images. -/
theorem imagesOf_ofMembers (width : ValidWidth bits) {members : List Interval}
    (hmembers : Uniform bits members)
    (h : ∀ x ∈ s.members, ∃ y ∈ members, Images bits f x y) :
    ImagesOf bits f s (ofMembers bits members) := by
  refine ⟨valid_ofMembers width hmembers, bits_ofMembers _ _, ?_⟩
  intro v hv
  obtain ⟨x, hx, hxv⟩ := hv
  obtain ⟨y, hy, himages⟩ := h x hx
  exact denotes_ofMembers width hmembers ⟨y, hy, himages.denotes v hxv⟩

theorem imagesOf_map (width : ValidWidth bits) {g : Interval → Interval}
    (h : ∀ x ∈ s.members, Images bits f x (g x)) :
    ImagesOf bits f s (ofMembers bits (s.members.map g)) := by
  refine imagesOf_ofMembers width (fun y hy => ?_) fun x hx => ⟨g x, List.mem_map_of_mem hx, h x hx⟩
  obtain ⟨x, hx, rfl⟩ := List.mem_map.1 hy
  exact ⟨(h x hx).valid, (h x hx).width⟩

/-- An operation that may refuse a member gives the images where it refuses none. -/
theorem imagesOf_mapMembers (width : ValidWidth bits)
    {g : Interval → Except OperationError Interval}
    (h : ∀ x ∈ s.members, ∀ y, g x = .ok y → Images bits f x y) (hu : s.mapMembers bits g = .ok u) :
    ImagesOf bits f s u := by
  obtain ⟨members, hmembers, rfl⟩ := map_eq_ok.1 hu
  obtain ⟨-, hleft, hright⟩ := mapM_eq_ok hmembers
  refine imagesOf_ofMembers width (fun y hy => ?_) fun x hx => ?_
  · obtain ⟨x, hx, hxy⟩ := hright y hy
    exact ⟨(h x hx y hxy).valid, (h x hx y hxy).width⟩
  · obtain ⟨y, hy, hxy⟩ := hleft x hx
    exact ⟨y, hy, h x hx y hxy⟩

theorem imagesOf_extract {high low : Nat} (hs : s.Valid) (h : s.extract high low = .ok u) :
    ImagesOf (high - low + 1) (fun v => v / twoPow low % twoPow (high - low + 1)) s u := by
  unfold extract at h
  split at h <;> cases h
  rename_i field
  refine imagesOf_map (Interval.validWidth_field hs.width field) ?_
  intro x hx
  obtain ⟨hvalid, hbits⟩ := hs.uniform x hx
  exact Interval.images_slice hvalid (hbits ▸ field)

theorem imagesOf_zeroExtend {total : Nat} (hs : s.Valid) (h : s.zeroExtend total = .ok u) :
    ImagesOf total id s u := by
  unfold zeroExtend at h
  split at h
  · rename_i width
    exact imagesOf_mapMembers width
      (fun x hx y hy => Interval.images_of_zeroExtend (hs.uniform x hx).1 hy) h
  · cases h

theorem imagesOf_signExtend {total : Nat} (hs : s.Valid) (h : s.signExtend total = .ok u) :
    ImagesOf total (fun v => truncateInt total (signedValue s.bits v)) s u := by
  unfold signExtend at h
  split at h
  · rename_i width
    refine imagesOf_mapMembers width (fun x hx y hy => ?_) h
    obtain ⟨hvalid, hbits⟩ := hs.uniform x hx
    exact hbits ▸ Interval.images_of_signExtend hvalid hy
  · cases h

/-- The members of both sets end to end. -/
theorem uniform_append_pairs (hs : s.Valid) (ht : t.Valid) (width : ValidWidth (s.bits + t.bits)) :
    Uniform (s.bits + t.bits)
      (s.members.flatMap fun x => t.members.map fun y => x.append y) := by
  refine uniform_pairs hs ht fun x y hx hy hxbits hybits => ?_
  have hbits : x.bits + y.bits = s.bits + t.bits := by rw [hxbits, hybits]
  exact ⟨Interval.valid_append hx hy (hbits ▸ width), hbits⟩

theorem valid_concat (hs : s.Valid) (ht : t.Valid) (h : s.concat t = .ok u) :
    u.Valid ∧ u.bits = s.bits + t.bits := by
  obtain ⟨width, rfl⟩ := requireWidth_eq_ok.1 h
  exact ⟨valid_ofMembers width (uniform_append_pairs hs ht width), bits_ofMembers _ _⟩

theorem denotes_concat (hs : s.Valid) (ht : t.Valid) (h : s.concat t = .ok u) (hv : s.Denotes v)
    (hw : t.Denotes w) : u.Denotes (v * twoPow t.bits + w) := by
  obtain ⟨width, rfl⟩ := requireWidth_eq_ok.1 h
  obtain ⟨x, hx, hxv⟩ := hv
  obtain ⟨y, hy, hyw⟩ := hw
  obtain ⟨hyvalid, hybits⟩ := ht.uniform y hy
  refine denotes_ofMembers width (uniform_append_pairs hs ht width) ⟨x.append y, ?_, ?_⟩
  · exact List.mem_flatMap.2 ⟨x, hx, List.mem_map_of_mem hy⟩
  · exact hybits ▸ Interval.denotes_append (hs.uniform x hx).1 hyvalid hxv hyw

theorem valid_shiftRight {y : Interval} (hs : s.Valid) (hy : y.Valid) : (s.shiftRight y).Valid := by
  refine valid_ofMembers hs.width ?_
  intro z hz
  obtain ⟨x, hx, rfl⟩ := List.mem_map.1 hz
  obtain ⟨hvalid, hbits⟩ := hs.uniform x hx
  exact ⟨Interval.valid_shiftRight hvalid hy, hbits⟩

theorem imagesOf_shiftRight {y : Interval} (hs : s.Valid) (hy : y.Valid) (hv : y.Denotes v) :
    ImagesOf s.bits (· / twoPow v) s (s.shiftRight y) := by
  refine imagesOf_map hs.width ?_
  intro x hx
  obtain ⟨hvalid, hbits⟩ := hs.uniform x hx
  exact hbits ▸ Interval.images_shiftRight hvalid hy hv

/-! ## Byte swap -/

theorem length_insertMember_le (x : Interval) (members : List Interval) :
    (insertMember x members).length ≤ members.length + 1 := by
  induction members with
  | nil => exact Nat.le_refl _
  | cons y ys ih =>
    unfold insertMember
    split
    · exact Nat.le_refl _
    split
    · exact Nat.succ_le_succ ih
    · exact Nat.le_succ _

theorem length_foldl_insertMember_le (members kept : List Interval) :
    (members.foldl (fun kept x => insertMember x kept) kept).length ≤
      kept.length + members.length := by
  induction members generalizing kept with
  | nil => exact Nat.le_refl _
  | cons x xs ih =>
    have hinsert := length_insertMember_le x kept
    have htail := ih (insertMember x kept)
    rw [List.foldl_cons, List.length_cons]
    omega

theorem length_arrange_le (members : List Interval) :
    (arrange members).length ≤ members.length := by
  have hfold := length_foldl_insertMember_le (members.filter fun x => !x.isEmpty) []
  have hfilter := List.length_filter_le (fun x => !x.isEmpty) members
  simp only [List.length_nil, Nat.zero_add] at hfold
  exact Nat.le_trans hfold hfilter

/-- Not more intervals than a set can have make up a set of exactly their numbers. -/
theorem denotes_ofMembers_iff {members : List Interval} (h : Uniform bits members)
    (count : members.length ≤ capacity) :
    (ofMembers bits members).Denotes v ↔ ∃ x ∈ members, x.Denotes v := by
  have hcount := Nat.le_trans (length_arrange_le members) count
  simp only [ofMembers, if_pos hcount]
  exact denotes_arrange h

theorem exists_reverse (hs : s.Valid) (bytes : s.bits % 8 = 0) : ∃ u, s.reverse = .ok u := by
  have hmembers : ∀ x ∈ s.members, ∃ y, x.reverse = .ok y := fun x hx =>
    Interval.exists_reverse ((hs.uniform x hx).2 ▸ bytes)
  obtain ⟨ys, hys⟩ := exists_mapM hmembers
  refine ⟨ofMembers s.bits ys, ?_⟩
  rw [reverse, mapMembers, hys]
  rfl

theorem imagesOf_reverse (hs : s.Valid) (h : s.reverse = .ok u) :
    ImagesOf s.bits (byteReversed s.bits) s u := by
  refine imagesOf_mapMembers hs.width (fun x hx y hy => ?_) h
  obtain ⟨hvalid, hbits⟩ := hs.uniform x hx
  exact hbits ▸ Interval.images_of_reverse hvalid hy

/-- A reversed set stands for exactly the byte-swapped numbers. -/
theorem denotes_reverse (hs : s.Valid) (h : s.reverse = .ok u) :
    u.Denotes v ↔ ∃ w, s.Denotes w ∧ v = byteReversed s.bits w := by
  constructor
  · intro hv
    obtain ⟨members, hreversed, rfl⟩ := map_eq_ok.1 h
    obtain ⟨hlength, -, hright⟩ := mapM_eq_ok hreversed
    have hmembers : Uniform s.bits members := by
      intro y hy
      obtain ⟨x, hx, hxy⟩ := hright y hy
      obtain ⟨hvalid, hbits⟩ := hs.uniform x hx
      exact ⟨Interval.valid_reverse hvalid hxy, (Interval.bits_reverse hxy).trans hbits⟩
    obtain ⟨y, hy, hyv⟩ := (denotes_ofMembers_iff hmembers (hlength ▸ hs.count)).1 hv
    obtain ⟨x, hx, hxy⟩ := hright y hy
    obtain ⟨hvalid, hbits⟩ := hs.uniform x hx
    obtain ⟨w, hw, rfl⟩ := (Interval.denotes_reverse hvalid hxy).1 hyv
    exact ⟨w, ⟨x, hx, hw⟩, by rw [hbits]⟩
  · rintro ⟨w, hw, rfl⟩
    exact (imagesOf_reverse hs h).denotes w hw

end IntervalSet

end AbstractBits
