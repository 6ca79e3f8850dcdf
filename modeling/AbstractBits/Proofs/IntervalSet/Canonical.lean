import AbstractBits.Proofs.IntervalSet.Transfer
/-!
# Sets are determined by their members

The order of members is strict, so a set does not depend on the order in which it was given its
members, nor on which of several equal ones it was given. What remains is which intervals there are,
up to their names and apart from empty ones. Equality of sets is always meant up to names here.

Results:
  * `unnamed_ofMembers_congr` — the same intervals make up the same set.
  * `Valid.unnamed_ofMembers` — a set is the set of its members.
  * `unnamed_union_comm`, `unnamed_intersection_comm` — the order of the operands makes no
    difference.
  * `unnamed_byteSwapped_byteSwapped` — a second byte swap of a set undoes the first.
-/

namespace AbstractBits

namespace IntervalSet

open AbstractBits.Interval (Before)

variable {bits : Nat} {xs ys zs : List Interval} {x z : Interval} {s t : IntervalSet}

/-! ## The same intervals -/

/-- The same intervals up to names, empty ones apart. -/
def SameMembers (xs ys : List Interval) : Prop :=
  ∀ z : Interval, z.isEmpty = false → (z ∈ xs.map (·.unnamed) ↔ z ∈ ys.map (·.unnamed))

theorem sameMembers_refl (xs : List Interval) : SameMembers xs xs := fun _ _ => Iff.rfl

theorem sameMembers_of_perm (h : xs.Perm ys) : SameMembers xs ys := fun _ _ => (h.map _).mem_iff

theorem SameMembers.symm (h : SameMembers xs ys) : SameMembers ys xs := fun z hz => (h z hz).symm

theorem SameMembers.trans (hxy : SameMembers xs ys) (hyz : SameMembers ys zs) : SameMembers xs zs :=
  fun z hz => (hxy z hz).trans (hyz z hz)

theorem SameMembers.append {xs' ys' : List Interval} (hx : SameMembers xs xs')
    (hy : SameMembers ys ys') : SameMembers (xs ++ ys) (xs' ++ ys') := by
  intro z hz
  simp only [List.map_append, List.mem_append, hx z hz, hy z hz]

/-- Each interval of the one list is in the other one, up to its name. -/
theorem SameMembers.exists_unnamed (h : SameMembers xs ys) (hx : x ∈ xs)
    (hsome : x.isEmpty = false) : ∃ y ∈ ys, y.unnamed = x.unnamed :=
  List.mem_map.1 ((h x.unnamed hsome).1 (List.mem_map_of_mem hx))

theorem sameMembers_of_exists (hxy : ∀ x ∈ xs, x.isEmpty = false → ∃ y ∈ ys, y.unnamed = x.unnamed)
    (hyx : ∀ y ∈ ys, y.isEmpty = false → ∃ x ∈ xs, x.unnamed = y.unnamed) : SameMembers xs ys := by
  intro z hz
  constructor
  · intro h
    obtain ⟨x, hx, rfl⟩ := List.mem_map.1 h
    exact List.mem_map.2 (hxy x hx hz)
  · intro h
    obtain ⟨y, hy, rfl⟩ := List.mem_map.1 h
    exact List.mem_map.2 (hyx y hy hz)

theorem sameMembers_of_map_eq (h : xs.map (·.unnamed) = ys.map (·.unnamed)) :
    SameMembers xs ys := by
  intro z _
  rw [h]

/-- What an operation that reads no names makes of the same intervals is the same. -/
theorem SameMembers.map {f : Interval → Interval} (hxs : ∀ x ∈ xs, (f x).isEmpty = x.isEmpty)
    (hys : ∀ y ∈ ys, (f y).isEmpty = y.isEmpty) (hname : ∀ x : Interval, f x.unnamed = f x)
    (h : SameMembers xs ys) : SameMembers (xs.map f) (ys.map f) := by
  have hforward {xs ys : List Interval} (hxs : ∀ x ∈ xs, (f x).isEmpty = x.isEmpty)
      (h : SameMembers xs ys) (y : Interval) (hy : y ∈ xs.map f) (hsome : y.isEmpty = false) :
      ∃ z ∈ ys.map f, z.unnamed = y.unnamed := by
    obtain ⟨x, hx, rfl⟩ := List.mem_map.1 hy
    obtain ⟨z, hz, hzx⟩ := h.exists_unnamed hx (hxs x hx ▸ hsome)
    exact ⟨f z, List.mem_map_of_mem hz, by rw [← hname z, hzx, hname]⟩
  exact sameMembers_of_exists (hforward hxs h) (hforward hys h.symm)

/-- Arranging intervals leaves the same ones. -/
theorem sameMembers_arrange (h : Uniform bits xs) : SameMembers (arrange xs) xs := by
  refine sameMembers_of_exists (fun x hx _ => ⟨x, mem_of_mem_arrange hx, rfl⟩) fun x hx hsome => ?_
  exact exists_unnamed_arrange h hx hsome

/-! ## Arranged intervals -/

theorem sorted_map_unnamed (h : xs.Pairwise Before) : (xs.map (·.unnamed)).Pairwise Before :=
  List.pairwise_map.2 (h.imp before_unnamed.2)

theorem nodup_map_unnamed (h : xs.Pairwise Before) : (xs.map (·.unnamed)).Nodup :=
  List.pairwise_map.2 (h.imp unnamed_ne_of_before)

/-- Arranged intervals are determined by which ones there are. None of them is empty. -/
theorem Arranged.map_unnamed_eq (hxs : Arranged bits xs) (hys : Arranged bits ys)
    (h : SameMembers xs ys) : xs.map (·.unnamed) = ys.map (·.unnamed) := by
  have hperm : (xs.map (·.unnamed)).Perm (ys.map (·.unnamed)) := by
    refine (List.perm_ext_iff_of_nodup (nodup_map_unnamed hxs.sorted)
      (nodup_map_unnamed hys.sorted)).2 ?_
    intro z
    cases hz : z.isEmpty with
    | false => exact h z hz
    | true =>
      have hnot {zs : List Interval} (hzs : Arranged bits zs) : z ∉ zs.map (·.unnamed) := by
        intro hmem
        obtain ⟨w, hw, rfl⟩ := List.mem_map.1 hmem
        have hsome : w.unnamed.isEmpty = false := (hzs.member w hw).2.1
        rw [hz] at hsome
        cases hsome
      exact iff_of_false (hnot hxs) (hnot hys)
  refine hperm.eq_of_pairwise ?_ (sorted_map_unnamed hxs.sorted) (sorted_map_unnamed hys.sorted)
  intro x y _ _ hxy hyx
  exact absurd (before_trans hxy hyx) (not_before_self x)

theorem map_unnamed_arrange_congr (hxs : Uniform bits xs) (hys : Uniform bits ys)
    (h : SameMembers xs ys) : (arrange xs).map (·.unnamed) = (arrange ys).map (·.unnamed) :=
  (arranged_arrange hxs).map_unnamed_eq (arranged_arrange hys)
    ((sameMembers_arrange hxs).trans (h.trans (sameMembers_arrange hys).symm))

/-! ## Sets -/

/-- Names play no part in the interval over some members. -/
theorem joinAll_map_unnamed (bits : Nat) (xs : List Interval) :
    joinAll bits (xs.map (·.unnamed)) = joinAll bits xs := by
  simp only [joinAll, List.foldl_map, Interval.join_unnamed]

/-- Where there is room, the members of a set are the arranged intervals. -/
theorem members_ofMembers (hroom : (arrange xs).length ≤ capacity) :
    (ofMembers bits xs).members = arrange xs := by
  simp only [ofMembers, if_pos hroom]

/-- An operation on members adds none, so that there is room for all that it makes of them. -/
theorem Valid.members_ofMembers_map (hs : s.Valid) (bits : Nat) (f : Interval → Interval) :
    (ofMembers bits (s.members.map f)).members = arrange (s.members.map f) := by
  refine members_ofMembers (Nat.le_trans (IntervalSet.length_arrange_le _) ?_)
  rw [List.length_map]
  exact hs.count

/-- The same intervals make up the same set. -/
theorem unnamed_ofMembers_congr (hxs : Uniform bits xs) (hys : Uniform bits ys)
    (h : SameMembers xs ys) : (ofMembers bits xs).unnamed = (ofMembers bits ys).unnamed := by
  have hkept := map_unnamed_arrange_congr hxs hys h
  have hlength : (arrange xs).length = (arrange ys).length := by
    simpa using congrArg List.length hkept
  have hjoin : joinAll bits (arrange xs) = joinAll bits (arrange ys) := by
    rw [← joinAll_map_unnamed, hkept, joinAll_map_unnamed]
  simp only [ofMembers, hlength, hjoin]
  split
  · rw [unnamed, hkept]
    rfl
  · rfl

/-- Two sets that are the same have the same members. -/
theorem sameMembers_of_unnamed_eq (h : s.unnamed = t.unnamed) : SameMembers s.members t.members :=
  sameMembers_of_map_eq (congrArg IntervalSet.members h)

theorem Valid.length_arrange_le (hs : s.Valid) : (arrange s.members).length ≤ capacity :=
  Nat.le_trans (IntervalSet.length_arrange_le s.members) hs.count

/-- A set is the set of its members. -/
theorem Valid.unnamed_ofMembers (hs : s.Valid) :
    (ofMembers s.bits s.members).unnamed = s.unnamed := by
  have hkept :=
    (arranged_arrange hs.uniform).map_unnamed_eq hs.arranged (sameMembers_arrange hs.uniform)
  rw [unnamed, members_ofMembers hs.length_arrange_le, hkept, bits_ofMembers]
  rfl

/-! ## Order of operands -/

/-- The members of two sets make up the same set in either order. -/
theorem unnamed_union_comm (hs : s.Valid) (ht : t.Valid) (hbits : s.bits = t.bits) :
    (ofMembers s.bits (s.members ++ t.members)).unnamed =
      (ofMembers t.bits (t.members ++ s.members)).unnamed := by
  have hs' : Uniform t.bits s.members := hbits ▸ hs.uniform
  rw [hbits]
  exact unnamed_ofMembers_congr (uniform_append hs' ht.uniform) (uniform_append ht.uniform hs')
    (sameMembers_of_perm List.perm_append_comm)

/-- The common numbers of members are among those in the other order. -/
theorem mem_meet_pairs_comm (hs : s.Valid) (ht : t.Valid) (hbits : s.bits = t.bits)
    (hz : z ∈ s.members.flatMap fun x => t.members.map fun y => x.meet y) :
    z ∈ t.members.flatMap fun y => s.members.map fun x => y.meet x := by
  obtain ⟨x, hx, hz⟩ := List.mem_flatMap.1 hz
  obtain ⟨y, hy, rfl⟩ := List.mem_map.1 hz
  obtain ⟨hxvalid, hxbits⟩ := hs.uniform x hx
  obtain ⟨hyvalid, hybits⟩ := ht.uniform y hy
  rw [Interval.meet_comm hxvalid hyvalid (hxbits.trans (hbits.trans hybits.symm))]
  exact List.mem_flatMap.2 ⟨y, hy, List.mem_map_of_mem hx⟩

theorem unnamed_intersection_comm (hs : s.Valid) (ht : t.Valid) (hbits : s.bits = t.bits) :
    (ofMembers s.bits (s.members.flatMap fun x => t.members.map fun y => x.meet y)).unnamed =
      (ofMembers t.bits (t.members.flatMap fun y => s.members.map fun x => y.meet x)).unnamed := by
  have hst := uniform_meet_pairs hs ht hbits
  rw [hbits] at hst ⊢
  refine unnamed_ofMembers_congr hst (uniform_meet_pairs ht hs hbits.symm) ?_
  exact sameMembers_of_exists (fun z hz _ => ⟨z, mem_meet_pairs_comm hs ht hbits hz, rfl⟩)
    fun z hz _ => ⟨z, mem_meet_pairs_comm ht hs hbits.symm hz, rfl⟩

/-! ## Byte swap -/

/-- The set of the byte-swapped members. -/
def byteSwapped (s : IntervalSet) : IntervalSet :=
  ofMembers s.bits (s.members.map (·.reverseOrWhole))

theorem uniform_map_reverseOrWhole (h : Uniform bits xs) :
    Uniform bits (xs.map (·.reverseOrWhole)) := by
  intro y hy
  obtain ⟨x, hx, rfl⟩ := List.mem_map.1 hy
  exact ⟨Interval.valid_reverseOrWhole (h x hx).1,
    (Interval.bits_reverseOrWhole x).trans (h x hx).2⟩

theorem SameMembers.map_reverseOrWhole (h : SameMembers xs ys) :
    SameMembers (xs.map (·.reverseOrWhole)) (ys.map (·.reverseOrWhole)) :=
  h.map (fun x _ => Interval.isEmpty_reverseOrWhole x)
    (fun y _ => Interval.isEmpty_reverseOrWhole y)
    Interval.reverseOrWhole_unnamed

/-- A second byte swap of all intervals leaves the same ones as before the first. -/
theorem sameMembers_map_reverseOrWhole_map_reverseOrWhole (h : Uniform bits xs)
    (bytes : bits % 8 = 0) :
    SameMembers ((xs.map (·.reverseOrWhole)).map (·.reverseOrWhole)) xs := by
  refine sameMembers_of_map_eq ?_
  rw [List.map_map, List.map_map]
  refine List.map_congr_left fun x hx => ?_
  obtain ⟨hvalid, hbits⟩ := h x hx
  show x.reverseOrWhole.reverseOrWhole.unnamed = x.unnamed
  rw [Interval.reverseOrWhole_reverseOrWhole hvalid (hbits ▸ bytes)]
  rfl

theorem reverse_eq_ok (hs : s.Valid) (bytes : s.bits % 8 = 0) : s.reverse = .ok s.byteSwapped := by
  have hmembers : s.members.mapM (·.reverse) = .ok (s.members.map (·.reverseOrWhole)) :=
    mapM_eq_map fun x hx => Interval.reverse_eq_ok ((hs.uniform x hx).2 ▸ bytes)
  rw [reverse, mapMembers, hmembers]
  rfl

/-- Names play no part in a byte swap. -/
theorem byteSwapped_unnamed (s : IntervalSet) : s.unnamed.byteSwapped = s.byteSwapped := by
  simp only [byteSwapped, unnamed, List.map_map]
  rfl

/-- Sets that are the same up to names are so after a byte swap. -/
theorem unnamed_byteSwapped_congr {t : IntervalSet} (h : s.unnamed = t.unnamed) :
    s.byteSwapped.unnamed = t.byteSwapped.unnamed := by
  rw [← byteSwapped_unnamed, h, byteSwapped_unnamed]

theorem valid_byteSwapped (hs : s.Valid) : s.byteSwapped.Valid :=
  valid_ofMembers hs.width (uniform_map_reverseOrWhole hs.uniform)

theorem bits_byteSwapped (s : IntervalSet) : s.byteSwapped.bits = s.bits := bits_ofMembers _ _

theorem members_byteSwapped (hs : s.Valid) :
    s.byteSwapped.members = arrange (s.members.map (·.reverseOrWhole)) :=
  hs.members_ofMembers_map s.bits _

theorem sameMembers_byteSwapped (hs : s.Valid) :
    SameMembers s.byteSwapped.members (s.members.map (·.reverseOrWhole)) := by
  rw [members_byteSwapped hs]
  exact sameMembers_arrange (uniform_map_reverseOrWhole hs.uniform)

/-- A second byte swap of a set undoes the first. -/
theorem unnamed_byteSwapped_byteSwapped (hs : s.Valid) (bytes : s.bits % 8 = 0) :
    s.byteSwapped.byteSwapped.unnamed = s.unnamed := by
  have hswapped := uniform_map_reverseOrWhole (valid_byteSwapped hs).uniform
  rw [bits_byteSwapped] at hswapped
  rw [byteSwapped, bits_byteSwapped, ← hs.unnamed_ofMembers]
  refine unnamed_ofMembers_congr hswapped hs.uniform ?_
  exact (sameMembers_byteSwapped hs).map_reverseOrWhole.trans
    (sameMembers_map_reverseOrWhole_map_reverseOrWhole hs.uniform bytes)

/-- Behind a pending byte swap the byte-swapped set is stored. -/
theorem Valid.stored_eq_byteSwapped (hs : s.Valid) (h : s.isReversed = true) :
    s.stored = s.byteSwapped := by
  have hmembers : s.members.map (·.stored) = s.members.map (·.reverseOrWhole) :=
    List.map_congr_left fun x hx =>
      (hs.member x hx).1.stored_eq_reverseOrWhole ((isReversed_iff.1 h).2 x hx)
  rw [stored, hmembers, byteSwapped]

end IntervalSet

end AbstractBits
