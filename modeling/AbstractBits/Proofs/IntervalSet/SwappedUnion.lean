import AbstractBits.Proofs.IntervalSet.Canonical
import AbstractBits.Proofs.IntervalSet.Distinct
/-!
# Uniting sets under a byte swap

A lattice operator takes the pending byte swaps off its operands one by one and byte-swaps the union
of the rest. Each operand that had none is byte-swapped on the way, so the outcome is the union of
the operands only if a byte swap leaves such an operand as it is. It is not the union either if
there is no room for the members of both: the interval over them never has a byte swap pending,
while the byte-swapped one has.

Results:
  * `unnamed_byteSwapped_ofMembers` — with room for them, swapping members before and after makes no
    difference.
  * `room_of_unnamed_eq` — there is room for them if it makes no difference.
  * `byteSwapped_union_iff` — when the byte-swapped union of two sets is their union.
-/

namespace AbstractBits

namespace IntervalSet

open AbstractBits.Interval (Several)

variable {bits : Nat} {xs ys : List Interval} {x y : Interval} {s u : IntervalSet}

/-! ## Members -/

/-- Several numbers without a pending byte swap are in a member without one, also if there is no
room for the intervals themselves. -/
theorem exists_several_ofMembers (width : ValidWidth bits) (h : Uniform bits xs) (hx : x ∈ xs)
    (hrev : x.reversed = false) (hseveral : x.Several) :
    ∃ z ∈ (ofMembers bits xs).members, z.reversed = false ∧ z.Several := by
  by_cases hroom : (arrange xs).length ≤ capacity
  · obtain ⟨z, hz, hzx⟩ := exists_unnamed_arrange h hx hseveral.isEmpty
    rw [members_ofMembers hroom]
    exact ⟨z, hz, (Interval.reversed_of_unnamed_eq hzx).trans hrev,
      Interval.several_of_unnamed_eq hzx.symm hseveral⟩
  · have hmembers : (ofMembers bits xs).members = [joinAll bits (arrange xs)] := by
      simp only [ofMembers, if_neg hroom]
    have hkept := (arranged_arrange h).uniform
    obtain ⟨v, w, hne, hv, hw⟩ := hseveral.exists_ne (h x hx).1 hrev
    have hcovers {n : Nat} (hn : x.Denotes n) : (joinAll bits (arrange xs)).Denotes n :=
      denotes_joinAll width hkept ((denotes_arrange h).2 ⟨x, hx, hn⟩)
    refine ⟨_, hmembers ▸ List.mem_cons_self, reversed_foldl_join _ rfl, ?_⟩
    exact Interval.several_of_ne (valid_joinAll width hkept) (hcovers hv) (hcovers hw) hne

/-- Members with a pending byte swap are among the intervals, for which there was room then. -/
theorem room_of_reversed (hx : x ∈ (ofMembers bits xs).members) (hrev : x.reversed = true) :
    (arrange xs).length ≤ capacity := by
  by_contra hroom
  have hmembers : (ofMembers bits xs).members = [joinAll bits (arrange xs)] := by
    simp only [ofMembers, if_neg hroom]
  rw [hmembers, List.mem_singleton] at hx
  rw [hx, joinAll, reversed_foldl_join _ rfl] at hrev
  cases hrev

/-! ## Swapping members before and after -/

/-- If there is room for some intervals, byte-swapping the set of the byte-swapped ones makes up the
set of them. -/
theorem unnamed_byteSwapped_ofMembers (width : ValidWidth bits) (bytes : bits % 8 = 0)
    (hxs : Uniform bits xs) (hys : Uniform bits ys) (hroom : (arrange xs).length ≤ capacity)
    (h : SameMembers ys (xs.map (·.reverseOrWhole))) :
    (ofMembers bits ys).byteSwapped.unnamed = (ofMembers bits xs).unnamed := by
  have hvalid := valid_ofMembers width hxs
  have hswapped : (ofMembers bits xs).byteSwapped.unnamed = (ofMembers bits ys).unnamed := by
    rw [byteSwapped, members_ofMembers hroom, bits_ofMembers]
    refine unnamed_ofMembers_congr
      (uniform_map_reverseOrWhole (arranged_arrange hxs).uniform) hys ?_
    exact (sameMembers_arrange hxs).map_reverseOrWhole.trans h.symm
  rw [← unnamed_byteSwapped_congr hswapped]
  exact unnamed_byteSwapped_byteSwapped hvalid (by rwa [bits_ofMembers])

/-- If byte-swapping the set of some intervals makes up the set of others, there is room for those,
and they are the byte-swapped ones: several numbers among the first leave a byte swap pending, which
the interval over all members never does. -/
theorem room_of_unnamed_eq (width : ValidWidth bits) (bytes : bits % 8 = 0) (hbyte : bits ≠ 8)
    (hxs : Uniform bits xs) (hys : Uniform bits ys) (hy : y ∈ ys) (hrev : y.reversed = false)
    (hseveral : y.Several) (hfew : (arrange xs).length ≤ 1 → (arrange ys).length ≤ capacity)
    (h : (ofMembers bits ys).byteSwapped.unnamed = (ofMembers bits xs).unnamed) :
    (arrange xs).length ≤ capacity ∧ SameMembers xs (ys.map (·.reverseOrWhole)) := by
  have hvalid := valid_ofMembers width hys
  have hsame := sameMembers_of_unnamed_eq h
  have hxsroom : (arrange xs).length ≤ capacity := by
    obtain ⟨z, hz, hzrev, hzseveral⟩ := exists_several_ofMembers width hys hy hrev hseveral
    have hzbits : z.bits = bits := (hvalid.uniform z hz).2.trans (bits_ofMembers _ _)
    have hpending : z.reverseOrWhole.reversed = true := by
      rw [Interval.reversed_reverseOrWhole (hzbits ▸ bytes) (hzbits ▸ hbyte) hzseveral, hzrev]
      rfl
    have hzsome : z.reverseOrWhole.isEmpty = false := by
      rw [Interval.isEmpty_reverseOrWhole]
      exact hzseveral.isEmpty
    obtain ⟨w, hw, hwz⟩ := ((sameMembers_byteSwapped hvalid).symm.trans hsame).exists_unnamed
      (List.mem_map_of_mem hz) hzsome
    exact room_of_reversed hw ((Interval.reversed_of_unnamed_eq hwz).trans hpending)
  have hysroom : (arrange ys).length ≤ capacity := by
    by_contra hnoroom
    have hcount :
        (ofMembers bits xs).members.length = (ofMembers bits ys).byteSwapped.members.length := by
      simpa [unnamed] using congrArg (·.members.length) h.symm
    have hone : (ofMembers bits ys).byteSwapped.members.length ≤ 1 := by
      rw [members_byteSwapped hvalid]
      refine Nat.le_trans (length_arrange_le _) ?_
      simp only [ofMembers, if_neg hnoroom, List.length_map, List.length_singleton, Nat.le_refl]
    rw [members_ofMembers hxsroom] at hcount
    exact hnoroom (hfew (hcount ▸ hone))
  refine ⟨hxsroom, ?_⟩
  have hbyteSwapped := sameMembers_byteSwapped hvalid
  rw [members_ofMembers hysroom] at hbyteSwapped
  rw [members_ofMembers hxsroom] at hsame
  exact (sameMembers_arrange hxs).symm.trans
    (hsame.symm.trans (hbyteSwapped.trans (sameMembers_arrange hys).map_reverseOrWhole))

/-! ## Operands without pending byte swaps -/

/-- The set that a lattice operator is given in the place of one with a pending byte swap. -/
def unreversed (s : IntervalSet) : IntervalSet := if s.isReversed then s.stored else s

theorem Valid.sameMembers_stored (hs : s.Valid) (h : s.isReversed = true) :
    SameMembers s.stored.members (s.members.map (·.reverseOrWhole)) := by
  rw [hs.stored_eq_byteSwapped h]
  exact sameMembers_byteSwapped hs

theorem bits_unreversed (s : IntervalSet) : s.unreversed.bits = s.bits := by
  unfold unreversed
  split
  · exact bits_ofMembers _ _
  · rfl

theorem uniform_unreversed (hs : s.Valid) : Uniform s.bits s.unreversed.members := by
  rw [← bits_unreversed]
  unfold unreversed
  split
  · exact (valid_stored hs).uniform
  · exact hs.uniform

theorem length_unreversed_le (hs : s.Valid) : s.unreversed.members.length ≤ s.members.length := by
  unfold unreversed
  split
  · rename_i hrev
    rw [hs.stored_eq_byteSwapped hrev, members_byteSwapped hs]
    exact Nat.le_trans (length_arrange_le _) (Nat.le_of_eq (List.length_map _))
  · exact Nat.le_refl _

/-- Whether a byte swap leaves a set as it is. -/
def SelfSwapped (s : IntervalSet) : Prop := s.byteSwapped.unnamed = s.unnamed

theorem selfSwapped_iff (hs : s.Valid) :
    s.SelfSwapped ↔ SameMembers (s.members.map (·.reverseOrWhole)) s.members := by
  constructor
  · intro h
    exact (sameMembers_byteSwapped hs).symm.trans (sameMembers_of_unnamed_eq h)
  · intro h
    exact (unnamed_ofMembers_congr (uniform_map_reverseOrWhole hs.uniform) hs.uniform h).trans
      hs.unnamed_ofMembers

/-- The members of an operand that had a byte swap pending, or that a byte swap leaves as it is. -/
theorem sameMembers_unreversed (hs : s.Valid) (h : s.isReversed = true ∨ s.SelfSwapped) :
    SameMembers s.unreversed.members (s.members.map (·.reverseOrWhole)) := by
  unfold unreversed
  split
  · exact hs.sameMembers_stored ‹_›
  · rename_i hrev
    exact ((selfSwapped_iff hs).1 (h.resolve_left hrev)).symm

/-- Behind a pending byte swap there are several numbers without one. -/
theorem exists_several_unreversed (hs : s.Valid) (h : s.isReversed = true) :
    ∃ y ∈ s.unreversed.members, y.reversed = false ∧ y.Several := by
  obtain ⟨hne, hall⟩ := isReversed_iff.1 h
  obtain ⟨x, hx⟩ := List.exists_mem_of_ne_nil _ hne
  have hvalid := (hs.member x hx).1
  have hstored := hvalid.stored_eq_reverseOrWhole (hall x hx)
  have hseveral := hvalid.several_stored (hall x hx)
  rw [unreversed, if_pos h]
  obtain ⟨y, hy, hyx⟩ := (hs.sameMembers_stored h).symm.exists_unnamed
    (List.mem_map_of_mem hx : x.reverseOrWhole ∈ _) (hstored ▸ hseveral.isEmpty)
  rw [← hstored] at hyx
  exact ⟨y, hy, Interval.reversed_of_unnamed_eq hyx,
    Interval.several_of_unnamed_eq hyx.symm hseveral⟩

/-! ## Intervals beside ones with pending byte swaps -/

/-- Intervals that complete the same ones with pending byte swaps before and after their own byte
swap are among the byte-swapped ones themselves. Where the byte swap of an image is pending, that of
the interval itself is not. -/
theorem exists_swapped_of_pending (hys : Uniform bits ys) (bytes : bits % 8 = 0)
    (hpending : ∀ x ∈ xs, x.reversed = true)
    (h : SameMembers (xs ++ ys) (xs ++ ys.map (·.reverseOrWhole))) (hy : y ∈ ys)
    (hsome : y.isEmpty = false) : ∃ z ∈ ys, z.unnamed = y.reverseOrWhole := by
  have hvalid := (hys y hy).1
  have hswapped : y.reverseOrWhole.isEmpty = false := by rwa [Interval.isEmpty_reverseOrWhole]
  obtain ⟨w, hw, hwy⟩ := h.symm.exists_unnamed
    (List.mem_append_right xs (List.mem_map_of_mem (f := (·.reverseOrWhole)) hy)) hswapped
  rw [Interval.unnamed_reverseOrWhole] at hwy
  rcases List.mem_append.1 hw with hw | hw
  · have hrev : y.reversed = false := by
      refine hvalid.not_reversed_of_reverseOrWhole ?_
      rw [← hwy]
      exact hpending w hw
    obtain ⟨z, hz, hzy⟩ := h.exists_unnamed (List.mem_append_right xs hy) hsome
    rcases List.mem_append.1 hz with hz | hz
    · have hboth := (hpending z hz).symm.trans (Interval.reversed_of_unnamed_eq hzy)
      rw [hrev] at hboth
      cases hboth
    · obtain ⟨y', hy', rfl⟩ := List.mem_map.1 hz
      obtain ⟨hvalid', hbits'⟩ := hys y' hy'
      refine ⟨y', hy', ?_⟩
      rw [Interval.unnamed_reverseOrWhole] at hzy
      rw [← Interval.reverseOrWhole_reverseOrWhole hvalid' (hbits' ▸ bytes), hzy,
        Interval.reverseOrWhole_unnamed]
  · exact ⟨w, hw, hwy⟩

theorem sameMembers_map_of_pending (hys : Uniform bits ys) (bytes : bits % 8 = 0)
    (hpending : ∀ x ∈ xs, x.reversed = true)
    (h : SameMembers (xs ++ ys) (xs ++ ys.map (·.reverseOrWhole))) :
    SameMembers (ys.map (·.reverseOrWhole)) ys := by
  refine sameMembers_of_exists (fun z hz hsome => ?_) fun y hy hsome => ?_
  · obtain ⟨y, hy, rfl⟩ := List.mem_map.1 hz
    rw [Interval.isEmpty_reverseOrWhole] at hsome
    rw [Interval.unnamed_reverseOrWhole]
    exact exists_swapped_of_pending hys bytes hpending h hy hsome
  · obtain ⟨z, hz, hzy⟩ := exists_swapped_of_pending hys bytes hpending h hy hsome
    obtain ⟨hvalid, hbits⟩ := hys y hy
    refine ⟨z.reverseOrWhole, List.mem_map_of_mem hz, ?_⟩
    rw [Interval.unnamed_reverseOrWhole, ← Interval.reverseOrWhole_unnamed, hzy]
    exact Interval.reverseOrWhole_reverseOrWhole hvalid (hbits ▸ bytes)

/-- A set beside one with a pending byte swap, if the byte-swapped union is the union. -/
theorem selfSwapped_of_sameMembers (hs : s.Valid) (hu : u.Valid) (hbits : s.bits = u.bits)
    (bytes : s.bits % 8 = 0) (hsrev : s.isReversed = true) (hurev : u.isReversed = false)
    (h : SameMembers (s.members ++ u.members)
      ((s.unreversed.members ++ u.unreversed.members).map (·.reverseOrWhole))) : u.SelfSwapped := by
  have hback : SameMembers (s.unreversed.members.map (·.reverseOrWhole)) s.members :=
    (sameMembers_unreversed hs (.inl hsrev)).map_reverseOrWhole.trans
      (sameMembers_map_reverseOrWhole_map_reverseOrWhole hs.uniform bytes)
  rw [List.map_append, unreversed.eq_def u, hurev] at h
  refine (selfSwapped_iff hu).2 ?_
  exact sameMembers_map_of_pending hu.uniform (hbits ▸ bytes) (isReversed_iff.1 hsrev).2
    (h.trans (hback.append (sameMembers_refl _)))

/-! ## Unions -/

/-- Arranging intervals that include the members of a set leaves at least as many. -/
theorem length_le_arrange (hs : s.Valid) (h : Uniform bits ys) (hsub : s.members ⊆ ys) :
    s.members.length ≤ (arrange ys).length := by
  have hmembers : s.members.map (·.unnamed) ⊆ (arrange ys).map (·.unnamed) := by
    intro z hz
    obtain ⟨x, hx, rfl⟩ := List.mem_map.1 hz
    exact List.mem_map.2 (exists_unnamed_arrange h (hsub hx) (hs.member x hx).2.1)
  simpa using (nodup_map_unnamed hs.sorted).length_le_of_subset hmembers

/-- If the union of two sets has at most one member, there is room for what is stored of both. -/
theorem room_of_union_single (hs : s.Valid) (hu : u.Valid)
    (h : Uniform bits (s.members ++ u.members))
    (hone : (arrange (s.members ++ u.members)).length ≤ 1) :
    (arrange (s.unreversed.members ++ u.unreversed.members)).length ≤ capacity := by
  have hsone := Nat.le_trans (length_le_arrange hs h (List.subset_append_left _ _)) hone
  have huone := Nat.le_trans (length_le_arrange hu h (List.subset_append_right _ _)) hone
  calc (arrange (s.unreversed.members ++ u.unreversed.members)).length
      ≤ (s.unreversed.members ++ u.unreversed.members).length := length_arrange_le _
    _ = s.unreversed.members.length + u.unreversed.members.length := List.length_append
    _ ≤ 1 + 1 := Nat.add_le_add (Nat.le_trans (length_unreversed_le hs) hsone)
        (Nat.le_trans (length_unreversed_le hu) huone)
    _ ≤ capacity := by decide

/-- Two sets of which at least one has a byte swap pending: the byte-swapped union of what is stored
is their union exactly if there is room for the members of both and each of the two has a byte swap
pending or is left as it is by one. -/
theorem byteSwapped_union_iff (hs : s.Valid) (hu : u.Valid) (hbits : s.bits = u.bits)
    (hbyte : s.bits % 8 = 0 ∧ s.bits ≠ 8) (hany : s.isReversed = true ∨ u.isReversed = true) :
    (ofMembers s.bits (s.unreversed.members ++ u.unreversed.members)).byteSwapped.unnamed =
        (ofMembers s.bits (s.members ++ u.members)).unnamed ↔
      countDifferent (s.members ++ u.members) ≤ capacity ∧ (s.isReversed = true ∨ s.SelfSwapped) ∧
        (u.isReversed = true ∨ u.SelfSwapped) := by
  have hxs : Uniform s.bits (s.members ++ u.members) :=
    uniform_append hs.uniform (hbits ▸ hu.uniform)
  have hys : Uniform s.bits (s.unreversed.members ++ u.unreversed.members) :=
    uniform_append (uniform_unreversed hs) (hbits ▸ uniform_unreversed hu)
  have hsome : ∀ x ∈ s.members ++ u.members, x.isEmpty = false := by
    intro x hx
    exact (List.mem_append.1 hx).elim (fun hx => (hs.member x hx).2.1) fun hx =>
      (hu.member x hx).2.1
  rw [← card_arrange hxs hsome]
  constructor
  · intro h
    obtain ⟨y, hy, hyrev, hyseveral⟩ : ∃ y ∈ s.unreversed.members ++ u.unreversed.members,
        y.reversed = false ∧ y.Several := by
      rcases hany with hrev | hrev
      · obtain ⟨y, hy, hfacts⟩ := exists_several_unreversed hs hrev
        exact ⟨y, List.mem_append_left _ hy, hfacts⟩
      · obtain ⟨y, hy, hfacts⟩ := exists_several_unreversed hu hrev
        exact ⟨y, List.mem_append_right _ hy, hfacts⟩
    obtain ⟨hroom, hsame⟩ := room_of_unnamed_eq hs.width hbyte.1 hbyte.2 hxs hys hy hyrev hyseveral
      (room_of_union_single hs hu hxs) h
    refine ⟨hroom, ?_⟩
    cases hsrev : s.isReversed with
    | true =>
      cases hurev : u.isReversed with
      | true => exact ⟨.inl rfl, .inl rfl⟩
      | false =>
        exact ⟨.inl rfl, .inr (selfSwapped_of_sameMembers hs hu hbits hbyte.1 hsrev hurev hsame)⟩
    | false =>
      have hurev : u.isReversed = true := hany.resolve_left (Bool.eq_false_iff.1 hsrev)
      have hother := (sameMembers_of_perm List.perm_append_comm).trans
        (hsame.trans (sameMembers_of_perm (List.perm_append_comm.map _)))
      exact ⟨.inr
        (selfSwapped_of_sameMembers hu hs hbits.symm (hbits ▸ hbyte.1) hurev hsrev hother),
        .inl hurev⟩
  · rintro ⟨hroom, hsok, huok⟩
    refine unnamed_byteSwapped_ofMembers hs.width hbyte.1 hxs hys hroom ?_
    rw [List.map_append]
    exact (sameMembers_unreversed hs hsok).append (sameMembers_unreversed hu huok)

end IntervalSet

end AbstractBits
