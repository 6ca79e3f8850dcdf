import AbstractBits.Denotation
import AbstractBits.Proofs.Interval.Bounds
/-!
# Members of sets

Bringing intervals into the form of a set loses no number: an interval is dropped only if it is
empty or if a member with the same bounds, stride and byte order is there already, and the interval
over too many members has the numbers of all of them.

Results:
  * `exists_unnamed_arrange`, `denotes_arrange` — arranging intervals keeps those that are not
    empty, up to their names, and so exactly their numbers.
  * `valid_ofMembers`, `denotes_ofMembers` — the set of some intervals is valid and stands for their
    numbers.
  * `valid_hull`, `denotes_hull` — so does the interval over a set, which has no byte swap pending.
  * `endsIn_hull` — the interval over a set without pending byte swaps ends in bounds of its
    members.
-/

namespace AbstractBits

namespace IntervalSet

open AbstractBits.Interval (Before EndsIn)

variable {bits : Nat} {members : List Interval} {x y : Interval} {v : Nat}

/-- Valid intervals of one width. -/
def Uniform (bits : Nat) (members : List Interval) : Prop := ∀ x ∈ members, x.Valid ∧ x.bits = bits

/-- Intervals in the form in which a set keeps them. -/
structure Arranged (bits : Nat) (members : List Interval) : Prop where
  member : ∀ x ∈ members, x.Valid ∧ x.isEmpty = false ∧ x.bits = bits
  sorted : members.Pairwise Before

theorem uniform_nil (bits : Nat) : Uniform bits [] := by
  intro x hx
  cases hx

theorem uniform_cons {xs : List Interval} (hx : x.Valid) (hbits : x.bits = bits)
    (hxs : Uniform bits xs) : Uniform bits (x :: xs) := by
  intro y hy
  rcases List.mem_cons.1 hy with rfl | hy
  · exact ⟨hx, hbits⟩
  · exact hxs y hy

theorem Uniform.tail {xs : List Interval} (h : Uniform bits (x :: xs)) : Uniform bits xs :=
  fun y hy => h y (List.mem_cons_of_mem _ hy)

theorem uniform_append {xs ys : List Interval} (hxs : Uniform bits xs) (hys : Uniform bits ys) :
    Uniform bits (xs ++ ys) := by
  intro x hx
  rcases List.mem_append.1 hx with hx | hx
  · exact hxs x hx
  · exact hys x hx

theorem Arranged.uniform (h : Arranged bits members) : Uniform bits members :=
  fun x hx => ⟨(h.member x hx).1, (h.member x hx).2.2⟩

theorem Valid.arranged {s : IntervalSet} (h : s.Valid) : Arranged s.bits s.members :=
  ⟨h.member, h.sorted⟩

theorem Valid.uniform {s : IntervalSet} (h : s.Valid) : Uniform s.bits s.members :=
  h.arranged.uniform

/-! ## The order of members -/

theorem before_trans {z : Interval} (hxy : Before x y) (hyz : Before y z) : Before x z := by
  unfold Before at *
  grind

theorem not_before_self (x : Interval) : ¬Before x x := by
  simp [Before]

/-- Names play no part in the order. -/
theorem before_unnamed : Before x.unnamed y.unnamed ↔ Before x y := Iff.rfl

theorem unnamed_ne_of_before (h : Before x y) : x.unnamed ≠ y.unnamed := by
  intro heq
  have hself := before_unnamed.2 h
  rw [heq] at hself
  exact not_before_self _ hself

/-- Two intervals with numbers, neither before the other, differ in the name at most. -/
theorem unnamed_eq_of_not_before (hx : x.isEmpty = false) (hy : y.isEmpty = false)
    (hbits : x.bits = y.bits) (hxy : ¬Before x y) (hyx : ¬Before y x) : x.unnamed = y.unnamed := by
  obtain ⟨⟨pl, pu, ps⟩, hxrange⟩ := Interval.exists_range_of_nonempty hx
  obtain ⟨⟨ql, qu, qs⟩, hyrange⟩ := Interval.exists_range_of_nonempty hy
  simp only [Before, Interval.lower, Interval.upper, Interval.stride, hxrange, hyrange,
    Option.elim_some]
    at hxy hyx
  obtain rfl : pl = ql := by omega
  obtain rfl : pu = qu := by omega
  obtain rfl : ps = qs := by omega
  have hreversed : x.reversed = y.reversed := by
    cases hxrev : x.reversed <;> cases hyrev : y.reversed <;> simp [hxrev, hyrev] at hxy hyx ⊢
  simp [Interval.unnamed, hxrange, hyrange, hbits, hreversed]

/-! ## Arranging -/

theorem mem_insertMember (h : y ∈ insertMember x members) : y = x ∨ y ∈ members := by
  induction members with
  | nil => simpa [insertMember] using h
  | cons z zs ih =>
    unfold insertMember at h
    split at h
    · simpa using h
    split at h
    · rcases List.mem_cons.1 h with rfl | h
      · exact .inr List.mem_cons_self
      · exact (ih h).imp_right (List.mem_cons_of_mem _)
    · exact .inr h

theorem mem_insertMember_of_mem (h : y ∈ members) : y ∈ insertMember x members := by
  induction members with
  | nil => cases h
  | cons z zs ih =>
    unfold insertMember
    split
    · exact List.mem_cons_of_mem _ h
    split
    · rcases List.mem_cons.1 h with rfl | h
      · exact List.mem_cons_self
      · exact List.mem_cons_of_mem _ (ih h)
    · exact h

theorem arranged_insertMember (hx : x.Valid) (some : x.isEmpty = false) (hbits : x.bits = bits)
    (h : Arranged bits members) : Arranged bits (insertMember x members) := by
  refine ⟨fun y hy => ?_, ?_⟩
  · rcases mem_insertMember hy with rfl | hy
    · exact ⟨hx, some, hbits⟩
    · exact h.member y hy
  · have hsorted := h.sorted
    clear h
    induction members with
    | nil => exact List.pairwise_singleton _ _
    | cons z zs ih =>
      obtain ⟨hz, hzs⟩ := List.pairwise_cons.1 hsorted
      unfold insertMember
      split
      · rename_i hxz
        refine List.pairwise_cons.2 ⟨fun y hy => ?_, hsorted⟩
        rcases List.mem_cons.1 hy with rfl | hy
        · exact hxz
        · exact before_trans hxz (hz y hy)
      split
      · rename_i hzx
        refine List.pairwise_cons.2 ⟨fun y hy => ?_, ih hzs⟩
        rcases mem_insertMember hy with rfl | hy
        · exact hzx
        · exact hz y hy
      · exact hsorted

/-- An interval that is inserted is there afterwards, up to its name. -/
theorem exists_unnamed_insertMember (some : x.isEmpty = false) (hbits : x.bits = bits)
    (h : Arranged bits members) : ∃ y ∈ insertMember x members, y.unnamed = x.unnamed := by
  have hmember := h.member
  clear h
  induction members with
  | nil => exact ⟨x, List.mem_singleton.2 rfl, rfl⟩
  | cons z zs ih =>
    unfold insertMember
    split
    · exact ⟨x, List.mem_cons_self, rfl⟩
    rename_i hxz
    split
    · obtain ⟨y, hy, hyx⟩ := ih fun y hy => hmember y (List.mem_cons_of_mem _ hy)
      exact ⟨y, List.mem_cons_of_mem _ hy, hyx⟩
    · rename_i hzx
      obtain ⟨-, hz, hzbits⟩ := hmember z List.mem_cons_self
      exact ⟨z, List.mem_cons_self,
        unnamed_eq_of_not_before hz some (hzbits.trans hbits.symm) hzx hxz⟩

/-- Inserting intervals one after the other keeps the form, and all of them up to their names. -/
theorem arranged_foldl_insertMember (kept : List Interval) (hkept : Arranged bits kept)
    (h : ∀ x ∈ members, x.Valid ∧ x.isEmpty = false ∧ x.bits = bits) :
    Arranged bits (members.foldl (fun kept x => insertMember x kept) kept) ∧
      ∀ x, x ∈ members ∨ x ∈ kept →
        ∃ y ∈ members.foldl (fun kept x => insertMember x kept) kept, y.unnamed = x.unnamed := by
  induction members generalizing kept with
  | nil => exact ⟨hkept, fun x hx => ⟨x, by simpa using hx, rfl⟩⟩
  | cons z zs ih =>
    obtain ⟨hz, hsome, hbits⟩ := h z List.mem_cons_self
    obtain ⟨harr, hkeeps⟩ := ih _ (arranged_insertMember hz hsome hbits hkept)
      fun x hx => h x (List.mem_cons_of_mem _ hx)
    refine ⟨harr, fun x hx => ?_⟩
    rcases hx with hx | hx
    · rcases List.mem_cons.1 hx with rfl | hx
      · obtain ⟨y, hy, hyx⟩ := exists_unnamed_insertMember hsome hbits hkept
        obtain ⟨w, hw, hwy⟩ := hkeeps y (.inr hy)
        exact ⟨w, hw, hwy.trans hyx⟩
      · exact hkeeps x (.inl hx)
    · exact hkeeps x (.inr (mem_insertMember_of_mem hx))

theorem mem_nonempty (h : Uniform bits members) (hx : x ∈ members.filter fun x => !x.isEmpty) :
    x.Valid ∧ x.isEmpty = false ∧ x.bits = bits := by
  obtain ⟨hmem, hsome⟩ := List.mem_filter.1 hx
  exact ⟨(h x hmem).1, by simpa using hsome, (h x hmem).2⟩

theorem arranged_nil (bits : Nat) : Arranged bits [] where
  member := by simp
  sorted := List.Pairwise.nil

theorem arranged_arrange (h : Uniform bits members) : Arranged bits (arrange members) :=
  (arranged_foldl_insertMember [] (arranged_nil bits) fun _ hx => mem_nonempty h hx).1

theorem mem_foldl_insertMember (members : List Interval) {kept : List Interval}
    (h : x ∈ members.foldl (fun kept x => insertMember x kept) kept) : x ∈ members ∨ x ∈ kept := by
  induction members generalizing kept with
  | nil => exact .inr h
  | cons z zs ih =>
    rcases ih h with h | h
    · exact .inl (List.mem_cons_of_mem _ h)
    · rcases mem_insertMember h with rfl | h
      · exact .inl List.mem_cons_self
      · exact .inr h

theorem mem_of_mem_arrange (h : x ∈ arrange members) : x ∈ members := by
  rcases mem_foldl_insertMember _ h with h | h
  · exact (List.mem_filter.1 h).1
  · cases h

/-- Arranging intervals keeps those that are not empty, up to their names. -/
theorem exists_unnamed_arrange (h : Uniform bits members) (hx : x ∈ members)
    (hsome : x.isEmpty = false) : ∃ y ∈ arrange members, y.unnamed = x.unnamed :=
  (arranged_foldl_insertMember [] (arranged_nil bits) fun _ hx => mem_nonempty h hx).2 x
    (.inl (List.mem_filter.2 ⟨hx, by simp [hsome]⟩))

/-- Arranging intervals keeps exactly their numbers. -/
theorem denotes_arrange (h : Uniform bits members) :
    (∃ x ∈ arrange members, x.Denotes v) ↔ ∃ x ∈ members, x.Denotes v := by
  constructor
  · rintro ⟨x, hx, hv⟩
    exact ⟨x, mem_of_mem_arrange hx, hv⟩
  · rintro ⟨x, hx, hv⟩
    have hsome := (h x hx).1.exists_denotes.1 ⟨v, hv⟩
    obtain ⟨y, hy, hyx⟩ := exists_unnamed_arrange h hx hsome
    refine ⟨y, hy, (Interval.denotes_unnamed y v).1 ?_⟩
    rw [hyx]
    exact hv

/-! ## The interval over some members -/

/-- Joining intervals one after the other keeps the numbers of all. -/
theorem retains_foldl_join (start : Interval) (hstart : start.Valid) (hbits : start.bits = bits)
    (h : Uniform bits members) :
    (members.foldl Interval.join start).Valid ∧ (members.foldl Interval.join start).bits = bits ∧
      ∀ v, (∃ x ∈ members, x.Denotes v) ∨ start.Denotes v →
        (members.foldl Interval.join start).Denotes v := by
  induction members generalizing start with
  | nil => exact ⟨hstart, hbits, by simp⟩
  | cons z zs ih =>
    obtain ⟨hz, hzbits⟩ := h z List.mem_cons_self
    obtain ⟨hvalid, hwidth, hjoin⟩ := Interval.retains_join hstart hz (hbits.trans hzbits.symm)
    obtain ⟨hfold, hfoldbits, hden⟩ := ih _ hvalid (hwidth.trans hbits) h.tail
    refine ⟨hfold, hfoldbits, fun v hv => hden v ?_⟩
    rcases hv with ⟨x, hx, hv⟩ | hv
    · rcases List.mem_cons.1 hx with rfl | hx
      · exact .inr (hjoin v (.inr hv))
      · exact .inl ⟨x, hx, hv⟩
    · exact .inr (hjoin v (.inl hv))

theorem reversed_foldl_join (members : List Interval) {start : Interval}
    (hrev : start.reversed = false) : (members.foldl Interval.join start).reversed = false := by
  induction members generalizing start with
  | nil => exact hrev
  | cons z zs ih => exact ih (Interval.reversed_join hrev)

/-- Joining intervals without pending byte swaps one after the other ends in bounds of some of
them. -/
theorem endsIn_foldl_join (start : Interval) (hstart : start.Valid) (hbits : start.bits = bits)
    (hrev : start.reversed = false) (h : Uniform bits members)
    (hplain : ∀ x ∈ members, x.reversed = false) :
    EndsIn (members.foldl Interval.join start) (start :: members) := by
  induction members generalizing start with
  | nil => exact Interval.endsIn_of_mem List.mem_cons_self
  | cons z zs ih =>
    obtain ⟨hz, hzbits⟩ := h z List.mem_cons_self
    have hzrev := hplain z List.mem_cons_self
    have hjoin := Interval.retains_join hstart hz (hbits.trans hzbits.symm)
    have hends := Interval.endsIn_join hstart hz hrev hzrev
    refine (ih _ hjoin.valid (hjoin.width.trans hbits) (Interval.reversed_join hrev) h.tail
      fun x hx => hplain x (List.mem_cons_of_mem _ hx)).trans ?_
    intro x hx
    rcases List.mem_cons.1 hx with rfl | hx
    · refine hends.trans fun y hy => Interval.endsIn_of_mem ?_
      rcases List.mem_cons.1 hy with rfl | hy
      · exact List.mem_cons_self
      · exact List.mem_cons_of_mem _ (List.mem_singleton.1 hy ▸ List.mem_cons_self)
    · exact Interval.endsIn_of_mem (List.mem_cons_of_mem _ (List.mem_cons_of_mem _ hx))

theorem valid_joinAll (width : ValidWidth bits) (h : Uniform bits members) :
    (joinAll bits members).Valid :=
  (retains_foldl_join _ (Interval.valid_empty width) rfl h).1

theorem bits_joinAll (width : ValidWidth bits) (h : Uniform bits members) :
    (joinAll bits members).bits = bits :=
  (retains_foldl_join _ (Interval.valid_empty width) rfl h).2.1

theorem denotes_joinAll (width : ValidWidth bits) (h : Uniform bits members)
    (hv : ∃ x ∈ members, x.Denotes v) : (joinAll bits members).Denotes v :=
  (retains_foldl_join _ (Interval.valid_empty width) rfl h).2.2 v (.inl hv)

/-- The interval over members without pending byte swaps ends in bounds of these. The empty interval
that joining starts from has no bounds. -/
theorem endsIn_joinAll (width : ValidWidth bits) (h : Uniform bits members)
    (hplain : ∀ x ∈ members, x.reversed = false) : EndsIn (joinAll bits members) members := by
  refine (endsIn_foldl_join _ (Interval.valid_empty width) rfl rfl h hplain).trans fun x hx => ?_
  rcases List.mem_cons.1 hx with rfl | hx
  · constructor <;> exact fun hsome => by cases hsome
  · exact Interval.endsIn_of_mem hx

/-! ## Sets of some members -/

@[simp] theorem bits_ofMembers (bits : Nat) (members : List Interval) :
    (ofMembers bits members).bits = bits := by
  simp only [ofMembers]
  split <;> rfl

/-- Members that are more than the capacity are at least one, and none of them is empty, so that the
interval over them is not either. -/
theorem valid_ofMembers (width : ValidWidth bits) (h : Uniform bits members) :
    (ofMembers bits members).Valid := by
  have harr := arranged_arrange h
  simp only [ofMembers]
  split
  · rename_i hcount
    exact ⟨width, hcount, harr.member, harr.sorted⟩
  · rename_i hcount
    refine ⟨width, (by decide : 1 ≤ capacity), fun x hx => ?_, List.pairwise_singleton _ _⟩
    have hvalid := valid_joinAll width harr.uniform
    obtain ⟨y, hy⟩ := List.exists_mem_of_length_pos (l := arrange members) (by omega)
    obtain ⟨hyvalid, hysome, -⟩ := harr.member y hy
    obtain ⟨v, hv⟩ := hyvalid.exists_denotes.2 hysome
    rw [List.mem_singleton.1 hx]
    exact ⟨hvalid, hvalid.exists_denotes.1 ⟨v, denotes_joinAll width harr.uniform ⟨y, hy, hv⟩⟩,
      bits_joinAll width harr.uniform⟩

theorem denotes_ofMembers (width : ValidWidth bits) (h : Uniform bits members)
    (hv : ∃ x ∈ members, x.Denotes v) : (ofMembers bits members).Denotes v := by
  have harr := arranged_arrange h
  have hkept := (denotes_arrange h).2 hv
  simp only [ofMembers]
  split
  · exact hkept
  · exact ⟨_, List.mem_singleton.2 rfl, denotes_joinAll width harr.uniform hkept⟩

theorem valid_ofInterval (hx : x.Valid) : (ofInterval x).Valid :=
  valid_ofMembers hx.width (uniform_cons hx rfl (uniform_nil _))

theorem bits_ofInterval (x : Interval) : (ofInterval x).bits = x.bits := bits_ofMembers _ _

/-- Which intervals are accepted, and what is built from them. -/
theorem new_eq_ok {s : IntervalSet} :
    new bits members = .ok s ↔
      ValidWidth bits ∧ (∀ x ∈ members, x.bits = bits) ∧ s = ofMembers bits members := by
  unfold new
  by_cases width : ValidWidth bits
  · cases hfind : members.find? fun x => x.bits != bits with
    | none =>
      have hbits : ∀ x ∈ members, x.bits = bits := by simpa using hfind
      rw [if_pos width, Except.ok.injEq]
      exact ⟨fun h => ⟨width, hbits, h.symm⟩, fun h => h.2.2.symm⟩
    | some x =>
      have hx := List.find?_some hfind
      have hmem := List.mem_of_find?_eq_some hfind
      have hbits : ¬∀ x ∈ members, x.bits = bits := fun h => by simp [h x hmem] at hx
      simp [width, hbits]
  · simp [width]

theorem valid_of_new {s : IntervalSet} (hmembers : ∀ x ∈ members, x.Valid)
    (h : new bits members = .ok s) : s.Valid := by
  obtain ⟨width, hbits, rfl⟩ := new_eq_ok.1 h
  exact valid_ofMembers width fun x hx => ⟨hmembers x hx, hbits x hx⟩

/-! ## The interval over a set -/

variable {s : IntervalSet}

theorem valid_hull (hs : s.Valid) : s.hull.Valid := valid_joinAll hs.width hs.uniform

theorem bits_hull (hs : s.Valid) : s.hull.bits = s.bits := bits_joinAll hs.width hs.uniform

/-- The interval over a set has all numbers of the set. -/
theorem denotes_hull (hs : s.Valid) (hv : s.Denotes v) : s.hull.Denotes v :=
  denotes_joinAll hs.width hs.uniform hv

/-- The interval over a set has no byte swap pending: joining starts from an empty interval, which
has none. -/
theorem reversed_hull (s : IntervalSet) : s.hull.reversed = false :=
  reversed_foldl_join s.members rfl

/-- Where no byte swap is pending, the interval over a set ends in bounds of its members. -/
theorem endsIn_hull (hs : s.Valid) (hplain : ∀ x ∈ s.members, x.reversed = false) :
    EndsIn s.hull s.members :=
  endsIn_joinAll hs.width hs.uniform hplain

theorem valid_stored (hs : s.Valid) : s.stored.Valid := by
  refine valid_ofMembers hs.width ?_
  intro x hx
  obtain ⟨y, hy, rfl⟩ := List.mem_map.1 hx
  exact ⟨Interval.valid_stored (hs.member y hy).1, (hs.member y hy).2.2⟩

/-- What is made of all pairs of members. -/
theorem uniform_pairs {s t : IntervalSet} {total : Nat} {f : Interval → Interval → Interval}
    (hs : s.Valid) (ht : t.Valid)
    (hf : ∀ x y : Interval, x.Valid → y.Valid → x.bits = s.bits → y.bits = t.bits →
      (f x y).Valid ∧ (f x y).bits = total) :
    Uniform total (s.members.flatMap fun x => t.members.map fun y => f x y) := by
  intro z hz
  obtain ⟨x, hx, hz⟩ := List.mem_flatMap.1 hz
  obtain ⟨y, hy, rfl⟩ := List.mem_map.1 hz
  obtain ⟨hxvalid, hxbits⟩ := hs.uniform x hx
  obtain ⟨hyvalid, hybits⟩ := ht.uniform y hy
  exact hf x y hxvalid hyvalid hxbits hybits

/-- The common numbers of all pairs of members. -/
theorem uniform_meet_pairs {s t : IntervalSet} (hs : s.Valid) (ht : t.Valid)
    (hbits : s.bits = t.bits) :
    Uniform s.bits (s.members.flatMap fun x => t.members.map fun y => x.meet y) := by
  refine uniform_pairs hs ht fun x y hx hy hxbits hybits => ?_
  have hmeet := Interval.retains_meet hx hy (hxbits.trans (hbits.trans hybits.symm))
  exact ⟨hmeet.valid, hmeet.width.trans hxbits⟩

/-- A byte swap of a set is pending if it is for each of some members. -/
theorem isReversed_iff {s : IntervalSet} :
    s.isReversed = true ↔ s.members ≠ [] ∧ ∀ x ∈ s.members, x.reversed = true := by
  simp only [isReversed, Bool.and_eq_true, Bool.not_eq_true', List.isEmpty_eq_false_iff,
    List.all_eq_true]

end IntervalSet

end AbstractBits
