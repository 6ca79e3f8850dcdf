import AbstractBits.Proofs.Interval.Names
import AbstractBits.Proofs.IntervalSet.Canonical
/-!
# Names of members

The members of a set are put in order, told apart and joined by their bounds, strides and pending
byte swaps, which leaves their names where they are. What an operation makes of the members has no
names, so that the result is the same with and without the names of the operands. Only a union keeps
members as they are, with their names.

Results:
  * `arrange_map_unnamed`, `ofMembers_map_unnamed` — which members are kept does not depend on
    names.
  * `union_unnamed` — a union keeps the names of members and is otherwise the same without them.
  * `intersection_unnamed`, `extract_unnamed`, `reverse_unnamed` and so on — the other operations
    read no names.
-/

namespace AbstractBits

namespace IntervalSet

/-! ## Keeping members -/

theorem insertMember_map_unnamed (x : Interval) (ys : List Interval) :
    insertMember x.unnamed (ys.map (·.unnamed)) = (insertMember x ys).map (·.unnamed) := by
  induction ys with
  | nil => rfl
  | cons y ys ih =>
    rw [List.map_cons, insertMember, insertMember]
    simp only [before_unnamed, ih]
    split
    · rfl
    · split <;> rfl

theorem arrange_map_unnamed (xs : List Interval) :
    arrange (xs.map (·.unnamed)) = (arrange xs).map (·.unnamed) := by
  have hfold (zs kept : List Interval) :
      (zs.map (·.unnamed)).foldl (fun kept x => insertMember x kept) (kept.map (·.unnamed)) =
        (zs.foldl (fun kept x => insertMember x kept) kept).map (·.unnamed) := by
    induction zs generalizing kept with
    | nil => rfl
    | cons z zs ih =>
      rw [List.map_cons, List.foldl_cons, List.foldl_cons, insertMember_map_unnamed, ih]
  rw [arrange, List.filter_map]
  exact hfold (xs.filter fun x => !x.isEmpty) []

/-- The interval over some members has no name. -/
theorem unnamed_joinAll (bits : Nat) (xs : List Interval) :
    (joinAll bits xs).unnamed = joinAll bits xs := by
  have hfold (start : Interval) (hstart : start.unnamed = start) :
      (xs.foldl Interval.join start).unnamed = xs.foldl Interval.join start := by
    induction xs generalizing start with
    | nil => exact hstart
    | cons x xs ih => exact ih _ (Interval.unnamed_join start x)
  exact hfold (.empty bits) rfl

/-- Which members are kept does not depend on their names. -/
theorem ofMembers_map_unnamed (bits : Nat) (xs : List Interval) :
    ofMembers bits (xs.map (·.unnamed)) = (ofMembers bits xs).unnamed := by
  simp only [ofMembers, arrange_map_unnamed, List.length_map, joinAll_map_unnamed]
  split
  · rfl
  · rw [unnamed, List.map_singleton, unnamed_joinAll]

theorem ofInterval_unnamed (x : Interval) : ofInterval x.unnamed = (ofInterval x).unnamed :=
  ofMembers_map_unnamed x.bits [x]

variable (s t : IntervalSet)

theorem unnamed_unnamed : s.unnamed.unnamed = s.unnamed := by
  simp only [unnamed, List.map_map]
  rfl

/-! ## Lattice operations -/

theorem hull_unnamed : s.unnamed.hull = s.hull := joinAll_map_unnamed s.bits s.members

theorem union_unnamed : s.unnamed.union t.unnamed = (s.union t).map unnamed := by
  have hmembers :
      s.unnamed.members ++ t.unnamed.members = (s.members ++ t.members).map (·.unnamed) :=
    List.map_append.symm
  rw [union, hmembers, ofMembers_map_unnamed]
  exact (requireSameWidth_map unnamed s.bits t.bits _).symm

theorem intersection_unnamed : s.unnamed.intersection t.unnamed = s.intersection t := by
  simp only [intersection, unnamed, List.flatMap_map, List.map_map, Function.comp_def,
    Interval.meet_unnamed]

theorem widen_unnamed : s.unnamed.widen t.unnamed = s.widen t := by
  rw [widen, hull_unnamed, hull_unnamed]
  rfl

/-! ## Bit operations -/

theorem mapMembers_unnamed (bits : Nat) {f : Interval → Except OperationError Interval}
    (hf : ∀ x, f x.unnamed = f x) : s.unnamed.mapMembers bits f = s.mapMembers bits f := by
  simp only [mapMembers, unnamed, List.mapM_map, Function.comp_def, hf]

theorem extract_unnamed (high low : Nat) : s.unnamed.extract high low = s.extract high low := by
  simp only [extract, unnamed, List.map_map, Function.comp_def, Interval.slice_unnamed]

theorem concat_unnamed : s.unnamed.concat t.unnamed = s.concat t := by
  simp only [concat, unnamed, List.flatMap_map, List.map_map, Function.comp_def,
    Interval.append_unnamed]

theorem zeroExtend_unnamed (total : Nat) : s.unnamed.zeroExtend total = s.zeroExtend total := by
  rw [zeroExtend, mapMembers_unnamed s total (Interval.zeroExtend_unnamed total), zeroExtend]

theorem signExtend_unnamed (total : Nat) : s.unnamed.signExtend total = s.signExtend total := by
  rw [signExtend, mapMembers_unnamed s total (Interval.signExtend_unnamed total), signExtend]

theorem shiftRight_unnamed (y : Interval) : s.unnamed.shiftRight y.unnamed = s.shiftRight y := by
  simp only [shiftRight, unnamed, List.map_map, Function.comp_def, Interval.shiftRight_unnamed]

theorem reverse_unnamed : s.unnamed.reverse = s.reverse :=
  mapMembers_unnamed s s.bits Interval.reverse_unnamed

theorem stored_unnamed : s.unnamed.stored = s.stored := by
  simp only [stored, unnamed, List.map_map, Function.comp_def, Interval.stored_unnamed]

/-! ## Questions -/

theorem isReversed_unnamed : s.unnamed.isReversed = s.isReversed := by
  simp only [isReversed, unnamed, List.isEmpty_map, List.all_map, Function.comp_def,
    Interval.unnamed]

theorem isSingle_unnamed : s.unnamed.isSingle = s.isSingle := by
  obtain ⟨bits, members⟩ := s
  match members with
  | [] => rfl
  | [x] => rfl
  | x :: y :: xs => rfl

theorem sample_unnamed (n : Nat) : s.unnamed.sample n = s.sample n := by
  simp only [sample, unnamed, List.flatMap_map, Interval.sample_unnamed]

theorem verdict_unnamed (c : Comparison) (y : Interval) :
    s.unnamed.verdict c y.unnamed = s.verdict c y := by
  simp only [verdict, unnamed, List.map_map, Function.comp_def, Interval.verdict_unnamed]

end IntervalSet

end AbstractBits
