import Mathlib.Data.Finset.Card
import AbstractBits.Proofs.Construction
import AbstractBits.Proofs.Interval.Several
import AbstractBits.Proofs.IntervalSet.Canonical
/-!
# Different members of sets

The order of members tells any two different ones apart, so a set keeps each of its members once.
Whether a union has room for the members of both operands therefore depends on how many different
ones there are, and a set that is one number has just that number for a member.

Results:
  * `card_arrange` — how many members are kept.
  * `Valid.isSingle_iff` — a set is known to be one number exactly when it stands for one.
  * `exists_union` — a union keeps the members of both operands, or joins them all.
  * `built_sets_keep_different_members` — what holds of every set that can be built.
-/

namespace AbstractBits

namespace IntervalSet

open AbstractBits.Interval (Before)

variable {bits : Nat} {members : List Interval} {x y : Interval} {s t u : IntervalSet} {v : Nat}

/-! ## Different members -/

/-- How many different intervals there are; names make no difference. -/
def countDifferent (members : List Interval) : Nat := (members.map (·.unnamed)).toFinset.card

/-- A set keeps each of the intervals that are not empty once. -/
theorem card_arrange (h : Uniform bits members) (hsome : ∀ x ∈ members, x.isEmpty = false) :
    (arrange members).length = countDifferent members := by
  have hnodup := nodup_map_unnamed (arranged_arrange h).sorted
  have hsame :
      ((arrange members).map (·.unnamed)).toFinset = (members.map (·.unnamed)).toFinset := by
    ext z
    simp only [List.mem_toFinset, List.mem_map]
    constructor
    · rintro ⟨x, hx, rfl⟩
      exact ⟨x, mem_of_mem_arrange hx, rfl⟩
    · rintro ⟨x, hx, rfl⟩
      exact exists_unnamed_arrange h hx (hsome x hx)
  rw [countDifferent, ← hsame, List.toFinset_card_of_nodup hnodup, List.length_map]

/-! ## Sets that are one number -/

theorem denotes_of_members_eq (h : s.members = [x]) : s.Denotes v ↔ x.Denotes v := by
  simp [Denotes, h]

/-- The members of a set that stands for one number are all that number. -/
theorem Valid.member_of_unique (hs : s.Valid) (hunique : ∀ w, s.Denotes w → w = v)
    (hx : x ∈ s.members) : x.isSingle = true ∧ x.unnamed = .ofRange s.bits (some (.single v)) := by
  obtain ⟨hvalid, hsome, hbits⟩ := hs.member x hx
  obtain ⟨w, hw⟩ := hvalid.exists_denotes.2 hsome
  obtain rfl := hunique w ⟨x, hx, hw⟩
  have hsingle := hvalid.isSingle_iff.2 ⟨w, hw, fun u hu => hunique u ⟨x, hx, hu⟩⟩
  exact ⟨hsingle, hbits ▸ hvalid.unnamed_eq_constant hsingle hw⟩

/-- A set is known to be one number exactly when it stands for one. Two members would be different,
and the same number. -/
theorem Valid.isSingle_iff (hs : s.Valid) : s.isSingle = true ↔ ∃! v, s.Denotes v := by
  constructor
  · intro hsingle
    unfold isSingle at hsingle
    split at hsingle
    · rename_i x hmembers
      have hx : x ∈ s.members := hmembers ▸ List.mem_singleton.2 rfl
      simpa only [denotes_of_members_eq hmembers] using (hs.member x hx).1.isSingle_iff.1 hsingle
    · cases hsingle
  · rintro ⟨v, ⟨x, hx, -⟩, hunique⟩
    have hsole (y : Interval) (hy : y ∈ s.members) := hs.member_of_unique hunique hy
    have hsorted := hs.sorted
    unfold isSingle
    split
    · rename_i y hmembers
      exact (hsole y (hmembers ▸ List.mem_singleton.2 rfl)).1
    · rename_i hnot
      match hmembers : s.members with
      | [] => rw [hmembers] at hx; cases hx
      | [y] => exact absurd hmembers (hnot y)
      | y :: z :: rest =>
        rw [hmembers] at hsorted
        have hbefore : Before y z := (List.pairwise_cons.1 hsorted).1 z List.mem_cons_self
        have hy := (hsole y (hmembers ▸ List.mem_cons_self)).2
        have hz := (hsole z (hmembers ▸ List.mem_cons_of_mem _ List.mem_cons_self)).2
        exact absurd (hy.trans hz.symm) (unnamed_ne_of_before hbefore)

/-! ## Unions -/

theorem denotes_append_members :
    (∃ x ∈ s.members ++ t.members, x.Denotes v) ↔ s.Denotes v ∨ t.Denotes v := by
  simp only [Denotes, List.mem_append, or_and_right, exists_or]

/-- Where there is room for the different members of both sets, a union stands for exactly their
numbers, and elsewhere it is one interval over them. -/
theorem exists_union (hs : s.Valid) (ht : t.Valid) (hbits : t.bits = s.bits) :
    ∃ u, s.union t = .ok u ∧
      (countDifferent (s.members ++ t.members) ≤ capacity → ∀ v, u.Denotes v ↔
        s.Denotes v ∨ t.Denotes v) ∧
      (capacity < countDifferent (s.members ++ t.members) →
        ∃ x, u.members = [x] ∧ ∀ v, s.Denotes v ∨ t.Denotes v → x.Denotes v) := by
  have huniform : Uniform s.bits (s.members ++ t.members) :=
    uniform_append hs.uniform (hbits ▸ ht.uniform)
  have hcard :
      (arrange (s.members ++ t.members)).length = countDifferent (s.members ++ t.members) := by
    refine card_arrange huniform fun x hx => ?_
    rcases List.mem_append.1 hx with hx | hx
    · exact (hs.member x hx).2.1
    · exact (ht.member x hx).2.1
  refine ⟨_, requireSameWidth_eq_ok.2 ⟨hbits.symm, rfl⟩, ?_, ?_⟩
  · intro hroom v
    rw [← denotes_append_members, ← denotes_arrange huniform]
    simp only [ofMembers, hcard, if_pos hroom, Denotes]
  · intro hfull
    simp only [ofMembers, hcard, if_neg (Nat.not_le.2 hfull)]
    refine ⟨_, rfl, fun v hv => ?_⟩
    exact denotes_joinAll hs.width (arranged_arrange huniform).uniform
      ((denotes_arrange huniform).2 (denotes_append_members.2 hv))

/-- What holds of every set that can be built: there are at most 16 members, none of them empty and
each of the width of the set, in strictly increasing order and so pairwise different. The set is
known to be one number exactly when it stands for one. A union with another set of its width stands
for exactly the numbers of both if there are at most 16 different members, and is one interval over
all of them if there are more. -/
theorem built_sets_keep_different_members (s : IntervalSet) (hs : Built (.set s)) :
    s.members.length ≤ 16 ∧
      (∀ x ∈ s.members, x.isEmpty = false ∧ x.bits = s.bits) ∧
      s.members.Pairwise Before ∧
      s.members.Pairwise (fun x y => x.unnamed ≠ y.unnamed) ∧
      (s.isSingle = true ↔ ∃! v, s.Denotes v) ∧
      ∀ t, Built (.set t) → t.bits = s.bits →
        ∃ u, s.union t = .ok u ∧
          (countDifferent (s.members ++ t.members) ≤ 16 → ∀ v, u.Denotes v ↔
            s.Denotes v ∨ t.Denotes v) ∧
          (16 < countDifferent (s.members ++ t.members) →
            ∃ x, u.members = [x] ∧ ∀ v, s.Denotes v ∨ t.Denotes v → x.Denotes v) := by
  have hvalid : s.Valid := hs.valid
  refine ⟨hvalid.count, fun x hx => (hvalid.member x hx).2, hvalid.sorted,
    hvalid.sorted.imp unnamed_ne_of_before, hvalid.isSingle_iff, ?_⟩
  intro t ht hbits
  exact exists_union hvalid ht.valid hbits

/-- Two members have room in a set. -/
theorem union_of_two_points :
    ∃ u, (ofInterval (.constant 8 5)).union (ofInterval (.constant 8 9)) = .ok u ∧
      ∀ v, u.Denotes v ↔ v = 5 ∨ v = 9 := by
  have hpoint (n : Nat) : Built (.set (.ofInterval (.constant 8 n))) :=
    .setOfInterval (.point (requireWidth_eq_ok.2 ⟨by decide, rfl⟩))
  obtain ⟨-, -, -, -, -, hunion⟩ := built_sets_keep_different_members _ (hpoint 5)
  obtain ⟨u, hu, hexact, -⟩ := hunion _ (hpoint 9) rfl
  refine ⟨u, hu, fun v => ?_⟩
  rw [hexact (by decide) v, denotes_ofInterval, denotes_ofInterval, Interval.denotes_constant,
    Interval.denotes_constant]
  rfl

end IntervalSet

end AbstractBits
