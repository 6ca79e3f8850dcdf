import AbstractBits.Expr.Concrete
import AbstractBits.Proofs.Interval.ExactImage
import AbstractBits.Proofs.Interval.Names
import AbstractBits.Proofs.Progression.Concatenation
/-!
# Intervals put end to end

Several intervals put one behind the other give the least interval over all numbers that are made of
a number of each, whichever of them are put together first. The parts can be cut out again: the high
part with its bounds, and either part as it was if the other one is a single number.

Results:
  * `joined_append` — parts may be put together in groups.
  * `least_joined` — the least interval over all numbers made of the parts.
  * `extract_parts` — two parts cut out again.
-/

namespace AbstractBits

namespace Interval

variable {x y z : Interval} {xs ys : List Interval} {p q : Progression} {m n v : Nat}

/-! ## Parts -/

/-- What can be a part: an interval that is not empty and has no byte swap pending. -/
structure IsPart (x : Interval) : Prop where
  plain : x.Plain x.bits
  nonempty : x.isEmpty = false

/-- The width of an interval and what is stored. -/
def part (x : Interval) : Nat × Progression := (x.bits, x.range.getD (.single 0))

theorem IsPart.range_eq (hx : x.IsPart) : x.range = some x.part.2 := by
  obtain ⟨p, hrange⟩ := exists_range_of_nonempty hx.nonempty
  rw [part, hrange, Option.getD_some]

theorem IsPart.fits (hx : x.IsPart) : x.part.2.Fits x.bits := hx.plain.fits hx.range_eq

theorem IsPart.denotes_iff (hx : x.IsPart) : x.Denotes v ↔ v ∈ x.part.2 :=
  hx.plain.denotes_iff hx.range_eq

theorem IsPart.unnamed_eq (hx : x.IsPart) : x.unnamed = ofRange x.bits (some x.part.2) :=
  hx.plain.unnamed_eq hx.range_eq

theorem normal_parts (hxs : ∀ x ∈ xs, x.IsPart) : ∀ r ∈ xs.map part, r.2.Normal := by
  intro r hr
  obtain ⟨x, hx, rfl⟩ := List.mem_map.1 hr
  exact (hxs x hx).fits.1

/-! ## Joined parts -/

theorem plain_of_unnamed (h : x.unnamed.Plain n) : x.Plain n :=
  ⟨⟨h.valid.width, h.valid.normal, h.valid.pending⟩, h.width, h.unreversed⟩

theorem IsPart.append_eq (hx : x.IsPart) (hy : y.IsPart) :
    x.append y = ofRange (x.bits + y.bits) (some (x.part.2.append y.bits y.part.2)) := by
  rw [append, cover_of_not_reversed hx.plain.unreversed, cover_of_not_reversed hy.plain.unreversed,
    hx.range_eq, hy.range_eq]
  rfl

/-- The width of several intervals put end to end. -/
def totalBits (xs : List Interval) : Nat := xs.foldr (fun x total => x.bits + total) 0

theorem totalBits_append (xs ys : List Interval) :
    totalBits (xs ++ ys) = totalBits xs + totalBits ys := by
  induction xs with
  | nil => exact (Nat.zero_add _).symm
  | cons x xs ih => exact (congrArg (x.bits + ·) ih).trans (Nat.add_assoc _ _ _).symm

theorem totalBits_map_part (xs : List Interval) :
    Progression.totalBits (xs.map part) = totalBits xs := by
  rw [Progression.totalBits, List.foldr_map]
  rfl

theorem totalBits_pos (hxs : ∀ x ∈ xs, x.IsPart) (hne : xs ≠ []) : 1 ≤ totalBits xs := by
  obtain ⟨x, rest, rfl⟩ := List.exists_cons_of_ne_nil hne
  exact Nat.le_add_right_of_le (hxs x List.mem_cons_self).plain.valid.width.1

/-- Several intervals put end to end, the first one in front. -/
def joined (xs : List Interval) : Interval :=
  ofRange (totalBits xs) (some (Progression.appendAll (xs.map part)))

theorem joined_singleton (hx : x.IsPart) : joined [x] = x.unnamed := by
  rw [hx.unnamed_eq]
  exact congrArg (fun p => ofRange x.bits (some p)) (Progression.zero_append hx.fits.1)

/-- Parts may be put together in groups. -/
theorem joined_append (hxs : ∀ x ∈ xs, x.IsPart) (hys : ∀ y ∈ ys, y.IsPart) :
    (joined xs).append (joined ys) = joined (xs ++ ys) := by
  have hparts := Progression.appendAll_append (normal_parts hxs) (normal_parts hys)
  rw [totalBits_map_part, ← List.map_append] at hparts
  rw [joined, joined, joined, hparts, totalBits_append]
  rfl

theorem joined_pair (hx : x.IsPart) (hy : y.IsPart) : joined [x, y] = x.append y := by
  have hsplit := joined_append (List.forall_mem_singleton.2 hx) (List.forall_mem_singleton.2 hy)
  rw [joined_singleton hx, joined_singleton hy, append_unnamed] at hsplit
  exact hsplit.symm

theorem plain_joined (hxs : ∀ x ∈ xs, x.IsPart) (width : ValidWidth (totalBits xs)) :
    (joined xs).Plain (totalBits xs) := by
  have hzero : (Progression.single 0).upper < twoPow 0 := Nat.one_pos
  have hparts : ∀ r ∈ xs.map part, r.2.Normal ∧ r.2.upper < twoPow r.1 := by
    intro r hr
    obtain ⟨x, hx, rfl⟩ := List.mem_map.1 hr
    have hfits := (hxs x hx).fits
    exact ⟨hfits.1, hfits.lt_twoPow (hxs x hx).plain.valid.width hfits.1.upper_mem⟩
  have hupper := Progression.upper_foldl_lt (Progression.normal_single 0) hzero hparts
  rw [Nat.zero_add, totalBits_map_part] at hupper
  exact plain_ofRange width ⟨Progression.normal_appendAll (normal_parts hxs),
    (le_allOnes_iff width).2 hupper⟩

/-! ## The least interval -/

/-- The numbers made of a number of each of several intervals. -/
def Concatenates (xs : List Interval) (w : Nat) : Prop :=
  ∃ numbers : List (Nat × Nat),
    List.Forall₂ (fun x number => number.1 = x.bits ∧ x.Denotes number.2) xs numbers ∧
      Concrete.joinParts numbers = w

/-- An interval over a family of numbers that is included in every other one of its width without a
pending byte swap. -/
structure LeastOf (F : Nat → Prop) (z : Interval) : Prop where
  covers : ∀ v, F v → z.Denotes v
  least : ∀ t : Interval, t.Plain z.bits → (∀ v, F v → t.Denotes v) → z ⊆ t

theorem chosen_iff {numbers : List (Nat × Nat)} (hxs : ∀ x ∈ xs, x.IsPart) :
    Progression.Chosen (xs.map part) numbers ↔
      List.Forall₂ (fun x number => number.1 = x.bits ∧ x.Denotes number.2) xs numbers := by
  rw [Progression.Chosen, List.forall₂_map_left_iff]
  induction xs generalizing numbers with
  | nil => simp only [List.forall₂_nil_left_iff]
  | cons x xs ih =>
    obtain ⟨hx, hrest⟩ := List.forall_mem_cons.1 hxs
    simp only [List.forall₂_cons_left_iff, ih hrest, hx.denotes_iff]
    rfl

theorem hull_joined (hxs : ∀ x ∈ xs, x.IsPart) :
    Progression.Hull (Concatenates xs) (Progression.appendAll (xs.map part)) := by
  refine (Progression.hull_appendAll (normal_parts hxs)).congr fun w => ?_
  exact exists_congr fun numbers => and_congr_left fun _ => chosen_iff hxs

/-- Parts put end to end are the least interval over the numbers made of them. -/
theorem least_joined (hxs : ∀ x ∈ xs, x.IsPart) : LeastOf (Concatenates xs) (joined xs) where
  covers := fun w hw => denotes_ofRange_some.2 ((hull_joined hxs).covers w hw)
  least := by
    intro t ht hcovers
    obtain ⟨r, hrange, -⟩ := (denotes_iff_mem ht.unreversed).1 (hcovers _ (hull_joined hxs).lower)
    refine (subset_iff_of_ranges rfl ht.unreversed rfl hrange).2
      ((hull_joined hxs).subset fun v hv => ?_)
    exact (ht.denotes_iff hrange).1 (hcovers v hv)

/-! ## Parts cut out again -/

/-- Two parts cut out again: the high part keeps its bounds and is as it was in front of a single
number, and the low part is as it was behind one and is covered in any case. -/
structure CutOut (x y high low : Interval) : Prop where
  lower : high.lower = x.lower
  upper : high.upper = x.upper
  high_of_single : y.isSingle = true → high.unnamed = x.unnamed
  low_of_single : x.isSingle = true → low.unnamed = y.unnamed
  covers : y ⊆ low

theorem extract_parts (hx : x.IsPart) (hy : y.IsPart) (width : ValidWidth (x.bits + y.bits)) :
    ∃ h l, (x.append y).extract (x.bits + y.bits - 1) y.bits = .ok h ∧
      (x.append y).extract (y.bits - 1) 0 = .ok l ∧ CutOut x y h l := by
  have hxwidth := hx.plain.valid.width
  have hywidth := hy.plain.valid.width
  have hplain : (x.append y).Plain (x.bits + y.bits) :=
    ⟨valid_append hx.plain.valid hy.plain.valid width, rfl, rfl⟩
  have hrange : (x.append y).range = some (x.part.2.append y.bits y.part.2) := by
    rw [hx.append_eq hy]
    rfl
  obtain ⟨hxlower, hxupper, -, hxsingle⟩ := ends_of_range hx.range_eq
  obtain ⟨-, -, -, hysingle⟩ := ends_of_range hy.range_eq
  refine ⟨_, _, hplain.extract_high hrange hxwidth.1,
    hplain.extract_low hrange hywidth.1 (Nat.le_add_left _ _), ?_⟩
  constructor
  case lower =>
    exact (Progression.lower_field_append_high hxwidth hywidth hx.fits hy.fits).trans hxlower.symm
  case upper =>
    exact (Progression.upper_field_append_high hxwidth hywidth hx.fits hy.fits).trans hxupper.symm
  case high_of_single =>
    intro hsingle
    rw [hysingle] at hsingle
    rw [Progression.field_append_high_of_single hxwidth hywidth hx.fits hy.fits hsingle,
      hx.unnamed_eq]
    rfl
  case low_of_single =>
    intro hsingle
    rw [hxsingle] at hsingle
    rw [Progression.field_append_low_of_single hywidth hx.fits.1 hy.fits hsingle, hy.unnamed_eq]
    rfl
  case covers =>
    intro v hv
    rw [hy.denotes_iff] at hv
    refine denotes_ofRange_some.2 ?_
    cases hsingle : x.part.2.isSingle with
    | true => rwa [Progression.field_append_low_of_single hywidth hx.fits.1 hy.fits hsingle]
    | false =>
      rw [Progression.field_append_low_of_several hywidth hx.fits.1 hy.fits hsingle]
      exact hy.fits.subset_whole v hv

end Interval

end AbstractBits
