import AbstractBits.Proofs.AbstractValue.Transfer
import AbstractBits.Proofs.IntervalSet.Names
import AbstractBits.Proofs.Interval.ExactImage
import AbstractBits.Proofs.Progression.Concatenation
/-!
# Bit operations made of each other

A shift to the right is the field of the bits above, with zeros in front, and zeros in front are a
concatenation with the number 0. The operations round in the same places, so that this holds of
descriptions and not of numbers only: of intervals, behind pending byte swaps too, and of sets,
member by member.

Results:
  * `Interval.extended_slice`, `Interval.zero_append` — both for intervals.
  * `IntervalSet.unnamed_extended_field`, `IntervalSet.zero_concat` — both for sets.
  * `AbstractValue.exists_extended_extract`, `AbstractValue.zeroExtend_eq_concat` — both for values
    without regions.
-/

namespace AbstractBits

variable {x : Interval} {s : IntervalSet} {a : AbstractValue} {k n total : Nat}

/-! ## Intervals -/

namespace Interval

theorem fieldOf_top {bits : Nat} (hn : n < bits) : FieldOf bits (bits - 1) n :=
  ⟨Nat.le_sub_one_of_lt hn, Nat.sub_one_lt_of_lt hn⟩

theorem width_top {bits : Nat} (hn : n < bits) : bits - 1 - n + 1 = bits - n := by omega

theorem zeroExtend_eq (extension : ExtensionOf x.bits total) :
    x.zeroExtend total = .ok (image total id x) :=
  if_pos extension

theorem constant_of_lt {bits : Nat} (width : ValidWidth bits) (hn : n < bits) :
    constant bits n = ofRange bits (some (.single n)) := by
  rw [constant, truncate_of_lt width (Nat.lt_trans hn Nat.lt_two_pow_self)]

/-- The field of the bits from a position on, with zeros in front, is what a shift by the position
leaves. -/
theorem extended_slice {bits : Nat} (hx : x.Valid) (hbits : x.bits = bits) (hn : n < bits) :
    image bits id (x.slice (bits - 1) n) = x.shiftRight (constant bits n) := by
  subst hbits
  rw [slice, width_top hn, constant_of_lt hx.width hn]
  refine congrArg (ofRange x.bits) ?_
  show Option.map id (x.cover.range.map (.field (x.bits - n) n)) =
    x.cover.range.bind fun p => some (p.shiftRight x.bits (.single n))
  rw [Option.map_id, id]
  refine (Option.map_congr fun p hp => ?_).trans Option.map_eq_bind
  exact Progression.field_to_top hx.width (fits_cover hx p hp) (Nat.le_of_lt hn)

/-- The number 0 in front puts zeros in front. -/
theorem zero_append (hx : x.Valid) (k : Nat) :
    (constant k 0).append x = image (k + x.bits) id x := by
  have hzero : truncate k 0 = 0 := Nat.zero_mod _
  rw [constant, hzero]
  refine congrArg (ofRange (k + x.bits)) ?_
  exact Option.map_congr fun p hp => Progression.zero_append (fits_cover hx p hp).1

theorem isEmpty_extended (hx : x.Valid) (total : Nat) : (image total id x).isEmpty = x.isEmpty := by
  rw [← isEmpty_cover hx]
  cases hrange : x.cover.range <;> simp [image, ofRange, isEmpty, hrange]

theorem valid_extended (hx : x.Valid) (extension : ExtensionOf x.bits total) :
    (image total id x).Valid ∧ (image total id x).bits = total := by
  have himages := images_of_zeroExtend hx (zeroExtend_eq extension)
  exact ⟨himages.valid, himages.width⟩

end Interval

/-! ## Sets -/

namespace IntervalSet

theorem zeroExtend_eq (hs : s.Valid) (extension : Interval.ExtensionOf s.bits total) :
    s.zeroExtend total = .ok (ofMembers total (s.members.map (Interval.image total id))) := by
  have hmembers :
      s.members.mapM (·.zeroExtend total) = .ok (s.members.map (Interval.image total id)) :=
    mapM_eq_map fun x hx => Interval.zeroExtend_eq ((hs.uniform x hx).2 ▸ extension)
  rw [zeroExtend, if_pos extension.1, mapMembers, hmembers]
  rfl

theorem uniform_slices {high low : Nat} (hs : s.Valid) (field : Interval.FieldOf s.bits high low) :
    Uniform (high - low + 1) (s.members.map (·.slice high low)) := by
  intro y hy
  obtain ⟨x, hx, rfl⟩ := List.mem_map.1 hy
  obtain ⟨hvalid, hbits⟩ := hs.uniform x hx
  rw [← hbits] at field
  have himages := Interval.images_slice hvalid field
  exact ⟨himages.valid, himages.width⟩

theorem uniform_extended {bits : Nat} {xs : List Interval} (hxs : Uniform bits xs)
    (extension : Interval.ExtensionOf bits total) :
    Uniform total (xs.map (Interval.image total id)) := by
  intro y hy
  obtain ⟨x, hx, rfl⟩ := List.mem_map.1 hy
  obtain ⟨hvalid, hbits⟩ := hxs x hx
  rw [← hbits] at extension
  exact Interval.valid_extended hvalid extension

/-- Arranging intervals first makes no difference to an extension of all of them. -/
theorem unnamed_extended_arrange {bits : Nat} {xs : List Interval} (hxs : Uniform bits xs)
    (extension : Interval.ExtensionOf bits total) :
    (ofMembers total ((arrange xs).map (Interval.image total id))).unnamed =
      (ofMembers total (xs.map (Interval.image total id))).unnamed := by
  have harranged := (arranged_arrange hxs).uniform
  have hempty {ys : List Interval} (hys : Uniform bits ys) (y : Interval) (hy : y ∈ ys) :
      (Interval.image total id y).isEmpty = y.isEmpty :=
    Interval.isEmpty_extended (hys y hy).1 total
  refine unnamed_ofMembers_congr (uniform_extended harranged extension)
    (uniform_extended hxs extension) ?_
  exact (sameMembers_arrange hxs).map (hempty harranged) (hempty hxs)
    (Interval.image_unnamed total id)

/-- The field of the bits from a position on, with zeros in front, is what a shift by the position
leaves. Members that are the same in the field count once, as they do after the shift. -/
theorem unnamed_extended_field (hs : s.Valid) (hn : n < s.bits) :
    ∃ e z, s.extract (s.bits - 1) n = .ok e ∧ e.bits = s.bits - n ∧ e.zeroExtend s.bits = .ok z ∧
      z.unnamed = (s.shiftRight (.constant s.bits n)).unnamed := by
  have field := Interval.fieldOf_top hn
  have hfields := uniform_slices hs field
  have hshifts : (s.members.map (·.slice (s.bits - 1) n)).map (Interval.image s.bits id) =
      s.members.map (·.shiftRight (.constant s.bits n)) := by
    rw [List.map_map]
    exact List.map_congr_left fun x hx =>
      Interval.extended_slice (hs.uniform x hx).1 (hs.uniform x hx).2 hn
  have hvalid := valid_ofMembers (Interval.validWidth_field hs.width field) hfields
  have hbits : (ofMembers _ (s.members.map (·.slice (s.bits - 1) n))).bits = s.bits - n :=
    (bits_ofMembers _ _).trans (Interval.width_top hn)
  have hle : s.bits - n ≤ s.bits := Nat.sub_le _ _
  refine ⟨_, _, if_pos field, hbits, zeroExtend_eq hvalid ⟨hs.width, hbits ▸ hle⟩, ?_⟩
  rw [hs.members_ofMembers_map,
    unnamed_extended_arrange hfields ⟨hs.width, Interval.width_top hn ▸ hle⟩, hshifts]
  rfl

/-- The number 0 in front puts zeros in front of every member. -/
theorem zero_concat (hs : s.Valid) (k : Nat) :
    (ofInterval (.constant k 0)).concat s =
      requireWidth (k + s.bits)
        (ofMembers (k + s.bits) (s.members.map (Interval.image (k + s.bits) id))) := by
  have hzero : (ofInterval (.constant k 0)).members = [.constant k 0] := rfl
  have hmembers : s.members.map (fun y => (Interval.constant k 0).append y) =
      s.members.map (Interval.image (k + s.bits) id) := by
    refine List.map_congr_left fun y hy => ?_
    obtain ⟨hvalid, hbits⟩ := hs.uniform y hy
    rw [Interval.zero_append hvalid, hbits]
  rw [concat, hzero, List.flatMap_singleton, hmembers]
  rfl

end IntervalSet

/-! ## Values without regions -/

namespace AbstractValue

/-- The field of the bits from a position on, with zeros in front, is what a shift by the position
leaves. -/
theorem exists_extended_extract (ha : a.Valid) (hshape : a.shape ≠ .valueSet) (hn : n < a.bits) :
    ∃ e z w, a.extract (a.bits - 1) n = .ok e ∧ e.bits = a.bits - n ∧ e.zeroExtend a.bits = .ok z ∧
      a.shiftRight (.interval (.constant a.bits n)) = .ok w ∧ z.unnamed = w.unnamed := by
  cases a with
  | interval x =>
    have field := Interval.fieldOf_top hn
    have hbits : (x.slice (x.bits - 1) n).bits = x.bits - n := Interval.width_top hn
    have extension : Interval.ExtensionOf (x.slice (x.bits - 1) n).bits x.bits :=
      ⟨Interval.Valid.width ha, hbits ▸ Nat.sub_le _ _⟩
    refine ⟨_, _, _, map_eq_ok.2 ⟨_, if_pos field, rfl⟩, hbits,
      map_eq_ok.2 ⟨_, Interval.zeroExtend_eq extension, rfl⟩, rfl, ?_⟩
    exact congrArg (fun y => (interval y).unnamed) (Interval.extended_slice ha rfl hn)
  | set s =>
    obtain ⟨e, z, he, hbits, hz, hsame⟩ := IntervalSet.unnamed_extended_field ha hn
    exact ⟨_, _, _, map_eq_ok.2 ⟨_, he, rfl⟩, hbits, map_eq_ok.2 ⟨_, hz, rfl⟩, rfl,
      congrArg set hsame⟩
  | valueSet v => exact absurd rfl hshape

theorem exists_zeroExtend_iff (ha : a.Valid) (hshape : a.shape ≠ .valueSet) (hle : a.bits ≤ total) :
    (∃ z, a.zeroExtend total = .ok z) ↔ ValidWidth total := by
  constructor
  · rintro ⟨z, hz⟩
    have himages := imagesOf_zeroExtend ha hz
    exact himages.width ▸ AbstractValue.width himages.valid
  · intro width
    cases a with
    | interval x => exact ⟨_, map_eq_ok.2 ⟨_, Interval.zeroExtend_eq ⟨width, hle⟩, rfl⟩⟩
    | set s => exact ⟨_, map_eq_ok.2 ⟨_, IntervalSet.zeroExtend_eq ha ⟨width, hle⟩, rfl⟩⟩
    | valueSet v => exact absurd rfl hshape

/-- Zeros in front are the number 0 in front, and both are refused for the same widths. -/
theorem zeroExtend_eq_concat (ha : a.Valid) (hshape : a.shape ≠ .valueSet) (k : Nat) :
    a.zeroExtend (k + a.bits) = (interval (.constant k 0)).concat a := by
  have hle : a.bits ≤ k + a.bits := Nat.le_add_left _ _
  cases a with
  | interval x =>
    show (x.zeroExtend (k + x.bits)).map interval = ((Interval.constant k 0).concat x).map interval
    refine congrArg (Except.map interval) ?_
    rw [Interval.concat, Interval.zero_append ha, requireWidth]
    split
    · rename_i width
      exact Interval.zeroExtend_eq ⟨width, hle⟩
    · rename_i hwidth
      exact if_neg fun extension => hwidth extension.1
  | set s =>
    show (s.zeroExtend (k + s.bits)).map set =
      ((IntervalSet.ofInterval (.constant k 0)).concat s).map set
    refine congrArg (Except.map set) ?_
    rw [IntervalSet.zero_concat ha, requireWidth]
    split
    · rename_i width
      exact IntervalSet.zeroExtend_eq ha ⟨width, hle⟩
    · rename_i hwidth
      exact if_neg hwidth
  | valueSet v => exact absurd rfl hshape

end AbstractValue

end AbstractBits
