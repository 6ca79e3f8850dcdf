import AbstractBits.Proofs.IntervalSet.Transfer
/-!
# Widths that numbers can be extended to

An interval is extended to no less than its own width, whether it has members or not. A set leaves
it to its members to refuse a smaller width, so that the one without members is cut down to any.

Results:
  * `Extends` — an extension that has a result of every width from the own one up, and of no other.
  * `Interval.extends_zeroExtend`, `Interval.extends_signExtend` — the extensions of intervals.
  * `extends_members_iff` — extending every member is one unless there is none.
  * `extensions_never_narrow_iff` — for both shapes and both extensions.
-/

namespace AbstractBits

variable {bits total : Nat}

/-- The result of extending something of `bits` bits to `total` bits: it has that width if there are
no fewer bits than before and no more than there can be, and the width is refused otherwise. -/
structure Extends {α : Type} (width : α → Nat) (bits total : Nat)
    (result : Except OperationError α) : Prop where
  accepted : bits ≤ total → total ≤ maxBits → ∃ z, result = .ok z ∧ width z = total
  refused : ¬(bits ≤ total ∧ total ≤ maxBits) → result = .error (.badWidth total)

namespace Interval

variable {x : Interval}

theorem extensionOf_iff (width : ValidWidth bits) :
    ExtensionOf bits total ↔ bits ≤ total ∧ total ≤ maxBits := by
  constructor
  · rintro ⟨htotal, hle⟩
    exact ⟨hle, htotal.2⟩
  · rintro ⟨hle, hmax⟩
    exact ⟨⟨Nat.le_trans width.1 hle, hmax⟩, hle⟩

/-- What both extensions do after the check of the width. -/
theorem extends_image (width : ValidWidth x.bits) (f : Progression → Progression) :
    Extends Interval.bits x.bits total
      (if ExtensionOf x.bits total then .ok (image total f x) else .error (.badWidth total)) where
  accepted hle hmax := ⟨_, if_pos ((extensionOf_iff width).2 ⟨hle, hmax⟩), rfl⟩
  refused hnot := if_neg fun h => hnot ((extensionOf_iff width).1 h)

theorem extends_zeroExtend (hx : x.Valid) :
    Extends Interval.bits x.bits total (x.zeroExtend total) :=
  extends_image hx.width id

theorem extends_signExtend (hx : x.Valid) :
    Extends Interval.bits x.bits total (x.signExtend total) :=
  extends_image hx.width (.signExtend x.bits total)

end Interval

namespace IntervalSet

variable {s : IntervalSet} {f : Interval → Except OperationError Interval}

theorem mapMembers_of_isEmpty (hempty : s.isEmpty = true) :
    s.mapMembers total f = .ok ⟨total, []⟩ := by
  have hmembers : s.members = [] := by simpa [isEmpty] using hempty
  rw [mapMembers, hmembers]
  rfl

/-- Members that are extended make up a set of the width. -/
theorem mapMembers_of_accepted (hs : s.Valid)
    (hf : ∀ x : Interval, x.Valid → Extends Interval.bits x.bits total (f x)) (hle : s.bits ≤ total)
    (hmax : total ≤ maxBits) : ∃ u, s.mapMembers total f = .ok u ∧ u.bits = total := by
  have hmembers : ∀ x ∈ s.members, ∃ z, f x = .ok z := by
    intro x hx
    obtain ⟨hvalid, hbits⟩ := hs.uniform x hx
    obtain ⟨z, hz, -⟩ := (hf x hvalid).accepted (hbits ▸ hle) hmax
    exact ⟨z, hz⟩
  obtain ⟨zs, hzs⟩ := exists_mapM hmembers
  exact ⟨_, map_eq_ok.2 ⟨zs, hzs, rfl⟩, bits_ofMembers _ _⟩

/-- The first member refuses a width that is too small. -/
theorem mapMembers_of_narrow (hs : s.Valid)
    (hf : ∀ x : Interval, x.Valid → Extends Interval.bits x.bits total (f x))
    (hsome : s.isEmpty = false) (hnarrow : total < s.bits) :
    s.mapMembers total f = .error (.badWidth total) := by
  cases hmembers : s.members with
  | nil => simp [isEmpty, hmembers] at hsome
  | cons x xs =>
    obtain ⟨hvalid, hbits⟩ := hs.uniform x (hmembers ▸ List.mem_cons_self)
    have hnot : ¬(x.bits ≤ total ∧ total ≤ maxBits) := fun h => Nat.not_le.2 (hbits ▸ hnarrow) h.1
    rw [mapMembers, hmembers, List.mapM_cons, (hf x hvalid).refused hnot]
    rfl

/-- Extending every member, after a check of the width alone, is an extension of the set except for
the set without members and a smaller width. A width that is none is refused by the set itself, a
smaller one by its first member. -/
theorem extends_members_iff (hs : s.Valid)
    (hf : ∀ x : Interval, x.Valid → Extends Interval.bits x.bits total (f x)) :
    Extends IntervalSet.bits s.bits total
        (if ValidWidth total then s.mapMembers total f else .error (.badWidth total)) ↔
      ¬(s.isEmpty = true ∧ 1 ≤ total ∧ total < s.bits) := by
  have hpos := hs.width.1
  have hbound := hs.width.2
  constructor
  · rintro hextends ⟨hempty, htotal, hnarrow⟩
    have hrefused := hextends.refused fun h => Nat.not_le.2 hnarrow h.1
    rw [if_pos ⟨htotal, by omega⟩, mapMembers_of_isEmpty hempty] at hrefused
    cases hrefused
  · intro hnot
    refine ⟨fun hle hmax => ?accepted, fun hout => ?refused⟩
    case accepted =>
      rw [if_pos ⟨Nat.le_trans hpos hle, hmax⟩]
      exact mapMembers_of_accepted hs hf hle hmax
    case refused =>
      by_cases width : ValidWidth total
      · have hnarrow : total < s.bits := Nat.lt_of_not_le fun hle => hout ⟨hle, width.2⟩
        have hsome : s.isEmpty = false :=
          Bool.eq_false_iff.2 fun hempty => hnot ⟨hempty, width.1, hnarrow⟩
        rw [if_pos width, mapMembers_of_narrow hs hf hsome hnarrow]
      · exact if_neg width

/-- Intervals, with members and without, have both extensions to their own width and to every
greater one up to the greatest, and no other. So have sets, except that the set without members is
cut down to every smaller width by both. -/
theorem extensions_never_narrow_iff (total : Nat) :
    (∀ x : Interval, x.Valid →
      Extends Interval.bits x.bits total (x.zeroExtend total) ∧
        Extends Interval.bits x.bits total (x.signExtend total)) ∧
    ∀ s : IntervalSet, s.Valid →
      (Extends IntervalSet.bits s.bits total (s.zeroExtend total) ↔
        ¬(s.isEmpty = true ∧ 1 ≤ total ∧ total < s.bits)) ∧
      (Extends IntervalSet.bits s.bits total (s.signExtend total) ↔
        ¬(s.isEmpty = true ∧ 1 ≤ total ∧ total < s.bits)) ∧
      (s.isEmpty = true → ValidWidth total →
        s.zeroExtend total = .ok ⟨total, []⟩ ∧ s.signExtend total = .ok ⟨total, []⟩) := by
  refine ⟨fun x hx => ⟨Interval.extends_zeroExtend hx, Interval.extends_signExtend hx⟩, fun s hs =>
    ⟨?_, ?_, ?_⟩⟩
  · exact extends_members_iff hs fun x => Interval.extends_zeroExtend
  · exact extends_members_iff hs fun x => Interval.extends_signExtend
  · intro hempty width
    exact ⟨(if_pos width).trans (mapMembers_of_isEmpty hempty),
      (if_pos width).trans (mapMembers_of_isEmpty hempty)⟩

/-- An interval without members keeps its width, and so does a set with a member. -/
theorem extensions_to_smaller_width_refused :
    (Interval.empty 16).zeroExtend 8 = .error (.badWidth 8) ∧
      (ofInterval (.constant 16 5)).signExtend 8 = .error (.badWidth 8) := by
  obtain ⟨hintervals, hsets⟩ := extensions_never_narrow_iff 8
  have hempty : (Interval.empty 16).Valid := Interval.valid_empty (by decide)
  have hset : (ofInterval (.constant 16 5)).Valid :=
    valid_ofInterval (Interval.valid_constant (by decide) 5)
  refine ⟨(hintervals _ hempty).1.refused (by decide), ?_⟩
  exact ((hsets _ hset).2.1.2 (by decide)).refused (by decide)

/-- The set of no number of 16 bits is cut down to 8 bits. -/
theorem extension_narrows_empty_set :
    ¬∀ (s : IntervalSet) (total : Nat),
    s.Valid → Extends IntervalSet.bits s.bits total (s.zeroExtend total) ∧
      Extends IntervalSet.bits s.bits total (s.signExtend total) := by
  intro hall
  have hempty : (ofInterval (.empty 16)).Valid :=
    valid_ofInterval (Interval.valid_empty (by decide))
  have hrefused := (hall (ofInterval (.empty 16)) 8 hempty).1.refused (by decide)
  cases hrefused

end IntervalSet

end AbstractBits
