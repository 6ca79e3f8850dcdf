import AbstractBits.Proofs.IntervalSet.Canonical
import AbstractBits.Proofs.AbstractValue.ByteOrder
/-!
# Byte swaps undo themselves

A value of whole bytes has a byte-swapped one in every shape. Where the byte swap is pending, that
is the value which is stored, and a second byte swap leads back to the value itself. A set is
arranged anew by every byte swap, but the members are the same after two of them, and so the set is.

Results:
  * `reverse_eq_ok` — the byte-swapped value.
  * `unnamed_byteSwapped_byteSwapped` — a second byte swap undoes the first.
  * `reverse_involutive` — what a reversed value stands for, and that its reversal is the value
    again.
-/

namespace AbstractBits

namespace ValueSet

/-- The value set after a byte swap. -/
def byteSwapped (v : ValueSet) : ValueSet :=
  if v.bits = 8 then v else { v with reversed := !v.reversed }

theorem reverse_eq_ok {v : ValueSet} (bytes : v.bits % 8 = 0) : v.reverse = .ok v.byteSwapped := by
  unfold reverse byteSwapped
  split
  · rfl
  · rw [if_neg (not_not_intro bytes)]

theorem bits_byteSwapped (v : ValueSet) : v.byteSwapped.bits = v.bits := by
  unfold byteSwapped
  split <;> rfl

/-- A second byte swap of a value set undoes the first. -/
theorem byteSwapped_byteSwapped (v : ValueSet) : v.byteSwapped.byteSwapped = v := by
  by_cases hbyte : v.bits = 8
  · simp only [byteSwapped, hbyte, if_true]
  · simp only [byteSwapped, hbyte, if_false, Bool.not_not]

theorem byteSwapped_unnamed (v : ValueSet) : v.unnamed.byteSwapped = v.byteSwapped.unnamed := by
  unfold byteSwapped
  rw [apply_ite unnamed]
  rfl

theorem unnamed_unnamed (v : ValueSet) : v.unnamed.unnamed = v.unnamed := by
  have hregions : (v.regions.map (·.unnamed)).map (·.unnamed) = v.regions.map (·.unnamed) := by
    refine RegionMap.ext_get? fun region => ?_
    simp only [RegionMap.get?_map, Option.map_map]
    rfl
  simp only [unnamed, hregions]

end ValueSet

namespace AbstractValue

variable {a b : AbstractValue} {place : Place}

/-- The value after a byte swap. -/
def byteSwapped : AbstractValue → AbstractValue
  | interval x => interval x.reverseOrWhole
  | set s => set s.byteSwapped
  | valueSet v => valueSet v.byteSwapped

theorem reverse_eq_ok (ha : a.Valid) (bytes : a.bits % 8 = 0) : a.reverse = .ok a.byteSwapped := by
  cases a with
  | interval x => exact map_eq_ok.2 ⟨_, Interval.reverse_eq_ok bytes, rfl⟩
  | set s => exact map_eq_ok.2 ⟨_, IntervalSet.reverse_eq_ok ha bytes, rfl⟩
  | valueSet v => exact map_eq_ok.2 ⟨_, ValueSet.reverse_eq_ok bytes, rfl⟩

theorem bits_byteSwapped (a : AbstractValue) : a.byteSwapped.bits = a.bits := by
  cases a with
  | interval x => exact Interval.bits_reverseOrWhole x
  | set s => exact s.bits_byteSwapped
  | valueSet v => exact v.bits_byteSwapped

theorem valid_byteSwapped (ha : a.Valid) (bytes : a.bits % 8 = 0) : a.byteSwapped.Valid :=
  (valid_reverse ha (reverse_eq_ok ha bytes)).1

/-- A second byte swap undoes the first, up to names. -/
theorem unnamed_byteSwapped_byteSwapped (ha : a.Valid) (bytes : a.bits % 8 = 0) :
    a.byteSwapped.byteSwapped.unnamed = a.unnamed := by
  cases a with
  | interval x =>
    show interval x.reverseOrWhole.reverseOrWhole.unnamed = interval x.unnamed
    rw [Interval.reverseOrWhole_reverseOrWhole ha bytes]
    rfl
  | set s => exact congrArg set (IntervalSet.unnamed_byteSwapped_byteSwapped ha bytes)
  | valueSet v =>
    show valueSet v.byteSwapped.byteSwapped.unnamed = valueSet v.unnamed
    rw [ValueSet.byteSwapped_byteSwapped]

/-- Names play no part in a byte swap. -/
theorem byteSwapped_unnamed (a : AbstractValue) :
    a.unnamed.byteSwapped.unnamed = a.byteSwapped.unnamed := by
  cases a with
  | interval x => rfl
  | set s =>
    show set s.unnamed.byteSwapped.unnamed = set s.byteSwapped.unnamed
    rw [IntervalSet.byteSwapped_unnamed]
  | valueSet v =>
    show valueSet v.unnamed.byteSwapped.unnamed = valueSet v.byteSwapped.unnamed
    rw [ValueSet.byteSwapped_unnamed, ValueSet.unnamed_unnamed]

/-- Values that are the same up to names are so after a byte swap. -/
theorem unnamed_byteSwapped_congr (h : a.unnamed = b.unnamed) :
    a.byteSwapped.unnamed = b.byteSwapped.unnamed := by
  rw [← byteSwapped_unnamed, h, byteSwapped_unnamed]

/-! ## Reversal, twice -/

/-- A value of whole bytes can be reversed and then stands for exactly the byte-swapped places, in
the same regions. The reversal of that is the value again. -/
theorem reverse_involutive (ha : a.Valid) (bytes : a.bits % 8 = 0) :
    ∃ r, a.reverse = .ok r ∧
      (∀ place, r.Denotes place ↔ ∃ q, a.Denotes q ∧ place = q.swapped a.bits) ∧
      ∃ back, r.reverse = .ok back ∧ back.unnamed = a.unnamed := by
  have hr := reverse_eq_ok ha bytes
  have hvalid := valid_byteSwapped ha bytes
  refine ⟨a.byteSwapped, hr, fun place => denotes_reverse ha hr, a.byteSwapped.byteSwapped, ?_, ?_⟩
  · exact reverse_eq_ok hvalid (a.bits_byteSwapped ▸ bytes)
  · exact unnamed_byteSwapped_byteSwapped ha bytes

/-- Two numbers with a pending byte swap beside a single number, whose bytes are exchanged at once:
the order of the members changes, and changes back. -/
theorem reverse_set_twice :
    let s := IntervalSet.ofMembers 16 [.constant 16 772, ⟨16, some ⟨256, 512, 256⟩, true, none⟩]
    ∃ r, (set s).reverse = .ok r ∧ r.Denotes (.number 1027) ∧ r.Denotes (.number 256) ∧
      ∃ back, r.reverse = .ok back ∧ back.unnamed = (set s).unnamed := by
  intro s
  have huniform : IntervalSet.Uniform 16
      [.constant 16 772, ⟨16, some ⟨256, 512, 256⟩, true, none⟩] := by
    refine IntervalSet.uniform_cons (Interval.valid_constant (by decide) 772) rfl ?_
    refine IntervalSet.uniform_cons ?_ rfl (IntervalSet.uniform_nil 16)
    exact Interval.valid_pending (by decide) ⟨by decide, by decide⟩ (by decide)
      (by decide) (by decide)
  have hvalid : (set s).Valid := IntervalSet.valid_ofMembers (by decide) huniform
  obtain ⟨r, hr, hdenotes, hback⟩ := reverse_involutive hvalid (by decide)
  refine ⟨r, hr, (hdenotes _).2 ⟨.number 772, ⟨rfl, ?_⟩, by decide⟩,
    (hdenotes _).2 ⟨.number 1, ⟨rfl, ?_⟩, by decide⟩, hback⟩
  · exact IntervalSet.denotes_ofMembers (by decide) huniform
      ⟨_, List.mem_cons_self, Interval.denotes_constant.2 (by decide)⟩
  · exact IntervalSet.denotes_ofMembers (by decide) huniform
      ⟨_, List.mem_cons_of_mem _ List.mem_cons_self, _, rfl, 256, by decide, by decide⟩

end AbstractValue

end AbstractBits
