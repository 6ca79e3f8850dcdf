import AbstractBits.Proofs.AbstractValue.Involution
import AbstractBits.Proofs.IntervalSet.SwappedUnion
/-!
# Uniting values under a byte swap

Byte-swapping the union of what is stored is uniting the values only where the byte swap goes
through the union. Values of one shape with one kind of pending byte swap are united alike, but a
value set over plain numbers, a value without a byte swap beside one with it, and sets without room
for the members of both are not.

Results:
  * `Aligned.RestoresUnion` — where the byte swap goes through the union.
  * `byteSwapped_union_iff` — when the byte-swapped union of what is stored is the union, for all
    shapes.
-/

namespace AbstractBits

namespace IntervalSet

variable {x : Interval}

theorem isReversed_ofInterval (hx : x.Valid) : (ofInterval x).isReversed = x.reversed := by
  cases hsome : x.isEmpty with
  | true =>
    rw [hx.reversed_of_isEmpty hsome]
    simp [ofInterval, ofMembers, arrange, isReversed, hsome]
  | false => simp [ofInterval, ofMembers, arrange, insertMember, capacity, isReversed, hsome]

/-- Taking a pending byte swap off an interval takes it off the set of it. -/
theorem unreversed_ofInterval (hx : x.Valid) :
    (ofInterval x).unreversed = ofInterval x.unreversed := by
  unfold unreversed Interval.unreversed
  rw [isReversed_ofInterval hx]
  split
  · rename_i hrev
    have hmembers : (ofInterval x).members = [x] := by
      simp [ofInterval, ofMembers, arrange, insertMember, capacity,
        (hx.several_of_reversed hrev).isEmpty]
    rw [stored, hmembers, bits_ofInterval]
    rfl
  · rfl

end IntervalSet

/-! ## Value sets -/

namespace ValueSet

variable {v w z : ValueSet}

theorem reversed_of_union (h : v.union w = .ok z) : z.reversed = (v.reversed && w.reversed) := by
  obtain ⟨-, rfl⟩ := requireSameWidth_eq_ok.1 h
  rfl

/-- Two pending byte swaps are put on the union of what is stored. -/
theorem swapped_union_of_reversed {m : ValueSet} (hbyte : v.bits ≠ 8) (hv : v.reversed = true)
    (hw : w.reversed = true) (hz : v.union w = .ok z) (hm : v.stored.union w.stored = .ok m) :
    m.byteSwapped = z := by
  obtain ⟨-, rfl⟩ := requireSameWidth_eq_ok.1 hz
  obtain ⟨-, rfl⟩ := requireSameWidth_eq_ok.1 hm
  simp only [stored, byteSwapped, cover, if_neg hbyte, hv, hw, Bool.and_self, Bool.false_eq_true,
    if_false, Bool.not_false, if_true]

end ValueSet

/-! ## All shapes -/

namespace AbstractValue

variable {a b c m : AbstractValue}

/-- Whether byte-swapping the union of what is stored restores the union. Two intervals must both
have a byte swap pending, or none; so must two value sets. Two sets need room for the members of
both, and each of them must have a byte swap pending or be left as it is by one. -/
def Aligned.RestoresUnion : Aligned → Prop
  | intervals x y => x.reversed = y.reversed
  | sets s t =>
    IntervalSet.countDifferent (s.members ++ t.members) ≤ IntervalSet.capacity ∧
      (s.isReversed = true ∨ s.SelfSwapped) ∧ (t.isReversed = true ∨ t.SelfSwapped)
  | valueSets v w => v.reversed = true ∧ w.reversed = true

theorem unreversed_interval (x : Interval) : (interval x).unreversed = interval x.unreversed :=
  (apply_ite interval _ _ _).symm

theorem unreversed_set (s : IntervalSet) : (set s).unreversed = set s.unreversed :=
  (apply_ite set _ _ _).symm

theorem unreversed_valueSet (v : ValueSet) : (valueSet v).unreversed = valueSet v.stored := by
  cases hrev : v.reversed with
  | true => exact if_pos hrev
  | false =>
    have hstored : v.stored = v := by
      rw [ValueSet.stored, ← hrev]
    rw [hstored]
    exact if_neg (Bool.eq_false_iff.1 hrev)

/-- No byte swap of a value set is pending on what is stored. -/
theorem reversed_toValueSet_unreversed (a : AbstractValue) :
    a.unreversed.toValueSet.reversed = false := by
  cases a with
  | interval x =>
    rw [unreversed_interval]
    rfl
  | set s =>
    rw [unreversed_set]
    rfl
  | valueSet v =>
    rw [unreversed_valueSet]
    rfl

theorem toValueSet_unreversed (h : a.toValueSet.reversed = true) :
    a.unreversed.toValueSet = a.toValueSet.stored := by
  cases a with
  | interval x => cases h
  | set s => cases h
  | valueSet v =>
    rw [unreversed_valueSet]
    rfl

theorem shape_unreversed (a : AbstractValue) : a.unreversed.shape = a.shape := by
  unfold unreversed
  split
  · cases a <;> rfl
  · rfl

/-- Beside a value set every value is brought to its shape. -/
theorem align_valueSets (h : a.shape = .valueSet ∨ b.shape = .valueSet) :
    align a b = .valueSets a.toValueSet b.toValueSet := by
  cases a with
  | valueSet v => cases b <;> rfl
  | interval x | set s =>
    cases b with
    | valueSet w => rfl
    | interval y | set t => rcases h with h | h <;> cases h

theorem byteSwapped_union_intervals {x y : Interval} (hx : x.Valid) (hy : y.Valid)
    (hany : x.reversed = true ∨ y.reversed = true) (hc : (Aligned.intervals x y).union = .ok c)
    (hm : (Aligned.intervals x.unreversed y.unreversed).union = .ok m) :
    m.byteSwapped.unnamed = c.unnamed ↔ (Aligned.intervals x y).RestoresUnion := by
  obtain ⟨hbits, rfl⟩ := requireSameWidth_map_eq_ok.1 hc
  obtain ⟨-, rfl⟩ := requireSameWidth_map_eq_ok.1 hm
  show interval _ = interval _ ↔ _
  rw [interval.injEq]
  exact Interval.byteSwapped_join_iff hx hy hbits hany

theorem byteSwapped_union_sets {s t : IntervalSet} (hs : s.Valid) (ht : t.Valid)
    (hany : s.isReversed = true ∨ t.isReversed = true) (hbyte : s.bits % 8 = 0 ∧ s.bits ≠ 8)
    (hc : (Aligned.sets s t).union = .ok c)
    (hm : (Aligned.sets s.unreversed t.unreversed).union = .ok m) :
    m.byteSwapped.unnamed = c.unnamed ↔ (Aligned.sets s t).RestoresUnion := by
  obtain ⟨hbits, rfl⟩ := requireSameWidth_map_eq_ok.1 hc
  obtain ⟨-, rfl⟩ := requireSameWidth_map_eq_ok.1 hm
  rw [IntervalSet.bits_unreversed]
  show set _ = set _ ↔ _
  rw [set.injEq]
  exact IntervalSet.byteSwapped_union_iff hs ht hbits hbyte hany

theorem byteSwapped_union_valueSets (ha : a.Valid) (hbyte : a.bits ≠ 8)
    (hc : (Aligned.valueSets a.toValueSet b.toValueSet).union = .ok c)
    (hm : (Aligned.valueSets a.unreversed.toValueSet b.unreversed.toValueSet).union = .ok m) :
    m.byteSwapped.unnamed = c.unnamed ↔
    (Aligned.valueSets a.toValueSet b.toValueSet).RestoresUnion := by
  obtain ⟨z, hz, rfl⟩ := map_eq_ok.1 hc
  obtain ⟨w, hw, rfl⟩ := map_eq_ok.1 hm
  have hzrev := ValueSet.reversed_of_union hz
  have hwrev : w.reversed = false := by
    rw [ValueSet.reversed_of_union hw, reversed_toValueSet_unreversed]
    rfl
  constructor
  · intro h
    have hpending : w.byteSwapped.reversed = true := by
      have hwidth : w.bits ≠ 8 := by
        obtain ⟨-, rfl⟩ := requireSameWidth_eq_ok.1 hw
        show a.unreversed.toValueSet.bits ≠ 8
        have hlifted : a.unreversed.toValueSet.bits = a.unreversed.bits :=
          (lifted_toValueSet (valid_unreversed ha)).width
        rwa [hlifted, bits_unreversed]
      rw [ValueSet.byteSwapped, if_neg hwidth, hwrev]
      rfl
    have hflags : w.byteSwapped.reversed = z.reversed :=
      (congrArg ValueSet.reversed (valueSet.inj h) :
        w.byteSwapped.unnamed.reversed = z.unnamed.reversed)
    rw [hflags, hzrev] at hpending
    exact Bool.and_eq_true_iff.1 hpending
  · rintro ⟨harev, hbrev⟩
    rw [toValueSet_unreversed harev, toValueSet_unreversed hbrev] at hw
    have hlifted : a.toValueSet.bits = a.bits := (lifted_toValueSet ha).width
    show valueSet w.byteSwapped.unnamed = valueSet z.unnamed
    rw [ValueSet.swapped_union_of_reversed (hlifted ▸ hbyte) harev hbrev hz hw]

/-- Two values of which at least one has a byte swap pending: when the byte-swapped union of what is
stored is their union. -/
theorem byteSwapped_union_iff (ha : a.Valid) (hb : b.Valid) (hbits : a.bits = b.bits)
    (hany : a.isReversed = true ∨ b.isReversed = true) (hc : a.union b = .ok c)
    (hm : a.unreversed.union b.unreversed = .ok m) :
    m.byteSwapped.unnamed = c.unnamed ↔ (align a b).RestoresUnion := by
  have hbyte : a.bits % 8 = 0 ∧ a.bits ≠ 8 := by
    rcases hany with hrev | hrev
    · exact several_bytes_of_isReversed ha hrev
    · exact hbits ▸ several_bytes_of_isReversed hb hrev
  by_cases hregions : a.shape = .valueSet ∨ b.shape = .valueSet
  · have hstored : a.unreversed.shape = .valueSet ∨ b.unreversed.shape = .valueSet := by
      rwa [shape_unreversed, shape_unreversed]
    rw [union, align_valueSets hregions] at hc
    rw [union, align_valueSets hstored] at hm
    rw [align_valueSets hregions]
    exact byteSwapped_union_valueSets ha hbyte.2 hc hm
  cases a with
  | interval x =>
    rw [unreversed_interval] at hm
    cases b with
    | interval y =>
      rw [unreversed_interval] at hm
      exact byteSwapped_union_intervals ha hb hany hc hm
    | set t =>
      rw [unreversed_set] at hm
      have hx : (IntervalSet.ofInterval x).Valid := IntervalSet.valid_ofInterval ha
      refine byteSwapped_union_sets hx hb ?_ ?_ hc ?_
      · rwa [IntervalSet.isReversed_ofInterval ha]
      · rwa [IntervalSet.bits_ofInterval]
      · rwa [IntervalSet.unreversed_ofInterval ha]
    | valueSet w => exact absurd (.inr rfl) hregions
  | set s =>
    rw [unreversed_set] at hm
    cases b with
    | interval y =>
      rw [unreversed_interval] at hm
      have hy : (IntervalSet.ofInterval y).Valid := IntervalSet.valid_ofInterval hb
      refine byteSwapped_union_sets ha hy ?_ hbyte hc ?_
      · rwa [IntervalSet.isReversed_ofInterval hb]
      · rwa [IntervalSet.unreversed_ofInterval hb]
    | set t =>
      rw [unreversed_set] at hm
      exact byteSwapped_union_sets ha hb hany hbyte hc hm
    | valueSet w => exact absurd (.inr rfl) hregions
  | valueSet v => exact absurd (.inl rfl) hregions

end AbstractValue

end AbstractBits
