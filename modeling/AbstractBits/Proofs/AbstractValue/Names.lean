import AbstractBits.Proofs.AbstractValue.Involution
import AbstractBits.Proofs.IntervalSet.Names
import AbstractBits.Proofs.ValueSet.Names
/-!
# Names in abstract values

Values that are the same but for names bring the same lifted pairs together, whichever of their
shapes the pairs come in, and each shape passes on what it passes on without a look at names. So
results are the same but for names, errors included. Where offsets or members are not kept as they
are, results are the very same, and so are the answers to questions.

Results:
  * `eq_of_unnamed`, `eq_of_unnamed_pair` — from one value without names to two that are the same
    but for names.
  * `align_unnamed`, `hull?_unnamed` — lifting and the interval over a value are indifferent to
    names.
  * `union_unnamed`, `intersection_unnamed`, `widen_unnamed`, `reverse_unnamed` — the same result up
    to names.
  * `extract_unnamed`, `concat_unnamed`, `shiftRight_unnamed`, `compare_unnamed`, `meets_unnamed`
    and so on — the same result.
-/

namespace AbstractBits

namespace AbstractValue

section Congruence

variable {a b a' b' : AbstractValue} {α : Type}

/-- What reads no names is the same for values that are the same but for names. -/
theorem eq_of_unnamed {f : AbstractValue → α} (hf : ∀ a, f a.unnamed = f a)
    (h : a.unnamed = b.unnamed) : f a = f b :=
  calc f a = f a.unnamed := (hf a).symm
    _ = f b.unnamed := congrArg f h
    _ = f b := hf b

theorem eq_of_unnamed_pair {f : AbstractValue → AbstractValue → α}
    (hf : ∀ a b, f a.unnamed b.unnamed = f a b) (ha : a.unnamed = a'.unnamed)
    (hb : b.unnamed = b'.unnamed) : f a b = f a' b' :=
  calc f a b = f a.unnamed b.unnamed := (hf a b).symm
    _ = f a'.unnamed b'.unnamed := by rw [ha, hb]
    _ = f a' b' := hf a' b'

end Congruence

variable (a b : AbstractValue)

/-! ## What is stored -/

theorem unnamed_unnamed : a.unnamed.unnamed = a.unnamed := by
  cases a with
  | interval x => rfl
  | set s => exact congrArg set s.unnamed_unnamed
  | valueSet v => exact congrArg valueSet v.unnamed_unnamed

theorem bits_unnamed : a.unnamed.bits = a.bits := by
  cases a <;> rfl

theorem shape_unnamed : a.unnamed.shape = a.shape := by
  cases a <;> rfl

theorem isReversed_unnamed : a.unnamed.isReversed = a.isReversed := by
  cases a with
  | interval x => rfl
  | set s => exact s.isReversed_unnamed
  | valueSet v => rfl

theorem isSingle_unnamed : a.unnamed.isSingle = a.isSingle := by
  cases a with
  | interval x => rfl
  | set s => exact s.isSingle_unnamed
  | valueSet v => exact v.isSingle_unnamed

theorem unnamed_stored : a.unnamed.stored.unnamed = a.stored.unnamed := by
  cases a with
  | interval x => rfl
  | set s => exact congrArg (fun s => unnamed (set s)) s.stored_unnamed
  | valueSet v => exact congrArg valueSet v.stored.unnamed_unnamed

/-! ## Shapes -/

theorem toValueSet_unnamed : a.unnamed.toValueSet = a.toValueSet.unnamed := by
  cases a with
  | interval x => exact ValueSet.ofInterval_unnamed x
  | set s =>
    show ValueSet.ofInterval s.unnamed.hull = (ValueSet.ofInterval s.hull).unnamed
    rw [← ValueSet.ofInterval_unnamed, IntervalSet.hull_unnamed, IntervalSet.hull,
      IntervalSet.unnamed_joinAll]
  | valueSet v => rfl

/-- A pair of values of one shape without names. -/
def Aligned.unnamed : Aligned → Aligned
  | intervals x y => intervals x.unnamed y.unnamed
  | sets s t => sets s.unnamed t.unnamed
  | valueSets v w => valueSets v.unnamed w.unnamed

theorem align_unnamed : align a.unnamed b.unnamed = (align a b).unnamed := by
  have hpair : Aligned.valueSets a.unnamed.toValueSet b.unnamed.toValueSet =
      (Aligned.valueSets a.toValueSet b.toValueSet).unnamed := by
    rw [toValueSet_unnamed, toValueSet_unnamed]
    rfl
  cases a with
  | interval x =>
    cases b with
    | interval y => rfl
    | set t => exact congrArg (fun s => Aligned.sets s t.unnamed) (IntervalSet.ofInterval_unnamed x)
    | valueSet w => exact hpair
  | set s =>
    cases b with
    | interval y => exact congrArg (Aligned.sets s.unnamed) (IntervalSet.ofInterval_unnamed y)
    | set t => rfl
    | valueSet w => exact hpair
  | valueSet v => cases b <;> exact hpair

/-- The interval over a value keeps the name of an interval, and the names of offsets of a single
region. -/
theorem hull?_unnamed : a.unnamed.hull? = a.hull?.map (·.unnamed) := by
  cases a with
  | interval x => exact congrArg some x.cover_unnamed
  | set s =>
    show some s.unnamed.hull = some s.hull.unnamed
    rw [IntervalSet.hull_unnamed, IntervalSet.hull, IntervalSet.unnamed_joinAll]
  | valueSet v =>
    simp only [unnamed, hull?, ValueSet.cover_unnamed, ValueSet.onlyRegion?_unnamed]
    cases v.cover.onlyRegion? with
    | none => rfl
    | some e =>
      obtain ⟨region, offsets⟩ := e
      show (if region = numberRegion then some offsets.unnamed else none) =
        (if region = numberRegion then some offsets else none).map (·.unnamed)
      split <;> rfl

theorem map_hull?_unnamed : a.unnamed.hull?.map (·.unnamed) = a.hull?.map (·.unnamed) := by
  rw [hull?_unnamed, Option.map_map]
  rfl

/-! ## Lattice operations -/

theorem map_set_unnamed {e : Except OperationError IntervalSet} :
    ((e.map IntervalSet.unnamed).map set).map unnamed = (e.map set).map unnamed := by
  cases e with
  | error cause => rfl
  | ok s => exact congrArg Except.ok (unnamed_unnamed (set s))

theorem map_valueSet_unnamed {e : Except OperationError ValueSet} :
    ((e.map ValueSet.unnamed).map valueSet).map unnamed = (e.map valueSet).map unnamed := by
  cases e with
  | error cause => rfl
  | ok v => exact congrArg Except.ok (unnamed_unnamed (valueSet v))

/-- An operation that makes the same, up to names, of two values of each shape without their names
makes the same of all values. -/
theorem map_unnamed_of_shapes {op : Aligned → Except OperationError AbstractValue}
    (hintervals : ∀ x y, op (.intervals x.unnamed y.unnamed) = op (.intervals x y))
    (hsets : ∀ s t, (op (.sets s.unnamed t.unnamed)).map unnamed = (op (.sets s t)).map unnamed)
    (hvalueSets : ∀ v w, (op (.valueSets v.unnamed w.unnamed)).map unnamed =
      (op (.valueSets v w)).map unnamed) :
    (op (align a.unnamed b.unnamed)).map unnamed = (op (align a b)).map unnamed := by
  rw [align_unnamed]
  cases align a b with
  | intervals x y => exact congrArg (Except.map unnamed) (hintervals x y)
  | sets s t => exact hsets s t
  | valueSets v w => exact hvalueSets v w

theorem union_unnamed : (a.unnamed.union b.unnamed).map unnamed = (a.union b).map unnamed :=
  map_unnamed_of_shapes a b (fun x y => congrArg (Except.map interval) (x.union_unnamed y))
    (fun s t =>
      (congrArg (fun e => (e.map set).map unnamed) (s.union_unnamed t)).trans map_set_unnamed)
    fun v w => (congrArg (fun e => (e.map valueSet).map unnamed) (v.union_unnamed w)).trans
      map_valueSet_unnamed

theorem intersection_unnamed :
    (a.unnamed.intersection b.unnamed).map unnamed = (a.intersection b).map unnamed :=
  map_unnamed_of_shapes a b (fun x y => congrArg (Except.map interval) (x.intersection_unnamed y))
    (fun s t => congrArg (fun e => (e.map set).map unnamed) (s.intersection_unnamed t))
    fun v w => (congrArg (fun e => (e.map valueSet).map unnamed) (v.intersection_unnamed w)).trans
      map_valueSet_unnamed

theorem widen_unnamed : (a.unnamed.widen b.unnamed).map unnamed = (a.widen b).map unnamed :=
  map_unnamed_of_shapes a b (fun x y => congrArg (Except.map interval) (x.widen_unnamed y))
    (fun s t => congrArg (fun e => (e.map interval).map unnamed) (s.widen_unnamed t))
    fun v w => (congrArg (fun e => (e.map valueSet).map unnamed) (v.widen_unnamed w)).trans
      map_valueSet_unnamed

/-! ## Bit operations -/

theorem reverse_unnamed : (a.unnamed.reverse).map unnamed = a.reverse.map unnamed := by
  cases a with
  | interval x => rfl
  | set s =>
    rw [unnamed, reverse, IntervalSet.reverse_unnamed]
    rfl
  | valueSet v =>
    rw [unnamed, reverse, ValueSet.reverse_unnamed]
    exact map_valueSet_unnamed

theorem extract_unnamed (high low : Nat) : a.unnamed.extract high low = a.extract high low := by
  cases a with
  | interval x => exact congrArg (Except.map interval) (x.extract_unnamed high low)
  | set s => exact congrArg (Except.map set) (s.extract_unnamed high low)
  | valueSet v => exact congrArg (Except.map valueSet) (v.extract_unnamed high low)

theorem concat_unnamed : a.unnamed.concat b.unnamed = a.concat b := by
  rw [concat, align_unnamed, concat]
  cases align a b with
  | intervals x y => exact congrArg (Except.map interval) (x.concat_unnamed y)
  | sets s t => exact congrArg (Except.map set) (s.concat_unnamed t)
  | valueSets v w => rfl

theorem zeroExtend_unnamed (total : Nat) : a.unnamed.zeroExtend total = a.zeroExtend total := by
  cases a with
  | interval x => exact congrArg (Except.map interval) (x.zeroExtend_unnamed total)
  | set s => exact congrArg (Except.map set) (s.zeroExtend_unnamed total)
  | valueSet v => rfl

theorem signExtend_unnamed (total : Nat) : a.unnamed.signExtend total = a.signExtend total := by
  cases a with
  | interval x => exact congrArg (Except.map interval) (x.signExtend_unnamed total)
  | set s => exact congrArg (Except.map set) (s.signExtend_unnamed total)
  | valueSet v => rfl

theorem shiftRight_unnamed : a.unnamed.shiftRight b.unnamed = a.shiftRight b := by
  rw [shiftRight, hull?_unnamed, shape_unnamed, shiftRight]
  cases b.hull? with
  | none => rfl
  | some y =>
    cases a with
    | interval x => exact congrArg (fun z => Except.ok (interval z)) (x.shiftRight_unnamed y)
    | set s => exact congrArg (fun z => Except.ok (set z)) (s.shiftRight_unnamed y)
    | valueSet v => exact congrArg (fun z => Except.ok (valueSet z)) (v.shiftRight_unnamed y)

/-! ## Questions -/

/-- A question about the interval over a value does not depend on its name. -/
theorem elim_hull?_unnamed {f g : Interval → Verdict} (hfg : ∀ y, f y.unnamed = g y) :
    b.unnamed.hull?.elim .maybe f = b.hull?.elim .maybe g := by
  rw [hull?_unnamed]
  cases b.hull? with
  | none => rfl
  | some y => exact hfg y

theorem verdict_unnamed (c : Comparison) : a.unnamed.verdict c b.unnamed = a.verdict c b := by
  cases a with
  | interval x => exact elim_hull?_unnamed b fun y => x.verdict_unnamed c y
  | set s => exact elim_hull?_unnamed b fun y => s.verdict_unnamed c y
  | valueSet v =>
    have hnumbers : (valueSet v).unnamed.hull?.elim .maybe
          (fun x => b.unnamed.hull?.elim .maybe fun y => x.verdict c y) =
        (valueSet v).hull?.elim .maybe fun x => b.hull?.elim .maybe fun y => x.verdict c y :=
      elim_hull?_unnamed (valueSet v) fun x => elim_hull?_unnamed b fun y => x.verdict_unnamed c y
    cases b with
    | interval y => exact hnumbers
    | set t => exact hnumbers
    | valueSet w =>
      simp only [unnamed, verdict, ValueSet.cover_unnamed, ValueSet.onlyRegion?_unnamed]
      cases v.cover.onlyRegion? with
      | none => rfl
      | some e =>
        cases w.cover.onlyRegion? with
        | none => rfl
        | some e' => simp only [Option.map_some, Interval.verdict_unnamed]

theorem compare_unnamed (c : Comparison) : a.unnamed.compare c b.unnamed = a.compare c b := by
  rw [compare, verdict_unnamed, bits_unnamed, bits_unnamed, compare]

theorem meets_unnamed (y : Interval) : a.unnamed.meets y.unnamed = a.meets y := by
  cases a with
  | interval x =>
    rw [unnamed, meets, Interval.meet_unnamed]
    rfl
  | set s =>
    simp only [unnamed, meets, IntervalSet.unnamed, List.any_map, Function.comp_def,
      Interval.meet_unnamed]
    rfl
  | valueSet v =>
    simp only [unnamed, meets, ValueSet.meets_unnamed]
    rfl

end AbstractValue

end AbstractBits
