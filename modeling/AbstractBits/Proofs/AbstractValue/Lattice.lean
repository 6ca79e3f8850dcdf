import AbstractBits.AbstractValue.Operations
import AbstractBits.Proofs.IntervalSet.Members
import AbstractBits.Proofs.ValueSet.Lattice
/-!
# Lattice operations in every pair of shapes

Bringing two values to one shape gives up no place, and in one shape each lattice operation keeps
what it has to keep, whichever pending byte swaps its operands have. The places are those of the
value sets, so that a number is the same as its place in the global region throughout.

Results:
  * `lifted_align` — the aligned operands stand for all places of the operands.
  * `combines_of_acts` — an operation that keeps what it has to keep in each shape keeps it of all
    values.
  * `combines_union`, `combines_intersection`, `combines_widen` — operands of one width have a
    combination, which keeps their places.
  * `lattice_operations_sound` — the three operations succeed for operands of one width only, and
    keep the places of both operands or their common places.
-/

namespace AbstractBits

namespace AbstractValue

variable {a b c : AbstractValue} {k : Kept}

/-! ## Alignment -/

/-- A valid value of the same width that stands for at least as much. -/
structure Lifted (a b : AbstractValue) : Prop where
  valid : b.Valid
  width : b.bits = a.bits
  denotes : ∀ place, a.Denotes place → b.Denotes place

theorem lifted_refl (ha : a.Valid) : Lifted a a := ⟨ha, rfl, fun _ h => h⟩

theorem lifted_ofInterval {x : Interval} (hx : x.Valid) :
    Lifted (interval x) (set (.ofInterval x)) :=
  ⟨IntervalSet.valid_ofInterval hx, IntervalSet.bits_ofInterval x,
    fun place h => (denotes_lift_set x place).2 h⟩

theorem lifted_hull {s : IntervalSet} (hs : s.Valid) : Lifted (set s) (interval s.hull) :=
  ⟨IntervalSet.valid_hull hs, IntervalSet.bits_hull hs,
    fun _ h => ⟨h.1, IntervalSet.denotes_hull hs h.2⟩⟩

theorem lifted_toValueSet (ha : a.Valid) : Lifted a (valueSet a.toValueSet) := by
  cases a with
  | interval x =>
    exact ⟨ValueSet.valid_ofInterval ha, rfl, fun place h => (denotes_lift_valueSet x place).2 h⟩
  | set s =>
    obtain ⟨hvalid, hwidth, hdenotes⟩ := lifted_hull ha
    exact ⟨ValueSet.valid_ofInterval hvalid, hwidth,
      fun place h => (denotes_lift_valueSet s.hull place).2 (hdenotes place h)⟩
  | valueSet v => exact lifted_refl ha

namespace Aligned

/-- The first one of two values of one shape. -/
def left : Aligned → AbstractValue
  | intervals x _ => interval x
  | sets s _ => set s
  | valueSets v _ => valueSet v

/-- The second one of two values of one shape. -/
def right : Aligned → AbstractValue
  | intervals _ y => interval y
  | sets _ t => set t
  | valueSets _ w => valueSet w

end Aligned

/-- The aligned operands stand for all places of the operands. -/
theorem lifted_align (ha : a.Valid) (hb : b.Valid) :
    Lifted a (align a b).left ∧ Lifted b (align a b).right := by
  cases a with
  | interval x =>
    cases b with
    | interval y => exact ⟨lifted_refl ha, lifted_refl hb⟩
    | set t => exact ⟨lifted_ofInterval ha, lifted_refl hb⟩
    | valueSet w => exact ⟨lifted_toValueSet ha, lifted_toValueSet hb⟩
  | set s =>
    cases b with
    | interval y => exact ⟨lifted_refl ha, lifted_ofInterval hb⟩
    | set t => exact ⟨lifted_refl ha, lifted_refl hb⟩
    | valueSet w => exact ⟨lifted_toValueSet ha, lifted_toValueSet hb⟩
  | valueSet v => exact ⟨lifted_toValueSet ha, lifted_toValueSet hb⟩

/-! ## What a combination keeps -/

/-- A valid value of the width of the first of two operands, for what is kept of both. -/
structure Retains (k : Kept) (a b c : AbstractValue) : Prop where
  valid : c.Valid
  width : c.bits = a.bits
  denotes : ∀ place, k.Holds (a.Denotes place) (b.Denotes place) → c.Denotes place

theorem Retains.of_lifted {a' b' : AbstractValue} (h : Retains k a' b' c) (ha : Lifted a a')
    (hb : Lifted b b') : Retains k a b c :=
  ⟨h.valid, h.width.trans ha.width,
    fun place hv => h.denotes place (hv.imp (ha.denotes place) (hb.denotes place))⟩

/-- What is kept of two plain values is a number. -/
theorem holds_region {p q r : Prop} (h : k.Holds (r ∧ p) (r ∧ q)) : r ∧ k.Holds p q :=
  ⟨h.or.elim And.left And.left, h.imp And.right And.right⟩

theorem retains_interval {x y z : Interval} (h : Interval.Retains k x y z) :
    Retains k (interval x) (interval y) (interval z) :=
  ⟨h.valid, h.width, fun _ hv => (holds_region hv).imp id (h.denotes _)⟩

theorem retains_sets {s t u : IntervalSet} (valid : u.Valid) (width : u.bits = s.bits)
    (h : ∀ v, k.Holds (s.Denotes v) (t.Denotes v) → u.Denotes v) :
    Retains k (set s) (set t) (set u) :=
  ⟨valid, width, fun _ hv => (holds_region hv).imp id (h _)⟩

theorem retains_valueSet {v w z : ValueSet} (h : ValueSet.Retains k v w z) :
    Retains k (valueSet v) (valueSet w) (valueSet z) :=
  ⟨h.valid, h.width, h.denotes⟩

/-! ## Sets -/

theorem retains_set_union {s t : IntervalSet} (hs : s.Valid) (ht : t.Valid)
    (hbits : s.bits = t.bits) :
    Retains .either (set s) (set t) (set (.ofMembers s.bits (s.members ++ t.members))) := by
  have hmembers := IntervalSet.uniform_append hs.uniform (hbits ▸ ht.uniform)
  refine retains_sets (IntervalSet.valid_ofMembers hs.width hmembers)
    (IntervalSet.bits_ofMembers _ _) fun v hv => ?_
  refine IntervalSet.denotes_ofMembers hs.width hmembers ?_
  rcases hv with ⟨x, hx, hxv⟩ | ⟨x, hx, hxv⟩
  · exact ⟨x, List.mem_append_left _ hx, hxv⟩
  · exact ⟨x, List.mem_append_right _ hx, hxv⟩

theorem retains_set_intersection {s t : IntervalSet} (hs : s.Valid) (ht : t.Valid)
    (hbits : s.bits = t.bits) :
    Retains .common (set s) (set t)
      (set (.ofMembers s.bits (s.members.flatMap fun x => t.members.map fun y => x.meet y))) := by
  have hmembers := IntervalSet.uniform_meet_pairs hs ht hbits
  refine retains_sets (IntervalSet.valid_ofMembers hs.width hmembers)
    (IntervalSet.bits_ofMembers _ _) fun v hv => ?_
  obtain ⟨⟨x, hx, hxv⟩, y, hy, hyv⟩ := hv
  obtain ⟨hxvalid, hxbits⟩ := hs.uniform x hx
  obtain ⟨hyvalid, hybits⟩ := ht.uniform y hy
  have hmeet := Interval.retains_meet hxvalid hyvalid (hxbits.trans (hbits.trans hybits.symm))
  refine IntervalSet.denotes_ofMembers hs.width hmembers ⟨x.meet y, ?_, hmeet.denotes v ⟨hxv, hyv⟩⟩
  exact List.mem_flatMap.2 ⟨x, hx, List.mem_map_of_mem hy⟩

/-- The interval that a set is widened to. -/
theorem retains_set_widen {s t : IntervalSet} (hs : s.Valid) (ht : t.Valid)
    (hbits : s.bits = t.bits) :
    Retains .either (set s) (set t) (interval (s.hull.stretch t.hull)) := by
  have hover := lifted_hull hs
  have hover' := lifted_hull ht
  have hstretch := Interval.retains_stretch hover.valid hover'.valid
    (hover.width.trans (hbits.trans hover'.width.symm))
  exact (retains_interval hstretch).of_lifted hover hover'

/-! ## All shapes -/

/-- An operation on two abstract values that succeeds for valid ones of one width only, with a
result that keeps what `k` says. -/
structure Combines (k : Kept)
    (op : AbstractValue → AbstractValue → Except OperationError AbstractValue) : Prop where
  succeeds : ∀ a b : AbstractValue, a.Valid → b.Valid → a.bits = b.bits →
    ∃ c, op a b = .ok c ∧ Retains k a b c
  width : ∀ a b c : AbstractValue, a.Valid → b.Valid → op a b = .ok c → a.bits = b.bits

/-- An operation on two values of one shape that does the same. -/
structure Aligned.Combines (k : Kept) (op : Aligned → Except OperationError AbstractValue) :
    Prop where
  succeeds : ∀ p : Aligned, p.left.Valid → p.right.Valid → p.left.bits = p.right.bits →
    ∃ c, op p = .ok c ∧ Retains k p.left p.right c
  width : ∀ (p : Aligned) (c : AbstractValue), op p = .ok c → p.left.bits = p.right.bits

theorem combines_of_aligned {op : Aligned → Except OperationError AbstractValue}
    (h : Aligned.Combines k op) : Combines k fun a b => op (align a b) where
  succeeds := by
    intro a b ha hb hbits
    obtain ⟨hleft, hright⟩ := lifted_align ha hb
    obtain ⟨c, hc, hretains⟩ := h.succeeds (align a b) hleft.valid hright.valid
      (hleft.width.trans (hbits.trans hright.width.symm))
    exact ⟨c, hc, hretains.of_lifted hleft hright⟩
  width := by
    intro a b c ha hb hc
    obtain ⟨hleft, hright⟩ := lifted_align ha hb
    exact hleft.width.symm.trans ((h.width (align a b) c hc).trans hright.width)

theorem map_requireSameWidth {α β : Type} {left right : Nat} (hbits : left = right) (result : α)
    (f : α → β) : (requireSameWidth left right result).map f = .ok (f result) :=
  requireSameWidth_map_eq_ok.2 ⟨hbits, rfl⟩

/-- How an operation acts on each shape: on intervals by `f`, on sets by `g`, with a result in some
`shape`, and on the regions of value sets by `h`. -/
structure Aligned.Acts {S : Type} (op : Aligned → Except OperationError AbstractValue)
    (f : Interval → Interval → Interval) (shape : S → AbstractValue)
    (g : IntervalSet → IntervalSet → S) (h : RegionMap → RegionMap → RegionMap) : Prop where
  intervals : ∀ x y, op (.intervals x y) = (requireSameWidth x.bits y.bits (f x y)).map interval
  sets : ∀ s t, op (.sets s t) = (requireSameWidth s.bits t.bits (g s t)).map shape
  valueSets : ∀ v w, op (.valueSets v w) = (ValueSet.combine h v w).map valueSet

theorem acts_union : Aligned.Acts Aligned.union Interval.join set
    (fun s t => .ofMembers s.bits (s.members ++ t.members)) (.unionWith .join) :=
  ⟨fun _ _ => rfl, fun _ _ => rfl, fun _ _ => rfl⟩

theorem acts_intersection : Aligned.Acts Aligned.intersection Interval.meet set
    (fun s t => .ofMembers s.bits (s.members.flatMap fun x => t.members.map fun y => x.meet y))
    (.interWith .meet) :=
  ⟨fun _ _ => rfl, fun _ _ => rfl, fun _ _ => rfl⟩

/-- Sets are widened as the intervals over them. -/
theorem acts_widen : Aligned.Acts Aligned.widen Interval.stretch interval
    (fun s t => s.hull.stretch t.hull) (.unionWith .stretch) :=
  ⟨fun _ _ => rfl, fun _ _ => rfl, fun _ _ => rfl⟩

/-- An operation that keeps what it has to keep in each shape keeps it of all values. -/
theorem combines_of_acts {S : Type} {op : Aligned → Except OperationError AbstractValue}
    {f : Interval → Interval → Interval} {shape : S → AbstractValue}
    {g : IntervalSet → IntervalSet → S} {h : RegionMap → RegionMap → RegionMap}
    (acts : Aligned.Acts op f shape g h)
    (hf : ∀ x y : Interval, x.Valid → y.Valid → x.bits = y.bits → Interval.Retains k x y (f x y))
    (hg : ∀ s t : IntervalSet, s.Valid → t.Valid → s.bits = t.bits →
      Retains k (set s) (set t) (shape (g s t)))
    (hh : ∀ v w : ValueSet, v.Valid → w.Valid → v.bits = w.bits →
      ∃ z, ValueSet.combine h v w = .ok z ∧ ValueSet.Retains k v w z) :
    Combines k fun a b => op (align a b) := by
  refine combines_of_aligned ⟨fun p hleft hright hsame => ?_, fun p c hc => ?_⟩
  · cases p with
    | intervals x y =>
      exact ⟨_, (acts.intervals x y).trans (map_requireSameWidth hsame _ _),
        retains_interval (hf x y hleft hright hsame)⟩
    | sets s t =>
      exact ⟨_, (acts.sets s t).trans (map_requireSameWidth hsame _ _), hg s t hleft hright hsame⟩
    | valueSets v w =>
      obtain ⟨z, hz, hretains⟩ := hh v w hleft hright hsame
      exact ⟨_, (acts.valueSets v w).trans (map_eq_ok.2 ⟨z, hz, rfl⟩), retains_valueSet hretains⟩
  · cases p with
    | intervals x y => exact (requireSameWidth_map_eq_ok.1 ((acts.intervals x y).symm.trans hc)).1
    | sets s t => exact (requireSameWidth_map_eq_ok.1 ((acts.sets s t).symm.trans hc)).1
    | valueSets v w => exact (requireSameWidth_map_eq_ok.1 ((acts.valueSets v w).symm.trans hc)).1

theorem combines_union : Combines .either union :=
  combines_of_acts acts_union (fun _ _ => Interval.retains_join) (fun _ _ => retains_set_union)
    fun _ _ => ValueSet.retains_union

theorem combines_intersection : Combines .common intersection :=
  combines_of_acts acts_intersection (fun _ _ => Interval.retains_meet)
    (fun _ _ => retains_set_intersection) fun _ _ => ValueSet.retains_intersection

theorem combines_widen : Combines .either widen :=
  combines_of_acts acts_widen (fun _ _ => Interval.retains_stretch) (fun _ _ => retains_set_widen)
    fun _ _ => ValueSet.retains_widen

section

variable {op : AbstractValue → AbstractValue → Except OperationError AbstractValue}

theorem Combines.exists_iff (h : Combines k op) (ha : a.Valid) (hb : b.Valid) :
    (∃ c, op a b = .ok c) ↔ a.bits = b.bits := by
  constructor
  · rintro ⟨c, hc⟩
    exact h.width a b c ha hb hc
  · intro hbits
    obtain ⟨c, hc, -⟩ := h.succeeds a b ha hb hbits
    exact ⟨c, hc⟩

theorem Combines.retains (h : Combines k op) (ha : a.Valid) (hb : b.Valid) (hc : op a b = .ok c) :
    Retains k a b c := by
  obtain ⟨c', hc', hretains⟩ := h.succeeds a b ha hb (h.width a b c ha hb hc)
  rw [hc] at hc'
  cases hc'
  exact hretains

end

/-- The lattice operations succeed exactly for operands of one width. A union and a widening stand
for every place of either operand, and an intersection for every common place. -/
theorem lattice_operations_sound (ha : a.Valid) (hb : b.Valid) :
    ((∃ c, a.union b = .ok c) ↔ a.bits = b.bits) ∧
      ((∃ c, a.intersection b = .ok c) ↔ a.bits = b.bits) ∧
      ((∃ c, a.widen b = .ok c) ↔ a.bits = b.bits) ∧
      (∀ c, a.union b = .ok c → ∀ place, a.Denotes place ∨ b.Denotes place → c.Denotes place) ∧
      (∀ c, a.widen b = .ok c → ∀ place, a.Denotes place ∨ b.Denotes place → c.Denotes place) ∧
      ∀ c, a.intersection b = .ok c → ∀ place, a.Denotes place ∧ b.Denotes place →
        c.Denotes place := by
  refine ⟨combines_union.exists_iff ha hb, combines_intersection.exists_iff ha hb,
    combines_widen.exists_iff ha hb, fun c hc => ?_, fun c hc => ?_, fun c hc => ?_⟩
  · exact (combines_union.retains ha hb hc).denotes
  · exact (combines_widen.retains ha hb hc).denotes
  · exact (combines_intersection.retains ha hb hc).denotes

/-- The byte-swapped images of 256 and 512, united with one offset into a stack. -/
theorem swapped_union_offset_sound :
    ∃ c, (interval ⟨16, some ⟨256, 512, 256⟩, true, none⟩).union
        (valueSet ⟨16, RegionMap.empty.insert "stack" (.constant 16 8), false⟩) = .ok c ∧
      c.Denotes (.number 1) ∧ c.Denotes ⟨"stack", 8⟩ := by
  have hswapped : (interval ⟨16, some ⟨256, 512, 256⟩, true, none⟩).Valid :=
    Interval.valid_pending (by decide) ⟨by decide, by decide⟩ (by decide) (by decide) (by decide)
  have hoffset : (valueSet ⟨16, RegionMap.empty.insert "stack" (.constant 16 8), false⟩).Valid :=
    ValueSet.valid_of_uniform (by decide)
      (RegionMap.uniform_insert (RegionMap.uniform_empty 16)
        (Interval.valid_constant (by decide) 8) rfl)
  obtain ⟨hunion, -, -, hsound, -⟩ := lattice_operations_sound hswapped hoffset
  obtain ⟨c, hc⟩ := hunion.2 rfl
  refine ⟨c, hc, hsound c hc _ (.inl ⟨rfl, _, rfl, 256, by decide, by decide⟩),
    hsound c hc _ (.inr ?_)⟩
  exact (ValueSet.denotes_of_not_reversed rfl).2
    (RegionMap.denotes_insert_self (Interval.denotes_constant.2 rfl))

end AbstractValue

end AbstractBits
