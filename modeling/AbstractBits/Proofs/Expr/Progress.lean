import AbstractBits.Proofs.Expr.Application
/-!
# Concrete results of operators that succeed

An operator that makes a value of its operands has a concrete result on whatever the operands stand
for. So no run of a tree is left out because the ordinary operator is undefined where the one on
descriptions succeeds.

Results:
  * `exists_step` — the concrete operator is defined on every choice of operands.
-/

namespace AbstractBits

namespace AbstractValue

variable {a b r : AbstractValue}

/-- A value in a shape without regions stands for plain numbers. -/
theorem region_of_shape {place : Place} (hshape : a.shape ≠ .valueSet) (h : a.Denotes place) :
    place.region = numberRegion := by
  cases a with
  | interval x => exact h.1
  | set s => exact h.1
  | valueSet v => exact absurd rfl hshape

theorem shape_of_concat (h : a.concat b = .ok r) : a.shape ≠ .valueSet ∧ b.shape ≠ .valueSet := by
  cases a <;> cases b <;> first | cases h | simp [shape]

theorem shape_of_signExtend {total : Nat} (h : a.signExtend total = .ok r) :
    a.shape ≠ .valueSet := by
  cases a <;> first | cases h | simp [shape]

theorem shape_of_zeroExtend {total : Nat} (h : a.zeroExtend total = .ok r) :
    a.shape ≠ .valueSet := by
  cases a <;> first | cases h | simp [shape]

theorem fieldOf_of_extract {high low : Nat} (h : a.extract high low = .ok r) :
    Interval.FieldOf a.bits high low := by
  cases a with
  | interval x =>
    obtain ⟨z, hz, -⟩ := map_eq_ok.1 h
    unfold Interval.extract at hz
    split at hz <;> first | assumption | cases hz
  | set s =>
    obtain ⟨u, hu, -⟩ := map_eq_ok.1 h
    unfold IntervalSet.extract at hu
    split at hu <;> first | assumption | cases hu
  | valueSet v =>
    obtain ⟨w, hw, -⟩ := map_eq_ok.1 h
    unfold ValueSet.extract at hw
    split at hw <;> first | assumption | cases hw

end AbstractValue

namespace Operator

variable {vs : List Value} {cs : List Concrete} {v : Value} {c : Concrete}

/-! ## Operands -/

/-- An operand whose places are in the global region is a plain number. -/
theorem exists_number {a : AbstractValue}
    (hregion : ∀ place, a.Denotes place → place.region = numberRegion)
    (h : (Value.abstract a).Denotes c) : ∃ n, c = .vector a.bits (.number n) := by
  obtain ⟨place, hplace, rfl⟩ := h
  exact ⟨place.offset, by rw [← Place.eq_number (hregion place hplace)]⟩

/-- An operand beside an abstract one has a place of the width of that one. -/
theorem exists_at {op : Operator} {b : AbstractValue} {bits : Nat}
    (h : v.toAbstractOf op bits = .ok b) (hbits : bits = b.bits) (hc : v.Denotes c) :
    ∃ place, Concrete.At bits c place := by
  cases v with
  | int i =>
    cases hc
    exact ⟨_, .literal i⟩
  | abstract a =>
    cases h
    obtain ⟨place, -, rfl⟩ := hc
    exact ⟨place, hbits ▸ .vector place⟩
  | float x => cases h
  | str s => cases h
  | bool x => cases h

theorem exists_amount {bits : Nat} {b : AbstractValue}
    (hregion : ∀ place, b.Denotes place → place.region = numberRegion)
    (h : shiftAmount bits v = .ok b) (hc : v.Denotes c) : ∃ n, Concrete.Amount c n := by
  cases v with
  | int i =>
    cases hc
    simp only [shiftAmount] at h
    split at h
    · cases h
    · rename_i hnonneg
      obtain ⟨n, rfl⟩ := Int.eq_ofNat_of_zero_le (Int.not_lt.1 hnonneg)
      exact ⟨n, .literal n⟩
  | abstract a =>
    cases h
    obtain ⟨n, rfl⟩ := exists_number hregion hc
    exact ⟨n, .vector _ n⟩
  | float x => cases h
  | str s => cases h
  | bool x => cases h

/-- Operands behind others are plain numbers. -/
theorem exists_parts {joined r : AbstractValue} (h : concatAll joined vs = .ok r)
    (hcs : DenotesAll vs cs) :
    ∃ parts : List (Nat × Nat), cs = parts.map fun part => .vector part.1 (.number part.2) := by
  induction hcs generalizing joined with
  | nil => exact ⟨[], rfl⟩
  | @cons u c us cs hc _ ih =>
    obtain ⟨b, hb, h⟩ := bind_eq_ok.1 h
    obtain ⟨next, hnext, htail⟩ := bind_eq_ok.1 h
    obtain ⟨parts, rfl⟩ := ih htail
    obtain ⟨-, hshape⟩ := AbstractValue.shape_of_concat (ofOperation_eq_ok.1 hnext)
    rw [Value.toAbstract_eq_ok.1 hb] at hc
    obtain ⟨n, rfl⟩ := exists_number (fun _ => AbstractValue.region_of_shape hshape) hc
    exact ⟨(b.bits, n) :: parts, rfl⟩

/-! ## Results of each operator -/

/-- Any two places can be compared. -/
theorem exists_step_of_at {cmp : Comparison} {x y : Concrete} {bits : Nat} {p q : Place}
    (hp : Concrete.At bits x p) (hq : Concrete.At bits y q) :
    ∃ c, Concrete.Step (.compare cmp) [x, y] c := by
  obtain ⟨region, m⟩ := p
  obtain ⟨other, n⟩ := q
  by_cases hregion : region = other
  · subst hregion
    exact ⟨_, .compare hp hq⟩
  · exact ⟨_, .compareApart true hp hq hregion⟩

theorem exists_step_compare {cmp : Comparison} (h : applyCompare cmp vs = .ok v)
    (hcs : DenotesAll vs cs) : ∃ c, Concrete.Step (.compare cmp) cs c := by
  obtain ⟨o, ho, h⟩ := bind_eq_ok.1 h
  obtain ⟨b, hb, h⟩ := bind_eq_ok.1 h
  obtain ⟨w, hw, -⟩ := map_eq_ok.1 h
  obtain ⟨hbits, -⟩ := requireSameWidth_eq_ok.1 (ofOperation_eq_ok.1 hw)
  rcases Value.bringFront_eq_ok ho with ⟨-, rfl⟩ | ⟨-, rfl⟩
  · obtain ⟨x, _, ⟨p, -, rfl⟩, htail, rfl⟩ := List.forall₂_cons_left_iff.1 hcs
    obtain ⟨y, _, hy, hrest, rfl⟩ := List.forall₂_cons_left_iff.1 htail
    cases hrest
    obtain ⟨q, hq⟩ := exists_at hb hbits hy
    exact exists_step_of_at (.vector p) hq
  · obtain ⟨x, _, hx, htail, rfl⟩ := List.forall₂_cons_left_iff.1 hcs
    obtain ⟨y, _, ⟨q, -, rfl⟩, hrest, rfl⟩ := List.forall₂_cons_left_iff.1 htail
    cases hrest
    obtain ⟨p, hp⟩ := exists_at hb hbits hx
    exact exists_step_of_at hp (.vector q)

theorem exists_step_ite (h : applyIte vs = .ok v) (hcs : DenotesAll vs cs) :
    ∃ c, Concrete.Step .ite cs c := by
  obtain ⟨x, yes, no, rfl, -⟩ := choice_of_ite h
  obtain ⟨_, _, ⟨b, -, rfl⟩, htail, rfl⟩ := List.forall₂_cons_left_iff.1 hcs
  obtain ⟨d, _, -, hrest, rfl⟩ := List.forall₂_cons_left_iff.1 htail
  obtain ⟨e, _, -, hend, rfl⟩ := List.forall₂_cons_left_iff.1 hrest
  cases hend
  exact ⟨_, .ite b d e⟩

theorem exists_step_shiftRight (hvs : ∀ v ∈ vs, v.Valid) (h : applyShiftRight vs = .ok v)
    (hcs : DenotesAll vs cs) : ∃ c, Concrete.Step .shiftRight cs c := by
  obtain ⟨a, amount, b, r, rfl, hb, hr, rfl⟩ := exists_of_shiftRight h
  obtain ⟨_, _, ⟨place, -, rfl⟩, htail, rfl⟩ := List.forall₂_cons_left_iff.1 hcs
  obtain ⟨d, _, hd, hrest, rfl⟩ := List.forall₂_cons_left_iff.1 htail
  cases hrest
  have hbvalid :=
    valid_shiftAmount (AbstractValue.width (hvs (.abstract a) (by simp))) (hvs amount (by simp)) hb
  unfold AbstractValue.shiftRight at hr
  split at hr
  · cases hr
  · rename_i y hy
    obtain ⟨-, -, hcovers⟩ := AbstractValue.covers_of_hull? hbvalid hy
    obtain ⟨n, hn⟩ := exists_amount (fun place hplace => (hcovers place hplace).1) hb hd
    exact ⟨_, .shiftRight a.bits place hn⟩

theorem exists_step_concat (h : applyConcat vs = .ok v) (hcs : DenotesAll vs cs) :
    ∃ c, Concrete.Step .concat cs c := by
  obtain ⟨a, rest, r, rfl, hr, rfl⟩ := exists_of_concat h
  obtain ⟨d, ds, hd, hds, rfl⟩ := List.forall₂_cons_left_iff.1 hcs
  cases rest with
  | nil =>
    cases hds
    obtain ⟨place, -, rfl⟩ := hd
    exact ⟨_, .concatSingle a.bits place⟩
  | cons u us =>
    obtain ⟨parts, rfl⟩ := exists_parts hr hds
    obtain ⟨b, -, hr⟩ := bind_eq_ok.1 hr
    obtain ⟨next, hnext, -⟩ := bind_eq_ok.1 hr
    obtain ⟨hshape, -⟩ := AbstractValue.shape_of_concat (ofOperation_eq_ok.1 hnext)
    obtain ⟨n, rfl⟩ := exists_number (fun _ => AbstractValue.region_of_shape hshape) hd
    exact ⟨_, .concat ((a.bits, n) :: parts)⟩

theorem exists_step_extract (h : applyExtract vs = .ok v) (hcs : DenotesAll vs cs) :
    ∃ c, Concrete.Step .extract cs c := by
  obtain ⟨high, low, a, r, rfl, hr, rfl⟩ := exists_of_extract h
  obtain ⟨_, _, rfl, htail, rfl⟩ := List.forall₂_cons_left_iff.1 hcs
  obtain ⟨_, _, rfl, hrest, rfl⟩ := List.forall₂_cons_left_iff.1 htail
  obtain ⟨_, _, ⟨place, -, rfl⟩, hend, rfl⟩ := List.forall₂_cons_left_iff.1 hrest
  cases hend
  exact ⟨_, .extract place (AbstractValue.fieldOf_of_extract hr)⟩

/-- The operands of an extension are a count of bits and a plain number. -/
theorem exists_operands_of_extension {op : Operator}
    {f : Nat → AbstractValue → Except OperationError AbstractValue}
    (hf : ∀ (total : Nat) (a r : AbstractValue), f total a = .ok r → a.shape ≠ .valueSet)
    (h : applyExtension op f vs = .ok v) (hcs : DenotesAll vs cs) :
    ∃ added bits n : Nat, cs = [.literal added, .vector bits (.number n)] := by
  obtain ⟨added, a, r, rfl, hr, rfl⟩ := exists_of_extension h
  obtain ⟨_, _, rfl, htail, rfl⟩ := List.forall₂_cons_left_iff.1 hcs
  obtain ⟨d, _, hd, hrest, rfl⟩ := List.forall₂_cons_left_iff.1 htail
  cases hrest
  obtain ⟨n, rfl⟩ := exists_number (fun _ => AbstractValue.region_of_shape (hf _ a r hr)) hd
  exact ⟨added, a.bits, n, rfl⟩

theorem exists_step_reverse (h : applyReverse vs = .ok v) (hcs : DenotesAll vs cs) :
    ∃ c, Concrete.Step .reverse cs c := by
  obtain ⟨a, r, rfl, -, rfl⟩ := exists_of_reverse h
  obtain ⟨_, _, ⟨place, -, rfl⟩, htail, rfl⟩ := List.forall₂_cons_left_iff.1 hcs
  cases htail
  exact ⟨_, .reverse a.bits place⟩

theorem exists_step_valueSet (hvs : ∀ v ∈ vs, v.Valid) (h : applyValueSet vs = .ok v)
    (hcs : DenotesAll vs cs) : ∃ c, Concrete.Step .valueSet cs c := by
  obtain ⟨region, a, x, w, rfl, hx, -, rfl⟩ := exists_of_valueSet h
  obtain ⟨_, _, rfl, htail, rfl⟩ := List.forall₂_cons_left_iff.1 hcs
  obtain ⟨d, _, hd, hrest, rfl⟩ := List.forall₂_cons_left_iff.1 htail
  cases hrest
  obtain ⟨-, -, hcovers⟩ := AbstractValue.covers_of_hull? (hvs (.abstract a) (by simp)) hx
  obtain ⟨n, rfl⟩ := exists_number (fun place hplace => (hcovers place hplace).1) hd
  exact ⟨_, .valueSet region a.bits n⟩

/-- An operator that makes a value of its operands has a result on everything that the operands
stand for. The lattice operators and those that introduce descriptions are left out, as they have no
concrete meaning. -/
theorem exists_step {op : Operator} {bits : Nat} (plain : op.isLattice = false)
    (defined : op ≠ .symbol ∧ op ≠ .interval) (hvs : ∀ v ∈ vs, v.Valid)
    (h : op.apply bits vs = .ok v) (hcs : DenotesAll vs cs) : ∃ c, Concrete.Step op cs c := by
  cases op with
  | and =>
    simp only [apply, applyAnd] at h
    split at h
    · cases h
    · obtain ⟨ws, hws, -⟩ := map_eq_ok.1 h
      obtain ⟨bs, rfl, -⟩ := exists_outcomes hws hcs
      exact ⟨_, .and bs⟩
  | not =>
    obtain ⟨ws, hws, h⟩ := bind_eq_ok.1 h
    obtain ⟨bs, rfl, hbs⟩ := exists_outcomes hws hcs
    cases hbs with
    | nil => cases h
    | @cons w b ws bs hb hrest =>
      cases hrest with
      | nil => exact ⟨_, .not b⟩
      | cons => cases h
  | compare cmp => exact exists_step_compare h hcs
  | ite => exact exists_step_ite h hcs
  | shiftRight => exact exists_step_shiftRight hvs h hcs
  | concat => exact exists_step_concat h hcs
  | extract => exact exists_step_extract h hcs
  | signExtend =>
    obtain ⟨added, bits, n, rfl⟩ := exists_operands_of_extension (f := AbstractValue.signExtend)
        (fun _ _ _ => AbstractValue.shape_of_signExtend) h hcs
    exact ⟨_, .signExtend added bits n⟩
  | zeroExtend =>
    obtain ⟨added, bits, n, rfl⟩ := exists_operands_of_extension (f := AbstractValue.zeroExtend)
        (fun _ _ _ => AbstractValue.shape_of_zeroExtend) h hcs
    exact ⟨_, .zeroExtend added bits n⟩
  | reverse => exact exists_step_reverse h hcs
  | valueSet => exact exists_step_valueSet hvs h hcs
  | symbol => exact absurd rfl defined.1
  | interval => exact absurd rfl defined.2
  | union => cases plain
  | intersection => cases plain
  | widen => cases plain

end Operator

end AbstractBits
