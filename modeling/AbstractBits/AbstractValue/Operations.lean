import AbstractBits.AbstractValue.Basic
/-!
# Operations on abstract values

The lattice operations bring their operands to one shape and act on that. Bit operations act on the
shape of their operand; concatenation and extensions are refused for value sets, whose offsets are
no plain numbers.
-/

namespace AbstractBits

namespace AbstractValue

/-! ## Lattice operations -/

namespace Aligned

def union : Aligned → Except OperationError AbstractValue
  | intervals x y => (x.union y).map interval
  | sets s t => (s.union t).map set
  | valueSets v w => (v.union w).map valueSet

def intersection : Aligned → Except OperationError AbstractValue
  | intervals x y => (x.intersection y).map interval
  | sets s t => (s.intersection t).map set
  | valueSets v w => (v.intersection w).map valueSet

/-- Two sets are widened as the intervals over them. -/
def widen : Aligned → Except OperationError AbstractValue
  | intervals x y => (x.widen y).map interval
  | sets s t => (s.widen t).map interval
  | valueSets v w => (v.widen w).map valueSet

end Aligned

def union (a b : AbstractValue) : Except OperationError AbstractValue := (align a b).union

def intersection (a b : AbstractValue) : Except OperationError AbstractValue :=
  (align a b).intersection

/-- Widens `a` by a newer `b`. -/
def widen (a b : AbstractValue) : Except OperationError AbstractValue := (align a b).widen

/-! ## Comparison -/

/-- What a comparison says about all pairs of values. Offsets are compared within one region
only. -/
def verdict (c : Comparison) (a b : AbstractValue) : Verdict :=
  match a, b with
  | interval x, b => b.hull?.elim .maybe fun y => x.verdict c y
  | set s, b => b.hull?.elim .maybe fun y => s.verdict c y
  | valueSet v, valueSet w =>
    match v.cover.onlyRegion?, w.cover.onlyRegion? with
    | some (region, x), some (other, y) => if other = region then x.verdict c y else .maybe
    | _, _ => .maybe
  | valueSet v, b =>
    (valueSet v).hull?.elim .maybe fun x => b.hull?.elim .maybe fun y => x.verdict c y

def compare (c : Comparison) (a b : AbstractValue) : Except OperationError Verdict :=
  requireSameWidth a.bits b.bits (verdict c a b)

/-- Whether the value and an interval of its width have a number in common, as far as their bounds
tell. -/
def meets (a : AbstractValue) (y : Interval) : Except OperationError Bool :=
  requireSameWidth a.bits y.bits <|
    match a with
    | interval x => !(x.meet y).isEmpty
    | set s => s.members.any fun x => !(x.meet y).isEmpty
    | valueSet v => v.meets y

/-! ## Bit operations -/

/-- Bits `low` to `high`. -/
def extract (high low : Nat) : AbstractValue → Except OperationError AbstractValue
  | interval x => (x.extract high low).map interval
  | set s => (s.extract high low).map set
  | valueSet v => (v.extract high low).map valueSet

/-- The numbers of `high` in front of those of `low`. -/
def concat (high low : AbstractValue) : Except OperationError AbstractValue :=
  match align high low with
  | .intervals x y => (x.concat y).map interval
  | .sets s t => (s.concat t).map set
  | .valueSets _ _ => .error (.hasRegions .concat .valueSet)

def zeroExtend (total : Nat) : AbstractValue → Except OperationError AbstractValue
  | interval x => (x.zeroExtend total).map interval
  | set s => (s.zeroExtend total).map set
  | valueSet _ => .error (.hasRegions .zeroExtend .valueSet)

def signExtend (total : Nat) : AbstractValue → Except OperationError AbstractValue
  | interval x => (x.signExtend total).map interval
  | set s => (s.signExtend total).map set
  | valueSet _ => .error (.hasRegions .signExtend .valueSet)

/-- The value shifted to the right by the numbers of `amount`, which must have no regions but the
global one. -/
def shiftRight (a amount : AbstractValue) : Except OperationError AbstractValue :=
  match amount.hull? with
  | none => .error (.hasRegions .shiftAmount amount.shape)
  | some y =>
    match a with
    | interval x => .ok (interval (x.shiftRight y))
    | set s => .ok (set (s.shiftRight y))
    | valueSet v => .ok (valueSet (v.shiftRight y))

/-- The byte-swapped values. -/
def reverse : AbstractValue → Except OperationError AbstractValue
  | interval x => x.reverse.map interval
  | set s => s.reverse.map set
  | valueSet v => v.reverse.map valueSet

end AbstractValue

end AbstractBits
