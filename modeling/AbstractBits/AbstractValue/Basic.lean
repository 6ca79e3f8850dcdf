import AbstractBits.IntervalSet.Basic
import AbstractBits.ValueSet.Basic
/-!
# Abstract values

A description of the values of a bit-vector in one of three shapes. Two values of different shapes
are brought to the higher one before they are combined: an interval becomes a set of one member, and
what has no regions becomes a value set over the global region.
-/

namespace AbstractBits

/-- The values that a bit-vector can take, in one of the three shapes. -/
inductive AbstractValue where
  | interval (x : Interval)
  | set (s : IntervalSet)
  | valueSet (v : ValueSet)
  deriving DecidableEq, Repr, Inhabited

namespace AbstractValue

/-- The form in which a description of each shape is kept. -/
def Valid : AbstractValue → Prop
  | interval x => x.Valid
  | set s => s.Valid
  | valueSet v => v.Valid

def shape : AbstractValue → Shape
  | interval _ => .interval
  | set _ => .set
  | valueSet _ => .valueSet

def bits : AbstractValue → Nat
  | interval x => x.bits
  | set s => s.bits
  | valueSet v => v.bits

/-- Whether a byte swap of the whole value is pending. -/
def isReversed : AbstractValue → Bool
  | interval x => x.reversed
  | set s => s.isReversed
  | valueSet v => v.reversed

def isEmpty : AbstractValue → Bool
  | interval x => x.isEmpty
  | set s => s.isEmpty
  | valueSet v => v.isEmpty

/-- Whether the value is known to be one number. -/
def isSingle : AbstractValue → Bool
  | interval x => x.isSingle
  | set s => s.isSingle
  | valueSet v => v.isSingle

/-- The name of an interval; the other shapes have none. -/
def name? : AbstractValue → Option String
  | interval x => x.name
  | _ => none

/-- The same value without names. Values count as equal if they are equal without names. -/
def unnamed : AbstractValue → AbstractValue
  | interval x => interval x.unnamed
  | set s => set s.unnamed
  | valueSet v => valueSet v.unnamed

/-- The stored value, without the pending byte swap. -/
def stored : AbstractValue → AbstractValue
  | interval x => interval x.stored
  | set s => set s.stored
  | valueSet v => valueSet v.stored

/-- The first `n` numbers, or offsets, in the order in which they are stored. -/
def sample (a : AbstractValue) (n : Nat) : List Nat :=
  match a with
  | interval x => x.sample n
  | set s => s.sample n
  | valueSet v => v.sample n

def text : AbstractValue → String
  | interval x => x.text
  | set s => s.text
  | valueSet v => v.text

/-! ## Shapes -/

/-- The value in the highest shape. -/
def toValueSet : AbstractValue → ValueSet
  | interval x => .ofInterval x
  | set s => .ofInterval s.hull
  | valueSet v => v

/-- The value in a shape that is not below its own. -/
def lift (a : AbstractValue) (shape : Shape) : Option AbstractValue :=
  match a, shape with
  | interval x, .interval => some (interval x)
  | interval x, .set => some (set (.ofInterval x))
  | set s, .set => some (set s)
  | a, .valueSet => some (valueSet a.toValueSet)
  | _, _ => none

/-- Two values of one shape. -/
inductive Aligned where
  | intervals (x y : Interval)
  | sets (s t : IntervalSet)
  | valueSets (v w : ValueSet)
  deriving DecidableEq, Repr

/-- Two values in the higher of their shapes. -/
def align (a b : AbstractValue) : Aligned :=
  match a, b with
  | interval x, interval y => .intervals x y
  | interval x, set t => .sets (.ofInterval x) t
  | set s, interval y => .sets s (.ofInterval y)
  | set s, set t => .sets s t
  | a, b => .valueSets a.toValueSet b.toValueSet

/-- Two values of one width in the higher of their shapes. -/
def alignSameWidth (a b : AbstractValue) : Except OperationError Aligned :=
  requireSameWidth a.bits b.bits (align a b)

/-- The interval over a value that has no regions but the global one. Its bounds are bounds of the
value: a pending byte swap widens it to the whole width. -/
def hull? : AbstractValue → Option Interval
  | interval x => some x.cover
  | set s => some s.hull
  | valueSet v =>
    match v.cover.onlyRegion? with
    | some (region, offsets) => if region = numberRegion then some offsets else none
    | none => none

end AbstractValue

end AbstractBits
