import AbstractBits.AbstractValue.Operations
import AbstractBits.Literal
/-!
# What the operations build

The intervals, sets and value sets that come out of any finite sequence of operations, each starting
from numbers, names and texts. Statements about all descriptions that can occur are statements about
these.
-/

namespace AbstractBits

/-- The abstract values that some sequence of operations builds: intervals from numbers and from
intervals, sets, value sets, and the intervals over descriptions of any shape. -/
inductive Built : AbstractValue → Prop where
  | ofBounds {bits stride lower upper : Nat} {x : Interval}
      (h : Interval.ofBounds bits stride lower upper = .ok x) : Built (.interval x)
  | point {bits value : Nat} {x : Interval} (h : Interval.point bits value = .ok x) :
      Built (.interval x)
  | top {bits : Nat} {x : Interval} (h : Interval.top bits = .ok x) : Built (.interval x)
  | bottom {bits : Nat} {x : Interval} (h : Interval.bottom bits = .ok x) : Built (.interval x)
  | word (w : Word) : Built (.interval (.constant w.bits w.value))
  | withName {x : Interval} (hx : Built (.interval x)) (name : String) :
      Built (.interval (x.withName name))
  | union {x y z : Interval} (hx : Built (.interval x)) (hy : Built (.interval y))
      (h : x.union y = .ok z) : Built (.interval z)
  | intersection {x y z : Interval} (hx : Built (.interval x)) (hy : Built (.interval y))
      (h : x.intersection y = .ok z) : Built (.interval z)
  | widen {x y z : Interval} (hx : Built (.interval x)) (hy : Built (.interval y))
      (h : x.widen y = .ok z) : Built (.interval z)
  | extract {x z : Interval} {high low : Nat} (hx : Built (.interval x))
      (h : x.extract high low = .ok z) : Built (.interval z)
  | concat {x y z : Interval} (hx : Built (.interval x)) (hy : Built (.interval y))
      (h : x.concat y = .ok z) : Built (.interval z)
  | zeroExtend {x z : Interval} {total : Nat} (hx : Built (.interval x))
      (h : x.zeroExtend total = .ok z) : Built (.interval z)
  | signExtend {x z : Interval} {total : Nat} (hx : Built (.interval x))
      (h : x.signExtend total = .ok z) : Built (.interval z)
  | shiftRight {x y : Interval} (hx : Built (.interval x)) (hy : Built (.interval y)) :
      Built (.interval (x.shiftRight y))
  | reverse {x z : Interval} (hx : Built (.interval x)) (h : x.reverse = .ok z) :
      Built (.interval z)
  | stored {x : Interval} (hx : Built (.interval x)) : Built (.interval x.stored)
  | setOfMembers {bits : Nat} {members : List Interval} {s : IntervalSet}
      (hmembers : ∀ x ∈ members, Built (.interval x)) (h : IntervalSet.new bits members = .ok s) :
      Built (.set s)
  | setOfInterval {x : Interval} (hx : Built (.interval x)) : Built (.set (.ofInterval x))
  | setUnion {s t u : IntervalSet} (hs : Built (.set s)) (ht : Built (.set t))
      (h : s.union t = .ok u) : Built (.set u)
  | setIntersection {s t u : IntervalSet} (hs : Built (.set s)) (ht : Built (.set t))
      (h : s.intersection t = .ok u) : Built (.set u)
  | setWiden {s t : IntervalSet} {x : Interval} (hs : Built (.set s)) (ht : Built (.set t))
      (h : s.widen t = .ok x) : Built (.interval x)
  | setExtract {s u : IntervalSet} {high low : Nat} (hs : Built (.set s))
      (h : s.extract high low = .ok u) : Built (.set u)
  | setConcat {s t u : IntervalSet} (hs : Built (.set s)) (ht : Built (.set t))
      (h : s.concat t = .ok u) : Built (.set u)
  | setZeroExtend {s u : IntervalSet} {total : Nat} (hs : Built (.set s))
      (h : s.zeroExtend total = .ok u) : Built (.set u)
  | setSignExtend {s u : IntervalSet} {total : Nat} (hs : Built (.set s))
      (h : s.signExtend total = .ok u) : Built (.set u)
  | setShiftRight {s : IntervalSet} {y : Interval} (hs : Built (.set s))
      (hy : Built (.interval y)) :
      Built (.set (s.shiftRight y))
  | setReverse {s u : IntervalSet} (hs : Built (.set s)) (h : s.reverse = .ok u) : Built (.set u)
  | setStored {s : IntervalSet} (hs : Built (.set s)) : Built (.set s.stored)
  | setHull {s : IntervalSet} (hs : Built (.set s)) : Built (.interval s.hull)
  | valueSetNew {bits : Nat} {v : ValueSet} (h : ValueSet.new bits = .ok v) : Built (.valueSet v)
  | valueSetOfInterval {x : Interval} (hx : Built (.interval x)) :
      Built (.valueSet (.ofInterval x))
  | insert {v w : ValueSet} {region : String} {x : Interval} (hv : Built (.valueSet v))
      (hx : Built (.interval x)) (h : v.insert region x = .ok w) : Built (.valueSet w)
  | valueSetUnion {v w z : ValueSet} (hv : Built (.valueSet v)) (hw : Built (.valueSet w))
      (h : v.union w = .ok z) : Built (.valueSet z)
  | valueSetIntersection {v w z : ValueSet} (hv : Built (.valueSet v)) (hw : Built (.valueSet w))
      (h : v.intersection w = .ok z) : Built (.valueSet z)
  | valueSetWiden {v w z : ValueSet} (hv : Built (.valueSet v)) (hw : Built (.valueSet w))
      (h : v.widen w = .ok z) : Built (.valueSet z)
  | valueSetExtract {v z : ValueSet} {high low : Nat} (hv : Built (.valueSet v))
      (h : v.extract high low = .ok z) : Built (.valueSet z)
  | valueSetShiftRight {v : ValueSet} {y : Interval} (hv : Built (.valueSet v))
      (hy : Built (.interval y)) : Built (.valueSet (v.shiftRight y))
  | valueSetReverse {v z : ValueSet} (hv : Built (.valueSet v)) (h : v.reverse = .ok z) :
      Built (.valueSet z)
  | valueSetStored {v : ValueSet} (hv : Built (.valueSet v)) : Built (.valueSet v.stored)
  | offsets {v : ValueSet} {region : String} {x : Interval} (hv : Built (.valueSet v))
      (h : v.get? region = some x) : Built (.interval x)
  | hull {a : AbstractValue} {x : Interval} (ha : Built a) (h : a.hull? = some x) :
      Built (.interval x)

namespace Built

/-- Every width in `1 … maxBits` has built descriptions in each shape. -/
theorem exists_of_validWidth {bits : Nat} (h : ValidWidth bits) :
    Built (.interval (.whole bits)) ∧ Built (.set (.ofInterval (.whole bits)))
      ∧ Built (.valueSet (.ofInterval (.whole bits))) := by
  have hwhole : Built (.interval (.whole bits)) := .top (requireWidth_eq_ok.2 ⟨h, rfl⟩)
  exact ⟨hwhole, .setOfInterval hwhole, .valueSetOfInterval hwhole⟩

end Built

end AbstractBits
