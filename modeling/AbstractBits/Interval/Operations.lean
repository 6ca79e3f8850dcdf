import AbstractBits.Comparison
import AbstractBits.Interval.Basic
import AbstractBits.Progression.Operations
/-!
# Operations on intervals

Union, intersection and widening of two intervals of one width, the verdict of a comparison, and the
bit operations: cutting out bit fields, joining intervals end to end, extending and shifting them.

Two pending byte swaps are carried over to the result of a lattice operation. In all other places an
operand with a pending byte swap counts as the whole width.

`join`, `meet`, `stretch`, `verdict`, `slice` and `append` are for operands and arguments that fit;
`union`, `intersection`, `widen`, `compare`, `extract` and `concat` refuse others.
-/

namespace AbstractBits

namespace Interval

/-! ## Combining and comparing -/

/-- Applies an operation on stored members to two intervals of one width. -/
def combine (op : Option Progression → Option Progression → Option Progression) (x y : Interval) :
    Interval :=
  if x.reversed && y.reversed then (ofRange x.bits (op x.range y.range)).reverseOrWhole
  else ofRange x.bits (op x.cover.range y.cover.range)

/-- The least interval over both. -/
def join (x y : Interval) : Interval := combine (Option.merge Progression.join) x y

/-- An interval with all common members. -/
def meet (x y : Interval) : Interval :=
  combine (fun p q => p.bind fun p => q.bind fun q => p.meet q) x y

/-- `x` extended over a newer `y`, with every bound that moves pushed to its limit. -/
def stretch (x y : Interval) : Interval :=
  combine (Option.merge (Progression.widen (allOnes x.bits))) x y

def union (x y : Interval) : Except OperationError Interval :=
  requireSameWidth x.bits y.bits (x.join y)

def intersection (x y : Interval) : Except OperationError Interval :=
  requireSameWidth x.bits y.bits (x.meet y)

def widen (x y : Interval) : Except OperationError Interval :=
  requireSameWidth x.bits y.bits (x.stretch y)

/-- What a comparison says about the pairs of members, from the bounds of both. Nothing is known of
an empty interval. -/
def verdict (c : Comparison) (x y : Interval) : Verdict :=
  match x.cover.range, y.cover.range with
  | some p, some q => c.relation.decide (p.bounds x.bits c.signed) (q.bounds y.bits c.signed)
  | _, _ => .maybe

def compare (c : Comparison) (x y : Interval) : Except OperationError Verdict :=
  requireSameWidth x.bits y.bits (verdict c x y)

/-! ## Bit fields -/

/-- Applies an operation on members to an interval, for a result of another width. -/
def image (bits : Nat) (f : Progression → Progression) (x : Interval) : Interval :=
  ofRange bits (x.cover.range.map f)

/-- Whether `low` and `high` are the ends of a bit field of a width. -/
def FieldOf (bits high low : Nat) : Prop := low ≤ high ∧ high < bits

instance (bits high low : Nat) : Decidable (FieldOf bits high low) :=
  inferInstanceAs (Decidable (_ ∧ _))

/-- Bits `low` to `high`. -/
def slice (high low : Nat) (x : Interval) : Interval :=
  image (high - low + 1) (.field (high - low + 1) low) x

def extract (high low : Nat) (x : Interval) : Except OperationError Interval :=
  if FieldOf x.bits high low then .ok (x.slice high low)
  else .error (.badField high low x.bits)

/-- The members of `high` in front of those of `low`. -/
def append (high low : Interval) : Interval :=
  ofRange (high.bits + low.bits)
    (high.cover.range.bind fun p => low.cover.range.map fun q => p.append low.bits q)

def concat (high low : Interval) : Except OperationError Interval :=
  requireWidth (high.bits + low.bits) (high.append low)

/-! ## Extension and shift -/

/-- Whether a width can be extended to `total` bits. -/
def ExtensionOf (bits total : Nat) : Prop := ValidWidth total ∧ bits ≤ total

instance (bits total : Nat) : Decidable (ExtensionOf bits total) :=
  inferInstanceAs (Decidable (_ ∧ _))

/-- The members as numbers of `total` bits. -/
def zeroExtend (total : Nat) (x : Interval) : Except OperationError Interval :=
  if ExtensionOf x.bits total then .ok (image total id x) else .error (.badWidth total)

/-- The members with their sign bit repeated up to `total` bits. -/
def signExtend (total : Nat) (x : Interval) : Except OperationError Interval :=
  if ExtensionOf x.bits total then .ok (image total (.signExtend x.bits total) x)
  else .error (.badWidth total)

/-- The members shifted to the right by those of `amount`, which may have another width. -/
def shiftRight (x amount : Interval) : Interval :=
  ofRange x.bits
    (x.cover.range.bind fun p => amount.cover.range.map fun q => p.shiftRight x.bits q)

end Interval

end AbstractBits
