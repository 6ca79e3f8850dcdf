import AbstractBits.Interval.Operations
import AbstractBits.Progression.Checked
/-!
# Intervals in machine words

The operations on intervals in the steps that a machine takes. Checks of widths and bit fields come
first, as far as their own sums are defined; what an operation refuses is an answer, and no step
that is not defined.

`Call` names the operations with their operands, so that one statement can be made about all of
them.
-/

namespace AbstractBits

namespace Interval

/-- An interval without a pending byte swap that covers this one. -/
def checkedCover (x : Interval) : Checked Interval :=
  if x.reversed then do return ofRange x.bits (some (← Progression.checkedWhole x.bits)) else .ok x

/-! ## Construction and questions -/

def checkedOfBounds (bits stride lower upper : Nat) : Checked (Except OperationError Interval) :=
  if ValidWidth bits then do
    let lower ← Checked.truncate bits lower
    let upper ← Checked.truncate bits upper
    if upper < lower then return .error (.crossedBounds lower upper)
    else return .ok (ofRange bits (some (← Progression.checkedBetween lower upper stride)))
  else .ok (.error (.badWidth bits))

def checkedSize (x : Interval) : Checked Nat :=
  match x.range with
  | none => .ok 0
  | some p => p.checkedSize

def checkedContains (x : Interval) (value : Nat) : Checked Bool := do
  match (← x.checkedCover).range with
  | none => return false
  | some p => p.checkedMem value

/-! ## Byte order -/

/-- The lowest bytes of a number in the opposite order: all bytes of the word are exchanged, and
then moved back. -/
def checkedSwap (bits value : Nat) : Checked (Except OperationError Nat) := do
  if (← Checked.rem bits 8) ≠ 0 then return .error (.partialBytes bits)
  else return .ok (← Checked.shr (reverseBytes 16 value) (← Checked.sub maxBits bits))

def checkedReverse (x : Interval) : Checked (Except OperationError Interval) :=
  match x.range with
  | none => .ok (.ok x.unnamed)
  | some p =>
    if x.bits = 8 then .ok (.ok x.unnamed)
    else if p.isSingle then do
      match ← checkedSwap x.bits p.lower with
      | .error cause => return .error cause
      | .ok value => return .ok (ofRange x.bits (some (← Progression.checkedConstant x.bits value)))
    else do
      if (← Checked.rem x.bits 8) ≠ 0 then return .error (.partialBytes x.bits)
      else return .ok { x.unnamed with reversed := !x.reversed }

/-- The first `n` members, each byte-swapped on its own if that is pending. -/
def checkedSample (x : Interval) (n : Nat) : Checked (List Nat) := do
  let stored ←
    match x.range with
    | none => pure []
    | some p => p.checkedSample n
  if x.reversed then
    stored.mapM fun v => do
      match ← checkedSwap x.bits v with
      | .error _ => return v
      | .ok swapped => return swapped
  else return stored

/-! ## Combining and comparing -/

/-- The result of an operation on operands of two widths, which must agree. -/
def checkedSameWidth {α : Type} (left right : Nat) (steps : Checked α) :
    Checked (Except OperationError α) :=
  if left = right then do return .ok (← steps) else .ok (.error (.differentWidths left right))

/-- Applies an operation on stored members to two intervals of one width. -/
def checkedCombine (op : Option Progression → Option Progression → Checked (Option Progression))
    (x y : Interval) : Checked Interval :=
  if x.reversed && y.reversed then do
    let raw := ofRange x.bits (← op x.range y.range)
    match ← raw.checkedReverse with
    | .ok z => return z
    | .error _ => return ofRange x.bits (some (← Progression.checkedWhole x.bits))
  else do
    let left ← x.checkedCover
    let right ← y.checkedCover
    return ofRange x.bits (← op left.range right.range)

/-- An operation on members, which an operand without members does not take part in. -/
def checkedMerge (f : Progression → Progression → Checked Progression) :
    Option Progression → Option Progression → Checked (Option Progression)
  | none, q => .ok q
  | p, none => .ok p
  | some p, some q => do return some (← f p q)

/-- An operation on members, of which there are none if an operand has none. -/
def checkedPairs (f : Progression → Progression → Checked (Option Progression)) :
    Option Progression → Option Progression → Checked (Option Progression)
  | some p, some q => f p q
  | _, _ => .ok none

def checkedUnion (x y : Interval) : Checked (Except OperationError Interval) :=
  checkedSameWidth x.bits y.bits (checkedCombine (checkedMerge Progression.checkedJoin) x y)

def checkedIntersection (x y : Interval) : Checked (Except OperationError Interval) :=
  checkedSameWidth x.bits y.bits (checkedCombine (checkedPairs Progression.checkedMeet) x y)

def checkedWiden (x y : Interval) : Checked (Except OperationError Interval) :=
  checkedSameWidth x.bits y.bits
    (checkedCombine (checkedMerge (Progression.checkedWiden x.bits)) x y)

def checkedVerdict (c : Comparison) (x y : Interval) : Checked Verdict := do
  match (← x.checkedCover).range, (← y.checkedCover).range with
  | some p, some q =>
    return c.relation.decide (← p.checkedBounds x.bits c.signed) (← q.checkedBounds y.bits c.signed)
  | _, _ => return .maybe

def checkedCompare (c : Comparison) (x y : Interval) : Checked (Except OperationError Verdict) :=
  checkedSameWidth x.bits y.bits (checkedVerdict c x y)

/-! ## Bit operations -/

/-- Applies an operation on members to an interval, for a result of another width. -/
def checkedImage (bits : Nat) (f : Progression → Checked Progression) (x : Interval) :
    Checked Interval := do
  match (← x.checkedCover).range with
  | none => return empty bits
  | some p => return ofRange bits (some (← f p))

def checkedExtract (high low : Nat) (x : Interval) : Checked (Except OperationError Interval) :=
  if FieldOf x.bits high low then do
    let width ← Checked.add Checked.positionBits (← Checked.sub high low) 1
    return .ok (← checkedImage width (Progression.checkedField x.bits width low) x)
  else .ok (.error (.badField high low x.bits))

/-- Applies an operation on pairs of members to two intervals. -/
def checkedProduct (bits : Nat) (f : Progression → Progression → Checked Progression)
    (x y : Interval) :
    Checked Interval := do
  let left ← x.checkedCover
  let right ← y.checkedCover
  return ofRange bits (← checkedPairs (fun p q => do return some (← f p q)) left.range right.range)

def checkedConcat (high low : Interval) : Checked (Except OperationError Interval) := do
  let total ← Checked.add Checked.positionBits high.bits low.bits
  if ValidWidth total then
    return .ok (← checkedProduct total (Progression.checkedAppend low.bits) high low)
  else return .error (.badWidth total)

/-- An extension to `total` bits, which must not be fewer than there are. -/
def checkedExtension (total : Nat) (f : Progression → Checked Progression) (x : Interval) :
    Checked (Except OperationError Interval) :=
  if ExtensionOf x.bits total then do return .ok (← checkedImage total f x)
  else .ok (.error (.badWidth total))

def checkedZeroExtend (total : Nat) (x : Interval) : Checked (Except OperationError Interval) :=
  checkedExtension total (fun p => Progression.checkedBetween p.lower p.upper p.stride) x

def checkedSignExtend (total : Nat) (x : Interval) : Checked (Except OperationError Interval) :=
  checkedExtension total (Progression.checkedSignExtend x.bits total) x

def checkedShiftRight (x amount : Interval) : Checked Interval :=
  checkedProduct x.bits (Progression.checkedShiftRight x.bits) x amount

/-! ## Calls -/

/-- The operations on intervals with their operands, by the kind of their answers. -/
inductive Call : Type → Type where
  | ofBounds (bits stride lower upper : Nat) : Call (Except OperationError Interval)
  | union (x y : Interval) : Call (Except OperationError Interval)
  | intersection (x y : Interval) : Call (Except OperationError Interval)
  | widen (x y : Interval) : Call (Except OperationError Interval)
  | compare (c : Comparison) (x y : Interval) : Call (Except OperationError Verdict)
  | extract (high low : Nat) (x : Interval) : Call (Except OperationError Interval)
  | concat (high low : Interval) : Call (Except OperationError Interval)
  | zeroExtend (total : Nat) (x : Interval) : Call (Except OperationError Interval)
  | signExtend (total : Nat) (x : Interval) : Call (Except OperationError Interval)
  | shiftRight (x amount : Interval) : Call Interval
  | reverse (x : Interval) : Call (Except OperationError Interval)
  | contains (x : Interval) (value : Nat) : Call Bool
  | size (x : Interval) : Call Nat
  | sample (x : Interval) (n : Nat) : Call (List Nat)

namespace Call

/-- What a call answers. -/
def answer : {α : Type} → Call α → α
  | _, ofBounds bits stride lower upper => Interval.ofBounds bits stride lower upper
  | _, union x y => x.union y
  | _, intersection x y => x.intersection y
  | _, widen x y => x.widen y
  | _, compare c x y => x.compare c y
  | _, extract high low x => x.extract high low
  | _, concat high low => high.concat low
  | _, zeroExtend total x => x.zeroExtend total
  | _, signExtend total x => x.signExtend total
  | _, shiftRight x amount => x.shiftRight amount
  | _, reverse x => x.reverse
  | _, contains x value => x.contains value
  | _, size x => x.size
  | _, sample x n => x.sample n

/-- The steps of a call in machine words. -/
def steps : {α : Type} → Call α → Checked α
  | _, ofBounds bits stride lower upper => checkedOfBounds bits stride lower upper
  | _, union x y => x.checkedUnion y
  | _, intersection x y => x.checkedIntersection y
  | _, widen x y => x.checkedWiden y
  | _, compare c x y => checkedCompare c x y
  | _, extract high low x => x.checkedExtract high low
  | _, concat high low => high.checkedConcat low
  | _, zeroExtend total x => x.checkedZeroExtend total
  | _, signExtend total x => x.checkedSignExtend total
  | _, shiftRight x amount => x.checkedShiftRight amount
  | _, reverse x => x.checkedReverse
  | _, contains x value => x.checkedContains value
  | _, size x => x.checkedSize
  | _, sample x n => x.checkedSample n

end Call

end Interval

end AbstractBits
