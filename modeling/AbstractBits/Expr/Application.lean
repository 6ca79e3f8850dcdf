import AbstractBits.Expr.Operand
/-!
# Applying operators

What each operator makes of the values of its operands. The number of operands is checked before
their kinds, except where a rule below says otherwise.
-/

namespace AbstractBits

namespace Operator

/-! ## Truth values -/

def applyAnd (args : List Value) : Except EvalError Value :=
  if args.isEmpty then .error (.arity and .atLeastOne 0)
  else (Value.toVerdicts args).map fun vs => .bool (vs.foldl Verdict.and .always)

/-- Operands that are no truth values are reported before their number. -/
def applyNot (args : List Value) : Except EvalError Value := do
  match ← Value.toVerdicts args with
  | [v] => .ok (.bool v.not)
  | vs => .error (.arity not (.exactly 1) vs.length)

/-- A comparison is answered by its first abstract operand, from the other side if that is the
second one. -/
def applyCompare (c : Comparison) (args : List Value) : Except EvalError Value := do
  let ordered ← Value.bringFront args
  let c := if ordered.swapped then c.mirrored else c
  let other ← ordered.other.toAbstractOf (compare c) ordered.front.bits
  (ofOperation (ordered.front.compare c other)).map .bool

/-- The branch that the condition picks. When it picks none, the branches are joined unless they are
equal. -/
def applyIte : List Value → Except EvalError Value
  | [condition, yes, no] => do
    let v ← condition.toVerdict
    if !v.hasFalse || yes.same no then .ok yes
    else if !v.hasTrue then .ok no
    else
      match yes, no with
      | .abstract a, .abstract b => (ofOperation (a.union b)).map .abstract
      | .bool v, .bool w => .ok (.bool (v.join w))
      | yes, no => .error (.branchTypes yes.typeText no.typeText)
  | args => .error (.arity ite (.exactly 3) args.length)

/-! ## Construction -/

/-- A value given by an interval. -/
def ofInterval (x : Except OperationError Interval) : Except EvalError Value :=
  (ofOperation x).map fun x => .abstract (.interval x)

/-- An integer cut off to a width. -/
def toField (op : Operator) (bits : Nat) (v : Value) : Except EvalError Nat :=
  (v.toInt op).map (truncateInt bits)

def applySymbol (bits : Nat) : List Value → Except EvalError Value
  | [.str name] => ofInterval ((Interval.top bits).map (·.withName name))
  | [.str name, lower, upper, stride] => do
    let lower ← toField symbol bits lower
    let upper ← toField symbol bits upper
    let stride ← toField symbol bits stride
    ofInterval (Interval.named name bits lower upper stride)
  | [] => .error (.arity symbol .oneOrFour 0)
  | .str _ :: args => .error (.arity symbol .oneOrFour (args.length + 1))
  | v :: _ => .error (.notAName v.typeText)

def applyInterval : List Value → Except EvalError Value
  | [bits, stride, lower, upper] => do
    let bits ← bits.toBitCount interval
    let stride ← toField interval bits stride
    let lower ← toField interval bits lower
    let upper ← toField interval bits upper
    ofInterval (Interval.ofBounds bits stride lower upper)
  | args => .error (.arity interval (.exactly 4) args.length)

def applyValueSet : List Value → Except EvalError Value
  | [.str region, offsets] => do
    let offsets ← offsets.toAbstract valueSet
    match offsets.hull? with
    | none => .error (.notOffsets offsets.shape)
    | some x =>
      (ofOperation do (← ValueSet.new offsets.bits).insert region x).map fun v =>
        .abstract (.valueSet v)
  | [region, _] => .error (.notARegion region.typeText)
  | args => .error (.arity valueSet (.exactly 2) args.length)

/-! ## Bit operations -/

/-- An integer shift amount as a value of a width: any amount past the width is as good as the
width. -/
def shiftAmount (bits : Nat) : Value → Except EvalError AbstractValue
  | .int i =>
    if i < 0 then .error (.negativeShift i) else .ok (.interval (.constant bits (min i.toNat bits)))
  | v => v.toAbstract shiftRight

def applyShiftRight : List Value → Except EvalError Value
  | [v, amount] => do
    let a ← v.toAbstract shiftRight
    let amount ← shiftAmount a.bits amount
    (ofOperation (a.shiftRight amount)).map .abstract
  | args => .error (.arity shiftRight (.exactly 2) args.length)

/-- Puts further operands behind what there is, one after the other. -/
def concatAll (joined : AbstractValue) : List Value → Except EvalError AbstractValue
  | [] => .ok joined
  | v :: vs => do
    let part ← v.toAbstract concat
    let joined ← ofOperation (joined.concat part)
    concatAll joined vs

def applyConcat : List Value → Except EvalError Value
  | [] => .error (.arity concat .atLeastOne 0)
  | v :: vs => do
    let first ← v.toAbstract concat
    (concatAll first vs).map .abstract

/-- The operand is looked at before the ends of the field. -/
def applyExtract : List Value → Except EvalError Value
  | [high, low, v] => do
    Value.rejectLeadingInteger [v]
    let a ← v.toAbstract extract
    let high ← high.toBitCount extract
    let low ← low.toBitCount extract
    (ofOperation (a.extract high low)).map .abstract
  | args => .error (.arity extract (.exactly 3) args.length)

/-- An extension by a number of bits, to a width that is a number of 32 bits. -/
def applyExtension (op : Operator) (f : Nat → AbstractValue → Except OperationError AbstractValue) :
    List Value → Except EvalError Value
  | [added, v] => do
    let added ← added.toBitCount op
    let a ← v.toAbstract op
    if added + a.bits < twoPow 32 then (ofOperation (f (added + a.bits) a)).map .abstract
    else .error (.extensionTooWide op added)
  | args => .error (.arity op (.exactly 2) args.length)

def applyReverse : List Value → Except EvalError Value
  | [v] => do
    let a ← v.toAbstract reverse
    (ofOperation a.reverse).map .abstract
  | args => .error (.arity reverse (.exactly 1) args.length)

/-! ## Lattice operations -/

/-- A lattice operation on two operands without their pending byte swaps; the result is byte-swapped
if any had one. -/
def applyLattice (op : Operator)
    (f : AbstractValue → AbstractValue → Except OperationError AbstractValue) (args : List Value) :
    Except EvalError Value :=
  (Value.withUnreversed args fun
    | [u, v] => do
      let a ← u.toAbstract op
      let b ← v.toAbstract op
      ofOperation (f a b)
    | args => .error (.arity op (.exactly 2) args.length)).map .abstract

/-- The value of a node with the given values of its operands. -/
def apply (op : Operator) (bits : Nat) (args : List Value) : Except EvalError Value :=
  match op with
  | and => applyAnd args
  | not => applyNot args
  | compare c => applyCompare c args
  | ite => applyIte args
  | symbol => applySymbol bits args
  | shiftRight => applyShiftRight args
  | concat => applyConcat args
  | extract => applyExtract args
  | signExtend => applyExtension signExtend AbstractValue.signExtend args
  | zeroExtend => applyExtension zeroExtend AbstractValue.zeroExtend args
  | reverse => applyReverse args
  | union => applyLattice union AbstractValue.union args
  | intersection => applyLattice intersection AbstractValue.intersection args
  | widen => applyLattice widen AbstractValue.widen args
  | interval => applyInterval args
  | valueSet => applyValueSet args

end Operator

end AbstractBits
