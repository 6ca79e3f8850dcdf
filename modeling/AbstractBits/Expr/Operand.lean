import AbstractBits.AbstractValue.Operations
import AbstractBits.Expr.Basic
import AbstractBits.Expr.EvalError
/-!
# Operands of an operator

What an operator demands of the values that it is given, and how it adjusts them: the abstract
operand of a comparison comes first, integers take the width of the value beside them, and pending
byte swaps of the operands of a lattice operation are put off until its result is there.
-/

namespace AbstractBits

/-! ## Integers -/

/-- An integer as a number of a width: as it is, or in two's complement. -/
def fitInteger (i : Int) (bits : Nat) : Except EvalError Nat :=
  if signedMin bits ≤ i ∧ i ≤ (allOnes bits : Int) then .ok (truncateInt bits i)
  else .error (.integerTooWide i bits)

namespace Value

/-! ## Kinds of operands -/

/-- Refuses an integer in the first place. -/
def rejectLeadingInteger : List Value → Except EvalError Unit
  | int i :: _ => .error (.bareInteger i)
  | _ => .ok ()

def toAbstract (op : Operator) : Value → Except EvalError AbstractValue
  | abstract a => .ok a
  | v => .error (.notAccepted op v.typeText)

def toInt (op : Operator) : Value → Except EvalError Int
  | int i => .ok i
  | v => .error (.notAnInteger op v.typeText)

/-- A count of bits is a number of 32 bits. -/
def toBitCount (op : Operator) (v : Value) : Except EvalError Nat := do
  let i ← v.toInt op
  if 0 ≤ i ∧ i < (twoPow 32 : Int) then .ok i.toNat else .error (.notABitCount op i)

def toVerdict : Value → Except EvalError Verdict
  | bool v => .ok v
  | v => .error (.notATruthValue v.typeText)

def toVerdicts (args : List Value) : Except EvalError (List Verdict) := args.mapM toVerdict

/-- An abstract operand beside one of the given width, which an integer takes on. -/
def toAbstractOf (op : Operator) (bits : Nat) : Value → Except EvalError AbstractValue
  | int i => (fitInteger i bits).map fun value => .interval (.constant bits value)
  | v => v.toAbstract op

/-! ## The order of two operands -/

/-- Two operands with an abstract one in front. -/
structure Fronted where
  front : AbstractValue
  other : Value
  /-- Whether the abstract operand was the second one. -/
  swapped : Bool
  deriving DecidableEq, Repr

/-- The first abstract one of two operands, and the other one. -/
def bringFront : List Value → Except EvalError Fronted
  | [abstract a, v] => .ok ⟨a, v, false⟩
  | [u, abstract b] => .ok ⟨b, u, true⟩
  | [u, v] => .error (.noAbstract u.typeText v.typeText)
  | args => .error (.notAPair args.length)

/-! ## Pending byte swaps -/

def isReversed : Value → Bool
  | abstract a => a.isReversed
  | _ => false

/-- The value without a pending byte swap of its own. -/
def unreversed : Value → Value
  | abstract a => if a.isReversed then abstract a.stored else abstract a
  | v => v

/-- Applies an operation to operands without their pending byte swaps, and byte-swaps the result if
any had one. -/
def withUnreversed (args : List Value) (f : List Value → Except EvalError AbstractValue) :
    Except EvalError AbstractValue := do
  let result ← f (args.map unreversed)
  if args.any isReversed then ofOperation result.reverse else .ok result

end Value

end AbstractBits
