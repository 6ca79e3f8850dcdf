import AbstractBits.Comparison
/-!
# Operators

The operators of expression nodes, with their names and the numbers of operands that they take.
-/

namespace AbstractBits

/-- An operator of an expression node. -/
inductive Operator where
  /-- The conjunction of truth values. -/
  | and
  | not
  | compare (c : Comparison)
  /-- The choice between two branches by a truth value. -/
  | ite
  /-- A named bit-vector of the node's width, within bounds if they are given. -/
  | symbol
  | shiftRight
  | concat
  | extract
  | signExtend
  | zeroExtend
  | reverse
  | union
  | intersection
  | widen
  /-- An interval from its width, stride and bounds. -/
  | interval
  /-- The offsets of one region. -/
  | valueSet
  deriving DecidableEq, Repr, Inhabited

namespace Operator

def text : Operator → String
  | and => "And"
  | not => "Not"
  | compare c => c.text
  | ite => "If"
  | symbol => "BVS"
  | shiftRight => "LShR"
  | concat => "Concat"
  | extract => "Extract"
  | signExtend => "SignExt"
  | zeroExtend => "ZeroExt"
  | reverse => "Reverse"
  | union => "union"
  | intersection => "intersection"
  | widen => "widen"
  | interval => "StridedInterval"
  | valueSet => "ValueSet"

def comparison? : Operator → Option Comparison
  | compare c => some c
  | _ => none

/-- The operators on the lattice of abstract values. -/
def isLattice : Operator → Bool
  | union | intersection | widen => true
  | _ => false

/-- Whether the operator is given its node as it stands, with the declared width and operands that
are not evaluated yet. The others are given the values of their operands. -/
def takesNode : Operator → Bool
  | symbol | concat | signExtend | zeroExtend | union | intersection | widen => true
  | _ => false

end Operator

/-- How many operands an operator takes. -/
inductive Arity where
  | exactly (n : Nat)
  | atLeastOne
  | oneOrFour
  deriving DecidableEq, Repr, Inhabited

namespace Arity

def text : Arity → String
  | exactly n => toString n
  | atLeastOne => "at least 1"
  | oneOrFour => "1 or 4"

end Arity

end AbstractBits
