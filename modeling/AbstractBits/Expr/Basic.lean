import AbstractBits.AbstractValue.Basic
import AbstractBits.Literal
import AbstractBits.Expr.Operator
/-!
# Operands and values

What an expression node can have as an operand, and what evaluation makes of it: words become
intervals, plain truth values become verdicts, and nodes and foreign operands are gone.
-/

namespace AbstractBits

namespace AbstractValue

/-- What messages call a value of this shape. -/
def typeText : AbstractValue → String
  | interval _ => "StridedInterval"
  | set _ => "DiscreteIntervalSet"
  | valueSet _ => "ValueSet"

end AbstractValue

/-- The result of evaluating an operand. -/
inductive Value where
  | int (i : Int)
  | float (x : Binary64)
  | str (s : String)
  | abstract (a : AbstractValue)
  | bool (v : Verdict)
  deriving DecidableEq, Repr, Inhabited

/-- An operand of an expression node. -/
inductive Expr where
  | int (i : Int)
  | float (x : Binary64)
  | str (s : String)
  /-- A plain truth value. -/
  | native (b : Bool)
  | word (w : Word)
  | abstract (a : AbstractValue)
  | bool (v : Verdict)
  /-- A node with its declared width. -/
  | node (op : Operator) (args : List Expr) (bits : Nat)
  /-- An operand of a type that is not supported, known by the name of the type. -/
  | foreign (name : String)
  deriving Repr, Inhabited

namespace Value

def typeText : Value → String
  | int _ => "int"
  | float _ => "float"
  | str _ => "str"
  | abstract a => a.typeText
  | bool _ => "BoolResult"

def abstract? : Value → Option AbstractValue
  | abstract a => some a
  | _ => none

/-- Equality that does not look at names of intervals and compares floating-point numbers as
numbers. -/
def same : Value → Value → Bool
  | int i, int j => i == j
  | float x, float y => x.same y
  | str s, str t => s == t
  | abstract a, abstract b => a.unnamed == b.unnamed
  | bool v, bool w => v == w
  | _, _ => false

/-- Equality that looks at names of intervals too. -/
def sameWithNames : Value → Value → Bool
  | abstract a, abstract b => a == b
  | u, v => u.same v

end Value

namespace Expr

def ofValue : Value → Expr
  | .int i => int i
  | .float x => float x
  | .str s => str s
  | .abstract a => abstract a
  | .bool v => bool v

def typeText : Expr → String
  | int _ => "int"
  | float _ => "float"
  | str _ => "str"
  | native _ => "bool"
  | word _ => "BitVec"
  | abstract a => a.typeText
  | bool _ => "BoolResult"
  | node .. => "Expr"
  | foreign name => name

mutual

/-- Equality that does not look at names of intervals, at any depth, and compares floating-point
numbers as numbers. -/
def same : Expr → Expr → Bool
  | int i, int j => i == j
  | float x, float y => x.same y
  | str s, str t => s == t
  | native b, native c => b == c
  | word v, word w => v == w
  | abstract a, abstract b => a.unnamed == b.unnamed
  | bool v, bool w => v == w
  | node op args bits, node op' args' bits' => op == op' && bits == bits' && sameAll args args'
  | foreign s, foreign t => s == t
  | _, _ => false

def sameAll : List Expr → List Expr → Bool
  | [], [] => true
  | d :: ds, e :: es => same d e && sameAll ds es
  | _, _ => false

end

/-- A word as the interval of its number. -/
def ofWord (w : Word) : AbstractValue := .interval (.constant w.bits w.value)

/-- The operand with a word replaced by its interval. -/
def abstractWord : Expr → Expr
  | word w => abstract (ofWord w)
  | d => d

/-- The node with other operands; any other operand is unchanged. -/
def withArgs (args : List Expr) : Expr → Expr
  | node op _ bits => node op args bits
  | d => d

/-- On values, the equality of operands is the equality of values. -/
theorem same_ofValue (u v : Value) : same (ofValue u) (ofValue v) = u.same v := by
  cases u <;> cases v <;> rfl

end Expr

end AbstractBits
