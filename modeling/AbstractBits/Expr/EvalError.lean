import AbstractBits.OperationError
import AbstractBits.Expr.Operator
/-!
# Failed evaluation

The causes for which an expression has no value or a query no answer, and their wording. Every
message starts with the heading of its kind.
-/

namespace AbstractBits

/-- A question about a value that is not defined for every value. -/
inductive Query where
  | eval
  | min
  | max
  | solution
  | unique
  deriving DecidableEq, Repr, Inhabited

namespace Query

def text : Query → String
  | eval => "eval"
  | min => "min"
  | max => "max"
  | solution => "solution"
  | unique => "unique"

end Query

/-- Why an evaluation or a query failed. Types of operands are given by their names. -/
inductive EvalError where
  /-- An integer where only an abstract value will do. -/
  | bareInteger (i : Int)
  | integerTooWide (i : Int) (bits : Nat)
  | notAnInteger (op : Operator) (type : String)
  | notABitCount (op : Operator) (i : Int)
  | negativeShift (i : Int)
  | notAName (type : String)
  | notARegion (type : String)
  | extensionTooWide (op : Operator) (added : Nat)
  /-- An integer has no width of its own. -/
  | widthOfInteger (i : Int)
  | arity (op : Operator) (expected : Arity) (got : Nat)
  | notAPair (got : Nat)
  | noAbstract (left right : String)
  /-- Operands that the operation refused for a reason of its own. -/
  | refused (reason : String)
  | notATruthValue (type : String)
  | foreignType (name : String)
  | operation (cause : OperationError)
  | notAccepted (op : Operator) (type : String)
  | branchTypes (left right : String)
  | notOffsets (shape : Shape)
  | noWidth (type : String)
  | undefinedQuery (query : Query) (type : String)
  | emptyQuery (query : Query)
  deriving DecidableEq, Repr, Inhabited

namespace EvalError

/-- What an error is about. -/
inductive Kind where
  | argumentType
  | argumentCount
  | arguments
  | type
  | expressionType
  deriving DecidableEq, Repr, Inhabited

def Kind.heading : Kind → String
  | argumentType => "Unsupported argument type"
  | argumentCount => "Unsupported argument count"
  | arguments => "Unsupported arguments"
  | type => "Unsupported type"
  | expressionType => "Unsupported expression type"

def kind : EvalError → Kind
  | bareInteger .. | integerTooWide .. | notAnInteger .. | notABitCount .. | negativeShift ..
  | notAName .. | notARegion .. | extensionTooWide .. | widthOfInteger .. => .argumentType
  | arity .. | notAPair .. => .argumentCount
  | noAbstract .. | refused .. => .arguments
  | notATruthValue .. | foreignType .. => .type
  | operation .. | notAccepted .. | branchTypes .. | notOffsets .. | noWidth .. | undefinedQuery ..
  | emptyQuery .. => .expressionType

/-- The message behind the heading. -/
def detail : EvalError → String
  | bareInteger i => s!"raw integer {i} where an abstract value is required"
  | integerTooWide i bits => s!"literal {i} does not fit in {bits} bits"
  | notAnInteger op type => s!"{op.text} expects an integer, got {type}"
  | notABitCount op i => s!"{op.text} got {i} as a bit count"
  | negativeShift i => s!"LShR by a negative amount {i}"
  | notAName type => s!"BVS expects a name, got {type}"
  | notARegion type => s!"ValueSet expects a region name, got {type}"
  | extensionTooWide op added => s!"{op.text} cannot add {added} bits"
  | widthOfInteger i => s!"cannot take the size of the raw integer {i}"
  | arity op expected got => s!"{op.text} takes {expected.text} arguments, got {got}"
  | notAPair got => s!"expected 2 arguments, got {got}"
  | noAbstract left right => s!"neither {left} nor {right} is an abstract value"
  | refused reason => reason
  | notATruthValue type => type
  | foreignType name => name
  | operation cause => cause.message
  | notAccepted op type => s!"{op.text} does not accept {type}"
  | branchTypes left right => s!"cannot join branches of type {left} and {right}"
  | notOffsets shape => s!"{shape.text} cannot be used as offsets"
  | noWidth type => s!"{type} has no size"
  | undefinedQuery query type => s!"{query.text} is not defined for {type}"
  | emptyQuery query => s!"{query.text} of an empty value"

def message (e : EvalError) : String := s!"{e.kind.heading}: {e.detail}"

end EvalError

/-- An operation on abstract values as a step of an evaluation. -/
def ofOperation {α : Type} (result : Except OperationError α) : Except EvalError α :=
  result.mapError .operation

theorem ofOperation_eq_ok {α : Type} {e : Except OperationError α} {x : α} :
    ofOperation e = .ok x ↔ e = .ok x := mapError_eq_ok

end AbstractBits
