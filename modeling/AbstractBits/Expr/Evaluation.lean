import AbstractBits.Expr.Application
/-!
# Evaluating expressions

An operand is evaluated from the leaves: the operands of a node from left to right, then its
operator. The first failure is the result; only the number of operands of a lattice operation is
checked before.

Results:
  * `evaluateAll_map_ofValue`, `evaluate_ofValue` — values evaluate to themselves.
  * `evaluate_abstractWord` — a word may be replaced by its interval.
-/

namespace AbstractBits

namespace Expr

mutual

/-- The value of an operand. -/
def evaluate : Expr → Except EvalError Value
  | int i => .ok (.int i)
  | float x => .ok (.float x)
  | str s => .ok (.str s)
  | native b => .ok (.bool (.ofBool b))
  | word w => .ok (.abstract (ofWord w))
  | abstract a => .ok (.abstract a)
  | bool v => .ok (.bool v)
  | foreign name => .error (.foreignType name)
  | node op args bits =>
    if op.isLattice && args.length != 2 then .error (.arity op (.exactly 2) args.length)
    else
      match evaluateAll args with
      | .ok values => op.apply bits values
      | .error e => .error e

/-- The values of operands, from left to right. -/
def evaluateAll : List Expr → Except EvalError (List Value)
  | [] => .ok []
  | d :: ds =>
    match evaluate d with
    | .ok v =>
      match evaluateAll ds with
      | .ok vs => .ok (v :: vs)
      | .error e => .error e
    | .error e => .error e

end

/-- The width of an operand: that of the number, or the declared one of a node. -/
def width : Expr → Except EvalError Nat
  | int i => .error (.widthOfInteger i)
  | abstract a => .ok a.bits
  | word w => .ok w.bits
  | node _ _ bits => .ok bits
  | d => .error (.noWidth d.typeText)

theorem evaluate_ofValue (v : Value) : (ofValue v).evaluate = .ok v := by
  cases v <;> simp [ofValue, evaluate]

theorem evaluateAll_map_ofValue (vs : List Value) : evaluateAll (vs.map ofValue) = .ok vs := by
  induction vs with
  | nil => simp [evaluateAll]
  | cons v vs ih => simp [evaluateAll, evaluate_ofValue, ih]

theorem evaluate_abstractWord (d : Expr) : d.abstractWord.evaluate = d.evaluate := by
  cases d <;> simp [abstractWord, evaluate]

theorem evaluateAll_map_abstractWord (ds : List Expr) :
    evaluateAll (ds.map abstractWord) = evaluateAll ds := by
  induction ds with
  | nil => rfl
  | cons d ds ih => simp [evaluateAll, evaluate_abstractWord, ih]

end Expr

/-- The value of a node. -/
def Operator.call (op : Operator) (args : List Expr) (bits : Nat) : Except EvalError Value :=
  (Expr.node op args bits).evaluate

end AbstractBits
