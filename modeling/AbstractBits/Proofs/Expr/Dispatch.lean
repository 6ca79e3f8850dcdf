import AbstractBits.Proofs.Expr.Soundness
/-!
# Evaluating a node on the operator's own terms

Some operators are given their node as it stands and evaluate the operands themselves. A named
bit-vector takes the width of its node; a concatenation or an extension replaces words by their
intervals before; and a lattice operation counts its operands, evaluates one after the other, takes
off each pending byte swap on the way and puts the operands together again as operands, which its
body then reads. All others are given values. `dispatch` spells this out operator by operator; for
the value of a node it makes no difference to evaluating the operands from left to right and
applying the operator to their values, after the one check of the number of operands.

Results:
  * `mapM_evaluate` — one operand after the other is all operands from left to right.
  * `unifyReversed_eq` — the pass over the operands of a lattice operation evaluates them and puts
    off their pending byte swaps.
  * `call_eq_dispatch` — a node has the value that its operator gives it on its own terms.
-/

namespace AbstractBits

namespace Expr

/-! ## Operands from left to right -/

/-- The values of operands, one after the other. -/
theorem evaluateAll_cons (d : Expr) (ds : List Expr) :
    evaluateAll (d :: ds) = d.evaluate >>= fun v => evaluateAll ds >>= fun vs => .ok (v :: vs) := by
  rw [evaluateAll]
  cases d.evaluate with
  | error e => rfl
  | ok v => cases evaluateAll ds <;> rfl

theorem mapM_evaluate (args : List Expr) : args.mapM evaluate = evaluateAll args := by
  induction args with
  | nil =>
    rw [evaluateAll, List.mapM_nil]
    rfl
  | cons d ds ih =>
    rw [evaluateAll_cons, List.mapM_cons, ih]
    rfl

end Expr

namespace Operator

/-! ## Lattice operations -/

/-- The operands evaluated so far, without their pending byte swaps, and whether any had one. -/
structure Stripped where
  anyReversed : Bool
  operands : List Expr

/-- Evaluates one more operand and takes off its pending byte swap. -/
def stripNext (done : Stripped) (d : Expr) : Except EvalError Stripped := do
  match ← d.evaluate with
  | .abstract a =>
    if a.isReversed then .ok ⟨true, done.operands ++ [.abstract a.stored]⟩
    else .ok ⟨done.anyReversed, done.operands ++ [.abstract a]⟩
  | v => .ok ⟨done.anyReversed, done.operands ++ [.ofValue v]⟩

/-- Runs an operation on the operands without their pending byte swaps, and byte-swaps the result if
any had one. -/
def unifyReversed (args : List Expr) (body : List Expr → Except EvalError AbstractValue) :
    Except EvalError AbstractValue := do
  let stripped ← args.foldlM stripNext ⟨false, []⟩
  let result ← body stripped.operands
  if stripped.anyReversed then ofOperation result.reverse else .ok result

/-- An operand that is an abstract value already. -/
def latticeOperand (op : Operator) : Expr → Except EvalError AbstractValue
  | .abstract a => .ok a
  | d => .error (.notAccepted op d.typeText)

/-- What a lattice operation makes of its operands once they are evaluated. -/
def latticeBody (op : Operator)
    (f : AbstractValue → AbstractValue → Except OperationError AbstractValue) :
    List Expr → Except EvalError AbstractValue
  | [d, e] => do
    let a ← latticeOperand op d
    let b ← latticeOperand op e
    ofOperation (f a b)
  | args => .error (.arity op (.exactly 2) args.length)

/-- The number of operands is checked before any of them is evaluated. -/
def latticeNode (op : Operator)
    (f : AbstractValue → AbstractValue → Except OperationError AbstractValue) (args : List Expr) :
    Except EvalError Value :=
  if args.length != 2 then .error (.arity op (.exactly 2) args.length)
  else (unifyReversed args (latticeBody op f)).map .abstract

/-! ## All operators -/

/-- The value of a node on its operator's own terms. -/
def dispatch (op : Operator) (args : List Expr) (bits : Nat) : Except EvalError Value :=
  match op with
  | symbol => do applySymbol bits (← args.mapM Expr.evaluate)
  | concat => do applyConcat (← (args.map Expr.abstractWord).mapM Expr.evaluate)
  | signExtend => do
    applyExtension signExtend AbstractValue.signExtend
      (← (args.map Expr.abstractWord).mapM Expr.evaluate)
  | zeroExtend => do
    applyExtension zeroExtend AbstractValue.zeroExtend
      (← (args.map Expr.abstractWord).mapM Expr.evaluate)
  | union => latticeNode union AbstractValue.union args
  | intersection => latticeNode intersection AbstractValue.intersection args
  | widen => latticeNode widen AbstractValue.widen args
  | op => do op.apply bits (← args.mapM Expr.evaluate)

/-! ## Calls -/

variable {op : Operator} {args : List Expr} {bits : Nat}
  {f : AbstractValue → AbstractValue → Except OperationError AbstractValue}

/-- The value of a node from the values of its operands, after the one check that comes before
them. -/
theorem call_eq (op : Operator) (args : List Expr) (bits : Nat) :
    op.call args bits =
      if op.isLattice && args.length != 2 then .error (.arity op (.exactly 2) args.length)
      else Expr.evaluateAll args >>= op.apply bits := by
  rw [call, Expr.evaluate]
  split
  · rfl
  · cases Expr.evaluateAll args <;> rfl

theorem call_of_not_lattice (h : op.isLattice = false) (args : List Expr) (bits : Nat) :
    op.call args bits = Expr.evaluateAll args >>= op.apply bits := by
  rw [call_eq, h, Bool.false_and, if_neg Bool.false_ne_true]

theorem call_of_evaluateAll {vs : List Value} (h : op.isLattice = false)
    (hargs : Expr.evaluateAll args = .ok vs) : op.call args bits = op.apply bits vs := by
  rw [call_of_not_lattice h, hargs]
  rfl

/-! ## Lattice operations -/

theorem stripNext_eq (done : Stripped) (d : Expr) :
    stripNext done d = d.evaluate.map fun v =>
      ⟨done.anyReversed || v.isReversed, done.operands ++ [.ofValue v.unreversed]⟩ := by
  unfold stripNext
  cases d.evaluate with
  | error e => rfl
  | ok v =>
    cases v with
    | abstract a =>
      cases hrev : a.isReversed <;>
        simp [Value.isReversed, Value.unreversed, hrev, Expr.ofValue, Except.map, bind, Except.bind]
    | _ => simp [Value.isReversed, Value.unreversed, Except.map, bind, Except.bind]

/-- The pass over the operands gives up nothing of what evaluating them gives. -/
theorem foldlM_stripNext (args : List Expr) (done : Stripped) :
    args.foldlM stripNext done = (Expr.evaluateAll args).map fun vs =>
      ⟨done.anyReversed || vs.any Value.isReversed,
        done.operands ++ (vs.map Value.unreversed).map Expr.ofValue⟩ := by
  induction args generalizing done with
  | nil => simp [Expr.evaluateAll, Except.map, pure, Except.pure]
  | cons d ds ih =>
    rw [List.foldlM_cons, stripNext_eq, Expr.evaluateAll]
    cases d.evaluate with
    | error e => rfl
    | ok v =>
      show ds.foldlM stripNext _ = _
      rw [ih]
      cases Expr.evaluateAll ds with
      | error e => rfl
      | ok vs => simp [Except.map, Bool.or_assoc]

theorem unifyReversed_eq (args : List Expr) (body : List Expr → Except EvalError AbstractValue) :
    unifyReversed args body =
      Expr.evaluateAll args >>= fun vs =>
        Value.withUnreversed vs fun us => body (us.map Expr.ofValue) := by
  unfold unifyReversed
  rw [foldlM_stripNext]
  cases Expr.evaluateAll args with
  | error e => rfl
  | ok vs => simp [Value.withUnreversed, Except.map, bind, Except.bind]

theorem latticeOperand_ofValue (op : Operator) (v : Value) :
    latticeOperand op (.ofValue v) = v.toAbstract op := by
  cases v <;> rfl

/-- What a lattice operation makes of its operands without their pending byte swaps. -/
def latticeOf (op : Operator)
    (f : AbstractValue → AbstractValue → Except OperationError AbstractValue) :
    List Value → Except EvalError AbstractValue
  | [u, v] => do
    let a ← u.toAbstract op
    let b ← v.toAbstract op
    ofOperation (f a b)
  | args => .error (.arity op (.exactly 2) args.length)

theorem latticeOf_of_length {us : List Value} (h : us.length ≠ 2) :
    latticeOf op f us = .error (.arity op (.exactly 2) us.length) := by
  unfold latticeOf
  split
  · exact absurd rfl h
  · rfl

theorem applyLattice_eq (op : Operator)
    (f : AbstractValue → AbstractValue → Except OperationError AbstractValue) (vs : List Value) :
    applyLattice op f vs = (Value.withUnreversed vs (latticeOf op f)).map .abstract :=
  rfl

/-- On values that were made operands again, the body of a lattice operation is the operation on
these values. -/
theorem latticeBody_map_ofValue (us : List Value) :
    latticeBody op f (us.map Expr.ofValue) = latticeOf op f us := by
  match us with
  | [u, v] =>
    simp only [List.map_cons, List.map_nil, latticeBody, latticeOperand_ofValue, latticeOf]
  | [] => rfl
  | [u] => rfl
  | u :: v :: w :: us => simp [latticeBody, latticeOf]

theorem latticeNode_eq (op : Operator)
    (f : AbstractValue → AbstractValue → Except OperationError AbstractValue) (args : List Expr) :
    latticeNode op f args =
      if args.length != 2 then .error (.arity op (.exactly 2) args.length)
      else Expr.evaluateAll args >>= applyLattice op f := by
  unfold latticeNode
  split
  · rfl
  · rw [unifyReversed_eq]
    simp only [latticeBody_map_ofValue]
    cases Expr.evaluateAll args with
    | error e => rfl
    | ok vs => exact (applyLattice_eq op f vs).symm

/-! ## All operators -/

/-- A node has the value that its operator gives it on its own terms. -/
theorem call_eq_dispatch (op : Operator) (args : List Expr) (bits : Nat) :
    op.call args bits = op.dispatch args bits := by
  cases op with
  | union => rw [dispatch, latticeNode_eq, call_eq]; rfl
  | intersection => rw [dispatch, latticeNode_eq, call_eq]; rfl
  | widen => rw [dispatch, latticeNode_eq, call_eq]; rfl
  | concat =>
    rw [call_of_not_lattice rfl, dispatch, Expr.mapM_evaluate,
      Expr.evaluateAll_map_abstractWord]; rfl
  | signExtend =>
    rw [call_of_not_lattice rfl, dispatch, Expr.mapM_evaluate,
      Expr.evaluateAll_map_abstractWord]; rfl
  | zeroExtend =>
    rw [call_of_not_lattice rfl, dispatch, Expr.mapM_evaluate,
      Expr.evaluateAll_map_abstractWord]; rfl
  | symbol => rw [call_of_not_lattice rfl, dispatch, Expr.mapM_evaluate]; rfl
  | _ => rw [call_of_not_lattice rfl, dispatch, Expr.mapM_evaluate] <;> nofun

end Operator

end AbstractBits
