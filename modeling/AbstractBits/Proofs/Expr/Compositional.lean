import AbstractBits.Proofs.Expr.Dispatch
/-!
# Evaluation is compositional

Whatever an operator makes of its operands it makes of their values, so that a part of a tree may be
replaced by its value wherever it is; and where an operand has no value, the node fails for the
reason of the first such operand. The one check before the operands is the number of operands of a
lattice operation. The operators that evaluate their operands on their own terms are no exception
(`Operator.call_eq_dispatch`). For a part of a tree the induction is on the place of that part.

Results:
  * `evaluateAll_of_leftmost` — the first operand without a value decides how a list of operands
    fails.
  * `evaluate_fill` — a part of a tree may be replaced by anything with the same value.
  * `evaluation_compositional` — calls on operands in terms of the values of the operands.
-/

namespace AbstractBits

namespace Expr

/-- A tree with one part left out. -/
inductive Context where
  | hole
  | node (op : Operator) (before : List Expr) (inner : Context) (after : List Expr) (bits : Nat)

/-- The tree with the part filled in. -/
def Context.fill (part : Expr) : Context → Expr
  | hole => part
  | node op before inner after bits => .node op (before ++ inner.fill part :: after) bits

variable {op : Operator} {d e : Expr} {ds before after : List Expr} {vs : List Value} {bits : Nat}
  {failure : EvalError}

/-! ## Operands from left to right -/

/-- If an operand has no value and all before it have one, this is the operand for which the
operands fail. -/
theorem evaluateAll_of_leftmost (hbefore : ∀ p ∈ before, ∃ v, p.evaluate = .ok v)
    (hfailure : d.evaluate = .error failure) :
    evaluateAll (before ++ d :: after) = .error failure := by
  induction before with
  | nil => rw [List.nil_append, evaluateAll, hfailure]
  | cons p before ih =>
    obtain ⟨v, hv⟩ := hbefore p List.mem_cons_self
    rw [List.cons_append, evaluateAll, hv, ih fun q hq => hbefore q (List.mem_cons_of_mem p hq)]

/-- An operand may be replaced by one with the same value. -/
theorem evaluateAll_congr (h : d.evaluate = e.evaluate) :
    evaluateAll (before ++ d :: after) = evaluateAll (before ++ e :: after) := by
  induction before with
  | nil => rw [List.nil_append, List.nil_append, evaluateAll, evaluateAll, h]
  | cons p before ih => rw [List.cons_append, List.cons_append, evaluateAll, evaluateAll, ih]

/-! ## Nodes -/

theorem call_of_values (h : evaluateAll ds = .ok vs) :
    op.call ds bits = op.call (vs.map ofValue) bits := by
  have hlength : ds.length = vs.length := (evaluateAll_eq_ok.1 h).length_eq
  rw [Operator.call_eq, Operator.call_eq, h, evaluateAll_map_ofValue, List.length_map, hlength]

theorem call_of_failure (h : evaluateAll ds = .error failure) :
    op.call ds bits = .error
      (if op.isLattice && ds.length != 2 then .arity op (.exactly 2) ds.length else failure) := by
  rw [Operator.call_eq, h]
  split <;> rfl

/-- A part of a tree, at any depth, may be replaced by one with the same value. -/
theorem evaluate_fill (C : Context) (h : d.evaluate = e.evaluate) :
    (C.fill d).evaluate = (C.fill e).evaluate := by
  induction C with
  | hole => exact h
  | node op before inner after bits ih =>
    have hcall := Operator.call_eq op (before ++ inner.fill d :: after) bits
    rw [evaluateAll_congr ih, List.length_append, List.length_cons] at hcall
    have hcall' := Operator.call_eq op (before ++ inner.fill e :: after) bits
    rw [List.length_append, List.length_cons] at hcall'
    exact hcall.trans hcall'.symm

/-- A call whose operands all have values is the call on these values. Otherwise it fails for the
first operand that has none, unless it is a lattice operation whose number of operands is not two,
which is what such a call reports in any case. Operators that evaluate their operands on their own
terms call as all others do. A part of a tree may be replaced by its value, at any depth. -/
theorem evaluation_compositional :
    (∀ (op : Operator) (ds : List Expr) (bits : Nat),
      op.call ds bits = op.dispatch ds bits ∧
      (∀ vs, List.Forall₂ (fun d v => d.evaluate = .ok v) ds vs →
        op.call ds bits = op.call (vs.map ofValue) bits) ∧
      (∀ before d after failure, ds = before ++ d :: after →
        (∀ p ∈ before, ∃ v, p.evaluate = .ok v) → d.evaluate = .error failure →
        (op.isLattice = true → ds.length = 2) → op.call ds bits = .error failure) ∧
      (op.isLattice = true → ds.length ≠ 2 →
        op.call ds bits = .error (.arity op (.exactly 2) ds.length))) ∧
    ∀ (C : Context) (d : Expr) (v : Value), d.evaluate = .ok v →
      (C.fill d).evaluate = (C.fill (ofValue v)).evaluate := by
  constructor
  · intro op ds bits
    refine ⟨Operator.call_eq_dispatch op ds bits, ?_, ?_, ?_⟩
    · intro vs hvs
      exact call_of_values (evaluateAll_eq_ok.2 hvs)
    · rintro before d after failure rfl hbefore hfailure hcount
      rw [call_of_failure (evaluateAll_of_leftmost hbefore hfailure), if_neg]
      simpa using hcount
    · intro hlattice hcount
      rw [Operator.call_eq, if_pos (by simp [hlattice, hcount])]
  · intro C d v hv
    exact evaluate_fill C (hv.trans (evaluate_ofValue v).symm)

/-- 256 and 512, byte-swapped, as a part of a tree and as its value, in a union with a word and
below a field; a union that fails for its first operand, and one that has too few of them. -/
theorem swapped_part_replaced :
    let swapped := node .reverse [abstract (.interval (.ofRange 16 (some ⟨256, 512, 256⟩)))] 16
    let value := Value.abstract (.interval ⟨16, some ⟨256, 512, 256⟩, true, none⟩)
    Operator.union.call [swapped, word ⟨16, 1, by decide, by decide⟩] 16 =
        Operator.union.call [ofValue value, abstract (.interval (.constant 16 1))] 16 ∧
      Operator.union.call [node .not [int 1] 1, foreign "f"] 16 = .error (.notATruthValue "int") ∧
      Operator.union.call [foreign "f"] 16 = .error (.arity .union (.exactly 2) 1) ∧
      (node .extract [int 7, int 0, swapped] 8).evaluate =
        (node .extract [int 7, int 0, ofValue value] 8).evaluate := by
  intro swapped value
  obtain ⟨hcall, hpart⟩ := evaluation_compositional
  have hvalues := (hcall .union [swapped, word ⟨16, 1, by decide, by decide⟩] 16).2.1
    [value, .abstract (.interval (.constant 16 1))] (.cons rfl (.cons rfl .nil))
  have hfirst :=
    (hcall .union [node .not [int 1] 1, foreign "f"] 16).2.2.1 []
      (node .not [int 1] 1) [foreign "f"]
    (.notATruthValue "int") rfl nofun rfl fun _ => rfl
  have hcount := (hcall .union [foreign "f"] 16).2.2.2 rfl (by decide)
  exact ⟨hvalues, hfirst, hcount,
    hpart (.node .extract [int 7, int 0] .hole [] 8) swapped value rfl⟩

end Expr

end AbstractBits
