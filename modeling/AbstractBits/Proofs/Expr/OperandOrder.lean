import AbstractBits.Proofs.AbstractValue.Involution
import AbstractBits.Proofs.AbstractValue.OperandOrder
import AbstractBits.Proofs.Expr.LatticeCall
import AbstractBits.Proofs.Expr.Soundness
/-!
# The order of the operands of a lattice operator

Operands are evaluated first, so that a call depends on their values only. Two abstract values of
one width are combined without their pending byte swaps and byte-swapped again if any was pending,
and none of this depends on the order; in any other case the call fails in both orders.

Results:
  * `call_lattice_eq_ok` — what a call makes of two abstract values of one width.
  * `exists_call_lattice_iff` — when a call has a value.
  * `lattice_call_comm` — unions and intersections come to the same in either order.
-/

namespace AbstractBits

/-! ## Outcomes -/

/-- Whether two evaluations come to the same: both of them fail, or their values are equal. -/
def SameOutcome : Except EvalError Value → Except EvalError Value → Prop
  | .ok v, .ok w => v.same w = true
  | .error _, .error _ => True
  | _, _ => False

theorem same_abstract {a b : AbstractValue} :
    (Value.abstract a).same (.abstract b) = true ↔ a.unnamed = b.unnamed := beq_iff_eq

/-- Evaluations that have values together come to the same if the values are equal. -/
theorem sameOutcome_of_iff {r s : Except EvalError Value} (h : (∃ v, r = .ok v) ↔ ∃ w, s = .ok w)
    (hsame : ∀ v w, r = .ok v → s = .ok w → v.same w = true) : SameOutcome r s := by
  cases r with
  | ok v =>
    obtain ⟨w, rfl⟩ := h.1 ⟨v, rfl⟩
    exact hsame v w rfl rfl
  | error e =>
    cases s with
    | ok w =>
      obtain ⟨v, hv⟩ := h.2 ⟨w, rfl⟩
      cases hv
    | error f => trivial

namespace Operator

variable {op : Operator} {a b : AbstractValue} {x y : Expr}

/-! ## Calls on values -/

/-- What a lattice operator makes of two abstract values of one width. -/
theorem call_lattice_eq_ok (h : op.isLattice = true) (ha : a.Valid) (hb : b.Valid)
    (hbits : a.bits = b.bits) (bits : Nat) :
    ∃ m, op.onValues a.unreversed b.unreversed = .ok m ∧ m.Valid ∧ m.bits = a.bits ∧
      op.call [.abstract a, .abstract b] bits =
        .ok (.abstract (if a.isReversed || b.isReversed then m.byteSwapped else m)) := by
  have hwidths : a.unreversed.bits = b.unreversed.bits := by
    rw [AbstractValue.bits_unreversed, AbstractValue.bits_unreversed, hbits]
  obtain ⟨m, hm, hretains⟩ := (combines_onValues h).succeeds _ _ (AbstractValue.valid_unreversed ha)
    (AbstractValue.valid_unreversed hb) hwidths
  have hmbits : m.bits = a.bits := hretains.width.trans (AbstractValue.bits_unreversed a)
  refine ⟨m, hm, hretains.valid, hmbits, ?_⟩
  rw [call_lattice h hm]
  split
  · rename_i hany
    have bytes : m.bits % 8 = 0 := by
      rw [hmbits]
      rcases Bool.or_eq_true_iff.1 hany with harev | hbrev
      · exact AbstractValue.bytes_of_isReversed ha harev
      · exact hbits ▸ AbstractValue.bytes_of_isReversed hb hbrev
    rw [AbstractValue.reverse_eq_ok hretains.valid bytes]
    rfl
  · rfl

/-- A lattice operator has a value for operands whose values it accepts. -/
theorem apply_of_call_pair {w : Value} {bits : Nat} (h : op.call [x, y] bits = .ok w) :
    ∃ u v, x.evaluate = .ok u ∧ y.evaluate = .ok v ∧ op.apply bits [u, v] = .ok w := by
  obtain ⟨vs, hvs, happly⟩ := Expr.values_of_node h
  cases Expr.evaluateAll_eq_ok.1 hvs with
  | cons hu htail =>
    cases htail with
    | cons hv htail =>
      cases htail
      exact ⟨_, _, hu, hv, happly⟩

/-- A call depends on the values of its operands only. -/
theorem call_of_evaluate {bits : Nat} (hx : x.evaluate = .ok (.abstract a))
    (hy : y.evaluate = .ok (.abstract b)) :
    op.call [x, y] bits = op.call [.abstract a, .abstract b] bits := by
  simp only [call, Expr.evaluate, Expr.evaluateAll, hx, hy, List.length_cons, List.length_nil]

/-- Only abstract values of one width are accepted. -/
theorem exists_of_lattice {u v w : Value} {bits : Nat} (h : op.isLattice = true) (hu : u.Valid)
    (hv : v.Valid) (happly : op.apply bits [u, v] = .ok w) :
    ∃ a b, u = .abstract a ∧ v = .abstract b ∧ a.bits = b.bits := by
  rw [apply_lattice h, applyLattice] at happly
  obtain ⟨r, hr, -⟩ := map_eq_ok.1 happly
  obtain ⟨m, hm, -⟩ := bind_eq_ok.1 hr
  obtain ⟨a', ha', hm⟩ := bind_eq_ok.1 hm
  obtain ⟨b', hb', hm⟩ := bind_eq_ok.1 hm
  cases u with
  | abstract a =>
    cases v with
    | abstract b =>
      rw [Value.unreversed_abstract] at ha' hb'
      cases ha'
      cases hb'
      have hwidths := (combines_onValues h).width _ _ m (AbstractValue.valid_unreversed hu)
        (AbstractValue.valid_unreversed hv) (ofOperation_eq_ok.1 hm)
      rw [AbstractValue.bits_unreversed, AbstractValue.bits_unreversed] at hwidths
      exact ⟨a, b, rfl, rfl, hwidths⟩
    | int | float | str | bool => cases hb'
  | int | float | str | bool => cases ha'

/-! ## Calls on operands -/

/-- A call of a lattice operator has a value exactly for operands that are abstract values of one
width. -/
theorem exists_call_lattice_iff (h : op.isLattice = true) (hx : x.Valid) (hy : y.Valid)
    (bits : Nat) :
    (∃ w, op.call [x, y] bits = .ok w) ↔
      ∃ a b, x.evaluate = .ok (.abstract a) ∧ y.evaluate = .ok (.abstract b) ∧ a.bits = b.bits := by
  constructor
  · rintro ⟨w, hw⟩
    obtain ⟨u, v, hu, hv, happly⟩ := apply_of_call_pair hw
    obtain ⟨a, b, rfl, rfl, hbits⟩ :=
      exists_of_lattice h (Expr.valid_evaluate hx hu) (Expr.valid_evaluate hy hv) happly
    exact ⟨a, b, hu, hv, hbits⟩
  · rintro ⟨a, b, hxa, hyb, hbits⟩
    have ha : a.Valid := Expr.valid_evaluate hx hxa
    have hb : b.Valid := Expr.valid_evaluate hy hyb
    obtain ⟨m, -, -, -, hcall⟩ := call_lattice_eq_ok h ha hb hbits bits
    exact ⟨_, (call_of_evaluate hxa hyb).trans hcall⟩

theorem commutes_onValues (h : op = .union ∨ op = .intersection) :
    AbstractValue.Commutes op.onValues := by
  rcases h with rfl | rfl
  · exact AbstractValue.commutes_union
  · exact AbstractValue.commutes_intersection

/-- Two abstract values of one width are united and intersected to equal values in either order. -/
theorem same_call_comm (h : op = .union ∨ op = .intersection) (ha : a.Valid) (hb : b.Valid)
    (hbits : a.bits = b.bits) (m n : Nat) :
    ∃ v w, op.call [.abstract a, .abstract b] m = .ok (.abstract v) ∧
      op.call [.abstract b, .abstract a] n = .ok (.abstract w) ∧ v.unnamed = w.unnamed := by
  have hlattice : op.isLattice = true := by rcases h with rfl | rfl <;> rfl
  have hwidths : a.unreversed.bits = b.unreversed.bits := by
    rw [AbstractValue.bits_unreversed, AbstractValue.bits_unreversed, hbits]
  obtain ⟨p, hp, -, -, hab⟩ := call_lattice_eq_ok hlattice ha hb hbits m
  obtain ⟨q, hq, -, -, hba⟩ := call_lattice_eq_ok hlattice hb ha hbits.symm n
  have hcomm := commutes_onValues h _ _ (AbstractValue.valid_unreversed ha)
    (AbstractValue.valid_unreversed hb) hwidths
  rw [hp, hq] at hcomm
  have hsame : p.unnamed = q.unnamed := (Except.ok.inj hcomm).symm
  refine ⟨_, _, hab, hba, ?_⟩
  rw [Bool.or_comm b.isReversed]
  split
  · exact AbstractValue.unnamed_byteSwapped_congr hsame
  · exact hsame

/-- A union and an intersection of two operands come to the same in either order: both calls fail,
or both have values that are equal. They have values exactly if the operands are abstract values of
one width, in whatever shapes and with whatever byte swaps pending. -/
theorem lattice_call_comm (h : op = .union ∨ op = .intersection) (hx : x.Valid) (hy : y.Valid)
    (bits : Nat) :
    SameOutcome (op.call [x, y] bits) (op.call [y, x] bits) ∧
      ((∃ w, op.call [x, y] bits = .ok w) ↔
        ∃ a b, x.evaluate = .ok (.abstract a) ∧ y.evaluate = .ok (.abstract b) ∧
          a.bits = b.bits) := by
  have hlattice : op.isLattice = true := by rcases h with rfl | rfl <;> rfl
  have hxy := exists_call_lattice_iff hlattice hx hy bits
  have hyx := exists_call_lattice_iff hlattice hy hx bits
  refine ⟨sameOutcome_of_iff ?_ fun v w hv hw => ?_, hxy⟩
  · rw [hxy, hyx]
    constructor
    · rintro ⟨a, b, ha, hb, hbits⟩
      exact ⟨b, a, hb, ha, hbits.symm⟩
    · rintro ⟨b, a, hb, ha, hbits⟩
      exact ⟨a, b, ha, hb, hbits.symm⟩
  · obtain ⟨a, b, hxa, hyb, hbits⟩ := hxy.1 ⟨v, hv⟩
    obtain ⟨p, q, hp, hq, hsame⟩ := same_call_comm h (Expr.valid_evaluate hx hxa : a.Valid)
      (Expr.valid_evaluate hy hyb : b.Valid) hbits bits bits
    rw [call_of_evaluate hxa hyb, hp] at hv
    rw [call_of_evaluate hyb hxa, hq] at hw
    cases hv
    cases hw
    exact same_abstract.2 hsame

/-- Two numbers with a pending byte swap and a reversed set of two numbers, united in either
order. -/
theorem union_of_swapped_comm :
    let x := Expr.abstract (.interval ⟨16, some ⟨256, 512, 256⟩, true, none⟩)
    let y :=
      Expr.node .reverse [.abstract (.set (.ofMembers 16 [.constant 16 772, .constant 16 2]))] 16
    SameOutcome (Operator.union.call [x, y] 16) (Operator.union.call [y, x] 16) ∧
      ∃ w, Operator.union.call [x, y] 16 = .ok w := by
  intro x y
  have hx : x.Valid := .abstract <|
    Interval.valid_pending (by decide) ⟨by decide, by decide⟩ (by decide) (by decide) (by decide)
  have hmembers : IntervalSet.Uniform 16 [.constant 16 772, .constant 16 2] := by
    refine IntervalSet.uniform_cons (Interval.valid_constant (by decide) 772) rfl ?_
    exact IntervalSet.uniform_cons (Interval.valid_constant (by decide) 2) rfl
      (IntervalSet.uniform_nil 16)
  have hy : y.Valid := .node 16 <| List.forall_mem_singleton.2 <| .abstract <|
    IntervalSet.valid_ofMembers (by decide) hmembers
  obtain ⟨hsame, hvalue⟩ := lattice_call_comm (.inl rfl) hx hy 16
  exact ⟨hsame, hvalue.2 ⟨_, _, rfl, rfl, rfl⟩⟩

end Operator

end AbstractBits
