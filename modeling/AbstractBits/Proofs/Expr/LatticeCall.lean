import AbstractBits.Expr.Evaluation
import AbstractBits.Proofs.Expr.Operands
/-!
# Lattice operators on operands with pending byte swaps

A lattice operator is given its operands without their pending byte swaps, and its result is
byte-swapped if any operand had one. With both byte swaps pending, or none, nothing is lost. With
one of them pending, the result is the byte-swapped image of a value in which the other operand is
not byte-swapped, and stands for that operand only as far as its byte-swapped places happen to be in
there.

Results:
  * `call_lattice` — a call in terms of the operation on abstract values.
  * `lattice_call_keeps_iff` — a call succeeds, and it keeps the places of its operands exactly if
    both or none of them have a byte swap pending or if the byte-swapped places are kept before the
    result is byte-swapped.
  * `intersection_loses_common_places` — a common place of two operands that their intersection
    loses.
-/

namespace AbstractBits

namespace Operator

variable {op : Operator} {a b : AbstractValue}

/-- What a lattice operator has to keep of its operands. -/
def kept : Operator → Kept
  | .intersection => .common
  | _ => .either

/-- The operation of a lattice operator on abstract values. -/
def onValues : Operator → AbstractValue → AbstractValue → Except OperationError AbstractValue
  | .intersection => AbstractValue.intersection
  | .widen => AbstractValue.widen
  | _ => AbstractValue.union

theorem combines_onValues (h : op.isLattice = true) :
    AbstractValue.Combines op.kept op.onValues := by
  cases op with
  | union => exact AbstractValue.combines_union
  | intersection => exact AbstractValue.combines_intersection
  | widen => exact AbstractValue.combines_widen
  | _ => cases h

theorem apply_lattice (h : op.isLattice = true) (bits : Nat) (args : List Value) :
    op.apply bits args = applyLattice op op.onValues args := by
  cases op with
  | union => rfl
  | intersection => rfl
  | widen => rfl
  | _ => cases h

/-- A call of a lattice operator in terms of its operation on abstract values. -/
theorem call_lattice (h : op.isLattice = true) {bits : Nat} {m : AbstractValue}
    (hm : op.onValues a.unreversed b.unreversed = .ok m) :
    op.call [.abstract a, .abstract b] bits =
      (if a.isReversed || b.isReversed then ofOperation m.reverse else .ok m).map .abstract := by
  have hargs : Expr.evaluateAll [.abstract a, .abstract b] = .ok [.abstract a, .abstract b] :=
    Expr.evaluateAll_map_ofValue [.abstract a, .abstract b]
  have hany : [Value.abstract a, .abstract b].any Value.isReversed =
      (a.isReversed || b.isReversed) := by
    simp [Value.isReversed]
  simp only [call, Expr.evaluate, List.length_cons, List.length_nil, hargs, apply_lattice h,
    applyLattice, Value.withUnreversed, List.map_cons, List.map_nil, Value.unreversed_abstract,
    hany]
  simp [Value.toAbstract, ofOperation_eq_ok.2 hm, bind, Except.bind]

/-- Of two operands with pending byte swaps, the stored ones stand for the byte-swapped places. -/
theorem denotes_swapped_of_pending {k : Kept} {m : AbstractValue} {place : Place} (ha : a.Valid)
    (hb : b.Valid) (hbits : a.bits = b.bits) (harev : a.isReversed = true)
    (hbrev : b.isReversed = true) (hretains : AbstractValue.Retains k a.unreversed b.unreversed m)
    (hv : k.Holds (a.Denotes place) (b.Denotes place)) : m.Denotes (place.swapped a.bits) := by
  refine hretains.denotes _ (hv.imp (fun hva => ?_) fun hvb => ?_)
  · rw [AbstractValue.unreversed, if_pos harev]
    exact AbstractValue.denotes_stored ha harev hva
  · rw [AbstractValue.unreversed, if_pos hbrev, hbits]
    exact AbstractValue.denotes_stored hb hbrev hvb

/-- A call of a lattice operator on operands of one width succeeds. It keeps what it has to keep
exactly if the byte swaps of both operands are pending or none is, or if the byte-swapped images of
the places to be kept are among those of the result before that is byte-swapped. -/
theorem lattice_call_keeps_iff (h : op.isLattice = true) (ha : a.Valid) (hb : b.Valid)
    (hbits : a.bits = b.bits) (bits : Nat) :
    ∃ m r, op.onValues a.unreversed b.unreversed = .ok m ∧
      op.call [.abstract a, .abstract b] bits = .ok (.abstract r) ∧
      ((∀ place, op.kept.Holds (a.Denotes place) (b.Denotes place) → r.Denotes place) ↔
        a.isReversed = b.isReversed ∨
          ∀ place, op.kept.Holds (a.Denotes place) (b.Denotes place) →
            m.Denotes (place.swapped a.bits)) := by
  have hwidths : a.unreversed.bits = b.unreversed.bits := by
    rw [AbstractValue.bits_unreversed, AbstractValue.bits_unreversed, hbits]
  obtain ⟨m, hm, hretains⟩ := (combines_onValues h).succeeds _ _ (AbstractValue.valid_unreversed ha)
    (AbstractValue.valid_unreversed hb) hwidths
  have hmbits : m.bits = a.bits := hretains.width.trans (AbstractValue.bits_unreversed a)
  cases hany : a.isReversed || b.isReversed with
  | false =>
    obtain ⟨harev, hbrev⟩ := Bool.or_eq_false_iff.1 hany
    refine ⟨m, m, hm, by rw [call_lattice h hm, hany]; rfl, ?_⟩
    have hkeeps := hretains.denotes
    simp only [AbstractValue.unreversed, harev, hbrev, Bool.false_eq_true, if_false] at hkeeps
    exact ⟨fun _ => .inl (harev.trans hbrev.symm), fun _ => hkeeps⟩
  | true =>
    have bytes : m.bits % 8 = 0 := by
      rw [hmbits]
      rcases Bool.or_eq_true_iff.1 hany with harev | hbrev
      · exact AbstractValue.bytes_of_isReversed ha harev
      · exact hbits ▸ AbstractValue.bytes_of_isReversed hb hbrev
    obtain ⟨r, hr⟩ := AbstractValue.exists_reverse hretains.valid bytes
    refine ⟨m, r, hm, by rw [call_lattice h hm, hany, if_pos rfl, hr]; rfl, ?_⟩
    have hresult (place : Place) :
        r.Denotes place ↔ place.offset < twoPow a.bits ∧ m.Denotes (place.swapped a.bits) :=
      hmbits ▸ AbstractValue.denotes_reverse_iff hretains.valid bytes hr
    constructor
    · intro hkeeps
      exact .inr fun place hv => ((hresult place).1 (hkeeps place hv)).2
    · intro hcondition place hv
      have hlt : place.offset < twoPow a.bits :=
        hv.or.elim (AbstractValue.lt_twoPow ha) fun hv => hbits ▸ AbstractValue.lt_twoPow hb hv
      refine (hresult place).2 ⟨hlt, ?_⟩
      rcases hcondition with hboth | hkept
      · have harev : a.isReversed = true := by
          rw [← hboth, Bool.or_self] at hany
          exact hany
        exact denotes_swapped_of_pending ha hb hbits harev (hboth ▸ harev) hretains hv
      · exact hkept place hv

/-- Two byte-swapped ranges, united by the operator. -/
theorem swapped_union_swapped_keeps :
    ∃ r, Operator.union.call [.abstract (.interval ⟨16, some ⟨256, 512, 256⟩, true, none⟩),
        .abstract (.interval ⟨16, some ⟨768, 1280, 256⟩, true, none⟩)] 16 = .ok (.abstract r) ∧
      r.Denotes (.number 1) ∧ r.Denotes (.number 5) := by
  have hleft : (AbstractValue.interval ⟨16, some ⟨256, 512, 256⟩, true, none⟩).Valid :=
    Interval.valid_pending (by decide) ⟨by decide, by decide⟩ (by decide) (by decide) (by decide)
  have hright : (AbstractValue.interval ⟨16, some ⟨768, 1280, 256⟩, true, none⟩).Valid :=
    Interval.valid_pending (by decide) ⟨by decide, by decide⟩ (by decide) (by decide) (by decide)
  have hlattice : Operator.union.isLattice = true := rfl
  obtain ⟨m, r, -, hcall, hiff⟩ := lattice_call_keeps_iff hlattice hleft hright rfl 16
  have hkeeps := hiff.2 (.inl rfl)
  exact ⟨r, hcall, hkeeps _ (.inl ⟨rfl, _, rfl, 256, by decide, by decide⟩),
    hkeeps _ (.inr ⟨rfl, _, rfl, 1280, by decide, by decide⟩)⟩

/-- A byte-swapped range of 256 and 512 and a range of 1 and 2 stand for the same numbers, but only
the first one has a byte swap pending: the operator intersects 256 and 512 with 1 and 2, which
leaves nothing. -/
theorem intersection_loses_common_places :
    ¬∀ a b r : AbstractValue, a.Valid → b.Valid → a.bits = b.bits →
      Operator.intersection.call [.abstract a, .abstract b] a.bits = .ok (.abstract r) →
      ∀ place, a.Denotes place ∧ b.Denotes place → r.Denotes place := by
  intro hall
  have hleft : (AbstractValue.interval ⟨16, some ⟨256, 512, 256⟩, true, none⟩).Valid :=
    Interval.valid_pending (by decide) ⟨by decide, by decide⟩ (by decide) (by decide) (by decide)
  have hright : (AbstractValue.interval (.ofRange 16 (some ⟨1, 2, 1⟩))).Valid :=
    Interval.valid_ofRange (by decide) (by decide) (by decide)
  have hmeet : Operator.intersection.onValues
      (AbstractValue.interval ⟨16, some ⟨256, 512, 256⟩, true, none⟩).unreversed
      (AbstractValue.interval (.ofRange 16 (some ⟨1, 2, 1⟩))).unreversed =
        .ok (.interval (.empty 16)) := by
    rfl
  have hcall : Operator.intersection.call
      [.abstract (.interval ⟨16, some ⟨256, 512, 256⟩, true, none⟩),
        .abstract (.interval (.ofRange 16 (some ⟨1, 2, 1⟩)))] 16
      = .ok (.abstract (.interval (.empty 16))) := by
    rw [call_lattice rfl hmeet]
    rfl
  have hempty := hall _ _ _ hleft hright rfl hcall (.number 1)
    ⟨⟨rfl, _, rfl, 256, by decide, by decide⟩, ⟨rfl, _, rfl, 1, by decide, by decide⟩⟩
  exact Interval.not_denotes_empty 16 1 hempty.2

end Operator

end AbstractBits
