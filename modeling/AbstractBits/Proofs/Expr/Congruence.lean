import AbstractBits.Proofs.Expr.Dispatch
import AbstractBits.Proofs.Expr.Names
/-!
# Equal trees

Every operator comes to the same on values that are equal one by one, and so do trees that are
equal. Most operators check the number of their operands first, which is the same for both runs, and
then go through the demands on each of them in turn. A choice compares its branches, where the
comparison itself must not tell equal values apart; this needs symmetry and transitivity of the
equality of numbers, which hold although a NaN does not equal itself. The induction is on both
trees, together with the lists of operands.

Results:
  * `Alike.same_congr` — equality does not tell equal values apart.
  * `apply_of_length` — a fixed number of operands is demanded before all else.
  * `agree_apply` — an operator on values that are equal one by one.
  * `agree_evaluate` — equal trees.
-/

namespace AbstractBits

open AbstractValue (eq_of_unnamed eq_of_unnamed_pair)

namespace Binary64

variable {x y z : Binary64}

theorem same_iff :
    x.same y = true ↔ x.isNaN = false ∧ y.isNaN = false ∧
    (x = y ∨ x.isZero = true ∧ y.isZero = true) := by
  obtain ⟨m⟩ := x
  obtain ⟨n⟩ := y
  simp only [same, Bool.and_eq_true, Bool.not_eq_true', Bool.or_eq_true, beq_iff_eq,
    Binary64.mk.injEq, and_assoc]

theorem same_symm (h : x.same y = true) : y.same x = true := by
  obtain ⟨hx, hy, hxy⟩ := same_iff.1 h
  exact same_iff.2 ⟨hy, hx, hxy.imp Eq.symm And.symm⟩

theorem same_trans (hxy : x.same y = true) (hyz : y.same z = true) : x.same z = true := by
  obtain ⟨hx, -, hxy⟩ := same_iff.1 hxy
  obtain ⟨-, hz, hyz⟩ := same_iff.1 hyz
  refine same_iff.2 ⟨hx, hz, ?_⟩
  rcases hxy with rfl | ⟨hxzero, hyzero⟩
  · exact hyz
  · rcases hyz with rfl | ⟨-, hzzero⟩
    · exact .inr ⟨hxzero, hyzero⟩
    · exact .inr ⟨hxzero, hzzero⟩

end Binary64

/-- Equality of two values is the same for two values that are equal to them. -/
theorem Alike.same_congr {u u' v v' : Value} (hu : Alike u u') (hv : Alike v v') :
    u.same v = u'.same v' := by
  cases hu with
  | float hx =>
    cases hv with
    | float hy =>
      refine Bool.eq_iff_iff.2 ⟨fun h => ?_, fun h => ?_⟩
      · exact Binary64.same_trans (Binary64.same_symm hx) (Binary64.same_trans h hy)
      · exact Binary64.same_trans hx (Binary64.same_trans h (Binary64.same_symm hy))
    | _ => rfl
  | abstract ha =>
    cases hv with
    | abstract hb =>
      simp only [Value.same]
      rw [ha, hb]
    | _ => rfl
  | _ => cases hv <;> rfl

namespace Operator

variable {us vs : List Value} {op : Operator} {bits : Nat}

/-! ## Numbers of operands -/

/-- How many operands an operator takes that demands a fixed number of them before all else. -/
def fixedArity? : Operator → Option Nat
  | reverse => some 1
  | shiftRight | signExtend | zeroExtend | valueSet => some 2
  | ite | extract => some 3
  | interval => some 4
  | _ => none

theorem applyExtension_of_length {f : Nat → AbstractValue → Except OperationError AbstractValue}
    (h : us.length ≠ 2) : applyExtension op f us = .error (.arity op (.exactly 2) us.length) := by
  unfold applyExtension
  split
  · exact absurd rfl h
  · rfl

theorem apply_of_length (op : Operator) {n : Nat} (bits : Nat) (hn : op.fixedArity? = some n)
    (h : us.length ≠ n) : op.apply bits us = .error (.arity op (.exactly n) us.length) := by
  cases op with
  | signExtend | zeroExtend =>
    cases hn
    exact applyExtension_of_length h
  | _ =>
    cases hn <;> simp only [apply, applyReverse, applyShiftRight, applyValueSet,
      applyIte, applyExtract, applyInterval] <;> split <;> first | rfl | exact absurd rfl h

/-! ## Truth values -/

theorem agree_and (h : AllAlike us vs) : Agree Alike (applyAnd us) (applyAnd vs) := by
  have hempty : us.isEmpty = vs.isEmpty := by
    cases h <;> rfl
  rw [applyAnd, applyAnd, hempty, h.toVerdicts]
  split
  · exact .error _
  · exact (Agree.of_eq rfl).map fun _ _ heq => heq ▸ .bool _

theorem agree_not (h : AllAlike us vs) : Agree Alike (applyNot us) (applyNot vs) := by
  rw [applyNot, applyNot, h.toVerdicts]
  refine Agree.bind_eq rfl fun ws => ?_
  match ws with
  | [w] => exact .ok (.bool _)
  | [] => exact .error _
  | _ :: _ :: _ => exact .error _

theorem agree_compare (c : Comparison) (h : AllAlike us vs) :
    Agree Alike (applyCompare c us) (applyCompare c vs) := by
  refine (agree_bringFront h).bind fun x y hxy => ?_
  have hbits : x.front.bits = y.front.bits := eq_of_unnamed AbstractValue.bits_unnamed hxy.front
  rw [hxy.swapped, hbits]
  refine (hxy.other.toAbstractOf _ _).bind fun a b hab => ?_
  rw [eq_of_unnamed_pair (f := AbstractValue.compare _)
    (AbstractValue.compare_unnamed · · _) hxy.front hab]
  exact (Agree.of_eq rfl).ofOperation.map fun _ _ heq => heq ▸ .bool _

/-- A union, an intersection or a widening of values that are the same but for names. -/
theorem agree_of_unnamed {f : AbstractValue → AbstractValue → Except OperationError AbstractValue}
    {a a' b b' : AbstractValue}
    (hf : ∀ a b, (f a.unnamed b.unnamed).map (·.unnamed) = (f a b).map (·.unnamed))
    (ha : Renamed a a') (hb : Renamed b b') :
    Agree Renamed (ofOperation (f a b)) (ofOperation (f a' b')) := by
  have hresult : (f a b).map (·.unnamed) = (f a' b').map (·.unnamed) :=
    eq_of_unnamed_pair (f := fun a b => (f a b).map (·.unnamed)) hf ha hb
  exact (Agree.of_map_eq hresult).ofOperation

theorem agree_branchTypes {yes yes' no no' : Value} (hyes : yes.typeText = yes'.typeText)
    (hno : no.typeText = no'.typeText) :
    Agree (ε := EvalError) Alike (.error (.branchTypes yes.typeText no.typeText))
      (.error (.branchTypes yes'.typeText no'.typeText)) := by
  rw [hyes, hno]
  exact .error _

theorem agree_ite (h : AllAlike us vs) : Agree Alike (applyIte us) (applyIte vs) := by
  refine agree_of_three (.arity ite (.exactly 3)) (fun _ => apply_of_length ite 0 rfl)
    (fun _ _ yes yes' no no' hcondition hyes hno => ?_) h
  refine Agree.bind_eq hcondition.toVerdict fun x => ?_
  rw [hyes.same_congr hno]
  split
  · exact .ok hyes
  split
  · exact .ok hno
  have htexts := agree_branchTypes hyes.typeText hno.typeText
  cases hyes with
  | abstract ha =>
    cases hno with
    | abstract hb =>
      exact (agree_of_unnamed AbstractValue.union_unnamed ha hb).map fun _ _ hab => .abstract hab
    | _ => exact htexts
  | bool v =>
    cases hno with
    | bool w => exact .ok (.bool _)
    | _ => exact htexts
  | _ => cases hno <;> exact htexts

/-! ## Construction -/

theorem agree_ofInterval (x : Except OperationError Interval) :
    Agree Alike (ofInterval x) (ofInterval x) :=
  (Agree.of_eq rfl).map fun _ _ heq => heq ▸ .abstract rfl

theorem applySymbol_of_length {name : String} (hsome : us ≠ []) (hother : us.length ≠ 3) :
    applySymbol bits (.str name :: us) = .error (.arity symbol .oneOrFour (us.length + 1)) := by
  unfold applySymbol
  split
  · rename_i heq
    exact absurd (List.cons.inj heq).2 hsome
  · rename_i heq
    exact absurd (congrArg List.length (List.cons.inj heq).2) hother
  · rename_i heq
    cases heq
  · rename_i heq
    cases heq
    rfl
  · rename_i hno heq
    cases heq
    exact (hno _ rfl).elim

theorem agree_symbol (h : AllAlike us vs) :
    Agree Alike (applySymbol bits us) (applySymbol bits vs) := by
  cases h with
  | nil => exact .error _
  | @cons u v us vs hname hrest =>
    have hnoName : Agree (ε := EvalError) Alike (.error (.notAName u.typeText))
        (.error (.notAName v.typeText)) := by
      rw [hname.typeText]
      exact .error _
    cases hname with
    | str name =>
      by_cases hnone : us = []
      · subst hnone
        cases hrest
        exact agree_ofInterval _
      by_cases hthree : us.length = 3
      · obtain ⟨_, _, _, rfl⟩ := List.length_eq_three.1 hthree
        rcases hrest with _ | ⟨hlower, _ | ⟨hupper, _ | ⟨hstride, _ | _⟩⟩⟩
        refine Agree.bind_eq (hlower.toField symbol bits) fun lower => ?_
        refine Agree.bind_eq (hupper.toField symbol bits) fun upper => ?_
        refine Agree.bind_eq (hstride.toField symbol bits) fun stride => ?_
        exact agree_ofInterval _
      · have hlength := hrest.length_eq
        have hsome : vs ≠ [] :=
          fun hnil => hnone (List.eq_nil_of_length_eq_zero (by rw [hlength, hnil]; rfl))
        rw [applySymbol_of_length hnone hthree, applySymbol_of_length hsome (hlength ▸ hthree),
          hlength]
        exact .error _
    | _ => exact hnoName

theorem agree_interval (h : AllAlike us vs) :
    Agree Alike (applyInterval us) (applyInterval vs) := by
  refine agree_of_arity 4 (.arity interval (.exactly 4)) (fun _ => apply_of_length interval 0 rfl)
    (fun hlength => ?_) h
  obtain ⟨_, _, _, _, rfl⟩ := List.length_eq_four.1 hlength
  rcases h with _ | ⟨hbits, _ | ⟨hstride, _ | ⟨hlower, _ | ⟨hupper, _ | _⟩⟩⟩⟩
  refine Agree.bind_eq (hbits.toBitCount interval) fun bits => ?_
  refine Agree.bind_eq (hstride.toField interval bits) fun stride => ?_
  refine Agree.bind_eq (hlower.toField interval bits) fun lower => ?_
  refine Agree.bind_eq (hupper.toField interval bits) fun upper => ?_
  exact agree_ofInterval _

/-- The offsets of one region, from offsets that are the same but for names. -/
theorem agree_insert {x y : Interval} (hxy : x.unnamed = y.unnamed) (bits : Nat) (region : String) :
    Agree (fun v w : ValueSet => v.unnamed = w.unnamed) (do (← ValueSet.new bits).insert region x)
      (do (← ValueSet.new bits).insert region y) := by
  refine Agree.bind_eq rfl fun v => Agree.of_map_eq ?_
  rw [← ValueSet.insert_unnamed, hxy, ValueSet.insert_unnamed]

theorem agree_valueSet (h : AllAlike us vs) :
    Agree Alike (applyValueSet us) (applyValueSet vs) := by
  refine agree_of_two (.arity valueSet (.exactly 2)) (fun _ => apply_of_length valueSet 0 rfl)
    (fun u v _ _ hregion hoffsets => ?_) h
  have hnoRegion : Agree (ε := EvalError) Alike (.error (.notARegion u.typeText))
      (.error (.notARegion v.typeText)) := by
    rw [hregion.typeText]
    exact .error _
  cases hregion with
  | str region =>
    refine (hoffsets.toAbstract valueSet).bind fun a b hab => ?_
    have hhull : a.hull?.map (·.unnamed) = b.hull?.map (·.unnamed) :=
      eq_of_unnamed (f := fun a => a.hull?.map (·.unnamed)) AbstractValue.map_hull?_unnamed hab
    have hshape : a.shape = b.shape := eq_of_unnamed AbstractValue.shape_unnamed hab
    have hbits : a.bits = b.bits := eq_of_unnamed AbstractValue.bits_unnamed hab
    rw [hshape, hbits]
    cases hx : a.hull? with
    | none =>
      cases hy : b.hull? with
      | none => exact .error _
      | some y => simp [hx, hy] at hhull
    | some x =>
      cases hy : b.hull? with
      | none => simp [hx, hy] at hhull
      | some y =>
        have hxy : x.unnamed = y.unnamed := by simpa [hx, hy] using hhull
        exact (agree_insert hxy b.bits region).ofOperation.map fun _ _ hvw =>
          .abstract (congrArg AbstractValue.valueSet hvw)
  | _ => exact hnoRegion

/-! ## Bit operations -/

theorem agree_shiftAmount {u v : Value} (h : Alike u v) (bits : Nat) :
    Agree Renamed (shiftAmount bits u) (shiftAmount bits v) := by
  cases h with
  | int i => exact .refl (R := Renamed) (fun _ => rfl) _
  | abstract h => exact .ok h
  | _ => exact .error _

/-- An operation that gives the same on values that are the same but for names. -/
theorem agree_of_eq {x y : Except OperationError AbstractValue} (h : x = y) :
    Agree Alike ((ofOperation x).map .abstract) ((ofOperation y).map .abstract) :=
  (Agree.of_eq h).ofOperation.map fun _ _ heq => heq ▸ .abstract rfl

theorem agree_shiftRight (h : AllAlike us vs) :
    Agree Alike (applyShiftRight us) (applyShiftRight vs) := by
  refine agree_of_two (.arity shiftRight (.exactly 2)) (fun _ => apply_of_length shiftRight 0 rfl)
    (fun _ _ _ _ hvalue hamount => ?_) h
  refine (hvalue.toAbstract shiftRight).bind fun a b hab => ?_
  have hbits : a.bits = b.bits := eq_of_unnamed AbstractValue.bits_unnamed hab
  rw [hbits]
  refine (agree_shiftAmount hamount b.bits).bind fun m n hmn => ?_
  exact agree_of_eq (eq_of_unnamed_pair AbstractValue.shiftRight_unnamed hab hmn)

theorem agree_concatAll {joined joined' : AbstractValue} (hjoined : Renamed joined joined')
    (h : AllAlike us vs) : Agree Renamed (concatAll joined us) (concatAll joined' vs) := by
  induction h generalizing joined joined' with
  | nil => exact .ok hjoined
  | cons huv _ ih =>
    refine (huv.toAbstract concat).bind fun a b hab => ?_
    have hconcat : joined.concat a = joined'.concat b :=
      eq_of_unnamed_pair AbstractValue.concat_unnamed hjoined hab
    exact (Agree.of_eq hconcat).ofOperation.bind fun r _ heq => ih (heq ▸ rfl)

theorem agree_concat (h : AllAlike us vs) : Agree Alike (applyConcat us) (applyConcat vs) := by
  cases h with
  | nil => exact .error _
  | cons hfirst hrest =>
    refine (hfirst.toAbstract concat).bind fun a b hab => ?_
    exact (agree_concatAll hab hrest).map fun _ _ hr => .abstract hr

theorem agree_extract (h : AllAlike us vs) : Agree Alike (applyExtract us) (applyExtract vs) := by
  refine agree_of_three (.arity extract (.exactly 3)) (fun _ => apply_of_length extract 0 rfl)
    (fun _ _ _ _ u v hhigh hlow hvalue => ?_) h
  have hleading : Value.rejectLeadingInteger [u] = Value.rejectLeadingInteger [v] := by
    cases hvalue <;> rfl
  refine Agree.bind_eq hleading fun _ => ?_
  refine (hvalue.toAbstract extract).bind fun a b hab => ?_
  refine Agree.bind_eq (hhigh.toBitCount extract) fun high => ?_
  refine Agree.bind_eq (hlow.toBitCount extract) fun low => ?_
  exact agree_of_eq (eq_of_unnamed (fun a => a.extract_unnamed high low) hab)

theorem agree_extension {f : Nat → AbstractValue → Except OperationError AbstractValue}
    (hf : ∀ total a, f total a.unnamed = f total a) (h : AllAlike us vs) :
    Agree Alike (applyExtension op f us) (applyExtension op f vs) := by
  refine agree_of_two (.arity op (.exactly 2)) (fun _ => applyExtension_of_length)
    (fun _ _ _ _ hadded hvalue => ?_) h
  refine Agree.bind_eq (hadded.toBitCount op) fun added => ?_
  refine (hvalue.toAbstract op).bind fun a b hab => ?_
  have hbits : a.bits = b.bits := eq_of_unnamed AbstractValue.bits_unnamed hab
  rw [hbits]
  split
  · exact agree_of_eq (eq_of_unnamed (hf _) hab)
  · exact .error _

theorem agree_reverse (h : AllAlike us vs) : Agree Alike (applyReverse us) (applyReverse vs) := by
  refine agree_of_one (.arity reverse (.exactly 1)) (fun _ => apply_of_length reverse 0 rfl)
    (fun _ _ hvalue => ?_) h
  refine (hvalue.toAbstract reverse).bind fun a b hab => ?_
  exact (agree_reversed hab).map fun _ _ hr => .abstract hr

/-! ## Lattice operations -/

variable {f : AbstractValue → AbstractValue → Except OperationError AbstractValue}

theorem agree_latticeOf
    (hf : ∀ a b, (f a.unnamed b.unnamed).map (·.unnamed) = (f a b).map (·.unnamed))
    (h : AllAlike us vs) : Agree Renamed (latticeOf op f us) (latticeOf op f vs) := by
  refine agree_of_two (.arity op (.exactly 2)) (fun _ => latticeOf_of_length)
    (fun _ _ _ _ hfirst hsecond => ?_) h
  refine (hfirst.toAbstract op).bind fun a a' ha => ?_
  exact (hsecond.toAbstract op).bind fun b b' hb => agree_of_unnamed hf ha hb

theorem agree_lattice
    (hf : ∀ a b, (f a.unnamed b.unnamed).map (·.unnamed) = (f a b).map (·.unnamed))
    (h : AllAlike us vs) : Agree Alike (applyLattice op f us) (applyLattice op f vs) := by
  rw [applyLattice_eq, applyLattice_eq]
  exact (agree_withUnreversed h fun _ _ h => agree_latticeOf hf h).map fun _ _ hr => .abstract hr

/-! ## All operators -/

/-- An operator comes to the same on values that are equal one by one. -/
theorem agree_apply (op : Operator) (bits : Nat) (h : AllAlike us vs) :
    Agree Alike (op.apply bits us) (op.apply bits vs) := by
  cases op with
  | and => exact agree_and h
  | not => exact agree_not h
  | compare c => exact agree_compare c h
  | ite => exact agree_ite h
  | symbol => exact agree_symbol h
  | shiftRight => exact agree_shiftRight h
  | concat => exact agree_concat h
  | extract => exact agree_extract h
  | signExtend => exact agree_extension (fun total a => a.signExtend_unnamed total) h
  | zeroExtend => exact agree_extension (fun total a => a.zeroExtend_unnamed total) h
  | reverse => exact agree_reverse h
  | union => exact agree_lattice AbstractValue.union_unnamed h
  | intersection => exact agree_lattice AbstractValue.intersection_unnamed h
  | widen => exact agree_lattice AbstractValue.widen_unnamed h
  | interval => exact agree_interval h
  | valueSet => exact agree_valueSet h

end Operator

/-! ## Trees -/

namespace Expr

variable {ds es : List Expr}

theorem length_of_sameAll (h : sameAll ds es = true) : ds.length = es.length := by
  induction ds generalizing es with
  | nil =>
    cases es with
    | nil => rfl
    | cons e es => cases h
  | cons d ds ih =>
    cases es with
    | nil => cases h
    | cons e es =>
      rw [sameAll, Bool.and_eq_true] at h
      rw [List.length_cons, List.length_cons, ih h.2]

mutual

/-- Equal trees evaluate to equal values, or fail with the same error. -/
theorem agree_evaluate : ∀ {x y : Expr}, x.same y = true → Agree Alike x.evaluate y.evaluate
  | int i, int j, h => .ok (alike_of_same h)
  | float x, float y, h => .ok (.float h)
  | str s, str t, h => .ok (alike_of_same h)
  | native b, native c, h => eq_of_beq h ▸ .ok (.bool _)
  | word v, word w, h => eq_of_beq h ▸ .ok (.abstract rfl)
  | abstract a, abstract b, h => .ok (alike_of_same h)
  | bool v, bool w, h => .ok (alike_of_same h)
  | foreign s, foreign t, h => eq_of_beq h ▸ .error _
  | node op args bits, node op' args' bits', h => by
    rw [same, Bool.and_eq_true, Bool.and_eq_true, beq_iff_eq, beq_iff_eq] at h
    obtain ⟨⟨rfl, rfl⟩, hargs⟩ := h
    show Agree Alike (op.call args bits) (op.call args' bits)
    rw [Operator.call_eq, Operator.call_eq, length_of_sameAll hargs]
    split
    · exact .error _
    · exact (agree_evaluateAll hargs).bind fun _ _ hvs => Operator.agree_apply op bits hvs

theorem agree_evaluateAll : ∀ {ds es : List Expr}, sameAll ds es = true →
    Agree AllAlike (evaluateAll ds) (evaluateAll es)
  | [], [], _ => .ok .nil
  | d :: ds, e :: es, h => by
    rw [sameAll, Bool.and_eq_true] at h
    rw [evaluateAll_cons, evaluateAll_cons]
    refine (agree_evaluate h.1).bind fun v w hvw => ?_
    exact (agree_evaluateAll h.2).bind fun vs ws hvs => .ok (.cons hvw hvs)

end

end Expr

end AbstractBits
