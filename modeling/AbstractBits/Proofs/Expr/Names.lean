import Mathlib.Data.List.Forall2
import AbstractBits.Expr.Evaluation
import AbstractBits.Proofs.AbstractValue.Names
/-!
# Names in expressions

Two runs on operands that are equal, which names of intervals do not enter into, come to the same:
they fail with the same error or give equal values. Equality of values is no equivalence, as a NaN
does not equal itself, so that two runs are related step by step and not each to a run without
names. Each demand on an operand has one lemma here, from which each operator gets its own.

Results:
  * `Agree` — two runs that may fail come to the same up to a relation of their results.
  * `agree_of_arity`, `agree_of_one`, `agree_of_two`, `agree_of_three` — a demanded number of
    operands.
  * `Alike.toAbstract`, `Alike.toAbstractOf`, `agree_bringFront`, `agree_withUnreversed` — demands
    on operands.
-/

namespace AbstractBits

/-! ## Two runs -/

/-- Two runs come to the same: to the same error, or to results that are related. -/
inductive Agree {ε α β : Type} (R : α → β → Prop) : Except ε α → Except ε β → Prop where
  | ok {x : α} {y : β} (h : R x y) : Agree R (.ok x) (.ok y)
  | error (e : ε) : Agree R (.error e) (.error e)

namespace Agree

variable {ε α β γ δ : Type} {R : α → β → Prop} {S : γ → δ → Prop} {x : Except ε α} {y : Except ε β}

theorem bind {f : α → Except ε γ} {g : β → Except ε δ} (h : Agree R x y)
    (hfg : ∀ a b, R a b → Agree S (f a) (g b)) : Agree S (x >>= f) (y >>= g) := by
  cases h with
  | ok hab => exact hfg _ _ hab
  | error e => exact .error e

/-- What follows the same result may depend on it. -/
theorem bind_eq {x y : Except ε α} {f : α → Except ε γ} {g : α → Except ε δ} (h : x = y)
    (hfg : ∀ a, Agree S (f a) (g a)) : Agree S (x >>= f) (y >>= g) := by
  subst h
  cases x with
  | ok a => exact hfg a
  | error e => exact .error e

theorem map {f : α → γ} {g : β → δ} (h : Agree R x y) (hfg : ∀ a b, R a b → S (f a) (g b)) :
    Agree S (x.map f) (y.map g) := by
  cases h with
  | ok hab => exact .ok (hfg _ _ hab)
  | error e => exact .error e

theorem refl {R : α → α → Prop} (hR : ∀ a, R a a) (x : Except ε α) : Agree R x x := by
  cases x with
  | ok a => exact .ok (hR a)
  | error e => exact .error e

/-- A run and the same run again. -/
theorem of_eq {x y : Except ε α} (h : x = y) : Agree Eq x y := h ▸ refl (fun _ => rfl) x

theorem eq {x y : Except ε α} (h : Agree Eq x y) : x = y := by
  cases h with
  | ok hab => rw [hab]
  | error e => rfl

theorem of_map_eq {f : α → γ} {x y : Except ε α} (h : x.map f = y.map f) :
    Agree (fun a b => f a = f b) x y := by
  cases x with
  | error e =>
    cases y with
    | error e' =>
      cases h
      exact .error e
    | ok b => cases h
  | ok a =>
    cases y with
    | error e => cases h
    | ok b => exact .ok (Except.ok.inj h)

theorem ofOperation {x : Except OperationError α} {y : Except OperationError β} (h : Agree R x y) :
    Agree R (ofOperation x) (ofOperation y) := by
  cases h with
  | ok hab => exact .ok hab
  | error e => exact .error (EvalError.operation e)

end Agree

/-! ## Equal values -/

/-- Whether two abstract values are the same but for names. -/
abbrev Renamed (a b : AbstractValue) : Prop := a.unnamed = b.unnamed

/-- Equality of values, by their kinds. -/
inductive Alike : Value → Value → Prop where
  | int (i : Int) : Alike (.int i) (.int i)
  | float {x y : Binary64} (h : x.same y = true) : Alike (.float x) (.float y)
  | str (s : String) : Alike (.str s) (.str s)
  | abstract {a b : AbstractValue} (h : Renamed a b) : Alike (.abstract a) (.abstract b)
  | bool (v : Verdict) : Alike (.bool v) (.bool v)

theorem Alike.same {u v : Value} (h : Alike u v) : u.same v = true := by
  cases h with
  | float h => exact h
  | abstract h => exact beq_iff_eq.2 h
  | _ => exact beq_self_eq_true _

theorem alike_of_same : ∀ {u v : Value}, u.same v = true → Alike u v
  | .int i, .int _, h => eq_of_beq h ▸ .int i
  | .float _, .float _, h => .float h
  | .str s, .str _, h => eq_of_beq h ▸ .str s
  | .abstract _, .abstract _, h => .abstract (eq_of_beq h)
  | .bool v, .bool _, h => eq_of_beq h ▸ .bool v

/-! ## Demands on operands -/

/-- Two lists of values that are equal one by one. -/
abbrev AllAlike (us vs : List Value) : Prop := List.Forall₂ Alike us vs

section Arity

variable {α : Type} {R : α → α → Prop} {f : List Value → Except EvalError α} {us vs : List Value}

/-- What refuses a wrong number of operands by that number comes to the same on equal operands if it
does so on the right number of them. -/
theorem agree_of_arity (n : Nat) (failure : Nat → EvalError)
    (hother : ∀ us, us.length ≠ n → f us = .error (failure us.length))
    (hn : us.length = n → Agree R (f us) (f vs)) (h : AllAlike us vs) : Agree R (f us) (f vs) := by
  by_cases hlength : us.length = n
  · exact hn hlength
  · rw [hother us hlength, hother vs (h.length_eq ▸ hlength), h.length_eq]
    exact .error _

theorem agree_of_one (failure : Nat → EvalError)
    (hother : ∀ us, us.length ≠ 1 → f us = .error (failure us.length))
    (hone : ∀ u v, Alike u v → Agree R (f [u]) (f [v])) (h : AllAlike us vs) :
    Agree R (f us) (f vs) := by
  refine agree_of_arity 1 failure hother (fun hlength => ?_) h
  obtain ⟨u, rfl⟩ := List.length_eq_one_iff.1 hlength
  rcases h with _ | ⟨huv, _ | _⟩
  exact hone _ _ huv

theorem agree_of_two (failure : Nat → EvalError)
    (hother : ∀ us, us.length ≠ 2 → f us = .error (failure us.length))
    (htwo : ∀ u v u' v', Alike u v → Alike u' v' → Agree R (f [u, u']) (f [v, v']))
    (h : AllAlike us vs) : Agree R (f us) (f vs) := by
  refine agree_of_arity 2 failure hother (fun hlength => ?_) h
  obtain ⟨u, u', rfl⟩ := List.length_eq_two.1 hlength
  rcases h with _ | ⟨huv, _ | ⟨huv', _ | _⟩⟩
  exact htwo _ _ _ _ huv huv'

theorem agree_of_three (failure : Nat → EvalError)
    (hother : ∀ us, us.length ≠ 3 → f us = .error (failure us.length))
    (hthree : ∀ u v u' v' u'' v'', Alike u v → Alike u' v' → Alike u'' v'' →
      Agree R (f [u, u', u'']) (f [v, v', v''])) (h : AllAlike us vs) : Agree R (f us) (f vs) := by
  refine agree_of_arity 3 failure hother (fun hlength => ?_) h
  obtain ⟨u, u', u'', rfl⟩ := List.length_eq_three.1 hlength
  rcases h with _ | ⟨huv, _ | ⟨huv', _ | ⟨huv'', _ | _⟩⟩⟩
  exact hthree _ _ _ _ _ _ huv huv' huv''

end Arity

variable {u v : Value} {us vs : List Value} {op : Operator}

theorem Alike.typeText (h : Alike u v) : u.typeText = v.typeText := by
  cases h with
  | @abstract a b h =>
    show a.typeText = b.typeText
    refine AbstractValue.eq_of_unnamed (fun a => ?_) h
    cases a <;> rfl
  | _ => rfl

theorem Alike.toAbstract (h : Alike u v) (op : Operator) :
    Agree Renamed (u.toAbstract op) (v.toAbstract op) := by
  cases h with
  | abstract h => exact .ok h
  | _ => exact .error _

theorem Alike.toInt (h : Alike u v) (op : Operator) : u.toInt op = v.toInt op := by
  have htext := h.typeText
  cases h with
  | abstract h => exact congrArg (fun text => Except.error (EvalError.notAnInteger op text)) htext
  | _ => rfl

theorem Alike.toBitCount (h : Alike u v) (op : Operator) : u.toBitCount op = v.toBitCount op := by
  rw [Value.toBitCount, h.toInt op, Value.toBitCount]

theorem Alike.toField (h : Alike u v) (op : Operator) (bits : Nat) :
    Operator.toField op bits u = Operator.toField op bits v := by
  rw [Operator.toField, h.toInt op, Operator.toField]

theorem Alike.toVerdict (h : Alike u v) : u.toVerdict = v.toVerdict := by
  have htext := h.typeText
  cases h with
  | abstract h => exact congrArg (fun text => Except.error (EvalError.notATruthValue text)) htext
  | _ => rfl

theorem AllAlike.toVerdicts (h : AllAlike us vs) : Value.toVerdicts us = Value.toVerdicts vs := by
  unfold Value.toVerdicts
  induction h with
  | nil => rfl
  | cons huv _ ih => rw [List.mapM_cons, List.mapM_cons, huv.toVerdict, ih]

theorem Alike.toAbstractOf (h : Alike u v) (op : Operator) (bits : Nat) :
    Agree Renamed (u.toAbstractOf op bits) (v.toAbstractOf op bits) := by
  cases h with
  | int i => exact (Agree.of_eq rfl).map fun _ _ heq => heq ▸ rfl
  | abstract h => exact .ok h
  | _ => exact .error _

/-- Whether the first abstract operand and the other one are equal to those of a second run. -/
structure FrontedAlike (x y : Value.Fronted) : Prop where
  front : Renamed x.front y.front
  other : Alike x.other y.other
  swapped : x.swapped = y.swapped

theorem bringFront_of_length (h : us.length ≠ 2) :
    Value.bringFront us = .error (.notAPair us.length) := by
  unfold Value.bringFront
  split
  · exact absurd rfl h
  · exact absurd rfl h
  · exact absurd rfl h
  · rfl

theorem agree_bringFront (h : AllAlike us vs) :
    Agree FrontedAlike (Value.bringFront us) (Value.bringFront vs) := by
  refine agree_of_two .notAPair (fun _ => bringFront_of_length) (fun _ _ _ _ hfirst hsecond => ?_) h
  have hother := hfirst
  cases hfirst with
  | abstract hfront => exact .ok ⟨hfront, hsecond, rfl⟩
  | _ =>
    cases hsecond with
    | abstract hfront => exact .ok ⟨hfront, hother, rfl⟩
    | _ => exact .error _

theorem Alike.isReversed (h : Alike u v) : u.isReversed = v.isReversed := by
  cases h with
  | abstract h => exact AbstractValue.eq_of_unnamed AbstractValue.isReversed_unnamed h
  | _ => rfl

theorem Alike.unreversed (h : Alike u v) : Alike u.unreversed v.unreversed := by
  have hrev := h.isReversed
  cases h with
  | @abstract a b h =>
    have hstored : Renamed a.stored b.stored :=
      AbstractValue.eq_of_unnamed (f := fun a => a.stored.unnamed) AbstractValue.unnamed_stored h
    show Alike (if a.isReversed then _ else _) (if b.isReversed then _ else _)
    rw [show a.isReversed = b.isReversed from hrev]
    split
    · exact .abstract hstored
    · exact .abstract h
  | float h => exact .float h
  | int i => exact .int i
  | str s => exact .str s
  | bool v => exact .bool v

theorem AllAlike.any_isReversed (h : AllAlike us vs) :
    us.any Value.isReversed = vs.any Value.isReversed := by
  induction h with
  | nil => rfl
  | cons huv _ ih => rw [List.any_cons, List.any_cons, huv.isReversed, ih]

theorem agree_reversed {a b : AbstractValue} (h : Renamed a b) :
    Agree Renamed (ofOperation a.reverse) (ofOperation b.reverse) := by
  have hreverse : a.reverse.map (·.unnamed) = b.reverse.map (·.unnamed) :=
    AbstractValue.eq_of_unnamed (f := fun a => a.reverse.map (·.unnamed))
      AbstractValue.reverse_unnamed h
  exact (Agree.of_map_eq hreverse).ofOperation

theorem agree_withUnreversed {f : List Value → Except EvalError AbstractValue} (h : AllAlike us vs)
    (hf : ∀ us vs, AllAlike us vs → Agree Renamed (f us) (f vs)) :
    Agree Renamed (Value.withUnreversed us f) (Value.withUnreversed vs f) := by
  have hstripped : AllAlike (us.map Value.unreversed) (vs.map Value.unreversed) := by
    rw [AllAlike, List.forall₂_map_left_iff, List.forall₂_map_right_iff]
    exact h.imp fun _ _ huv => huv.unreversed
  refine (hf _ _ hstripped).bind fun a b hab => ?_
  rw [h.any_isReversed]
  split
  · exact agree_reversed hab
  · exact .ok hab

end AbstractBits
