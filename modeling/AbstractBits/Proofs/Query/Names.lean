import AbstractBits.Proofs.Expr.Congruence
import AbstractBits.Query
/-!
# Names are labels

Names of intervals are for people. Trees that are equal, where names do not count, evaluate to equal
values or fail with the same error, and nothing that can be asked about equal values tells them
apart: samples, bounds, candidates and truth come out the same, and where a question has no answer
it is for the same reason.

Results:
  * `samples_eq`, `eval_eq`, `min_eq`, `max_eq`, `admits_eq`, `isSingle_eq` — questions about equal
    values.
  * `equal_trees_indistinguishable` — equal trees and the questions about equal values.
-/

namespace AbstractBits

open AbstractValue (eq_of_unnamed eq_of_unnamed_pair)

namespace ValueSet

theorem sampleRounds_unnamed (v : ValueSet) (rounds n : Nat) :
    v.unnamed.sampleRounds rounds n = v.sampleRounds rounds n := by
  induction rounds generalizing n with
  | zero => rfl
  | succ rounds ih => simp only [sampleRounds, sample_unnamed, ih]

end ValueSet

namespace Value

variable {u u' v v' : Value}

/-! ## Samples -/

theorem samples_unnamed (rounds n : Nat) (a : AbstractValue) :
    (abstract a.unnamed).samples rounds n = (abstract a).samples rounds n := by
  cases a with
  | interval x => rfl
  | set s =>
    exact congrArg (fun members => Except.ok (members.map Sample.bits)) (s.sample_unnamed n)
  | valueSet v =>
    exact congrArg (fun offsets => Except.ok (offsets.map Sample.bits))
      (v.sampleRounds_unnamed rounds n)

theorem samples_eq (h : Alike u u') (rounds n : Nat) :
    u.samples rounds n = u'.samples rounds n := by
  cases h with
  | abstract h =>
    exact eq_of_unnamed (f := fun a => (abstract a).samples rounds n) (samples_unnamed rounds n) h
  | _ => rfl

theorem eval_unnamed (rounds n : Nat) (a : AbstractValue) :
    (abstract a.unnamed).eval rounds n = (abstract a).eval rounds n := by
  cases a with
  | interval x => rfl
  | set s => simp only [AbstractValue.unnamed, eval, s.sample_unnamed]
  | valueSet v => simp only [AbstractValue.unnamed, eval, v.sampleRounds_unnamed]

theorem eval_eq (h : Alike u u') (rounds n : Nat) : u.eval rounds n = u'.eval rounds n := by
  cases h with
  | abstract h =>
    exact eq_of_unnamed (f := fun a => (abstract a).eval rounds n) (eval_unnamed rounds n) h
  | _ => rfl

/-! ## Bounds -/

theorem agree_hull? (h : Alike u u') :
    (u.abstract?.bind AbstractValue.hull?).map (·.unnamed) =
      (u'.abstract?.bind AbstractValue.hull?).map (·.unnamed) := by
  cases h with
  | abstract h =>
    exact eq_of_unnamed (f := fun a => a.hull?.map (·.unnamed)) AbstractValue.map_hull?_unnamed h
  | _ => rfl

theorem agree_bounds (query : Query) (h : Alike u u') :
    Agree (fun x y : Interval => x.unnamed = y.unnamed) (u.bounds query) (u'.bounds query) := by
  have hhull := agree_hull? h
  unfold bounds
  rw [h.typeText]
  cases hx : u.abstract?.bind AbstractValue.hull? with
  | none =>
    rw [hx, Option.map_none, eq_comm, Option.map_eq_none_iff] at hhull
    rw [hhull]
    exact .error _
  | some x =>
    rw [hx, Option.map_some, eq_comm, Option.map_eq_some_iff] at hhull
    obtain ⟨y, hy, hyx⟩ := hhull
    have hempty : y.isEmpty = x.isEmpty := by
      show y.unnamed.isEmpty = x.unnamed.isEmpty
      rw [hyx]
    rw [hy]
    show Agree _ (if x.isEmpty then _ else _) (if y.isEmpty then _ else _)
    rw [hempty]
    split
    · exact .error _
    · exact .ok hyx.symm

theorem min_eq (h : Alike u u') : u.min = u'.min :=
  ((agree_bounds .min h).map fun _ _ hxy => congrArg Interval.lower hxy).eq

theorem max_eq (h : Alike u u') : u.max = u'.max :=
  ((agree_bounds .max h).map fun _ _ hxy => congrArg Interval.upper hxy).eq

/-! ## Candidates -/

theorem agree_candidate (bits : Nat) (h : Alike v v') :
    Agree (fun x y : Interval => x.unnamed = y.unnamed) (v.candidate bits) (v'.candidate bits) := by
  have hbounds := agree_bounds .solution h
  cases h with
  | int i => exact .refl (R := fun x y : Interval => x.unnamed = y.unnamed) (fun _ => rfl) _
  | _ => exact hbounds

theorem admits_eq (hu : Alike u u') (hv : Alike v v') : u.admits v = u'.admits v' := by
  cases hu with
  | bool x =>
    unfold admits
    rw [hv.toVerdict]
  | @abstract a b hab =>
    have hbits : a.bits = b.bits := eq_of_unnamed AbstractValue.bits_unnamed hab
    refine Agree.eq ?_
    show Agree Eq (v.candidate a.bits >>= fun x => ofOperation (a.meets x))
      (v'.candidate b.bits >>= fun y => ofOperation (b.meets y))
    rw [hbits]
    refine (agree_candidate b.bits hv).bind fun x y hxy => (Agree.of_eq ?_).ofOperation
    rw [← AbstractValue.meets_unnamed a, hab, hxy, AbstractValue.meets_unnamed]
  | _ => rfl

/-! ## Truth and single values -/

theorem isSingle_eq (h : Alike u u') : u.isSingle = u'.isSingle := by
  cases h with
  | abstract h =>
    exact congrArg Except.ok (eq_of_unnamed AbstractValue.isSingle_unnamed h)
  | _ => rfl

end Value

/-- Equal trees evaluate to equal values or fail with the same error, and questions about equal
values have the same answers or none for the same reason. -/
theorem equal_trees_indistinguishable :
    (∀ x y : Expr, x.same y = true →
      (∃ u v, x.evaluate = .ok u ∧ y.evaluate = .ok v ∧ u.same v = true) ∨
        ∃ e, x.evaluate = .error e ∧ y.evaluate = .error e) ∧
    ∀ u u' v v' : Value, u.same u' = true → v.same v' = true →
      (∀ rounds n, u.samples rounds n = u'.samples rounds n ∧ u.eval rounds n = u'.eval rounds n) ∧
      u.min = u'.min ∧ u.max = u'.max ∧ u.admits v = u'.admits v' ∧
      u.hasTrue = u'.hasTrue ∧ u.hasFalse = u'.hasFalse ∧ u.isTrue = u'.isTrue ∧
      u.isFalse = u'.isFalse ∧ u.isSingle = u'.isSingle := by
  constructor
  · intro x y h
    have hagree := Expr.agree_evaluate h
    generalize x.evaluate = r, y.evaluate = s at hagree
    cases hagree with
    | ok huv => exact .inl ⟨_, _, rfl, rfl, huv.same⟩
    | error e => exact .inr ⟨e, rfl, rfl⟩
  · intro u u' v v' hu hv
    have hu := alike_of_same hu
    have hv := alike_of_same hv
    refine ⟨fun rounds n => ⟨Value.samples_eq hu rounds n, Value.eval_eq hu rounds n⟩,
      Value.min_eq hu, Value.max_eq hu, Value.admits_eq hu hv, ?_, ?_, ?_, ?_, Value.isSingle_eq hu⟩
    · rw [Value.hasTrue, hu.toVerdict, Value.hasTrue]
    · rw [Value.hasFalse, hu.toVerdict, Value.hasFalse]
    · rw [Value.isTrue, hu.toVerdict, Value.isTrue]
    · rw [Value.isFalse, hu.toVerdict, Value.isFalse]

/-- A concatenation of one operand keeps its name, by which the values of two equal trees can
differ. Their bounds are the same. -/
theorem kept_names_indistinguishable :
    let d (name : String) :=
      Expr.node .concat [.abstract (.interval ((Interval.constant 8 5).withName name))] 8
    (d "a").evaluate ≠ (d "b").evaluate ∧
      ∃ u v, (d "a").evaluate = .ok u ∧ (d "b").evaluate = .ok v ∧ u.same v = true ∧
        u.min = v.min := by
  intro d
  obtain ⟨htrees, hquestions⟩ := equal_trees_indistinguishable
  have hnames : (d "a").evaluate ≠ (d "b").evaluate := by
    intro h
    have hvalues : (Interval.constant 8 5).withName "a" = (Interval.constant 8 5).withName "b" :=
      AbstractValue.interval.inj (Value.abstract.inj (Except.ok.inj h))
    exact absurd hvalues (by decide)
  rcases htrees (d "a") (d "b") rfl with ⟨u, v, hu, hv, huv⟩ | ⟨e, he, -⟩
  · exact ⟨hnames, u, v, hu, hv, huv, (hquestions u v u v huv huv).2.1⟩
  · cases he

end AbstractBits
