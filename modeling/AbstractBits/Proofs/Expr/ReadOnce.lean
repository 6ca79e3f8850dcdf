import AbstractBits.Proofs.Expr.Dispatch
/-!
# Trees of truth values

In a tree of conjunctions, negations and choices over truth values every leaf is read once, and what
one operand can be does not depend on what the others are. So nothing is lost when a part is
replaced by its verdict: the verdict of a tree admits exactly the truth values that the tree can
have when each leaf is one of the values it admits. The induction is on the tree, with one lemma per
operator for a node over parts with exact verdicts.

Results:
  * `mem_outcomes_foldl_and_always`, `mem_outcomes_chosen` — what a conjunction of many and a choice
    admit.
  * `hasVerdict_and`, `hasVerdict_not`, `hasVerdict_ite` — a node over parts with exact verdicts has
    one.
  * `boolean_evaluate_exact` — a tree of truth values has a verdict, which admits exactly what the
    tree can be.
-/

namespace AbstractBits

namespace Verdict

variable {vs : List Verdict} {b : Bool}

/-- A conjunction of many admits what comes out for some choice of a truth value from each. -/
theorem mem_outcomes_foldl_and_always :
    b ∈ (vs.foldl and .always).outcomes ↔
      ∃ bs, List.Forall₂ (fun v b => b ∈ v.outcomes) vs bs ∧ bs.all id = b := by
  rw [mem_outcomes_foldl_and_iff]
  simp [outcomes]

/-- The verdict of a choice between two verdicts. -/
def chosen (v yes no : Verdict) : Verdict :=
  if !v.hasFalse || yes == no then yes else if !v.hasTrue then no else yes.join no

theorem mem_outcomes_chosen (v yes no : Verdict) (b : Bool) :
    b ∈ (v.chosen yes no).outcomes ↔ ∃ c ∈ v.outcomes, b ∈ (if c then yes else no).outcomes := by
  cases v <;> cases yes <;> cases no <;> cases b <;> decide

end Verdict

namespace Expr

/-- The trees of conjunctions, negations and choices over truth values. -/
inductive Boolean : Expr → Prop where
  | native (b : Bool) : Boolean (native b)
  | bool (v : Verdict) : Boolean (bool v)
  | and {args : List Expr} (bits : Nat) (some : args ≠ []) (parts : ∀ d ∈ args, Boolean d) :
      Boolean (node .and args bits)
  | not {d : Expr} (bits : Nat) (part : Boolean d) : Boolean (node .not [d] bits)
  | ite {condition yes no : Expr} (bits : Nat) (decides : Boolean condition) (first : Boolean yes)
      (second : Boolean no) : Boolean (node .ite [condition, yes, no] bits)

/-- The operand evaluates to a verdict that admits exactly the truth values that the operand can
be. -/
structure HasVerdict (d : Expr) (v : Verdict) : Prop where
  value : d.evaluate = .ok (.bool v)
  exact : ∀ c, d.Yields c ↔ ∃ b ∈ v.outcomes, c = .truth b

variable {d condition yes no : Expr} {ds : List Expr} {v x y z : Verdict} {vs : List Verdict}
  {cs : List Concrete} {c : Concrete} {bits : Nat}

/-! ## Operands -/

theorem evaluateAll_of_hasVerdict (h : List.Forall₂ HasVerdict ds vs) :
    evaluateAll ds = .ok (vs.map .bool) := by
  rw [evaluateAll_eq_ok, List.forall₂_map_right_iff]
  exact h.imp fun _ _ hd => hd.value

/-- What operands with exact verdicts can be: one truth value for each, from what the verdict
admits. -/
theorem forall₂_yields_iff (h : List.Forall₂ HasVerdict ds vs) :
    List.Forall₂ Yields ds cs ↔
      ∃ bs : List Bool, cs = bs.map .truth ∧ List.Forall₂ (fun v b => b ∈ v.outcomes) vs bs := by
  induction h generalizing cs with
  | nil =>
    simp only [List.forall₂_nil_left_iff, exists_eq_right, List.map_nil]
  | @cons d v ds vs hd _ ih =>
    rw [List.forall₂_cons_left_iff]
    constructor
    · rintro ⟨_, rest, hc, hrest, rfl⟩
      obtain ⟨b, hb, rfl⟩ := (hd.exact _).1 hc
      obtain ⟨bs, rfl, hbs⟩ := ih.1 hrest
      exact ⟨b :: bs, rfl, .cons hb hbs⟩
    · rintro ⟨picked, rfl, hpicked⟩
      obtain ⟨b, bs, hb, hbs, rfl⟩ := List.forall₂_cons_left_iff.1 hpicked
      exact ⟨.truth b, bs.map .truth, (hd.exact _).2 ⟨b, hb, rfl⟩, ih.2 ⟨bs, rfl, hbs⟩, rfl⟩

theorem exists_forall₂_hasVerdict (h : ∀ d ∈ ds, ∃ v, d.HasVerdict v) :
    ∃ vs, List.Forall₂ HasVerdict ds vs := by
  induction ds with
  | nil => exact ⟨[], .nil⟩
  | cons d ds ih =>
    obtain ⟨v, hv⟩ := h d List.mem_cons_self
    obtain ⟨vs, hvs⟩ := ih fun e he => h e (List.mem_cons_of_mem d he)
    exact ⟨v :: vs, .cons hv hvs⟩

/-! ## Nodes -/

theorem step_and_iff :
    Concrete.Step .and cs c ↔ ∃ bs : List Bool, cs = bs.map .truth ∧ c = .truth (bs.all id) := by
  constructor
  · intro h
    cases h with
    | and bs => exact ⟨bs, rfl, rfl⟩
  · rintro ⟨bs, rfl, rfl⟩
    exact .and bs

theorem hasVerdict_and (hne : ds ≠ []) (h : List.Forall₂ HasVerdict ds vs) :
    (node .and ds bits).HasVerdict (vs.foldl Verdict.and .always) where
  value := by
    have hvs : vs.map Value.bool ≠ [] := by
      intro hnil
      rw [List.map_eq_nil_iff] at hnil
      rw [hnil, List.forall₂_nil_right_iff] at h
      exact hne h
    have hcall := Operator.call_of_not_lattice (rfl : Operator.and.isLattice = false) ds bits
    rw [evaluateAll_of_hasVerdict h] at hcall
    refine hcall.trans ?_
    show Operator.applyAnd (vs.map .bool) = _
    rw [Operator.applyAnd, if_neg (by simpa using hvs), Value.toVerdicts_eq_ok.2 rfl]
    rfl
  exact c := by
    rw [yields_node]
    simp only [forall₂_yields_iff h, step_and_iff]
    constructor
    · rintro ⟨_, ⟨bs, rfl, hbs⟩, bs', heq, rfl⟩
      rw [Operator.truth_map_injective heq] at hbs
      exact ⟨_, Verdict.mem_outcomes_foldl_and_always.2 ⟨bs', hbs, rfl⟩, rfl⟩
    · rintro ⟨b, hb, rfl⟩
      obtain ⟨bs, hbs, rfl⟩ := Verdict.mem_outcomes_foldl_and_always.1 hb
      exact ⟨_, ⟨bs, rfl, hbs⟩, bs, rfl, rfl⟩

theorem step_not_iff : Concrete.Step .not cs c ↔ ∃ b, cs = [.truth b] ∧ c = .truth !b := by
  constructor
  · intro h
    cases h with
    | not b => exact ⟨b, rfl, rfl⟩
  · rintro ⟨b, rfl, rfl⟩
    exact .not b

theorem hasVerdict_not (h : d.HasVerdict v) : (node .not [d] bits).HasVerdict v.not where
  value := by
    have hcall := Operator.call_of_not_lattice (rfl : Operator.not.isLattice = false) [d] bits
    rw [evaluateAll_of_hasVerdict (.cons h .nil)] at hcall
    exact hcall
  exact c := by
    rw [yields_node]
    simp only [step_not_iff]
    constructor
    · rintro ⟨_, hcs, b, rfl, rfl⟩
      obtain ⟨b', hb', heq⟩ := (h.exact _).1 (List.forall₂_cons.1 hcs).1
      cases heq
      exact ⟨!b, (Verdict.mem_outcomes_not v _).2 (by rwa [Bool.not_not]), rfl⟩
    · rintro ⟨b, hb, rfl⟩
      refine ⟨[.truth !b], .cons ((h.exact _).2 ⟨!b, (Verdict.mem_outcomes_not v b).1 hb, rfl⟩)
        .nil, !b, rfl, ?_⟩
      rw [Bool.not_not]

theorem step_ite_iff :
    Concrete.Step .ite cs c ↔ ∃ b yes no, cs = [.truth b, yes, no] ∧ c = if b then yes else no := by
  constructor
  · intro h
    cases h with
    | ite b yes no => exact ⟨b, yes, no, rfl, rfl⟩
  · rintro ⟨b, yes, no, rfl, rfl⟩
    exact .ite b yes no

/-- A choice between truth values takes none of its ways to fail. -/
theorem applyIte_bool (x y z : Verdict) :
    Operator.applyIte [.bool x, .bool y, .bool z] = .ok (.bool (x.chosen y z)) := by
  cases x <;> cases y <;> cases z <;> rfl

/-- A choice has the outcomes of the branches that can be picked; the other branch can be any of its
truth values. -/
theorem hasVerdict_ite (hcondition : condition.HasVerdict x) (hyes : yes.HasVerdict y)
    (hno : no.HasVerdict z) : (node .ite [condition, yes, no] bits).HasVerdict (x.chosen y z) where
  value := by
    have hcall :=
      Operator.call_of_not_lattice (rfl : Operator.ite.isLattice = false) [condition, yes, no] bits
    rw [evaluateAll_of_hasVerdict (.cons hcondition (.cons hyes (.cons hno .nil)))] at hcall
    exact hcall.trans (applyIte_bool x y z)
  exact c := by
    rw [yields_node]
    simp only [step_ite_iff]
    constructor
    · rintro ⟨_, hcs, b, r, s, rfl, rfl⟩
      obtain ⟨hb, hrest⟩ := List.forall₂_cons.1 hcs
      obtain ⟨hr, hrest⟩ := List.forall₂_cons.1 hrest
      obtain ⟨hs, -⟩ := List.forall₂_cons.1 hrest
      obtain ⟨b', hb', heq⟩ := (hcondition.exact _).1 hb
      cases heq
      obtain ⟨t, ht, rfl⟩ := (hyes.exact r).1 hr
      obtain ⟨u, hu, rfl⟩ := (hno.exact s).1 hs
      cases b with
      | true => exact ⟨t, (Verdict.mem_outcomes_chosen x y z t).2 ⟨true, hb', ht⟩, rfl⟩
      | false => exact ⟨u, (Verdict.mem_outcomes_chosen x y z u).2 ⟨false, hb', hu⟩, rfl⟩
    · rintro ⟨t, ht, rfl⟩
      obtain ⟨b, hb, hpicked⟩ := (Verdict.mem_outcomes_chosen x y z t).1 ht
      obtain ⟨r, hr⟩ := exists_outcome y
      obtain ⟨s, hs⟩ := exists_outcome z
      have hfirst := (hcondition.exact _).2 ⟨b, hb, rfl⟩
      cases b with
      | true =>
        exact ⟨[.truth true, .truth t, .truth s],
          .cons hfirst (.cons ((hyes.exact _).2 ⟨t, hpicked, rfl⟩)
          (.cons ((hno.exact _).2 ⟨s, hs, rfl⟩) .nil)), true, _, _, rfl, rfl⟩
      | false =>
        exact ⟨[.truth false, .truth r, .truth t],
          .cons hfirst (.cons ((hyes.exact _).2 ⟨r, hr, rfl⟩)
          (.cons ((hno.exact _).2 ⟨t, hpicked, rfl⟩) .nil)), false, _, _, rfl, rfl⟩

/-! ## Trees -/

theorem hasVerdict_ofBool (b : Bool) : (native b).HasVerdict (.ofBool b) where
  value := by rw [evaluate]
  exact c := by
    rw [Yields]
    simp only [Verdict.mem_outcomes_ofBool, exists_eq_left]

theorem hasVerdict_bool (v : Verdict) : (bool v).HasVerdict v where
  value := by rw [evaluate]
  exact c := by rw [Yields]

theorem Boolean.exists_hasVerdict (h : d.Boolean) : ∃ v, d.HasVerdict v := by
  induction h with
  | native b => exact ⟨_, hasVerdict_ofBool b⟩
  | bool v => exact ⟨v, hasVerdict_bool v⟩
  | and bits hne _ ih =>
    obtain ⟨vs, hvs⟩ := exists_forall₂_hasVerdict ih
    exact ⟨_, hasVerdict_and hne hvs⟩
  | not bits _ ih =>
    obtain ⟨v, hv⟩ := ih
    exact ⟨v.not, hasVerdict_not hv⟩
  | ite bits _ _ _ hcondition hyes hno =>
    obtain ⟨x, hx⟩ := hcondition
    obtain ⟨y, hy⟩ := hyes
    obtain ⟨z, hz⟩ := hno
    exact ⟨x.chosen y z, hasVerdict_ite hx hy hz⟩

/-- A tree of truth values has a verdict. It admits exactly the truth values that the tree can have
when every occurrence of a leaf is one of the values it admits, so that it is open only if the tree
can have both. -/
theorem boolean_evaluate_exact (h : d.Boolean) :
    ∃ v, d.evaluate = .ok (.bool v) ∧ (∀ c, d.Yields c ↔ ∃ b ∈ v.outcomes, c = .truth b) ∧
      (v = .maybe ↔ d.Yields (.truth true) ∧ d.Yields (.truth false)) := by
  obtain ⟨v, hv⟩ := h.exists_hasVerdict
  refine ⟨v, hv.value, hv.exact, ?_⟩
  simp only [hv.exact, Concrete.truth.injEq, exists_eq_right']
  cases v <;> decide

/-- A choice by an open condition between two branches that only differ in how they are written is
decided. -/
theorem open_condition_decided :
    let d :=
      node .ite [bool .maybe, node .not [native true] 1, node .and [bool .maybe, native false] 1] 1
    d.evaluate = .ok (.bool .never) ∧ ¬d.Yields (.truth true) := by
  intro d
  have hnot : Boolean (node .not [native true] 1) := .not 1 (.native true)
  have hand : Boolean (node .and [bool .maybe, native false] 1) :=
    .and 1 nofun
      (List.forall_mem_cons.2 ⟨.bool .maybe, List.forall_mem_singleton.2 (.native false)⟩)
  have hd : d.Boolean := .ite 1 (.bool .maybe) hnot hand
  obtain ⟨v, hv, hexact, -⟩ := boolean_evaluate_exact hd
  have hnever : d.evaluate = .ok (.bool .never) := rfl
  rw [hnever] at hv
  cases hv
  refine ⟨rfl, fun hyields => ?_⟩
  obtain ⟨b, hb, heq⟩ := (hexact _).1 hyields
  cases heq
  cases List.mem_singleton.1 hb

end Expr

end AbstractBits
