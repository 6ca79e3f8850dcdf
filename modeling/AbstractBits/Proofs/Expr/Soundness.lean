import AbstractBits.Proofs.Expr.Progress
/-!
# Soundness of evaluation

The value of a tree stands for everything that the tree can be in a single run. The induction is on
the tree: the operands' values are valid and stand for what the operands are, and each operator
keeps both (`Operator.valid_apply`, `Operator.denotes_apply`).

Results:
  * `valid_evaluate` — trees over valid descriptions have valid values, whichever operators they
    use.
  * `evaluate_sound` — a value stands for every concrete result of its tree.
  * `exists_yields_node` — a node with a value has a concrete result for every choice of its
    operands' results.
-/

namespace AbstractBits

namespace Expr

variable {d : Expr} {ds : List Expr} {v : Value} {vs : List Value} {c : Concrete}
  {cs : List Concrete} {op : Operator} {bits : Nat}

/-! ## Operands one by one -/

theorem evaluateAll_eq_ok :
    evaluateAll ds = .ok vs ↔ List.Forall₂ (fun d v => d.evaluate = .ok v) ds vs := by
  induction ds generalizing vs with
  | nil =>
    rw [evaluateAll, List.forall₂_nil_left_iff, Except.ok.injEq, eq_comm]
  | cons d ds ih =>
    rw [evaluateAll, List.forall₂_cons_left_iff]
    constructor
    · intro h
      split at h
      · rename_i w hw
        split at h
        · rename_i ws hws
          cases h
          exact ⟨w, ws, hw, ih.1 hws, rfl⟩
        · cases h
      · cases h
    · rintro ⟨w, ws, hw, hws, rfl⟩
      rw [hw, ih.2 hws]

theorem yieldsAll_iff : YieldsAll ds cs ↔ List.Forall₂ Yields ds cs := by
  induction ds generalizing cs with
  | nil => rw [YieldsAll, List.forall₂_nil_left_iff]
  | cons d ds ih =>
    rw [YieldsAll, List.forall₂_cons_left_iff]
    constructor
    · rintro ⟨c, rest, rfl, hc, hrest⟩
      exact ⟨c, rest, hc, ih.1 hrest, rfl⟩
    · rintro ⟨c, rest, hc, hrest, rfl⟩
      exact ⟨c, rest, rfl, hc, ih.2 hrest⟩

theorem yields_node :
    (node op ds bits).Yields c ↔ ∃ cs, List.Forall₂ Yields ds cs ∧ Concrete.Step op cs c := by
  rw [Yields]
  simp only [yieldsAll_iff]

/-- A node has a value when its operands have values and the operator accepts those. -/
theorem values_of_node (h : (node op ds bits).evaluate = .ok v) :
    ∃ vs, evaluateAll ds = .ok vs ∧ op.apply bits vs = .ok v := by
  rw [evaluate] at h
  split at h
  · cases h
  · split at h
    · exact ⟨_, ‹_›, h⟩
    · cases h

/-! ## Valid values -/

/-- Whether all descriptions in a tree are kept in the form of their shape. -/
inductive Valid : Expr → Prop where
  | int (i : Int) : Valid (int i)
  | float (x : Binary64) : Valid (float x)
  | str (s : String) : Valid (str s)
  | native (b : Bool) : Valid (native b)
  | word (w : Word) : Valid (word w)
  | abstract {a : AbstractValue} (valid : a.Valid) : Valid (abstract a)
  | bool (v : Verdict) : Valid (bool v)
  | foreign (name : String) : Valid (foreign name)
  | node {op : Operator} {args : List Expr} (bits : Nat) (parts : ∀ d ∈ args, Valid d) :
      Valid (node op args bits)

theorem HasMeaning.valid (h : d.HasMeaning) : d.Valid := by
  induction h with
  | int i => exact .int i
  | str s => exact .str s
  | native b => exact .native b
  | word w => exact .word w
  | abstract valid => exact .abstract valid
  | bool v => exact .bool v
  | node bits _ _ _ ih => exact .node bits ih

theorem meaning_of_part (h : (node op ds bits).HasMeaning) : ∀ d ∈ ds, d.HasMeaning := by
  cases h with
  | node _ _ _ parts => exact parts

/-- Values of operands are valid as soon as each operand's value is. -/
theorem valid_values (hvs : evaluateAll ds = .ok vs)
    (ih : ∀ d ∈ ds, ∀ v, d.evaluate = .ok v → v.Valid) : ∀ v ∈ vs, v.Valid := by
  have hall := evaluateAll_eq_ok.1 hvs
  clear hvs
  induction hall with
  | nil => exact fun v hv => nomatch hv
  | cons hd _ ihall =>
    refine List.forall_mem_cons.2 ⟨ih _ List.mem_cons_self _ hd, ihall ?_⟩
    intro d hmem
    exact ih d (List.mem_cons_of_mem _ hmem)

theorem valid_ofWord (w : Word) : (ofWord w).Valid := Interval.valid_constant w.valid w.value

/-- Evaluation keeps values valid. -/
theorem valid_evaluate (valid : d.Valid) (h : d.evaluate = .ok v) : v.Valid := by
  induction valid generalizing v with
  | int | float | str | native | bool =>
    rw [evaluate] at h
    cases h
    trivial
  | word w =>
    rw [evaluate] at h
    cases h
    exact valid_ofWord w
  | abstract valid =>
    rw [evaluate] at h
    cases h
    exact valid
  | foreign name =>
    rw [evaluate] at h
    cases h
  | node bits _ ih =>
    obtain ⟨vs, hvs, happly⟩ := values_of_node h
    exact Operator.valid_apply (valid_values hvs fun d hd v hv => ih d hd hv) happly

/-! ## Concrete results -/

theorem denotes_ofWord (w : Word) : (ofWord w).Denotes (.number w.value) := by
  refine ⟨rfl, Interval.denotes_constant.2 ?_⟩
  rw [truncate, Nat.mod_eq_of_lt w.fits]
  rfl

/-- Values of operands stand for what the operands are as soon as each operand's value does. -/
theorem denotesAll_of_yields (hvs : evaluateAll ds = .ok vs) (hcs : List.Forall₂ Yields ds cs)
    (ih : ∀ d ∈ ds, ∀ v c, d.evaluate = .ok v → d.Yields c → v.Denotes c) :
    Operator.DenotesAll vs cs := by
  have hvalues := evaluateAll_eq_ok.1 hvs
  clear hvs
  induction hvalues generalizing cs with
  | nil =>
    cases hcs
    exact .nil
  | cons hv _ ihall =>
    cases hcs with
    | cons hc hcs =>
      refine .cons (ih _ List.mem_cons_self _ _ hv hc) (ihall hcs fun d hd => ?_)
      exact ih d (List.mem_cons_of_mem _ hd)

/-- The invariant of the induction: the value of a tree stands for its concrete results. -/
theorem denotes_of_yields (meaning : d.HasMeaning) (h : d.evaluate = .ok v) (hc : d.Yields c) :
    v.Denotes c := by
  induction meaning generalizing v c with
  | int | str | bool | abstract =>
    rw [evaluate] at h
    cases h
    rwa [Yields] at hc
  | native b =>
    rw [evaluate] at h
    cases h
    rw [Yields] at hc
    exact ⟨b, (Verdict.mem_outcomes_ofBool b b).2 rfl, hc⟩
  | word w =>
    rw [evaluate] at h
    cases h
    rw [Yields] at hc
    exact ⟨_, denotes_ofWord w, hc⟩
  | node bits _ _ parts ih =>
    obtain ⟨vs, hvs, happly⟩ := values_of_node h
    obtain ⟨cs, hcs, hstep⟩ := yields_node.1 hc
    have hvalid := valid_values hvs fun d hd v hv => valid_evaluate (parts d hd).valid hv
    have hdenotes := denotesAll_of_yields hvs hcs fun d hd v c hv hc => ih d hd hv hc
    exact Operator.denotes_apply hvalid happly hdenotes hstep

/-! ## Results of all runs -/

/-- Whether every description at a leaf of a tree stands for something. -/
inductive Populated : Expr → Prop where
  | int (i : Int) : Populated (int i)
  | str (s : String) : Populated (str s)
  | native (b : Bool) : Populated (native b)
  | word (w : Word) : Populated (word w)
  | abstract {a : AbstractValue} {place : Place} (h : a.Denotes place) : Populated (abstract a)
  | bool (v : Verdict) : Populated (bool v)
  | node {op : Operator} {args : List Expr} (bits : Nat) (parts : ∀ d ∈ args, Populated d) :
      Populated (node op args bits)

theorem exists_outcome (v : Verdict) : ∃ b, b ∈ v.outcomes := by
  cases v <;> simp [Verdict.outcomes]

/-- A node with a value has a concrete result for every choice of its operands' results. -/
theorem exists_yields_node (meaning : (node op ds bits).HasMeaning)
    (h : (node op ds bits).evaluate = .ok v) (hcs : List.Forall₂ Yields ds cs) :
    ∃ c, (node op ds bits).Yields c := by
  obtain ⟨vs, hvs, happly⟩ := values_of_node h
  cases meaning with
  | node _ plain defined parts =>
    have hvalid := valid_values hvs fun d hd v hv => valid_evaluate (parts d hd).valid hv
    have hdenotes :=
      denotesAll_of_yields hvs hcs fun d hd v c hv hc => denotes_of_yields (parts d hd) hv hc
    obtain ⟨c, hstep⟩ := Operator.exists_step plain defined hvalid happly hdenotes
    exact ⟨c, yields_node.2 ⟨cs, hcs, hstep⟩⟩

/-- Results of operands, one for each. -/
theorem exists_forall₂_yields (hvs : evaluateAll ds = .ok vs)
    (ih : ∀ d ∈ ds, ∀ v, d.evaluate = .ok v → ∃ c, d.Yields c) :
    ∃ cs, List.Forall₂ Yields ds cs := by
  have hvalues := evaluateAll_eq_ok.1 hvs
  clear hvs
  induction hvalues with
  | nil => exact ⟨[], .nil⟩
  | cons hv _ ihall =>
    obtain ⟨c, hc⟩ := ih _ List.mem_cons_self _ hv
    obtain ⟨cs, hcs⟩ := ihall fun d hd => ih d (List.mem_cons_of_mem _ hd)
    exact ⟨c :: cs, .cons hc hcs⟩

theorem exists_yields (meaning : d.HasMeaning) (populated : d.Populated) (h : d.evaluate = .ok v) :
    ∃ c, d.Yields c := by
  induction populated generalizing v with
  | int i => exact ⟨.literal i, by rw [Yields]⟩
  | str s => exact ⟨.label s, by rw [Yields]⟩
  | native b => exact ⟨.truth b, by rw [Yields]⟩
  | word w => exact ⟨.vector w.bits (.number w.value), by rw [Yields]⟩
  | @abstract a place hplace =>
    exact ⟨.vector a.bits place, by rw [Yields]; exact ⟨place, hplace, rfl⟩⟩
  | bool w =>
    obtain ⟨b, hb⟩ := exists_outcome w
    exact ⟨.truth b, by rw [Yields]; exact ⟨b, hb, rfl⟩⟩
  | node bits _ ih =>
    obtain ⟨vs, hvs, -⟩ := values_of_node h
    obtain ⟨cs, hcs⟩ :=
      exists_forall₂_yields hvs fun d hd v hv => ih d hd (meaning_of_part meaning d hd) hv
    exact exists_yields_node meaning h hcs

/-- The value of a tree stands for every result that the tree can have in a run, whatever each leaf
is in it; and there is such a run unless some leaf stands for nothing. -/
theorem evaluate_sound (meaning : d.HasMeaning) (h : d.evaluate = .ok v) :
    (∀ c, d.Yields c → v.Denotes c) ∧ (d.Populated → ∃ c, d.Yields c) :=
  ⟨fun _ hc => denotes_of_yields meaning h hc, fun populated => exists_yields meaning populated h⟩

/-- The low byte of 256 and 512 after a byte swap, which was their high byte. -/
theorem low_byte_of_swapped_sound :
    ∃ v, (node .extract [int 7, int 0,
        node .reverse [abstract (.interval (.ofRange 16 (some ⟨256, 512, 256⟩)))] 16] 8).evaluate =
          .ok v ∧
      v.Denotes (.vector 8 (.number 2)) := by
  have hrange : (AbstractValue.interval (.ofRange 16 (some ⟨256, 512, 256⟩))).Valid :=
    Interval.valid_ofRange (by decide) (by decide) (by decide)
  have hswap :
      HasMeaning (node .reverse [abstract (.interval (.ofRange 16 (some ⟨256, 512, 256⟩)))] 16) :=
    .node 16 rfl (by decide) (List.forall_mem_singleton.2 (.abstract hrange))
  have hoperands := List.forall_mem_cons.2
    ⟨.int 7, List.forall_mem_cons.2 ⟨.int 0, List.forall_mem_singleton.2 hswap⟩⟩
  have hleaf : (abstract (.interval (.ofRange 16 (some ⟨256, 512, 256⟩)))).Yields
      (.vector 16 (.number 512)) := by
    rw [Yields]
    exact ⟨.number 512, ⟨rfl, Interval.denotes_ofRange.2 ⟨_, rfl, by decide⟩⟩, rfl⟩
  have hswapped :
    (node .reverse [abstract (.interval (.ofRange 16 (some ⟨256, 512, 256⟩)))] 16).Yields
      (.vector 16 (.number 2)) := yields_node.2 ⟨_, .cons hleaf .nil, .reverse 16 (.number 512)⟩
  have hlow : (int 0).Yields (.literal 0) := by rw [Yields]
  have hhigh : (int 7).Yields (.literal 7) := by rw [Yields]
  have hdefined : Operator.extract ≠ .symbol ∧ Operator.extract ≠ .interval := by decide
  refine ⟨_, rfl, (evaluate_sound (.node 8 rfl hdefined hoperands) rfl).1 _ (yields_node.2 ?_)⟩
  exact ⟨_, .cons hhigh (.cons hlow (.cons hswapped .nil)), .extract (.number 2) (by decide)⟩

end Expr

end AbstractBits
