import Mathlib.Data.List.Forall2
import AbstractBits.Proofs.Expr.Operands
import AbstractBits.Proofs.ValueSet.Insertion
/-!
# Operators on values that stand for their operands

What each operator makes of values is a valid value, and it stands for every concrete result that
the operator has on what the operands stand for.

Results:
  * `Verdict.mem_outcomes_foldl_and_iff` — what a conjunction of many admits.
  * `valid_apply` — every operator makes valid values of valid ones.
  * `denotes_apply` — the result stands for every concrete result of the operands.
-/

namespace AbstractBits

namespace Verdict

variable {vs : List Verdict} {b : Bool}

/-- A conjunction of many, after a first one, admits what comes out for some choice of a truth value
from each. -/
theorem mem_outcomes_foldl_and_iff (start : Verdict) :
    b ∈ (vs.foldl and start).outcomes ↔
      ∃ first ∈ start.outcomes, ∃ bs, List.Forall₂ (fun v b => b ∈ v.outcomes) vs bs ∧
        (first && bs.all id) = b := by
  induction vs generalizing start with
  | nil => simp [List.forall₂_nil_left_iff]
  | cons v vs ih =>
    rw [List.foldl_cons, ih]
    constructor
    · rintro ⟨first, hfirst, bs, hbs, rfl⟩
      obtain ⟨c, hc, d, hd, rfl⟩ := (mem_outcomes_and start v first).1 hfirst
      exact ⟨c, hc, d :: bs, .cons hd hbs, by rw [List.all_cons, id_eq, Bool.and_assoc]⟩
    · rintro ⟨first, hfirst, picked, hpicked, rfl⟩
      obtain ⟨d, bs, hd, hbs, rfl⟩ := List.forall₂_cons_left_iff.1 hpicked
      refine ⟨first && d, (mem_outcomes_and start v _).2 ⟨first, hfirst, d, hd, rfl⟩, bs, hbs, ?_⟩
      rw [List.all_cons, id_eq, Bool.and_assoc]

end Verdict

namespace Operator

variable {vs : List Value} {cs : List Concrete} {v : Value} {c : Concrete}

/-- The values of operands stand for what the operands are, one by one. -/
abbrev DenotesAll (vs : List Value) (cs : List Concrete) : Prop := List.Forall₂ Value.Denotes vs cs

/-! ## Truth values -/

/-- Operands with verdicts are truth values that the verdicts admit. -/
theorem exists_outcomes {ws : List Verdict} (hargs : Value.toVerdicts vs = .ok ws)
    (hcs : DenotesAll vs cs) :
    ∃ bs : List Bool, cs = bs.map .truth ∧ List.Forall₂ (fun w b => b ∈ w.outcomes) ws bs := by
  rw [Value.toVerdicts_eq_ok.1 hargs] at hcs
  clear hargs
  induction ws generalizing cs with
  | nil =>
    cases hcs
    exact ⟨[], rfl, .nil⟩
  | cons w ws ih =>
    obtain ⟨_, rest, ⟨b, hb, rfl⟩, hrest, rfl⟩ := List.forall₂_cons_left_iff.1 hcs
    obtain ⟨bs, rfl, hbs⟩ := ih hrest
    exact ⟨b :: bs, rfl, .cons hb hbs⟩

theorem truth_map_injective : Function.Injective (List.map Concrete.truth) :=
  Function.Injective.list_map fun _ _ h => Concrete.truth.inj h

/-- Truth values of operands are among those that their verdicts admit. -/
theorem outcomes_of_toVerdicts {bs : List Bool} {ws : List Verdict}
    (hargs : Value.toVerdicts vs = .ok ws) (hcs : DenotesAll vs (bs.map .truth)) :
    List.Forall₂ (fun w b => b ∈ w.outcomes) ws bs := by
  obtain ⟨bs', heq, hbs⟩ := exists_outcomes hargs hcs
  rwa [truth_map_injective heq]

theorem denotes_and {bs : List Bool} (h : applyAnd vs = .ok v)
    (hcs : DenotesAll vs (bs.map .truth)) : v.Denotes (.truth (bs.all id)) := by
  unfold applyAnd at h
  split at h
  · cases h
  · obtain ⟨ws, hws, rfl⟩ := map_eq_ok.1 h
    have hmem := (Verdict.mem_outcomes_foldl_and_iff .always).2
      ⟨true, by decide, bs, outcomes_of_toVerdicts hws hcs, rfl⟩
    exact ⟨_, by simpa using hmem, rfl⟩

theorem denotes_not {b : Bool} (h : applyNot vs = .ok v) (hcs : DenotesAll vs [.truth b]) :
    v.Denotes (.truth !b) := by
  obtain ⟨ws, hws, h⟩ := bind_eq_ok.1 h
  have houtcomes : List.Forall₂ (fun w b => b ∈ w.outcomes) ws [b] := outcomes_of_toVerdicts hws hcs
  cases houtcomes with
  | cons hb hnil =>
    cases hnil
    cases h
    exact ⟨!b, (Verdict.mem_outcomes_not _ _).2 (by simpa using hb), rfl⟩

/-! ## Comparison -/

/-- Both kinds of steps of a comparison: it says what it says about two places in one region, and
anything about places in two. -/
theorem exists_at_of_step {cmp : Comparison} (h : Concrete.Step (.compare cmp) cs c) :
    ∃ x y bits p q t, cs = [x, y] ∧ c = .truth t ∧ Concrete.At bits x p ∧ Concrete.At bits y q ∧
      (p.region = q.region → t = decide (cmp.Holds bits p.offset q.offset)) := by
  cases h with
  | compare left right => exact ⟨_, _, _, _, _, _, rfl, rfl, left, right, fun _ => rfl⟩
  | compareApart t left right apart =>
    exact ⟨_, _, _, _, _, t, rfl, rfl, left, right, fun heq => absurd heq apart⟩

/-- A comparison admits what it says about its operands. Where their sides are exchanged, it is
mirrored. -/
theorem denotes_compare {cmp : Comparison} (hvs : ∀ v ∈ vs, v.Valid)
    (h : applyCompare cmp vs = .ok v) (hcs : DenotesAll vs cs)
    (hstep : Concrete.Step (.compare cmp) cs c) : v.Denotes c := by
  obtain ⟨x, y, bits, p, q, t, rfl, rfl, hp, hq, ht⟩ := exists_at_of_step hstep
  obtain ⟨o, ho, h⟩ := bind_eq_ok.1 h
  obtain ⟨b, hb, h⟩ := bind_eq_ok.1 h
  obtain ⟨w, hw, rfl⟩ := map_eq_ok.1 h
  obtain ⟨hbits, rfl⟩ := requireSameWidth_eq_ok.1 (ofOperation_eq_ok.1 hw)
  refine ⟨t, ?_, rfl⟩
  rcases Value.bringFront_eq_ok ho with ⟨hswapped, rfl⟩ | ⟨hswapped, rfl⟩
  · obtain ⟨hx, hrest⟩ := List.forall₂_cons.1 hcs
    obtain ⟨hy, -⟩ := List.forall₂_cons.1 hrest
    have ha : o.front.Valid := hvs (.abstract o.front) (by simp)
    obtain ⟨rfl, hfront⟩ := Value.denotes_of_at hx hp
    obtain ⟨hbvalid, hother⟩ := Value.denotes_of_toAbstractOf (AbstractValue.width ha)
      (hvs o.other (by simp)) hb hy hq
    rw [hswapped]
    exact AbstractValue.mem_outcomes_verdict ha hbvalid hbits hfront hother ht
  · obtain ⟨hx, hrest⟩ := List.forall₂_cons.1 hcs
    obtain ⟨hy, -⟩ := List.forall₂_cons.1 hrest
    have ha : o.front.Valid := hvs (.abstract o.front) (by simp)
    obtain ⟨rfl, hfront⟩ := Value.denotes_of_at hy hq
    obtain ⟨hbvalid, hother⟩ := Value.denotes_of_toAbstractOf (AbstractValue.width ha)
      (hvs o.other (by simp)) hb hx hp
    rw [hswapped]
    refine AbstractValue.mem_outcomes_verdict ha hbvalid hbits hfront hother ?_
    intro hregion
    rw [ht hregion.symm]
    simp only [if_true, Comparison.holds_mirrored]

/-! ## Choice -/

/-- What a choice between two branches comes to. -/
inductive Choice (x : Verdict) (yes no : Value) : Value → Prop
  | first (h : x.hasFalse = false ∨ yes.same no = true) : Choice x yes no yes
  | second (h : x.hasTrue = false) : Choice x yes no no
  | union {a b r : AbstractValue} (hyes : yes = .abstract a) (hno : no = .abstract b)
      (h : a.union b = .ok r) : Choice x yes no (.abstract r)
  | join {u w : Verdict} (hyes : yes = .bool u) (hno : no = .bool w) :
      Choice x yes no (.bool (u.join w))

theorem choice_of_ite (h : applyIte vs = .ok v) :
    ∃ x yes no, vs = [.bool x, yes, no] ∧ Choice x yes no v := by
  unfold applyIte at h
  split at h
  · rename_i condition yes no
    obtain ⟨x, hx, h⟩ := bind_eq_ok.1 h
    refine ⟨x, yes, no, by rw [Value.toVerdict_eq_ok.1 hx], ?_⟩
    split at h
    · rename_i hfirst
      cases h
      exact .first (by simpa [Bool.or_eq_true] using hfirst)
    split at h
    · rename_i hsecond
      cases h
      exact .second (by simpa using hsecond)
    split at h
    · obtain ⟨r, hr, rfl⟩ := map_eq_ok.1 h
      exact .union rfl rfl (ofOperation_eq_ok.1 hr)
    · cases h
      exact .join rfl rfl
    · cases h
  · cases h

theorem valid_ite (hvs : ∀ v ∈ vs, v.Valid) (h : applyIte vs = .ok v) : v.Valid := by
  obtain ⟨x, yes, no, rfl, hchoice⟩ := choice_of_ite h
  have hyes : yes.Valid := hvs yes (by simp)
  have hno : no.Valid := hvs no (by simp)
  cases hchoice with
  | first => exact hyes
  | second => exact hno
  | union hya hnb hr =>
    subst hya hnb
    exact (AbstractValue.combines_union.retains hyes hno hr).valid
  | join => trivial

theorem denotes_ite {b : Bool} {yes no : Concrete} (hvs : ∀ v ∈ vs, v.Valid)
    (h : applyIte vs = .ok v) (hcs : DenotesAll vs [.truth b, yes, no]) :
    v.Denotes (if b then yes else no) := by
  obtain ⟨x, u, w, rfl, hchoice⟩ := choice_of_ite h
  obtain ⟨hx, hcs⟩ := List.forall₂_cons.1 hcs
  obtain ⟨hu, hcs⟩ := List.forall₂_cons.1 hcs
  obtain ⟨hw, -⟩ := List.forall₂_cons.1 hcs
  obtain ⟨t, ht, heq⟩ := hx
  cases heq
  cases hchoice with
  | first hfirst =>
    cases b with
    | true => exact hu
    | false =>
      rcases hfirst with hfalse | hsame
      · rw [(Verdict.hasFalse_iff x).2 ht] at hfalse
        cases hfalse
      · exact Value.denotes_of_same hsame hw
  | second hsecond =>
    cases b with
    | false => exact hw
    | true =>
      rw [(Verdict.hasTrue_iff x).2 ht] at hsecond
      cases hsecond
  | @union a a' r hua hwa hr =>
    subst hua hwa
    have ha : a.Valid := hvs (.abstract a) (by simp)
    have ha' : a'.Valid := hvs (.abstract a') (by simp)
    have hretains := AbstractValue.combines_union.retains ha ha' hr
    have hbits := AbstractValue.combines_union.width a a' r ha ha' hr
    cases b with
    | true =>
      obtain ⟨place, hplace, rfl⟩ := hu
      exact ⟨place, hretains.denotes place (.inl hplace), by rw [hretains.width]; rfl⟩
    | false =>
      obtain ⟨place, hplace, rfl⟩ := hw
      exact ⟨place, hretains.denotes place (.inr hplace), by rw [hretains.width, hbits]; rfl⟩
  | @join d e hud hwe =>
    subst hud hwe
    cases b with
    | true =>
      obtain ⟨t, ht, rfl⟩ := hu
      exact ⟨t, (Verdict.mem_outcomes_join d e t).2 (.inl ht), rfl⟩
    | false =>
      obtain ⟨t, ht, rfl⟩ := hw
      exact ⟨t, (Verdict.mem_outcomes_join d e t).2 (.inr ht), rfl⟩

/-! ## Shift -/

theorem exists_of_shiftRight (h : applyShiftRight vs = .ok v) :
    ∃ a amount b r, vs = [.abstract a, amount] ∧ shiftAmount a.bits amount = .ok b ∧
      a.shiftRight b = .ok r ∧ v = .abstract r := by
  unfold applyShiftRight at h
  split at h
  · rename_i u amount
    obtain ⟨a, ha, h⟩ := bind_eq_ok.1 h
    obtain ⟨b, hb, h⟩ := bind_eq_ok.1 h
    obtain ⟨r, hr, rfl⟩ := map_eq_ok.1 h
    exact ⟨a, amount, b, r, by rw [Value.toAbstract_eq_ok.1 ha], hb, ofOperation_eq_ok.1 hr, rfl⟩
  · cases h

theorem valid_shiftAmount {bits : Nat} {amount : Value} {b : AbstractValue}
    (width : ValidWidth bits) (hamount : amount.Valid) (h : shiftAmount bits amount = .ok b) :
    b.Valid := by
  cases amount with
  | int i =>
    simp only [shiftAmount] at h
    split at h <;> cases h
    exact Interval.valid_constant width _
  | abstract a =>
    cases h
    exact hamount
  | float x => cases h
  | str s => cases h
  | bool x => cases h

theorem lt_twoPow_self (n : Nat) : n < twoPow n := Nat.lt_two_pow_self

/-- An amount past the width of the shifted numbers may be given as the width. -/
theorem exists_shiftAmount {bits n : Nat} {amount : Value} {b : AbstractValue}
    (width : ValidWidth bits) (h : shiftAmount bits amount = .ok b) (hc : amount.Denotes c)
    (hn : Concrete.Amount c n) :
    ∃ m, b.Denotes (.number m) ∧ ∀ u, u < twoPow bits → u / twoPow m = u / twoPow n := by
  cases amount with
  | int i =>
    cases hc
    cases hn
    simp only [shiftAmount] at h
    split at h <;> cases h
    have hfit : min n bits < modulus bits := by
      rw [modulus_of_valid width]
      exact Nat.lt_of_le_of_lt (Nat.min_le_right n bits) (lt_twoPow_self bits)
    refine ⟨min n bits, ⟨rfl, Interval.denotes_constant.2 ?_⟩,
      fun u hu => Progression.div_twoPow_min hu⟩
    rw [Int.toNat_natCast, truncate, Nat.mod_eq_of_lt hfit]
    rfl
  | abstract a =>
    cases h
    cases hn with
    | vector bits' =>
      exact ⟨n, (Value.denotes_vector hc).2, fun _ _ => rfl⟩
    | literal =>
      obtain ⟨q, -, heq⟩ := hc
      cases heq
  | float x => cases h
  | str s => cases h
  | bool x => cases h

theorem valid_shiftRight (hvs : ∀ v ∈ vs, v.Valid) (h : applyShiftRight vs = .ok v) : v.Valid := by
  obtain ⟨a, amount, b, r, rfl, hb, hr, rfl⟩ := exists_of_shiftRight h
  have ha : a.Valid := hvs (.abstract a) (by simp)
  have hbvalid := valid_shiftAmount (AbstractValue.width ha) (hvs amount (by simp)) hb
  exact (AbstractValue.valid_shiftRight ha hbvalid hr).1

theorem denotes_shiftRight {amount : Concrete} {bits n : Nat} {place : Place}
    (hvs : ∀ v ∈ vs, v.Valid) (h : applyShiftRight vs = .ok v)
    (hcs : DenotesAll vs [.vector bits place, amount]) (hn : Concrete.Amount amount n) :
    v.Denotes (.vector bits ⟨place.region, place.offset / twoPow n⟩) := by
  obtain ⟨a, w, b, r, rfl, hb, hr, rfl⟩ := exists_of_shiftRight h
  obtain ⟨hplace, hcs⟩ := List.forall₂_cons.1 hcs
  obtain ⟨hamount, -⟩ := List.forall₂_cons.1 hcs
  have ha : a.Valid := hvs (.abstract a) (by simp)
  have width := AbstractValue.width ha
  have hbvalid := valid_shiftAmount width (hvs w (by simp)) hb
  obtain ⟨rfl, hp⟩ := Value.denotes_vector hplace
  obtain ⟨m, hm, hdiv⟩ := exists_shiftAmount width hb hamount hn
  refine ⟨_, ?_, by rw [(AbstractValue.valid_shiftRight ha hbvalid hr).2]⟩
  rw [← hdiv _ (AbstractValue.lt_twoPow ha hp)]
  exact AbstractValue.denotes_shiftRight ha hbvalid hr hp hm

/-! ## Parts of bit-vectors -/

theorem exists_of_extract (h : applyExtract vs = .ok v) :
    ∃ high low a r, vs = [.int (high : Nat), .int (low : Nat), .abstract a] ∧
      a.extract high low = .ok r ∧ v = .abstract r := by
  unfold applyExtract at h
  split at h
  · rename_i high low w
    obtain ⟨-, -, h⟩ := bind_eq_ok.1 h
    obtain ⟨a, ha, h⟩ := bind_eq_ok.1 h
    obtain ⟨m, hm, h⟩ := bind_eq_ok.1 h
    obtain ⟨n, hn, h⟩ := bind_eq_ok.1 h
    obtain ⟨r, hr, rfl⟩ := map_eq_ok.1 h
    refine ⟨m, n, a, r, ?_, ofOperation_eq_ok.1 hr, rfl⟩
    rw [Value.toBitCount_eq_ok hm, Value.toBitCount_eq_ok hn, Value.toAbstract_eq_ok.1 ha]
  · cases h

theorem valid_extract (hvs : ∀ v ∈ vs, v.Valid) (h : applyExtract vs = .ok v) : v.Valid := by
  obtain ⟨high, low, a, r, rfl, hr, rfl⟩ := exists_of_extract h
  exact (AbstractValue.imagesOf_extract (hvs (.abstract a) (by simp)) hr).valid

/-- A count of bits that an integer stands for. -/
theorem eq_of_denotes_literal {m n : Nat} (h : (Value.int n).Denotes (.literal m)) : m = n := by
  cases h
  rfl

theorem denotes_extract {high low bits : Nat} {place : Place} (hvs : ∀ v ∈ vs, v.Valid)
    (h : applyExtract vs = .ok v)
    (hcs : DenotesAll vs [.literal high, .literal low, .vector bits place]) :
    v.Denotes (.vector (high - low + 1)
      ⟨place.region, place.offset / twoPow low % twoPow (high - low + 1)⟩) := by
  obtain ⟨high', low', a, r, rfl, hr, rfl⟩ := exists_of_extract h
  obtain ⟨hhigh, hcs⟩ := List.forall₂_cons.1 hcs
  obtain ⟨hlow, hcs⟩ := List.forall₂_cons.1 hcs
  obtain ⟨hplace, -⟩ := List.forall₂_cons.1 hcs
  obtain rfl := eq_of_denotes_literal hhigh
  obtain rfl := eq_of_denotes_literal hlow
  have himages := AbstractValue.imagesOf_extract (hvs (.abstract a) (by simp)) hr
  exact ⟨_, himages.denotes place (Value.denotes_vector hplace).2, by rw [himages.width]⟩

/-! ## Extension -/

section

variable {op : Operator} {f : Nat → AbstractValue → Except OperationError AbstractValue}

theorem exists_of_extension (h : applyExtension op f vs = .ok v) :
    ∃ added a r, vs = [.int (added : Nat), .abstract a] ∧ f (added + a.bits) a = .ok r ∧
      v = .abstract r := by
  unfold applyExtension at h
  split at h
  · rename_i added w
    obtain ⟨n, hn, h⟩ := bind_eq_ok.1 h
    obtain ⟨a, ha, h⟩ := bind_eq_ok.1 h
    split at h
    · obtain ⟨r, hr, rfl⟩ := map_eq_ok.1 h
      refine ⟨n, a, r, ?_, ofOperation_eq_ok.1 hr, rfl⟩
      rw [Value.toBitCount_eq_ok hn, Value.toAbstract_eq_ok.1 ha]
    · cases h
  · cases h

/-- An extension stands for the images of all numbers, whatever it makes of them. -/
theorem denotes_extension {g : Nat → Nat → Nat → Nat}
    (hf : ∀ (total : Nat) (a r : AbstractValue), a.Valid → f total a = .ok r →
      AbstractValue.ImagesOf total (g a.bits total) a r)
    (hvs : ∀ v ∈ vs, v.Valid) (h : applyExtension op f vs = .ok v) :
    v.Valid ∧ ∀ added bits n, DenotesAll vs [.literal (added : Nat), .vector bits (.number n)] →
      v.Denotes (.vector (added + bits) (.number (g bits (added + bits) n))) := by
  obtain ⟨added, a, r, rfl, hr, rfl⟩ := exists_of_extension h
  have himages := hf _ a r (hvs (.abstract a) (by simp)) hr
  refine ⟨himages.valid, ?_⟩
  intro added' bits n hcs
  obtain ⟨hadded, hcs⟩ := List.forall₂_cons.1 hcs
  obtain ⟨hplace, -⟩ := List.forall₂_cons.1 hcs
  obtain rfl := eq_of_denotes_literal hadded
  obtain ⟨rfl, hn⟩ := Value.denotes_vector hplace
  exact ⟨_, himages.denotes _ hn, by rw [himages.width]; rfl⟩

end

theorem denotes_signExtend (hvs : ∀ v ∈ vs, v.Valid)
    (h : applyExtension .signExtend (fun total a => a.signExtend total) vs = .ok v) :
    v.Valid ∧ ∀ added bits n, DenotesAll vs [.literal (added : Nat), .vector bits (.number n)] →
      v.Denotes
        (.vector (added + bits) (.number (truncateInt (added + bits) (signedValue bits n)))) :=
  denotes_extension (g := fun bits total n => truncateInt total (signedValue bits n))
    (fun _ _ _ ha hr => AbstractValue.imagesOf_signExtend ha hr) hvs h

theorem denotes_zeroExtend (hvs : ∀ v ∈ vs, v.Valid)
    (h : applyExtension .zeroExtend (fun total a => a.zeroExtend total) vs = .ok v) :
    v.Valid ∧ ∀ added bits n, DenotesAll vs [.literal (added : Nat), .vector bits (.number n)] →
      v.Denotes (.vector (added + bits) (.number n)) :=
  denotes_extension (g := fun _ _ n => n)
    (fun _ _ _ ha hr => AbstractValue.imagesOf_zeroExtend ha hr) hvs h

/-! ## Byte swap -/

theorem exists_of_reverse (h : applyReverse vs = .ok v) :
    ∃ a r, vs = [.abstract a] ∧ a.reverse = .ok r ∧ v = .abstract r := by
  unfold applyReverse at h
  split at h
  · obtain ⟨a, ha, h⟩ := bind_eq_ok.1 h
    obtain ⟨r, hr, rfl⟩ := map_eq_ok.1 h
    exact ⟨a, r, by rw [Value.toAbstract_eq_ok.1 ha], ofOperation_eq_ok.1 hr, rfl⟩
  · cases h

theorem valid_reverse (hvs : ∀ v ∈ vs, v.Valid) (h : applyReverse vs = .ok v) : v.Valid := by
  obtain ⟨a, r, rfl, hr, rfl⟩ := exists_of_reverse h
  exact (AbstractValue.valid_reverse (hvs (.abstract a) (by simp)) hr).1

theorem denotes_reverse {bits : Nat} {place : Place} (hvs : ∀ v ∈ vs, v.Valid)
    (h : applyReverse vs = .ok v) (hcs : DenotesAll vs [.vector bits place]) :
    v.Denotes (.vector bits ⟨place.region, byteReversed bits place.offset⟩) := by
  obtain ⟨a, r, rfl, hr, rfl⟩ := exists_of_reverse h
  obtain ⟨hplace, -⟩ := List.forall₂_cons.1 hcs
  have himages := AbstractValue.imagesOf_reverse (hvs (.abstract a) (by simp)) hr
  obtain ⟨rfl, hp⟩ := Value.denotes_vector hplace
  exact ⟨_, himages.denotes place hp, by rw [himages.width]⟩

/-! ## Concatenation -/

/-- Further operands behind what there is, with the width and the number of all together. -/
theorem denotes_concatAll {joined r : AbstractValue} (hjoined : joined.Valid)
    (hvs : ∀ v ∈ vs, v.Valid) (h : concatAll joined vs = .ok r) :
    r.Valid ∧ ∀ (parts : List (Nat × Nat)) (n : Nat), joined.Denotes (.number n) →
      DenotesAll vs (parts.map fun part => .vector part.1 (.number part.2)) →
      r.bits = parts.foldl (fun joined part => joined + part.1) joined.bits ∧
        r.Denotes
          (.number (parts.foldl (fun joined part => joined * twoPow part.1 + part.2) n)) := by
  induction vs generalizing joined with
  | nil =>
    cases h
    refine ⟨hjoined, ?_⟩
    intro parts n hn hcs
    cases parts with
    | nil => exact ⟨rfl, hn⟩
    | cons part parts => cases hcs
  | cons v vs ih =>
    obtain ⟨b, hb, hrest⟩ := bind_eq_ok.1 h
    obtain ⟨next, hnext, htail⟩ := bind_eq_ok.1 hrest
    obtain rfl := Value.toAbstract_eq_ok.1 hb
    have hbvalid : b.Valid := hvs (.abstract b) List.mem_cons_self
    obtain ⟨hnextvalid, hnextbits, hconcat⟩ :=
      AbstractValue.denotes_concat hjoined hbvalid (ofOperation_eq_ok.1 hnext)
    obtain ⟨hvalid, hparts⟩ := ih hnextvalid (fun w hw => hvs w (List.mem_cons_of_mem _ hw)) htail
    refine ⟨hvalid, ?_⟩
    intro parts n hn hcs
    cases parts with
    | nil => cases hcs
    | cons part parts =>
      obtain ⟨hpart, hrest⟩ := List.forall₂_cons.1 hcs
      obtain ⟨hwidth, hnumber⟩ := Value.denotes_vector hpart
      rw [List.foldl_cons, List.foldl_cons, hwidth, ← hnextbits]
      exact hparts parts _ (hconcat n part.2 hn hnumber) hrest

theorem exists_of_concat (h : applyConcat vs = .ok v) :
    ∃ a rest r, vs = .abstract a :: rest ∧ concatAll a rest = .ok r ∧ v = .abstract r := by
  cases vs with
  | nil => cases h
  | cons w vs =>
    obtain ⟨a, ha, h⟩ := bind_eq_ok.1 h
    obtain ⟨r, hr, rfl⟩ := map_eq_ok.1 h
    exact ⟨a, vs, r, by rw [Value.toAbstract_eq_ok.1 ha], hr, rfl⟩

theorem valid_concat (hvs : ∀ v ∈ vs, v.Valid) (h : applyConcat vs = .ok v) : v.Valid := by
  obtain ⟨a, rest, r, rfl, hr, rfl⟩ := exists_of_concat h
  exact (denotes_concatAll (hvs (.abstract a) List.mem_cons_self)
    (fun w hw => hvs w (List.mem_cons_of_mem _ hw)) hr).1

theorem denotes_concat {parts : List (Nat × Nat)} (hvs : ∀ v ∈ vs, v.Valid)
    (h : applyConcat vs = .ok v)
    (hcs : DenotesAll vs (parts.map fun part => .vector part.1 (.number part.2))) :
    v.Denotes (.vector (Concrete.joinedWidth parts) (.number (Concrete.joinParts parts))) := by
  obtain ⟨a, rest, r, rfl, hr, rfl⟩ := exists_of_concat h
  obtain ⟨-, hparts⟩ := denotes_concatAll (hvs (.abstract a) List.mem_cons_self)
    (fun w hw => hvs w (List.mem_cons_of_mem _ hw)) hr
  cases parts with
  | nil => cases hcs
  | cons part parts =>
    obtain ⟨hpart, hrest⟩ := List.forall₂_cons.1 hcs
    obtain ⟨hwidth, hnumber⟩ := Value.denotes_vector hpart
    obtain ⟨hbits, hdenotes⟩ := hparts parts part.2 hnumber hrest
    refine ⟨_, hdenotes, ?_⟩
    rw [hbits, ← hwidth]
    simp [Concrete.joinedWidth, Concrete.joinParts]

theorem denotes_concatSingle {bits : Nat} {place : Place} (h : applyConcat vs = .ok v)
    (hcs : DenotesAll vs [.vector bits place]) : v.Denotes (.vector bits place) := by
  obtain ⟨a, rest, r, rfl, hr, rfl⟩ := exists_of_concat h
  obtain ⟨hplace, hrest⟩ := List.forall₂_cons.1 hcs
  cases hrest
  cases hr
  exact hplace

/-! ## Offsets -/

theorem exists_of_valueSet (h : applyValueSet vs = .ok v) :
    ∃ region a x w, vs = [.str region, .abstract a] ∧ a.hull? = some x ∧
      ValueSet.insert ⟨a.bits, .empty, false⟩ region x = .ok w ∧ v = .abstract (.valueSet w) := by
  unfold applyValueSet at h
  split at h
  · rename_i region offsets
    obtain ⟨a, ha, h⟩ := bind_eq_ok.1 h
    split at h
    · cases h
    · rename_i x hx
      obtain ⟨w, hw, rfl⟩ := map_eq_ok.1 h
      obtain ⟨start, hstart, hw⟩ := bind_eq_ok.1 (ofOperation_eq_ok.1 hw)
      obtain ⟨-, rfl⟩ := requireWidth_eq_ok.1 hstart
      exact ⟨region, a, x, w, by rw [Value.toAbstract_eq_ok.1 ha], hx, hw, rfl⟩
  · cases h
  · cases h

theorem valid_valueSet (hvs : ∀ v ∈ vs, v.Valid) (h : applyValueSet vs = .ok v) : v.Valid := by
  obtain ⟨region, a, x, w, rfl, hx, hw, rfl⟩ := exists_of_valueSet h
  obtain ⟨hxvalid, -, -⟩ := AbstractValue.covers_of_hull? (hvs (.abstract a) (by simp)) hx
  exact (ValueSet.denotes_insert_new hxvalid hw).1

theorem denotes_valueSet {region : String} {bits n : Nat} (hvs : ∀ v ∈ vs, v.Valid)
    (h : applyValueSet vs = .ok v) (hcs : DenotesAll vs [.label region, .vector bits (.number n)]) :
    v.Denotes (.vector bits ⟨region, n⟩) := by
  obtain ⟨region', a, x, w, rfl, hx, hw, rfl⟩ := exists_of_valueSet h
  obtain ⟨hlabel, hcs⟩ := List.forall₂_cons.1 hcs
  obtain ⟨hplace, -⟩ := List.forall₂_cons.1 hcs
  cases hlabel
  obtain ⟨hxvalid, -, hcovers⟩ := AbstractValue.covers_of_hull? (hvs (.abstract a) (by simp)) hx
  obtain ⟨-, hbits, hinsert⟩ := ValueSet.denotes_insert_new hxvalid hw
  obtain ⟨rfl, hn⟩ := Value.denotes_vector hplace
  exact ⟨_, hinsert n (hcovers _ hn).2, by rw [← hbits]; rfl⟩

/-! ## Operators that introduce or combine descriptions -/

theorem valid_ofInterval {x : Except OperationError Interval} (hx : ∀ z, x = .ok z → z.Valid)
    (h : ofInterval x = .ok v) : v.Valid := by
  obtain ⟨z, hz, rfl⟩ := map_eq_ok.1 h
  exact hx z (ofOperation_eq_ok.1 hz)

theorem valid_symbol {bits : Nat} (h : applySymbol bits vs = .ok v) : v.Valid := by
  unfold applySymbol at h
  split at h
  · refine valid_ofInterval (fun z hz => ?_) h
    obtain ⟨x, hx, rfl⟩ := map_eq_ok.1 hz
    obtain ⟨width, rfl⟩ := requireWidth_eq_ok.1 hx
    exact Interval.valid_withName (Interval.valid_whole width) _
  · obtain ⟨lower, -, h⟩ := bind_eq_ok.1 h
    obtain ⟨upper, -, h⟩ := bind_eq_ok.1 h
    obtain ⟨stride, -, h⟩ := bind_eq_ok.1 h
    refine valid_ofInterval (fun z hz => ?_) h
    obtain ⟨x, hx, rfl⟩ := map_eq_ok.1 hz
    exact Interval.valid_withName (Interval.valid_of_ofBounds hx) _
  · cases h
  · cases h
  · cases h

theorem valid_interval (h : applyInterval vs = .ok v) : v.Valid := by
  unfold applyInterval at h
  split at h
  · obtain ⟨bits, -, h⟩ := bind_eq_ok.1 h
    obtain ⟨stride, -, h⟩ := bind_eq_ok.1 h
    obtain ⟨lower, -, h⟩ := bind_eq_ok.1 h
    obtain ⟨upper, -, h⟩ := bind_eq_ok.1 h
    exact valid_ofInterval (fun z hz => Interval.valid_of_ofBounds hz) h
  · cases h

theorem valid_unreversed (hv : v.Valid) : v.unreversed.Valid := by
  cases v with
  | abstract a =>
    rw [Value.unreversed_abstract]
    exact AbstractValue.valid_unreversed hv
  | _ => trivial

theorem valid_lattice {op : Operator} {k : Kept}
    {f : AbstractValue → AbstractValue → Except OperationError AbstractValue}
    (hf : AbstractValue.Combines k f) (hvs : ∀ v ∈ vs, v.Valid) (h : applyLattice op f vs = .ok v) :
    v.Valid := by
  obtain ⟨r, hr, rfl⟩ := map_eq_ok.1 h
  obtain ⟨m, hm, hr⟩ := bind_eq_ok.1 hr
  have hmvalid : m.Valid := by
    have hargs : ∀ u ∈ vs.map Value.unreversed, u.Valid := by
      intro u hu
      obtain ⟨w, hw, rfl⟩ := List.mem_map.1 hu
      exact valid_unreversed (hvs w hw)
    generalize vs.map Value.unreversed = us at hm hargs
    beta_reduce at hm
    split at hm
    · obtain ⟨a, ha, hm⟩ := bind_eq_ok.1 hm
      obtain ⟨b, hb, hm⟩ := bind_eq_ok.1 hm
      rw [Value.toAbstract_eq_ok.1 ha, Value.toAbstract_eq_ok.1 hb] at hargs
      exact (hf.retains (hargs (.abstract a) (by simp)) (hargs (.abstract b) (by simp))
        (ofOperation_eq_ok.1 hm)).valid
    · cases hm
  split at hr
  · exact (AbstractValue.valid_reverse hmvalid (ofOperation_eq_ok.1 hr)).1
  · cases hr
    exact hmvalid

/-! ## All operators -/

/-- Every operator makes a valid value of valid ones. -/
theorem valid_apply {op : Operator} {bits : Nat} (hvs : ∀ v ∈ vs, v.Valid)
    (h : op.apply bits vs = .ok v) : v.Valid := by
  cases op with
  | and =>
    simp only [apply, applyAnd] at h
    split at h
    · cases h
    · obtain ⟨ws, -, rfl⟩ := map_eq_ok.1 h
      trivial
  | not =>
    obtain ⟨ws, -, h⟩ := bind_eq_ok.1 h
    split at h <;> cases h
    trivial
  | compare cmp =>
    obtain ⟨o, -, h⟩ := bind_eq_ok.1 h
    obtain ⟨b, -, h⟩ := bind_eq_ok.1 h
    obtain ⟨w, -, rfl⟩ := map_eq_ok.1 h
    trivial
  | ite => exact valid_ite hvs h
  | symbol => exact valid_symbol h
  | shiftRight => exact valid_shiftRight hvs h
  | concat => exact valid_concat hvs h
  | extract => exact valid_extract hvs h
  | signExtend => exact (denotes_signExtend hvs h).1
  | zeroExtend => exact (denotes_zeroExtend hvs h).1
  | reverse => exact valid_reverse hvs h
  | union => exact valid_lattice AbstractValue.combines_union hvs h
  | intersection => exact valid_lattice AbstractValue.combines_intersection hvs h
  | widen => exact valid_lattice AbstractValue.combines_widen hvs h
  | interval => exact valid_interval h
  | valueSet => exact valid_valueSet hvs h

/-- The result of an operator stands for every concrete result on what its operands stand for. -/
theorem denotes_apply {op : Operator} {bits : Nat} (hvs : ∀ v ∈ vs, v.Valid)
    (h : op.apply bits vs = .ok v) (hcs : DenotesAll vs cs) (hstep : Concrete.Step op cs c) :
    v.Denotes c := by
  cases hstep with
  | and bs => exact denotes_and h hcs
  | not b => exact denotes_not h hcs
  | compare left right => exact denotes_compare hvs h hcs (.compare left right)
  | compareApart t left right apart =>
    exact denotes_compare hvs h hcs (.compareApart t left right apart)
  | ite b yes no => exact denotes_ite hvs h hcs
  | shiftRight bits place shift => exact denotes_shiftRight hvs h hcs shift
  | concat parts => exact denotes_concat hvs h hcs
  | concatSingle bits place => exact denotes_concatSingle h hcs
  | extract place field => exact denotes_extract hvs h hcs
  | signExtend added bits n => exact (denotes_signExtend hvs h).2 added bits n hcs
  | zeroExtend added bits n => exact (denotes_zeroExtend hvs h).2 added bits n hcs
  | reverse bits place => exact denotes_reverse hvs h hcs
  | valueSet region bits n => exact denotes_valueSet hvs h hcs

end Operator

end AbstractBits
