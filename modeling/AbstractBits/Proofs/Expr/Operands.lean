import AbstractBits.Expr.Application
import AbstractBits.Expr.Concrete
import AbstractBits.Proofs.AbstractValue.Transfer
/-!
# Operands that are accepted

What an operand must have been where an operator accepts it, and what the abstract operand that an
operator makes of it stands for.

Results:
  * `toAbstract_eq_ok`, `toBitCount_eq_ok`, `toVerdict_eq_ok`, `bringFront_eq_ok` — operands of each
    kind.
  * `denotes_of_toAbstractOf` — an integer beside an abstract operand stands for its number of that
    width.
  * `denotes_of_same` — equal values stand for the same.
-/

namespace AbstractBits

theorem truncateInt_lt (bits : Nat) (i : Int) : truncateInt bits i < modulus bits := by
  have hpos := modulus_pos bits
  have hlt := Int.emod_lt_of_pos i (b := (modulus bits : Int)) (by omega)
  have hnonneg := Int.emod_nonneg i (b := (modulus bits : Int)) (by omega)
  unfold truncateInt
  omega

namespace Value

variable {op : Operator} {v w : Value} {c : Concrete}

/-- Whether a value is kept in the form of its kind. -/
def Valid : Value → Prop
  | abstract a => a.Valid
  | _ => True

/-! ## Kinds of operands -/

theorem toAbstract_eq_ok {a : AbstractValue} : v.toAbstract op = .ok a ↔ v = .abstract a := by
  cases v <;> simp [toAbstract]

theorem toInt_eq_ok {i : Int} : v.toInt op = .ok i ↔ v = .int i := by
  cases v <;> simp [toInt]

theorem toVerdict_eq_ok {x : Verdict} : v.toVerdict = .ok x ↔ v = .bool x := by
  cases v <;> simp [toVerdict]

theorem toVerdicts_eq_ok {args : List Value} {ws : List Verdict} :
    toVerdicts args = .ok ws ↔ args = ws.map .bool := by
  induction args generalizing ws with
  | nil =>
    cases ws with
    | nil => exact iff_of_true rfl rfl
    | cons w ws => exact iff_of_false nofun nofun
  | cons v args ih =>
    unfold toVerdicts at ih ⊢
    rw [List.mapM_cons]
    constructor
    · intro h
      obtain ⟨w, hw, h⟩ := bind_eq_ok.1 h
      obtain ⟨rest, hrest, h⟩ := bind_eq_ok.1 h
      cases h
      rw [toVerdict_eq_ok.1 hw, ih.1 hrest, List.map_cons]
    · intro h
      cases ws with
      | nil => cases h
      | cons w ws =>
        obtain ⟨rfl, hrest⟩ := List.cons_eq_cons.1 h
        rw [ih.2 hrest]
        rfl

theorem toBitCount_eq_ok {n : Nat} (h : v.toBitCount op = .ok n) : v = .int n := by
  obtain ⟨i, hi, h⟩ := bind_eq_ok.1 h
  rw [toInt_eq_ok.1 hi]
  split at h <;> cases h
  rename_i hrange
  rw [Int.toNat_of_nonneg hrange.1]

theorem fitInteger_eq_ok {i : Int} {bits n : Nat} (h : fitInteger i bits = .ok n) :
    n = truncateInt bits i := by
  unfold fitInteger at h
  split at h <;> cases h
  rfl

theorem bringFront_eq_ok {args : List Value} {o : Fronted} (h : bringFront args = .ok o) :
    o.swapped = false ∧ args = [.abstract o.front, o.other] ∨
      o.swapped = true ∧ args = [o.other, .abstract o.front] := by
  unfold bringFront at h
  split at h <;> cases h
  · exact .inl ⟨rfl, rfl⟩
  · exact .inr ⟨rfl, rfl⟩

theorem unreversed_abstract (a : AbstractValue) :
    (abstract a).unreversed = .abstract a.unreversed := by
  simp only [Value.unreversed, AbstractValue.unreversed]
  split <;> rfl

/-! ## What operands stand for -/

theorem denotes_vector {a : AbstractValue} {bits : Nat} {place : Place}
    (h : (Value.abstract a).Denotes (.vector bits place)) : bits = a.bits ∧ a.Denotes place := by
  obtain ⟨q, hq, heq⟩ := h
  cases heq
  exact ⟨rfl, hq⟩

/-- A bit-vector of an abstract operand has the width of the operand. -/
theorem denotes_of_at {a : AbstractValue} {bits : Nat} {place : Place}
    (h : (Value.abstract a).Denotes c) (hat : Concrete.At bits c place) :
    bits = a.bits ∧ a.Denotes place := by
  cases hat with
  | vector => exact denotes_vector h
  | literal =>
    obtain ⟨q, -, heq⟩ := h
    cases heq

/-- An operand beside an abstract one stands for the places that it can be there. -/
theorem denotes_of_toAbstractOf {b : AbstractValue} {bits : Nat} {place : Place}
    (width : ValidWidth bits) (hv : v.Valid) (h : v.toAbstractOf op bits = .ok b) (hc : v.Denotes c)
    (hat : Concrete.At bits c place) : b.Valid ∧ b.Denotes place := by
  cases v with
  | int i =>
    obtain ⟨n, hn, rfl⟩ := map_eq_ok.1 h
    cases hc
    cases hat
    refine ⟨Interval.valid_constant width n, rfl, Interval.denotes_constant.2 ?_⟩
    rw [fitInteger_eq_ok hn, truncate, Nat.mod_eq_of_lt (truncateInt_lt bits i)]
    rfl
  | abstract a =>
    cases h
    exact ⟨hv, (denotes_of_at hc hat).2⟩
  | float x => cases h
  | str s => cases h
  | bool x => cases h

/-- Values that are equal but for names stand for the same. -/
theorem denotes_of_same (h : v.same w = true) (hc : w.Denotes c) : v.Denotes c := by
  cases v with
  | int i =>
    cases w with
    | int j =>
      have heq : i = j := by simpa [same] using h
      exact heq ▸ hc
    | _ => cases h
  | float x =>
    cases w with
    | float y => cases hc
    | _ => cases h
  | str s =>
    cases w with
    | str t =>
      have heq : s = t := by simpa [same] using h
      exact heq ▸ hc
    | _ => cases h
  | abstract a =>
    cases w with
    | abstract b =>
      have heq : a.unnamed = b.unnamed := by simpa [same] using h
      obtain ⟨place, hplace, rfl⟩ := hc
      have hbits : b.bits = a.bits := by
        have hwidth (d : AbstractValue) : d.unnamed.bits = d.bits := by cases d <;> rfl
        rw [← hwidth a, heq, hwidth b]
      refine ⟨place, ?_, by rw [hbits]⟩
      rwa [← AbstractValue.denotes_unnamed, heq, AbstractValue.denotes_unnamed]
    | _ => cases h
  | bool x =>
    cases w with
    | bool y =>
      have heq : x = y := by simpa [same] using h
      exact heq ▸ hc
    | _ => cases h

end Value

end AbstractBits
