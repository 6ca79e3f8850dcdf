import AbstractBits.Proofs.Expr.Concatenation
/-!
# Intervals built by operators

The operators that build an interval read each of their integers modulo the width, the stride too.
The constructor of intervals reads the bounds modulo the width and takes the stride as it is. A
stride past the distance of the bounds leaves the lower one only, so that the two agree unless a
stride of the width or more comes to one that reaches a second number.

Results:
  * `between_mod_eq_iff` — when a stride may be read modulo a number past the bounds.
  * `call_interval`, `call_symbol` — what the operators build.
  * `constructors_agree_iff` — when this is what the constructor builds.
-/

namespace AbstractBits

namespace Progression

variable {lower upper stride modulus : Nat}

/-- A stride past the distance of the bounds leaves the lower one only. -/
theorem between_eq_single_iff (h : lower < upper) :
    between lower upper stride = single lower ↔ upper - lower < stride := by
  rcases Nat.eq_zero_or_pos stride with rfl | hpos
  · have hlast : (between lower upper 0).upper = upper := by
      simp [between, Nat.ne_of_lt h, lastUpTo, Nat.mod_one]
    refine iff_of_false (fun hsingle => ?_) (Nat.not_lt_zero _)
    rw [hsingle] at hlast
    exact Nat.ne_of_lt h hlast
  · rw [between_of_lt hpos h, lastUpTo, if_neg (Nat.ne_of_gt hpos)]
    constructor
    · intro hsingle
      have hlast : upper - (upper - lower) % stride = lower := congrArg Progression.upper hsingle
      by_contra hle
      have hmod := Nat.mod_lt (upper - lower) hpos
      omega
    · intro hlt
      have hlast : upper - (upper - lower) % stride = lower := by
        rw [Nat.mod_eq_of_lt hlt]
        omega
      simp only [hlast, if_true, single]

/-- A stride may be read modulo a number past the bounds exactly if it is below that, or if the
lower bound is all that it leaves in either reading. A stride of the modulus or more is past the
bounds as well. -/
theorem between_mod_eq_iff (hle : lower ≤ upper) (hupper : upper < modulus) :
    between lower upper (stride % modulus) = between lower upper stride ↔
      stride < modulus ∨ upper = lower ∨ upper - lower < stride % modulus := by
  rcases Nat.eq_or_lt_of_le hle with heq | hlt
  · subst heq
    simp only [between_self, true_or, or_true]
  rcases Nat.lt_or_ge stride modulus with hstride | hstride
  · simp only [Nat.mod_eq_of_lt hstride, hstride, true_or]
  · have hfar : between lower upper stride = single lower :=
      (between_eq_single_iff hlt).2 (by omega)
    rw [hfar, between_eq_single_iff hlt]
    have hne : upper ≠ lower := Nat.ne_of_gt hlt
    simp only [Nat.not_lt.2 hstride, hne, false_or]

end Progression

namespace Interval

variable {bits stride lower upper : Nat}

/-- What is built from bounds that fit the width. -/
theorem ofBounds_of_lt (valid : ValidWidth bits) (hlower : lower < twoPow bits)
    (hupper : upper < twoPow bits) (stride : Nat) :
    ofBounds bits stride lower upper =
      if upper < lower then .error (.crossedBounds lower upper)
      else .ok (ofRange bits (some (.between lower upper stride))) := by
  rw [ofBounds, if_pos valid, truncate_of_lt valid hlower, truncate_of_lt valid hupper]

/-- When the constructor may be given a stride modulo the width. -/
theorem ofBounds_mod_eq_iff (valid : ValidWidth bits) (hlower : lower < twoPow bits)
    (hupper : upper < twoPow bits) :
    ofBounds bits (stride % twoPow bits) lower upper = ofBounds bits stride lower upper ↔
      stride < twoPow bits ∨ upper ≤ lower ∨ upper - lower < stride % twoPow bits := by
  rw [ofBounds_of_lt valid hlower hupper, ofBounds_of_lt valid hlower hupper]
  rcases Nat.lt_or_ge upper lower with hcrossed | hle
  · exact iff_of_true (by rw [if_pos hcrossed, if_pos hcrossed])
      (.inr (.inl (Nat.le_of_lt hcrossed)))
  · have hmod :
        Progression.between lower upper (stride % twoPow bits) = .between lower upper stride ↔
          stride < twoPow bits ∨ upper = lower ∨ upper - lower < stride % twoPow bits :=
      Progression.between_mod_eq_iff hle hupper
    have hsingle : upper = lower ↔ upper ≤ lower := Nat.le_antisymm_iff.trans (and_iff_left hle)
    rw [if_neg (Nat.not_lt.2 hle), if_neg (Nat.not_lt.2 hle), ← hsingle]
    simpa only [ofRange, Except.ok.injEq, mk.injEq, Option.some.injEq, true_and, and_true]
      using hmod

/-- A name makes no difference for that. -/
theorem named_eq_named_iff {name : String} {s t : Nat} :
    named name bits lower upper s = named name bits lower upper t ↔
      ofBounds bits s lower upper = ofBounds bits t lower upper := by
  unfold named ofBounds
  split
  · dsimp only
    split
    · rfl
    · simp [Except.map, withName, ofRange]
  · rfl

end Interval

theorem truncateInt_natCast {bits : Nat} (valid : ValidWidth bits) (n : Nat) :
    truncateInt bits n = n % twoPow bits := by
  rw [truncateInt, modulus_of_valid valid, ← Int.natCast_emod, Int.toNat_natCast]

namespace Operator

variable {bits stride lower upper : Nat}

/-- Whether a call has what a construction makes: the interval itself, or the failure for the same
cause. -/
def Builds (made : Except OperationError Interval) (result : Except EvalError Value) : Prop :=
  match made with
  | .ok x => result = .ok (.abstract (.interval x))
  | .error cause => result = .error (.operation cause)

theorem builds_ofInterval_iff {made other : Except OperationError Interval} :
    Builds made (ofInterval other) ↔ other = made := by
  cases made <;> cases other <;> simp [Builds, ofInterval, ofOperation, Except.map, Except.mapError]

/-! ## Calls -/

/-- An integer is read modulo the width. -/
theorem toField_natCast {op : Operator} (valid : ValidWidth bits) (n : Nat) :
    toField op bits (.int n) = .ok (n % twoPow bits) :=
  map_eq_ok.2 ⟨n, rfl, truncateInt_natCast valid n⟩

theorem applyInterval_integers (valid : ValidWidth bits) (stride lower upper : Nat) :
    applyInterval [.int bits, .int stride, .int lower, .int upper] =
      ofInterval (Interval.ofBounds bits (stride % twoPow bits) (lower % twoPow bits)
        (upper % twoPow bits)) := by
  rw [applyInterval, toBitCount_of_le valid.2]
  show (do
    let stride ← toField interval bits (.int stride)
    let lower ← toField interval bits (.int lower)
    let upper ← toField interval bits (.int upper)
    ofInterval (Interval.ofBounds bits stride lower upper)) = _
  rw [toField_natCast valid, toField_natCast valid, toField_natCast valid]
  rfl

theorem applySymbol_integers (valid : ValidWidth bits) (name : String) (stride lower upper : Nat) :
    applySymbol bits [.str name, .int lower, .int upper, .int stride] =
      ofInterval (Interval.named name bits (lower % twoPow bits) (upper % twoPow bits)
        (stride % twoPow bits)) := by
  simp only [applySymbol, toField_natCast valid, bind, Except.bind]

theorem call_interval (valid : ValidWidth bits) (hlower : lower < twoPow bits)
    (hupper : upper < twoPow bits) (declared : Nat) :
    interval.call [.int bits, .int stride, .int lower, .int upper] declared =
      ofInterval (Interval.ofBounds bits (stride % twoPow bits) lower upper) := by
  have hargs := Expr.evaluateAll_map_ofValue [.int bits, .int stride, .int lower, .int upper]
  have happly := applyInterval_integers valid stride lower upper
  rw [Nat.mod_eq_of_lt hlower, Nat.mod_eq_of_lt hupper] at happly
  exact (call_of_evaluateAll rfl hargs).trans happly

theorem call_symbol (valid : ValidWidth bits) (hlower : lower < twoPow bits)
    (hupper : upper < twoPow bits) (name : String) :
    symbol.call [.str name, .int lower, .int upper, .int stride] bits =
      ofInterval (Interval.named name bits lower upper (stride % twoPow bits)) := by
  have hargs := Expr.evaluateAll_map_ofValue [.str name, .int lower, .int upper, .int stride]
  have happly := applySymbol_integers valid name stride lower upper
  rw [Nat.mod_eq_of_lt hlower, Nat.mod_eq_of_lt hupper] at happly
  exact (call_of_evaluateAll rfl hargs).trans happly

/-- The two operators that build an interval from a width, a stride and bounds of that width have
what the constructor makes of the stride modulo the width. This is what it makes of the stride
itself exactly if the stride is less than all numbers of the width, if the bounds leave at most one
number, or if the stride modulo the width is past their distance. -/
theorem constructors_agree_iff (valid : ValidWidth bits) (hlower : lower < twoPow bits)
    (hupper : upper < twoPow bits) (stride : Nat) (name : String) (declared : Nat) :
    (Builds (Interval.ofBounds bits (stride % twoPow bits) lower upper)
        (interval.call [.int bits, .int stride, .int lower, .int upper] declared) ∧
      Builds (Interval.named name bits lower upper (stride % twoPow bits))
        (symbol.call [.str name, .int lower, .int upper, .int stride] bits)) ∧
    (Builds (Interval.ofBounds bits stride lower upper)
        (interval.call [.int bits, .int stride, .int lower, .int upper] declared) ↔
      stride < twoPow bits ∨ upper ≤ lower ∨ upper - lower < stride % twoPow bits) ∧
    (Builds (Interval.named name bits lower upper stride)
        (symbol.call [.str name, .int lower, .int upper, .int stride] bits) ↔
      stride < twoPow bits ∨ upper ≤ lower ∨ upper - lower < stride % twoPow bits) := by
  rw [call_interval valid hlower hupper, call_symbol valid hlower hupper]
  simp only [builds_ofInterval_iff, Interval.named_eq_named_iff,
    Interval.ofBounds_mod_eq_iff valid hlower hupper, true_and, iff_self]

/-- The numbers of 8 bits from 4 to 10 in steps of 263, which leave 4 alone in either reading, and
in steps of 2. -/
theorem constructors_agree_on_far_stride :
    Builds (Interval.ofBounds 8 263 4 10)
      (interval.call [.int (8 : Nat), .int (263 : Nat), .int (4 : Nat),
        .int (10 : Nat)] 8) ∧
      Builds (Interval.named "x" 8 4 10 2) (symbol.call [.str "x", .int (4 : Nat), .int (10 : Nat),
        .int (2 : Nat)] 8) := by
  have hfar :=
    constructors_agree_iff (by decide : ValidWidth 8) (by decide : 4 < twoPow 8)
      (by decide : 10 < twoPow 8)
    263 "x" 8
  have htwo :=
    constructors_agree_iff (by decide : ValidWidth 8) (by decide : 4 < twoPow 8)
      (by decide : 10 < twoPow 8)
    2 "x" 8
  exact ⟨hfar.2.1.2 (.inr (.inr (by decide))), htwo.2.2.2 (.inl (by decide))⟩

/-- In steps of 256 there is one number of 8 bits from 0 to 3. The operator reads 256 as 0, and has
all four. -/
theorem constructors_differ_on_wide_stride :
    ¬∀ (bits stride lower upper : Nat) (name : String) (declared : Nat),
    ValidWidth bits → lower < twoPow bits →
      upper < twoPow bits →
      Builds (Interval.ofBounds bits stride lower upper)
          (interval.call [.int bits, .int stride, .int lower, .int upper] declared) ∧
        Builds (Interval.named name bits lower upper stride)
          (symbol.call [.str name, .int lower, .int upper, .int stride] bits) := by
  intro hall
  obtain ⟨hsame, -⟩ := hall 8 256 0 3 "x" 8 (by decide) (by decide) (by decide)
  rw [call_interval (by decide) (by decide) (by decide), builds_ofInterval_iff] at hsame
  have hranges : Interval.ofRange 8 (some ⟨0, 3, 1⟩) = Interval.ofRange 8 (some ⟨0, 0, 0⟩) :=
    Except.ok.inj hsame
  exact absurd hranges (by decide)

end Operator

end AbstractBits
