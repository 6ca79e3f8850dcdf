import AbstractBits.Bits
/-!
# Arithmetic progressions

The numbers `lower`, `lower + stride`, …, up to `upper`. A progression in normal form ends in a
member and has stride 0 exactly when it has one member, so that equal sets of numbers have equal
descriptions.

Results:
  * `mem_iff_exists` — the members, counted from below.
  * `normal_between`, `between_eq_self` — `between` builds normal forms and keeps those there are.
  * `mem_between` — the members of what `between` builds.
-/

namespace AbstractBits

/-- The numbers from `lower` up to `upper` in steps of `stride`. -/
structure Progression where
  lower : Nat
  upper : Nat
  stride : Nat
  deriving DecidableEq, Repr, Inhabited

namespace Progression

instance : Membership Nat Progression where
  mem p v := p.lower ≤ v ∧ v ≤ p.upper ∧ p.stride ∣ v - p.lower

theorem mem_def {p : Progression} {v : Nat} :
    v ∈ p ↔ p.lower ≤ v ∧ v ≤ p.upper ∧ p.stride ∣ v - p.lower := Iff.rfl

instance (v : Nat) (p : Progression) : Decidable (v ∈ p) :=
  inferInstanceAs (Decidable (_ ∧ _ ∧ _))

/-- The form that every operation keeps: the last number is a member, and a stride of 0 marks a
single number. -/
def Normal (p : Progression) : Prop :=
  p.lower ≤ p.upper ∧ (p.stride = 0 ↔ p.lower = p.upper) ∧ p.stride ∣ p.upper - p.lower

instance (p : Progression) : Decidable p.Normal := inferInstanceAs (Decidable (_ ∧ _ ∧ _))

/-- One number. -/
def single (value : Nat) : Progression := ⟨value, value, 0⟩

/-- The normal form of the numbers from `lower` to `upper` in steps of `stride`, for
`lower ≤ upper`. A stride of 0 between different ends counts as 1. -/
def between (lower upper stride : Nat) : Progression :=
  if lower = upper then single lower
  else
    let step := max stride 1
    let last := lastUpTo lower step upper
    ⟨lower, last, if last = lower then 0 else step⟩

/-- All numbers of a width. -/
def whole (bits : Nat) : Progression := between 0 (allOnes bits) 1

def isSingle (p : Progression) : Bool := p.lower == p.upper

/-- How many members there are; counts past 128 bits are given as the greatest number of 128
bits. -/
def size (p : Progression) : Nat :=
  if p.stride = 0 then 1 else min ((p.upper - p.lower) / p.stride + 1) (allOnes maxBits)

/-- The `n` smallest members, or all of them if there are fewer. -/
def sample (p : Progression) (n : Nat) : List Nat :=
  (List.range (min n p.size)).map fun k => p.lower + k * p.stride

/-! ## Membership -/

theorem mem_iff_exists {p : Progression} {v : Nat} :
    v ∈ p ↔ ∃ k, v = p.lower + k * p.stride ∧ v ≤ p.upper := by
  rw [mem_def]
  constructor
  · rintro ⟨hlow, hupp, k, hk⟩
    exact ⟨k, by rw [Nat.mul_comm] at hk; omega, hupp⟩
  · rintro ⟨k, hk, hupp⟩
    exact ⟨by omega, hupp, k, by rw [Nat.mul_comm]; omega⟩

@[simp] theorem mem_single {v w : Nat} : v ∈ single w ↔ v = w := by
  simp only [mem_def, single]
  omega

/-! ## Normal form -/

theorem Normal.lower_mem {p : Progression} (h : p.Normal) : p.lower ∈ p :=
  ⟨Nat.le_refl _, h.1, by simp⟩

theorem Normal.upper_mem {p : Progression} (h : p.Normal) : p.upper ∈ p :=
  ⟨h.1, Nat.le_refl _, h.2.2⟩

theorem normal_single (value : Nat) : (single value).Normal := by
  simp [Normal, single]

theorem between_self (lower stride : Nat) : between lower lower stride = single lower := by
  simp [between]

theorem between_of_lt {lower upper stride : Nat} (hstride : 0 < stride) (h : lower < upper) :
    between lower upper stride = ⟨lower, lastUpTo lower stride upper,
      if lastUpTo lower stride upper = lower then 0 else stride⟩ := by
  rw [between, if_neg (Nat.ne_of_lt h)]
  simp only [Nat.max_eq_left hstride]

theorem normal_between {lower upper : Nat} (stride : Nat) (h : lower ≤ upper) :
    (between lower upper stride).Normal := by
  unfold between
  split
  · exact normal_single lower
  · refine ⟨le_lastUpTo h, ?_, ?_⟩
    · dsimp only
      split <;> omega
    · dsimp only
      split
      · rename_i heq
        simp [heq]
      · exact dvd_lastUpTo_sub _ _ _

theorem lower_between (lower upper stride : Nat) : (between lower upper stride).lower = lower := by
  unfold between
  split <;> rfl

/-- The upper bound is not past the end that the progression was built from. -/
theorem upper_between_le {lower upper : Nat} (stride : Nat) (h : lower ≤ upper) :
    (between lower upper stride).upper ≤ upper := by
  unfold between
  split
  · exact h
  · exact lastUpTo_le h

theorem between_eq_self {p : Progression} (h : p.Normal) :
    between p.lower p.upper p.stride = p := by
  obtain ⟨lower, upper, stride⟩ := p
  obtain ⟨hle, hzero, hdvd⟩ := h
  dsimp only at hle hzero hdvd ⊢
  unfold between
  split
  · rename_i heq
    simp [single, hzero.2 heq, heq]
  · rename_i hne
    have hpos : 0 < stride := Nat.pos_of_ne_zero fun hz => hne (hzero.1 hz)
    have hlast : lastUpTo lower stride upper = upper := by
      rw [lastUpTo, if_neg (Nat.ne_of_gt hpos), Nat.mod_eq_zero_of_dvd hdvd, Nat.sub_zero]
    simp [Nat.max_eq_left hpos, hlast, Ne.symm hne]

/-- A number of the class of `base` is below a bound exactly when it is below the aligned bound. -/
theorem le_lastUpTo_iff {base stride ceiling v : Nat} (hstride : 0 < stride) (hbase : base ≤ v)
    (hdvd : stride ∣ v - base) (hceil : base ≤ ceiling) :
    v ≤ lastUpTo base stride ceiling ↔ v ≤ ceiling := by
  rw [lastUpTo, if_neg (Nat.ne_of_gt hstride)]
  constructor
  · intro h
    exact Nat.le_trans h (Nat.sub_le _ _)
  · intro h
    have hle := Nat.mod_le (ceiling - base) stride
    have hmono : (v - base) / stride ≤ (ceiling - base) / stride :=
      Nat.div_le_div_right (by omega)
    have hv := Nat.div_mul_cancel hdvd
    have hc := Nat.div_add_mod (ceiling - base) stride
    have hmul := Nat.mul_le_mul_right stride hmono
    rw [Nat.mul_comm] at hc
    omega

theorem mem_between {lower upper stride v : Nat} (hstride : 0 < stride) (h : lower ≤ upper) :
    v ∈ between lower upper stride ↔ lower ≤ v ∧ v ≤ upper ∧ stride ∣ v - lower := by
  rcases Nat.eq_or_lt_of_le h with heq | hlt
  · subst heq
    rw [between_self, mem_single]
    constructor
    · rintro rfl
      simp
    · rintro ⟨hlow, hupp, -⟩
      omega
  · rw [between_of_lt hstride hlt, mem_def]
    dsimp only
    by_cases hlast : lastUpTo lower stride upper = lower
    · simp only [hlast, if_true]
      constructor
      · rintro ⟨hlow, hupp, -⟩
        have : v = lower := by omega
        subst this
        exact ⟨hlow, h, by simp⟩
      · rintro ⟨hlow, hupp, hdvd⟩
        have := (le_lastUpTo_iff hstride hlow hdvd h).2 hupp
        have : v = lower := by omega
        subst this
        simp
    · simp only [hlast, if_false]
      constructor
      · rintro ⟨hlow, hupp, hdvd⟩
        exact ⟨hlow, Nat.le_trans hupp (lastUpTo_le h), hdvd⟩
      · rintro ⟨hlow, hupp, hdvd⟩
        exact ⟨hlow, (le_lastUpTo_iff hstride hlow hdvd h).2 hupp, hdvd⟩

end Progression

end AbstractBits
