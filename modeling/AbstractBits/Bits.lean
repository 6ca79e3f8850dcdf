/-!
# Numbers of a bit width

A bit-vector is carried as the natural number of its unsigned reading, beside its width. This module
has the arithmetic that depends on the width alone: the range of a width, the signed reading, the
neighbours of a number in a residue class, and the exchange of bytes. At the end there is how many
numbers a list can have.

Results:
  * `signedValue_of_lt`, `signedValue_of_le` — the signed reading of either half of a width.
  * `mem_firstFrom`, `lastUpTo_le`, `dvd_lastUpTo_sub` — the neighbours are in the class and on the
    right side.
  * `reverseBytes_reverseBytes` — exchanging the bytes twice gives the number back.
  * `hasRoom_iff` — how long a list can be.
-/

namespace AbstractBits

/-- The width of the widest bit-vector. -/
def maxBits : Nat := 128

/-- A bit-vector has at least one bit and at most `maxBits`. -/
def ValidWidth (bits : Nat) : Prop := 1 ≤ bits ∧ bits ≤ maxBits

instance (bits : Nat) : Decidable (ValidWidth bits) := inferInstanceAs (Decidable (_ ∧ _))

theorem validWidth_maxBits : ValidWidth maxBits := by decide

/-! ## Ranges -/

/-- How many numbers `n` bits can hold. -/
def twoPow (n : Nat) : Nat := Nat.pow 2 n

theorem twoPow_pos (n : Nat) : 0 < twoPow n := Nat.two_pow_pos n

theorem twoPow_add (m n : Nat) : twoPow (m + n) = twoPow m * twoPow n := Nat.pow_add 2 m n

theorem twoPow_succ (n : Nat) : twoPow (n + 1) = twoPow n * 2 := Nat.pow_succ 2 n

/-- How many numbers a width has; a width above `maxBits` counts as `maxBits`. -/
def modulus (bits : Nat) : Nat := twoPow (min bits maxBits)

/-- The greatest number of a width: all bits set. -/
def allOnes (bits : Nat) : Nat := modulus bits - 1

/-- The low `bits` bits of a number. -/
def truncate (bits value : Nat) : Nat := value % modulus bits

/-- The low `bits` bits of a number, negative ones in two's complement. -/
def truncateInt (bits : Nat) (value : Int) : Nat := (value % (modulus bits : Int)).toNat

/-- The least number with the sign bit of a width. -/
def signWeight (bits : Nat) : Nat := twoPow (bits - 1)

/-- The low `bits` bits read in two's complement. -/
def signedValue (bits value : Nat) : Int := Int.bmod value (twoPow bits)

/-- The least signed number of a width. -/
def signedMin (bits : Nat) : Int := -(signWeight bits : Int)

/-- The greatest signed number of a width. -/
def signedMax (bits : Nat) : Int := (signWeight bits : Int) - 1

theorem modulus_pos (bits : Nat) : 0 < modulus bits := twoPow_pos _

theorem truncate_lt (bits value : Nat) : truncate bits value < modulus bits :=
  Nat.mod_lt _ (modulus_pos bits)

theorem modulus_of_valid {bits : Nat} (valid : ValidWidth bits) : modulus bits = twoPow bits := by
  rw [modulus, Nat.min_eq_left valid.2]

theorem le_allOnes_iff {bits : Nat} (valid : ValidWidth bits) {value : Nat} :
    value ≤ allOnes bits ↔ value < twoPow bits := by
  have hpos := twoPow_pos bits
  rw [allOnes, modulus_of_valid valid]
  omega

theorem allOnes_pos {bits : Nat} (valid : ValidWidth bits) : 0 < allOnes bits :=
  (le_allOnes_iff valid).2 (Nat.one_lt_two_pow (Nat.ne_of_gt valid.1))

/-- Half of the numbers of a width have the sign bit. -/
theorem twoPow_eq_signWeight {bits : Nat} (h : 1 ≤ bits) : twoPow bits = signWeight bits * 2 := by
  obtain ⟨n, rfl⟩ := Nat.exists_eq_add_of_le' h
  exact twoPow_succ n

theorem signedValue_of_lt {bits value : Nat} (h : 1 ≤ bits) (hvalue : value < signWeight bits) :
    signedValue bits value = value := by
  have htwo := twoPow_eq_signWeight h
  exact Int.bmod_eq_of_le_mul_two (by omega) (by omega)

theorem signedValue_of_le {bits value : Nat} (h : 1 ≤ bits) (hvalue : signWeight bits ≤ value)
    (hlt : value < twoPow bits) : signedValue bits value = (value : Int) - (twoPow bits : Int) := by
  have htwo := twoPow_eq_signWeight h
  have hmod : (value : Int) % (twoPow bits : Int) = value :=
    Int.emod_eq_of_lt (by omega) (by omega)
  rw [signedValue, Int.bmod_neg _ _ (by rw [hmod]; omega), hmod]

/-! ## Neighbours in a residue class -/

/-- The least number from `floor` on that is `base` plus a multiple of `stride`, for `base ≤ floor`.
There is none if it would need more than `maxBits` bits, or if `stride` is 0 and `floor` is past
`base`. -/
def firstFrom (base stride floor : Nat) : Option Nat :=
  if stride = 0 then
    if floor = base then some base else none
  else
    let next := floor + (stride - (floor - base) % stride) % stride
    if next < twoPow maxBits then some next else none

/-- The greatest number up to `ceiling` that is `base` plus a multiple of `stride`, for
`base ≤ ceiling`. -/
def lastUpTo (base stride ceiling : Nat) : Nat :=
  if stride = 0 then base else ceiling - (ceiling - base) % stride

theorem lastUpTo_le {base stride ceiling : Nat} (h : base ≤ ceiling) :
    lastUpTo base stride ceiling ≤ ceiling := by
  unfold lastUpTo
  split
  · exact h
  · exact Nat.sub_le _ _

theorem le_lastUpTo {base stride ceiling : Nat} (h : base ≤ ceiling) :
    base ≤ lastUpTo base stride ceiling := by
  unfold lastUpTo
  split
  · exact Nat.le_refl _
  · have := Nat.mod_le (ceiling - base) stride
    omega

theorem dvd_lastUpTo_sub (base stride ceiling : Nat) :
    stride ∣ lastUpTo base stride ceiling - base := by
  unfold lastUpTo
  split
  · simp
  · have hsub : ceiling - (ceiling - base) % stride - base
        = (ceiling - base) - (ceiling - base) % stride := by omega
    rw [hsub]
    exact Nat.dvd_sub_mod _

/-- The neighbour above is in the class and not below `floor`. -/
theorem mem_firstFrom {base stride floor next : Nat} (h : base ≤ floor)
    (found : firstFrom base stride floor = some next) : floor ≤ next ∧ stride ∣ next - base := by
  unfold firstFrom at found
  split at found
  · split at found
    · rename_i hfloor
      cases found
      exact ⟨Nat.le_of_eq hfloor, by simp⟩
    · cases found
  · rename_i hstride
    dsimp only at found
    split at found
    · cases found
      refine ⟨Nat.le_add_right _ _, ?_⟩
      have hsub : floor + (stride - (floor - base) % stride) % stride - base
          = (floor - base) + (stride - (floor - base) % stride) % stride := by omega
      have hlt := Nat.mod_lt (floor - base) (Nat.pos_of_ne_zero hstride)
      rw [hsub]
      refine Nat.dvd_of_mod_eq_zero ?_
      rw [Nat.add_mod, Nat.mod_mod, ← Nat.add_mod_mod, Nat.mod_mod, Nat.mod_add_mod]
      have hdiv := Nat.div_add_mod (floor - base) stride
      have hsum : floor - base + (stride - (floor - base) % stride)
          = stride * ((floor - base) / stride + 1) := by
        rw [Nat.mul_add]
        omega
      rw [Nat.add_mod_mod, hsum, Nat.mul_mod_right]
    · cases found

/-! ## Bytes -/

/-- The lowest `count` bytes of a number in the opposite order. -/
def reverseBytes : (count value : Nat) → Nat
  | 0, _ => 0
  | count + 1, value => value % 256 * twoPow (8 * count) + reverseBytes count (value / 256)

/-- A number of a width with its bytes in the opposite order; unchanged if the width is no whole
number of bytes. -/
def byteReversed (bits value : Nat) : Nat :=
  if bits % 8 = 0 then reverseBytes (bits / 8) value else value

theorem twoPow_bytes_succ (count : Nat) : twoPow (8 * (count + 1)) = twoPow (8 * count) * 256 :=
  twoPow_add (8 * count) 8

theorem div_lt_of_lt_bytes {count value : Nat} (h : value < twoPow (8 * (count + 1))) :
    value / 256 < twoPow (8 * count) := by
  rw [twoPow_bytes_succ] at h
  exact Nat.div_lt_of_lt_mul (by rw [Nat.mul_comm]; exact h)

theorem reverseBytes_lt (count value : Nat) : reverseBytes count value < twoPow (8 * count) := by
  induction count generalizing value with
  | zero => exact Nat.one_pos
  | succ count ih =>
    have hlow := ih (value / 256)
    have hbyte : value % 256 ≤ 255 := Nat.le_of_lt_succ (Nat.mod_lt _ (by decide))
    have hmul := Nat.mul_le_mul_right (twoPow (8 * count)) hbyte
    rw [reverseBytes, twoPow_bytes_succ]
    omega

/-- The byte that is highest before the exchange is lowest after it. -/
theorem reverseBytes_succ_high (count high low : Nat) (hlow : low < twoPow (8 * count))
    (hhigh : high < 256) :
    reverseBytes (count + 1) (high * twoPow (8 * count) + low) =
      reverseBytes count low * 256 + high := by
  induction count generalizing low with
  | zero =>
    have hzero : low = 0 := Nat.lt_one_iff.1 hlow
    have hone : twoPow (8 * 0) = 1 := rfl
    subst hzero
    simp only [reverseBytes, hone, Nat.mul_one, Nat.add_zero, Nat.mod_eq_of_lt hhigh, Nat.zero_mul,
      Nat.zero_add]
  | succ count ih =>
    have hdiv : (high * twoPow (8 * (count + 1)) + low) / 256
        = high * twoPow (8 * count) + low / 256 := by
      rw [twoPow_bytes_succ, ← Nat.mul_assoc, Nat.add_comm, Nat.add_mul_div_right _ _ (by decide),
        Nat.add_comm]
    have hmod : (high * twoPow (8 * (count + 1)) + low) % 256 = low % 256 := by
      rw [twoPow_bytes_succ, ← Nat.mul_assoc, Nat.mul_add_mod_self_right]
    have hquot := div_lt_of_lt_bytes hlow
    have houter : reverseBytes (count + 1 + 1) (high * twoPow (8 * (count + 1)) + low)
        = low % 256 * twoPow (8 * (count + 1))
          + reverseBytes (count + 1) (high * twoPow (8 * count) + low / 256) := by
      rw [reverseBytes, hdiv, hmod]
    have hinner : reverseBytes (count + 1) low
        = low % 256 * twoPow (8 * count) + reverseBytes count (low / 256) := rfl
    rw [houter, ih _ hquot, hinner, twoPow_bytes_succ, Nat.add_mul, ← Nat.mul_assoc, Nat.add_assoc]

/-- A number of whole bytes keeps its width when its bytes are exchanged. -/
theorem byteReversed_lt {bits : Nat} (bytes : bits % 8 = 0) (v : Nat) :
    byteReversed bits v < twoPow bits := by
  have hlt := reverseBytes_lt (bits / 8) v
  have hbits : 8 * (bits / 8) = bits := by omega
  rw [hbits] at hlt
  rwa [byteReversed, if_pos bytes]

theorem reverseBytes_reverseBytes (count value : Nat) (h : value < twoPow (8 * count)) :
    reverseBytes count (reverseBytes count value) = value := by
  induction count generalizing value with
  | zero => exact (Nat.lt_one_iff.1 h).symm
  | succ count ih =>
    have hquot := div_lt_of_lt_bytes h
    have hinner : reverseBytes (count + 1) value
        = value % 256 * twoPow (8 * count) + reverseBytes count (value / 256) := rfl
    rw [hinner, reverseBytes_succ_high _ _ _ (reverseBytes_lt _ _) (Nat.mod_lt _ (by decide)),
      ih _ hquot]
    have := Nat.div_add_mod value 256
    omega

/-! ## Lists in memory -/

/-- Whether there is room for a list of `count` entries of `bytes` bytes each. All of memory has
less than `2 ^ 63` bytes for one list. -/
def HasRoom (bytes count : Nat) : Prop := count * bytes < twoPow 63

instance (bytes count : Nat) : Decidable (HasRoom bytes count) :=
  inferInstanceAs (Decidable (_ < _))

theorem hasRoom_iff {bytes count limit : Nat} (hbytes : 0 < bytes)
    (hlimit : twoPow 63 = limit * bytes) : HasRoom bytes count ↔ count < limit := by
  rw [HasRoom, hlimit, Nat.mul_lt_mul_right hbytes]

/-- How many bytes a number takes in a list. -/
def numberBytes : Nat := 16

end AbstractBits
