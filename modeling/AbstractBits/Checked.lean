import AbstractBits.Bits
/-!
# Arithmetic in machine words

A machine keeps a number in a word of 128 bits and a position of a bit in one of 32. Its operations
are not defined for all operands: a sum can be too large for its word and a difference negative, a
divisor can be 0, and a shift can be as long as the word. A computation ends with a value, or at the
first step that is not defined.

The arithmetic of a width is written down here a second time, in the steps that a machine takes.

Results:
  * `allOnes_eq`, `truncate_eq`, `signWeight_eq`, `signedValue_eq`, `gcd_eq` — all steps are
    defined, and lead to the numbers that they are meant to compute.
  * `firstFrom_eq`, `lastUpTo_eq` — so they are for the neighbours in a class of a number that is
    not below its base.
-/

namespace AbstractBits

/-- Why a step is not defined. -/
inductive Fault where
  /-- A sum, a product or a difference that its word has no room for. -/
  | overflow
  | zeroDivisor
  /-- A shift by all bits of a word or more. -/
  | longShift
  /-- A shift that was to keep all bits and does not. -/
  | lostBits
  /-- A neighbour in a class on the wrong side of the base. -/
  | belowBase
  deriving DecidableEq, Repr, Inhabited

/-- What comes out of a computation in machine words. -/
abbrev Checked (α : Type) : Type := Except Fault α

namespace Checked

/-- The size of a word for widths and positions of bits; numbers have words of `maxBits`. -/
def positionBits : Nat := 32

/-! ## Steps -/

def add (size a b : Nat) : Checked Nat :=
  if a + b < twoPow size then .ok (a + b) else .error .overflow

def sub (a b : Nat) : Checked Nat := if b ≤ a then .ok (a - b) else .error .overflow

def mul (size a b : Nat) : Checked Nat :=
  if a * b < twoPow size then .ok (a * b) else .error .overflow

def div (a b : Nat) : Checked Nat := if b = 0 then .error .zeroDivisor else .ok (a / b)

def rem (a b : Nat) : Checked Nat := if b = 0 then .error .zeroDivisor else .ok (a % b)

/-- A shift to the left, in which the bits beyond the word are lost. -/
def shl (a amount : Nat) : Checked Nat :=
  if amount < maxBits then .ok (a * twoPow amount % twoPow maxBits) else .error .longShift

/-- A shift to the left that keeps all bits. -/
def shlExact (a amount : Nat) : Checked Nat := do
  let shifted ← shl a amount
  if shifted = a * twoPow amount then .ok shifted else .error .lostBits

def shr (a amount : Nat) : Checked Nat :=
  if amount < maxBits then .ok (a / twoPow amount) else .error .longShift

/-- A shift to the right that repeats the sign bit. -/
def shrSigned (a : Int) (amount : Nat) : Checked Int :=
  if amount < maxBits then .ok (a / (twoPow amount : Int)) else .error .longShift

section

variable {size a b amount : Nat}

@[simp] theorem ok_bind {α β : Type} (x : α) (f : α → Checked β) : (Except.ok x >>= f) = f x := rfl

theorem add_of_lt (h : a + b < twoPow size) : add size a b = .ok (a + b) := if_pos h

theorem sub_of_le (h : b ≤ a) : sub a b = .ok (a - b) := if_pos h

theorem mul_of_lt (h : a * b < twoPow size) : mul size a b = .ok (a * b) := if_pos h

theorem div_of_pos (h : 0 < b) : div a b = .ok (a / b) := if_neg (Nat.ne_of_gt h)

theorem rem_of_pos (h : 0 < b) : rem a b = .ok (a % b) := if_neg (Nat.ne_of_gt h)

theorem shl_of_lt (hamount : amount < maxBits) (h : a * twoPow amount < twoPow maxBits) :
    shl a amount = .ok (a * twoPow amount) := by
  rw [shl, if_pos hamount, Nat.mod_eq_of_lt h]

theorem shlExact_of_lt (hamount : amount < maxBits) (h : a * twoPow amount < twoPow maxBits) :
    shlExact a amount = .ok (a * twoPow amount) := by
  rw [shlExact, shl_of_lt hamount h, ok_bind, if_pos rfl]

theorem shr_of_lt (hamount : amount < maxBits) : shr a amount = .ok (a / twoPow amount) :=
  if_pos hamount

theorem shrSigned_of_lt {a : Int} (hamount : amount < maxBits) :
    shrSigned a amount = .ok (a / (twoPow amount : Int)) := if_pos hamount

theorem lt_of_rem {r : Nat} (h : rem a b = .ok r) : r < b := by
  unfold rem at h
  split at h
  · cases h
  · rename_i hne
    cases h
    exact Nat.mod_lt a (Nat.pos_of_ne_zero hne)

end

/-! ## Numbers of a width -/

/-- The number with the low `bits` bits set. -/
def allOnes (bits : Nat) : Checked Nat :=
  if maxBits ≤ bits then .ok (twoPow maxBits - 1)
  else do sub (← shl 1 bits) 1

/-- The low `bits` bits of a number. -/
def truncate (bits value : Nat) : Checked Nat := do return value &&& (← allOnes bits)

/-- The number with the sign bit of a width alone. -/
def signWeight (bits : Nat) : Checked Nat := do shl 1 (← sub bits 1)

/-- The low `bits` bits read in two's complement: moved up to the sign bit of the word and down
again. -/
def signedValue (bits value : Nat) : Checked Int := do
  let shift ← sub maxBits bits
  shrSigned (AbstractBits.signedValue maxBits (← shl value shift)) shift

/-- Euclid's algorithm. -/
def gcd (a b : Nat) : Checked Nat :=
  if b = 0 then .ok a
  else
    match _hrest : rem a b with
    | .error fault => .error fault
    | .ok rest => gcd b rest
termination_by b
decreasing_by exact lt_of_rem ‹_›

/-- The least number from `floor` on in the class of `base`, if there is room for it. -/
def firstFrom (base stride floor : Nat) : Checked (Option Nat) :=
  if floor < base then .error .belowBase
  else if stride = 0 then .ok (if floor = base then some base else none)
  else do
    let rest ← rem (← sub floor base) stride
    if rest = 0 then return some floor
    else
      let missing ← sub stride rest
      return if floor + missing < twoPow maxBits then some (floor + missing) else none

/-- The greatest number up to `ceiling` in the class of `base`. -/
def lastUpTo (base stride ceiling : Nat) : Checked Nat :=
  if ceiling < base then .error .belowBase
  else if stride = 0 then .ok base
  else do sub ceiling (← rem (← sub ceiling base) stride)

/-! ## Their steps are defined -/

section

variable {bits value base stride floor ceiling : Nat}

theorem allOnes_eq (bits : Nat) : allOnes bits = .ok (AbstractBits.allOnes bits) := by
  unfold allOnes AbstractBits.allOnes modulus
  split
  · rename_i hle
    rw [Nat.min_eq_right hle]
  · rename_i hgt
    have hlt := Nat.lt_of_not_le hgt
    have hroom : 1 * twoPow bits < twoPow maxBits := by
      rw [Nat.one_mul]
      exact Nat.pow_lt_pow_right (by decide) hlt
    rw [shl_of_lt hlt hroom, ok_bind, Nat.one_mul, sub_of_le (twoPow_pos bits),
      Nat.min_eq_left (Nat.le_of_lt hlt)]

theorem truncate_eq (bits value : Nat) :
    truncate bits value = .ok (AbstractBits.truncate bits value) := by
  rw [truncate, allOnes_eq, ok_bind, AbstractBits.truncate, AbstractBits.allOnes, modulus]
  exact congrArg Except.ok (Nat.and_two_pow_sub_one_eq_mod value _)

theorem signWeight_eq (width : ValidWidth bits) :
    signWeight bits = .ok (AbstractBits.signWeight bits) := by
  have hlt : bits - 1 < maxBits := Nat.lt_of_lt_of_le (Nat.sub_lt width.1 Nat.one_pos) width.2
  have hroom : 1 * twoPow (bits - 1) < twoPow maxBits := by
    rw [Nat.one_mul]
    exact Nat.pow_lt_pow_right (by decide) hlt
  rw [signWeight, sub_of_le width.1, ok_bind, shl_of_lt hlt hroom, Nat.one_mul,
    AbstractBits.signWeight]

/-- A number of a width, moved up to the end of the word. -/
theorem mul_twoPow_lt (width : ValidWidth bits) (hvalue : value < twoPow bits) :
    value * twoPow (maxBits - bits) < twoPow maxBits := by
  have hsum : bits + (maxBits - bits) = maxBits := Nat.add_sub_cancel' width.2
  rw [← hsum, twoPow_add, hsum]
  exact Nat.mul_lt_mul_of_pos_right hvalue (twoPow_pos _)

/-- The signed reading of a number that is moved up to the end of the word. -/
theorem signedValue_mul (width : ValidWidth bits) (hvalue : value < twoPow bits) :
    AbstractBits.signedValue maxBits (value * twoPow (maxBits - bits))
      = AbstractBits.signedValue bits value * (twoPow (maxBits - bits) : Int) := by
  have hroom := mul_twoPow_lt width hvalue
  have hsum : bits + (maxBits - bits) = maxBits := Nat.add_sub_cancel' width.2
  have hhalf :
      AbstractBits.signWeight maxBits = AbstractBits.signWeight bits * twoPow (maxBits - bits) := by
    rw [AbstractBits.signWeight, AbstractBits.signWeight, ← twoPow_add]
    congr 1
    have := width.1
    omega
  have hall : twoPow maxBits = twoPow bits * twoPow (maxBits - bits) := by rw [← twoPow_add, hsum]
  rcases Nat.lt_or_ge value (AbstractBits.signWeight bits) with hlt | hge
  · have hlow : value * twoPow (maxBits - bits) < AbstractBits.signWeight maxBits := by
      rw [hhalf]
      exact Nat.mul_lt_mul_of_pos_right hlt (twoPow_pos _)
    rw [signedValue_of_lt (by decide) hlow, signedValue_of_lt width.1 hlt, Int.natCast_mul]
  · have hhigh : AbstractBits.signWeight maxBits ≤ value * twoPow (maxBits - bits) := by
      rw [hhalf]
      exact Nat.mul_le_mul_right _ hge
    rw [signedValue_of_le (by decide) hhigh hroom, signedValue_of_le width.1 hge hvalue,
      Int.sub_mul, hall, Int.natCast_mul, Int.natCast_mul]

theorem signedValue_eq (width : ValidWidth bits) (hvalue : value < twoPow bits) :
    signedValue bits value = .ok (AbstractBits.signedValue bits value) := by
  have hlt : maxBits - bits < maxBits := Nat.sub_lt (by decide) width.1
  have hpos : (twoPow (maxBits - bits) : Int) ≠ 0 :=
    Int.natCast_ne_zero.2 (Nat.ne_of_gt (twoPow_pos _))
  rw [signedValue, sub_of_le width.2, ok_bind, shl_of_lt hlt (mul_twoPow_lt width hvalue), ok_bind,
    shrSigned_of_lt hlt, signedValue_mul width hvalue, Int.mul_ediv_cancel _ hpos]

theorem gcd_eq (a b : Nat) : gcd a b = .ok (Nat.gcd a b) := by
  induction b using Nat.strongRecOn generalizing a with
  | ind b ih =>
    unfold gcd
    split
    · rename_i hzero
      rw [hzero, Nat.gcd_zero_right]
    · rename_i hne
      have hpos := Nat.pos_of_ne_zero hne
      split
      · rename_i hfault
        rw [rem_of_pos hpos] at hfault
        cases hfault
      · rename_i rest hrest
        rw [rem_of_pos hpos] at hrest
        cases hrest
        rw [ih (a % b) (Nat.mod_lt a hpos), Nat.gcd_comm a b, Nat.gcd_rec b a, Nat.gcd_comm]

theorem firstFrom_eq (hbase : base ≤ floor) (hfloor : floor < twoPow maxBits) :
    firstFrom base stride floor = .ok (AbstractBits.firstFrom base stride floor) := by
  unfold firstFrom AbstractBits.firstFrom
  rw [if_neg (Nat.not_lt.2 hbase)]
  split
  · rfl
  · rename_i hne
    have hpos := Nat.pos_of_ne_zero hne
    have hrest := Nat.mod_lt (floor - base) hpos
    rw [sub_of_le hbase, ok_bind, rem_of_pos hpos, ok_bind]
    split
    · rename_i hzero
      rw [hzero, Nat.sub_zero, Nat.mod_self, Nat.add_zero]
      exact congrArg Except.ok (if_pos hfloor).symm
    · rename_i hrpos
      rw [sub_of_le (Nat.le_of_lt hrest), ok_bind,
        Nat.mod_eq_of_lt (Nat.sub_lt hpos (Nat.pos_of_ne_zero hrpos))]
      rfl

theorem lastUpTo_eq (hbase : base ≤ ceiling) :
    lastUpTo base stride ceiling = .ok (AbstractBits.lastUpTo base stride ceiling) := by
  unfold lastUpTo AbstractBits.lastUpTo
  rw [if_neg (Nat.not_lt.2 hbase)]
  split
  · rfl
  · rename_i hne
    have hrest : (ceiling - base) % stride ≤ ceiling :=
      Nat.le_trans (Nat.mod_le _ _) (Nat.sub_le _ _)
    rw [sub_of_le hbase, ok_bind, rem_of_pos (Nat.pos_of_ne_zero hne), ok_bind, sub_of_le hrest]

end

end Checked

end AbstractBits
