import AbstractBits.Bits
import AbstractBits.OperationError
/-!
# Literal operands

A word is a single bit-vector: a width and a number that fits it. Double-precision numbers are kept
as their 64 bits. They are only passed on and compared, by the rule of the standard: a NaN equals
nothing, and the two zeros are equal.
-/

namespace AbstractBits

/-! ## Words -/

/-- A bit-vector of a known value. -/
structure Word where
  bits : Nat
  value : Nat
  valid : ValidWidth bits
  fits : value < modulus bits
  deriving DecidableEq, Repr

namespace Word

/-- The low `bits` bits of a number as a word. -/
def ofNat (bits value : Nat) : Except OperationError Word :=
  if valid : ValidWidth bits then .ok ⟨bits, truncate bits value, valid, truncate_lt bits value⟩
  else .error (.badWidth bits)

def text (w : Word) : String := s!"{hexadecimal w.value}:{w.bits}"

end Word

/-! ## Floating-point numbers -/

/-- A double-precision number, by its bits. -/
structure Binary64 where
  word : UInt64
  deriving DecidableEq, Repr, Inhabited

namespace Binary64

/-- The bits without the sign. -/
def magnitude (x : Binary64) : UInt64 := x.word &&& 0x7fffffffffffffff

/-- All exponent bits and some fraction bit are set. -/
def isNaN (x : Binary64) : Bool := 0x7ff0000000000000 < x.magnitude

def isZero (x : Binary64) : Bool := x.magnitude == 0

/-- Numerical equality. -/
def same (x y : Binary64) : Bool :=
  !x.isNaN && !y.isNaN && (x.word == y.word || x.isZero && y.isZero)

end Binary64

end AbstractBits
