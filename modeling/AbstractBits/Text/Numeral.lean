/-!
# Numbers in text

Numbers are written in hexadecimal behind `0x`. They are read from digits of any radix up to 36,
with an optional plus sign in front and an exclusive limit on the value. Reading goes from left to
right and reports the first trouble met: a character that is no digit, or a value that reached the
limit.
-/

namespace AbstractBits

/-- A number in lower-case hexadecimal behind `0x`. -/
def hexadecimal (n : Nat) : String := "0x" ++ String.ofList (Nat.toDigits 16 n)

/-- Why a text is no number. -/
inductive NumeralError where
  | empty
  | invalidDigit
  | tooLarge
  deriving DecidableEq, Repr, Inhabited

namespace NumeralError

def message : NumeralError → String
  | empty => "cannot parse integer from empty string"
  | invalidDigit => "invalid digit found in string"
  | tooLarge => "number too large to fit in target type"

end NumeralError

namespace Numeral

/-- What a character counts for among the digits `0`–`9`, then `a`–`z` in either case. -/
def digit? (radix : Nat) (c : Char) : Option Nat :=
  let value :=
    if '0' ≤ c ∧ c ≤ '9' then c.toNat - '0'.toNat
    else if 'a' ≤ c ∧ c ≤ 'z' then c.toNat - 'a'.toNat + 10
    else if 'A' ≤ c ∧ c ≤ 'Z' then c.toNat - 'A'.toNat + 10
    else radix
  if value < radix then some value else none

/-- Reads digits behind a number that has been read already, as long as the number stays below
`limit`. -/
def readDigits (radix limit : Nat) (read : Nat) : List Char → Except NumeralError Nat
  | [] => .ok read
  | c :: cs =>
    match digit? radix c with
    | none => .error .invalidDigit
    | some d =>
      if read * radix + d < limit then readDigits radix limit (read * radix + d) cs
      else .error .tooLarge

/-- Reads one or more digits, with or without a plus sign in front. -/
def read (radix limit : Nat) : List Char → Except NumeralError Nat
  | [] => .error .empty
  | ['+'] => .error .invalidDigit
  | '+' :: cs => readDigits radix limit 0 cs
  | cs => readDigits radix limit 0 cs

end Numeral

end AbstractBits
