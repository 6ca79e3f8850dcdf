import AbstractBits.Interval.Basic
import AbstractBits.Text.Numeral
/-!
# Intervals as operands of a command

The written form is `<bits>:<lower>..<upper>/<stride>`, where `/<stride>` may be left out, or
`<bits>:<value>` for a single number. The width is decimal; the other numbers are decimal, or
hexadecimal behind `0x`.
-/

namespace AbstractBits

/-- Why a text is no interval. -/
inductive OperandError where
  /-- There is no width in front. -/
  | noWidth (text : String)
  | width (text : String) (cause : NumeralError)
  | number (text : String) (cause : NumeralError)
  | strideOfPoint (text : String)
  | operation (cause : OperationError)
  deriving DecidableEq, Repr, Inhabited

namespace OperandError

def message : OperandError → String
  | noWidth text => s!"expected `<bits>:<range>`, got `{text}`"
  | width text _ => s!"invalid width `{text}`"
  | number text _ => s!"invalid number `{text}`"
  | strideOfPoint text => s!"a single value takes no stride: `{text}`"
  | operation cause => cause.message

/-- The message about the number in which the trouble was found. -/
def cause? : OperandError → Option String
  | width _ cause | number _ cause => some cause.message
  | _ => none

end OperandError

namespace Interval

/-- What stands before and behind the first occurrence of a separator. -/
def splitOnce (separator : List Char) : List Char → Option (List Char × List Char)
  | [] => if separator.isEmpty then some ([], []) else none
  | c :: cs =>
    if separator.isPrefixOf (c :: cs) then some ([], (c :: cs).drop separator.length)
    else (splitOnce separator cs).map fun (before, behind) => (c :: before, behind)

/-- A decimal number of 32 bits. -/
def parseWidth (cs : List Char) : Except OperandError Nat :=
  (Numeral.read 10 (twoPow 32) cs).mapError (.width (String.ofList cs))

/-- A number of 128 bits: hexadecimal behind `0x`, otherwise decimal. -/
def parseNumber (cs : List Char) : Except OperandError Nat :=
  let read :=
    match cs with
    | '0' :: 'x' :: digits => Numeral.read 16 (twoPow maxBits) digits
    | digits => Numeral.read 10 (twoPow maxBits) digits
  read.mapError (.number (String.ofList cs))

/-- The range with its stride, which is 1 if it is left out. -/
def parseStride (cs : List Char) : Except OperandError (List Char × Nat) :=
  match splitOnce ['/'] cs with
  | some (range, stride) => (parseNumber stride).map fun stride => (range, stride)
  | none => .ok (cs, 1)

/-- The interval behind the width. The whole text is for the message about a stride of a single
number. -/
def parseRange (text : String) (bits stride : Nat) (cs : List Char) :
    Except OperandError Interval :=
  match splitOnce ['.', '.'] cs with
  | some (lower, upper) => do
    let lower ← parseNumber lower
    let upper ← parseNumber upper
    (ofBounds bits stride lower upper).mapError .operation
  | none =>
    if stride = 1 then do
      let value ← parseNumber cs
      (point bits value).mapError .operation
    else .error (.strideOfPoint text)

/-- Reads an interval. -/
def parse (text : String) : Except OperandError Interval :=
  match splitOnce [':'] text.toList with
  | none => .error (.noWidth text)
  | some (width, range) => do
    let bits ← parseWidth width
    let (range, stride) ← parseStride range
    parseRange text bits stride range

end Interval

end AbstractBits
