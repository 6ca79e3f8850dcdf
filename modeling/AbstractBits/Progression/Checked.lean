import AbstractBits.Checked
import AbstractBits.Progression.Operations
/-!
# Progressions in machine words

The operations on progressions in the steps that a machine takes. Bits are cut off by masks and put
together by disjunction, a step is only taken where its result is needed, and what is known of the
operands takes the place of checks: bounds are in order, only a single number has no stride, and
everything fits its width.
-/

namespace AbstractBits

namespace Progression

/-! ## Construction -/

/-- The normal form of the numbers from `lower` to `upper` in steps of `stride`. -/
def checkedBetween (lower upper stride : Nat) : Checked Progression :=
  if lower = upper then .ok ⟨lower, upper, 0⟩
  else do
    let step := max stride 1
    let last ← Checked.lastUpTo lower step upper
    return ⟨lower, last, if last = lower then 0 else step⟩

/-- The low `bits` bits of one number. -/
def checkedConstant (bits value : Nat) : Checked Progression := do
  let value ← Checked.truncate bits value
  checkedBetween value value 0

/-- All numbers of a width. -/
def checkedWhole (bits : Nat) : Checked Progression := do
  checkedBetween 0 (← Checked.allOnes bits) 1

/-! ## Members -/

/-- How many members there are, as far as a word can tell. -/
def checkedSize (p : Progression) : Checked Nat :=
  if p.stride = 0 then .ok 1
  else do
    return min ((← Checked.div (← Checked.sub p.upper p.lower) p.stride) + 1) (twoPow maxBits - 1)

/-- Whether a number is a member. -/
def checkedMem (p : Progression) (value : Nat) : Checked Bool :=
  if p.lower ≤ value ∧ value ≤ p.upper then
    if p.stride = 0 then .ok true
    else do return (← Checked.rem (← Checked.sub value p.lower) p.stride) == 0
  else .ok false

/-- The member with a number, counted from below. -/
def checkedMember (p : Progression) (k : Nat) : Checked Nat := do
  Checked.add maxBits p.lower (← Checked.mul maxBits k p.stride)

/-- The `n` smallest members, or all of them if there are fewer. -/
def checkedSample (p : Progression) (n : Nat) : Checked (List Nat) := do
  (List.range (min n (← p.checkedSize))).mapM p.checkedMember

/-! ## Two progressions -/

def checkedCommonStride (p q : Progression) : Checked Nat := do
  Checked.gcd (← Checked.gcd p.stride q.stride) (distance p.lower q.lower)

def checkedJoin (p q : Progression) : Checked Progression := do
  checkedBetween (min p.lower q.lower) (max p.upper q.upper) (← checkedCommonStride p q)

/-- The members of a class between two bounds. -/
def checkedWithin (low high base stride : Nat) : Checked (Option Progression) := do
  match ← Checked.firstFrom base stride low with
  | none => return none
  | some first =>
    if first ≤ high then
      return some (← checkedBetween first (← Checked.lastUpTo base stride high) stride)
    else return none

def checkedMeet (p q : Progression) : Checked (Option Progression) :=
  if p.isSingle then do return if ← q.checkedMem p.lower then some p else none
  else if q.isSingle then do return if ← p.checkedMem q.lower then some q else none
  else
    let low := max p.lower q.lower
    let high := min p.upper q.upper
    let coarse := if q.stride ≤ p.stride then p else q
    if high < low then .ok none
    else do
      let rest ← Checked.rem (distance p.lower q.lower) (← Checked.gcd p.stride q.stride)
      if rest ≠ 0 then return none
      else checkedWithin low high coarse.lower coarse.stride

/-- The lower bound of a widening by a stride. -/
def checkedWidenedLower (stride : Nat) (old new : Progression) : Checked Nat :=
  if new.lower < old.lower then Checked.rem old.lower stride else .ok old.lower

/-- The upper bound of a widening of `bits` bits by a stride, above a lower bound. -/
def checkedWidenedUpper (bits lower stride : Nat) (old new : Progression) : Checked Nat :=
  if old.upper < new.upper then do Checked.lastUpTo lower stride (← Checked.allOnes bits)
  else .ok old.upper

/-- Extends a progression of `bits` bits over a newer one. -/
def checkedWiden (bits : Nat) (old new : Progression) : Checked Progression := do
  let stride ← checkedCommonStride old new
  if stride = 0 then return old
  else
    let lower ← checkedWidenedLower stride old new
    let upper ← checkedWidenedUpper bits lower stride old new
    checkedBetween lower upper stride

/-! ## Bit operations -/

/-- The stride that is left when `amount` low bits go. -/
def checkedStrideAfterShift (stride amount : Nat) : Checked Nat :=
  if amount = 0 then .ok stride
  else do
    let rest ← Checked.rem stride (← Checked.shl 1 amount)
    if rest = 0 then Checked.shr stride amount else return 1

/-- Members of `bits` bits cut down to the `width` bits from bit `low` on. -/
def checkedField (bits width low : Nat) (p : Progression) : Checked Progression :=
  if width = bits then .ok p
  else if p.isSingle then do checkedConstant width (← Checked.shr p.lower low)
  else do
    let first ← Checked.shr p.lower low
    let last ← Checked.shr p.upper low
    if (← Checked.shr first width) ≠ (← Checked.shr last width) then checkedWhole width
    else
      let stride ← checkedStrideAfterShift p.stride low
      checkedBetween (← Checked.truncate width first) (← Checked.truncate width last) stride

/-- A member of `high` followed by a member of `low`, which has `lowBits` bits. -/
def checkedAppend (lowBits : Nat) (high low : Progression) : Checked Progression := do
  let stride ← Checked.gcd (← Checked.shlExact high.stride lowBits) low.stride
  let lower ← Checked.shl high.lower lowBits
  let upper ← Checked.shl high.upper lowBits
  checkedBetween (lower ||| low.lower) (upper ||| low.upper) stride

/-- Members of `bits` bits with their sign bit repeated up to `total` bits. -/
def checkedSignExtend (bits total : Nat) (p : Progression) : Checked Progression := do
  let half ← Checked.signWeight bits
  let fill ← Checked.sub (← Checked.allOnes total) (← Checked.allOnes bits)
  if p.upper < half then checkedBetween p.lower p.upper p.stride
  else if half ≤ p.lower then
    checkedBetween (← Checked.add maxBits p.lower fill)
      (← Checked.add maxBits p.upper fill) p.stride
  else checkedBetween p.lower (← Checked.add maxBits p.upper fill) (← Checked.gcd p.stride fill)

/-- A number of `bits` bits shifted to the right, by any amount. -/
def checkedShift (bits value amount : Nat) : Checked Nat :=
  if bits ≤ amount then .ok 0 else Checked.shr value amount

/-- Members of `bits` bits shifted to the right by a member of `amount`. -/
def checkedShiftRight (bits : Nat) (p amount : Progression) : Checked Progression :=
  if amount.isSingle then
    if bits ≤ amount.lower then checkedConstant bits 0
    else do
      let stride ← checkedStrideAfterShift p.stride amount.lower
      checkedBetween (← Checked.shr p.lower amount.lower)
        (← Checked.shr p.upper amount.lower) stride
  else do
    let lower ← checkedShift bits p.lower amount.upper
    let upper ← checkedShift bits p.upper amount.lower
    checkedBetween lower upper 1

/-! ## Bounds -/

/-- The least and the greatest member in the signed reading of `bits` bits. -/
def checkedSignedEnds (bits : Nat) (p : Progression) : Checked (Int × Int) := do
  let half ← Checked.signWeight bits
  if p.lower < half ∧ half ≤ p.upper then
    let first := (← Checked.firstFrom p.lower p.stride half).getD p.upper
    let last ← Checked.lastUpTo p.lower p.stride (← Checked.sub half 1)
    return (← Checked.signedValue bits first, ← Checked.signedValue bits last)
  else return (← Checked.signedValue bits p.lower, ← Checked.signedValue bits p.upper)

/-- The least and the greatest member in the reading that a comparison asks for. -/
def checkedBounds (bits : Nat) (signed : Bool) (p : Progression) : Checked (Int × Int) :=
  if signed then p.checkedSignedEnds bits else .ok p.unsignedEnds

end Progression

end AbstractBits
