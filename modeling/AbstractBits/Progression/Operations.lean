import AbstractBits.Progression.Basic
/-!
# Operations on progressions

The least progression over two others, an approximation of their common members, and the
extrapolation that makes a growing sequence of progressions stop.

What becomes of the members of a progression when a bit field is cut out of them, when other bits
are put behind or before them, or when they are shifted to the right. Where the image is no
progression, the result is one that covers it.
-/

namespace AbstractBits

namespace Progression

/-! ## Joining, meeting and widening -/

/-- How far two numbers are apart. -/
def distance (a b : Nat) : Nat := max a b - min a b

/-- The largest step that reaches all members of both progressions from any of them. -/
def commonStride (p q : Progression) : Nat :=
  Nat.gcd (Nat.gcd p.stride q.stride) (distance p.lower q.lower)

/-- The least progression with the members of both. -/
def join (p q : Progression) : Progression :=
  between (min p.lower q.lower) (max p.upper q.upper) (commonStride p q)

/-- The members of the operand with the larger stride that lie between the bounds of the other one;
none if the two have no member in common because of their bounds or of their classes. A single
member of one operand is looked up in the other. -/
def meet (p q : Progression) : Option Progression :=
  if p.isSingle then
    if p.lower ∈ q then some p else none
  else if q.isSingle then
    if q.lower ∈ p then some q else none
  else
    let low := max p.lower q.lower
    let high := min p.upper q.upper
    let coarse := if q.stride ≤ p.stride then p else q
    if high < low ∨ distance p.lower q.lower % Nat.gcd p.stride q.stride ≠ 0 then none
    else
      match firstFrom coarse.lower coarse.stride low with
      | none => none
      | some first =>
        if first ≤ high then
          some (between first (lastUpTo coarse.lower coarse.stride high) coarse.stride)
        else none

/-- Extends a progression over a newer one: a bound that the newer one passes moves as far as it can
below `limit`, so that it moves at most once for a stride. -/
def widen (limit : Nat) (old new : Progression) : Progression :=
  let stride := commonStride old new
  if stride = 0 then old
  else
    let lower := if new.lower < old.lower then old.lower % stride else old.lower
    let upper := if old.upper < new.upper then lastUpTo lower stride limit else old.upper
    between lower upper stride

/-! ## Images under bit operations -/

/-- The stride that is left when `amount` low bits go: exact if the stride clears them all. -/
def strideAfterShift (stride amount : Nat) : Nat :=
  if twoPow amount ∣ stride then stride / twoPow amount else 1

/-- The `width` bits from bit `low` on. If the bits above them change between the bounds, the field
may wrap around, and every number of the width is admitted. -/
def field (width low : Nat) (p : Progression) : Progression :=
  let first := p.lower / twoPow low
  let last := p.upper / twoPow low
  if first / twoPow width = last / twoPow width then
    between (first % twoPow width) (last % twoPow width) (strideAfterShift p.stride low)
  else whole width

/-- A member of `high` followed by a member of `low`, which has `lowBits` bits. -/
def append (lowBits : Nat) (high low : Progression) : Progression :=
  between (high.lower * twoPow lowBits + low.lower) (high.upper * twoPow lowBits + low.upper)
    (Nat.gcd (high.stride * twoPow lowBits) low.stride)

/-- Members of `bits` bits with their sign bit repeated up to `total` bits. Across the sign boundary
the members of both signs end up in one class. -/
def signExtend (bits total : Nat) (p : Progression) : Progression :=
  let fill := twoPow total - twoPow bits
  if p.upper < signWeight bits then p
  else if signWeight bits ≤ p.lower then ⟨p.lower + fill, p.upper + fill, p.stride⟩
  else between p.lower (p.upper + fill) (Nat.gcd p.stride fill)

/-- Members of `bits` bits shifted to the right by a member of `amount`. All shifts by the width or
more give 0. -/
def shiftRight (bits : Nat) (p amount : Progression) : Progression :=
  let least := min amount.lower bits
  let greatest := min amount.upper bits
  if amount.isSingle then
    between (p.lower / twoPow least) (p.upper / twoPow least) (strideAfterShift p.stride least)
  else between (p.lower / twoPow greatest) (p.upper / twoPow least) 1

/-! ## Bounds -/

/-- The least and the greatest member in the unsigned reading. -/
def unsignedEnds (p : Progression) : Int × Int := (p.lower, p.upper)

/-- The least and the greatest member in the signed reading of `bits` bits. When the members cross
the sign boundary these are the first negative and the last positive one. -/
def signedEnds (bits : Nat) (p : Progression) : Int × Int :=
  let half := signWeight bits
  if p.lower < half ∧ half ≤ p.upper then
    (signedValue bits ((firstFrom p.lower p.stride half).getD p.upper),
      signedValue bits (lastUpTo p.lower p.stride (half - 1)))
  else (signedValue bits p.lower, signedValue bits p.upper)

/-- The least and the greatest member in the reading that a comparison asks for. -/
def bounds (bits : Nat) (signed : Bool) (p : Progression) : Int × Int :=
  if signed then p.signedEnds bits else p.unsignedEnds

end Progression

end AbstractBits
