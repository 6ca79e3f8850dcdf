import AbstractBits.Progression.Basic
import AbstractBits.OperationError
/-!
# Strided intervals

An interval describes a bit-vector by a progression of its unsigned readings, or by no number at
all. A byte swap that turns a progression into something that is none stays pending, and a second
one cancels it: the interval then stands for the byte-swapped images of its stored members. A name
is a label for people and says nothing about the numbers.

An interval is written with its name and its pending byte swap in front, `name=~<bits>`, and its
members behind: `[]` for none, one number as it is, and any others as `[lower, upper]/stride`.

Results:
  * `identical_iff`, `identical_iff_stored` — intervals are identical when they are equal, name and
    all.
  * `valid_empty`, `valid_constant`, `valid_whole`, `ofBounds_eq_ok`, `valid_of_ofBounds` — the
    constructors build valid intervals.
-/

namespace AbstractBits

/-- A description of the numbers that a bit-vector can be. -/
structure Interval where
  bits : Nat
  /-- The stored members; `none` if there are none. -/
  range : Option Progression
  /-- Whether the members are still to be byte-swapped. -/
  reversed : Bool
  name : Option String
  deriving DecidableEq, Repr, Inhabited

namespace Interval

/-- The form in which intervals are kept: the members fit the width, their progression is in normal
form, and only a progression of several members of several bytes can have a byte swap pending. -/
structure Valid (x : Interval) : Prop where
  width : ValidWidth x.bits
  normal : ∀ p ∈ x.range, p.Normal ∧ p.upper ≤ allOnes x.bits
  pending : x.reversed = true →
    x.bits % 8 = 0 ∧ x.bits ≠ 8 ∧ ∃ p ∈ x.range, p.lower ≠ p.upper

/-! ## Construction -/

/-- The interval with the given members, not reversed and without a name. -/
def ofRange (bits : Nat) (range : Option Progression) : Interval := ⟨bits, range, false, none⟩

/-- No number. -/
def empty (bits : Nat) : Interval := ofRange bits none

/-- The low `bits` bits of one number. -/
def constant (bits value : Nat) : Interval := ofRange bits (some (.single (truncate bits value)))

/-- All numbers of a width. -/
def whole (bits : Nat) : Interval := ofRange bits (some (.whole bits))

/-- The interval without any number. -/
def bottom (bits : Nat) : Except OperationError Interval := requireWidth bits (empty bits)

/-- The interval of all numbers of a width. -/
def top (bits : Nat) : Except OperationError Interval := requireWidth bits (whole bits)

/-- The interval of one number. -/
def point (bits value : Nat) : Except OperationError Interval :=
  requireWidth bits (constant bits value)

/-- The interval of the numbers from `lower` to `upper` in steps of `stride`. The bounds count
modulo the width. -/
def ofBounds (bits stride lower upper : Nat) : Except OperationError Interval :=
  if ValidWidth bits then
    let lower := truncate bits lower
    let upper := truncate bits upper
    if upper < lower then .error (.crossedBounds lower upper)
    else .ok (ofRange bits (some (.between lower upper stride)))
  else .error (.badWidth bits)

def withName (x : Interval) (name : String) : Interval := { x with name := some name }

/-- The same interval without its name. Intervals count as equal if they are equal without their
names. -/
def unnamed (x : Interval) : Interval := { x with name := none }

/-- Equality that looks at names too. -/
def identical (x y : Interval) : Bool := x.unnamed == y.unnamed && x.name == y.name

/-- `ofBounds` with a name. -/
def named (name : String) (bits lower upper stride : Nat) : Except OperationError Interval :=
  (ofBounds bits stride lower upper).map (·.withName name)

/-! ## What is stored -/

/-- The lower bound; 0 if there are no members. -/
def lower (x : Interval) : Nat := x.range.elim 0 (·.lower)

/-- The upper bound; 0 if there are no members. -/
def upper (x : Interval) : Nat := x.range.elim 0 (·.upper)

/-- The stride; 0 if there is at most one member. -/
def stride (x : Interval) : Nat := x.range.elim 0 (·.stride)

def isEmpty (x : Interval) : Bool := x.range.isNone

/-- Whether there is exactly one member. -/
def isSingle (x : Interval) : Bool := x.range.any (·.isSingle)

/-- Whether the members are all numbers of the width. -/
def isTop (x : Interval) : Bool :=
  !x.reversed && x.range.any fun p => p.lower == 0 && p.upper == allOnes x.bits && p.stride ≤ 1

/-- How many members there are, capped as `Progression.size` says. -/
def size (x : Interval) : Nat := x.range.elim 0 (·.size)

/-- The stored members, without a name and without the pending byte swap. -/
def stored (x : Interval) : Interval := ofRange x.bits x.range

/-- An interval without a pending byte swap that covers this one: any number, if a byte swap is
pending. -/
def cover (x : Interval) : Interval := if x.reversed then whole x.bits else x

/-- Whether a number is a member, as far as the bounds tell: a pending byte swap admits every number
of the width. -/
def contains (x : Interval) (value : Nat) : Bool := x.cover.range.any fun p => decide (value ∈ p)

/-- The first `n` members in the order in which they are stored, byte-swapped if that is pending.
Whether there is room for so many is left to `eval`. -/
def sample (x : Interval) (n : Nat) : List Nat :=
  let stored := x.range.elim [] (·.sample n)
  if x.reversed then stored.map (byteReversed x.bits) else stored

/-- The first `n` members, if there is room for them. -/
def eval (x : Interval) (n : Nat) : Option (List Nat) :=
  if HasRoom numberBytes (min n x.size) then some (x.sample n) else none

/-! ## Byte order -/

/-- The interval of the byte-swapped members. Several members need a width of whole bytes, and so
does a single one; bytes on their own and empty intervals stay as they are. -/
def reverse (x : Interval) : Except OperationError Interval :=
  match x.range with
  | none => .ok x.unnamed
  | some p =>
    if x.bits = 8 then .ok x.unnamed
    else if x.bits % 8 ≠ 0 then .error (.partialBytes x.bits)
    else if p.isSingle then .ok (constant x.bits (byteReversed x.bits p.lower))
    else .ok { x.unnamed with reversed := !x.reversed }

/-- The byte-swapped interval where there is one, and any number of the width elsewhere. -/
def reverseOrWhole (x : Interval) : Interval :=
  match x.reverse with
  | .ok y => y
  | .error _ => whole x.bits

/-! ## Text -/

/-- The members behind the width. -/
def rangeText : Option Progression → String
  | none => "[]"
  | some p =>
    if p.isSingle then hexadecimal p.lower
    else s!"[{hexadecimal p.lower}, {hexadecimal p.upper}]/{hexadecimal p.stride}"

def text (x : Interval) : String :=
  let label := x.name.elim "" (· ++ "=")
  let mark := if x.reversed then "~" else ""
  s!"{label}{mark}<{x.bits}>{rangeText x.range}"

/-! ## Equality -/

theorem identical_iff {x y : Interval} : x.identical y = true ↔ x = y := by
  simp only [identical, unnamed, Bool.and_eq_true, beq_iff_eq, mk.injEq]
  constructor
  · rintro ⟨⟨hbits, hrange, hreversed, -⟩, hname⟩
    cases x
    cases y
    simp_all
  · rintro rfl
    simp

/-- Intervals are identical when all that is stored agrees, the names included. -/
theorem identical_iff_stored {x y : Interval} :
    x.identical y = true ↔
      x.bits = y.bits ∧ x.isEmpty = y.isEmpty ∧ x.lower = y.lower ∧ x.upper = y.upper ∧
      x.stride = y.stride ∧ x.reversed = y.reversed ∧ x.name = y.name := by
  rw [identical_iff]
  constructor
  · rintro rfl
    simp
  · obtain ⟨bits, r, reversed, name⟩ := x
    obtain ⟨bits', s, reversed', name'⟩ := y
    rintro ⟨rfl, hempty, hlower, hupper, hstride, rfl, rfl⟩
    cases r with
    | none =>
      cases s with
      | none => rfl
      | some q => cases hempty
    | some p =>
      cases s with
      | none => cases hempty
      | some q =>
        obtain ⟨lower, upper, stride⟩ := p
        obtain rfl : lower = q.lower := hlower
        obtain rfl : upper = q.upper := hupper
        obtain rfl : stride = q.stride := hstride
        rfl

/-! ## Validity of what is constructed -/

theorem valid_empty {bits : Nat} (h : ValidWidth bits) : (empty bits).Valid where
  width := h
  normal := by simp [empty, ofRange]
  pending := by simp [empty, ofRange]

/-- An interval with a progression in normal form and without a pending byte swap. -/
theorem valid_ofRange {bits : Nat} {p : Progression} (h : ValidWidth bits) (normal : p.Normal)
    (fits : p.upper ≤ allOnes bits) : (ofRange bits (some p)).Valid where
  width := h
  normal := by
    intro q hq
    simp only [ofRange, Option.mem_def, Option.some.injEq] at hq
    subst hq
    exact ⟨normal, fits⟩
  pending := by simp [ofRange]

theorem valid_constant {bits : Nat} (h : ValidWidth bits) (value : Nat) :
    (constant bits value).Valid := by
  refine valid_ofRange h (Progression.normal_single _) ?_
  have := truncate_lt bits value
  simp only [Progression.single, allOnes]
  omega

theorem valid_whole {bits : Nat} (h : ValidWidth bits) : (whole bits).Valid :=
  valid_ofRange h (Progression.normal_between 1 (Nat.zero_le _))
    (Progression.upper_between_le 1 (Nat.zero_le _))

/-- When the bounds are accepted, and what is built from them. -/
theorem ofBounds_eq_ok {bits stride lower upper : Nat} {x : Interval} :
    ofBounds bits stride lower upper = .ok x ↔
      ValidWidth bits ∧ truncate bits lower ≤ truncate bits upper ∧
        x = ofRange bits (some (.between (truncate bits lower) (truncate bits upper) stride)) := by
  unfold ofBounds
  by_cases hwidth : ValidWidth bits
  · by_cases hlt : truncate bits upper < truncate bits lower
    · simp [hwidth, hlt, Nat.not_le.2 hlt]
    · simp [hwidth, hlt, Nat.not_lt.1 hlt, eq_comm]
  · simp [hwidth]

theorem valid_of_ofBounds {bits stride lower upper : Nat} {x : Interval}
    (h : ofBounds bits stride lower upper = .ok x) : x.Valid := by
  obtain ⟨hwidth, hle, rfl⟩ := ofBounds_eq_ok.1 h
  refine valid_ofRange hwidth (Progression.normal_between _ hle) ?_
  have := truncate_lt bits upper
  refine Nat.le_trans (Progression.upper_between_le _ hle) ?_
  simp only [allOnes]
  omega

end Interval

end AbstractBits
