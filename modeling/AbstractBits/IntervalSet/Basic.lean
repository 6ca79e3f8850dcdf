import AbstractBits.Interval.Operations
/-!
# Interval sets

A few intervals of one width that together describe the numbers of a bit-vector. The members are
kept in strictly increasing order without empty ones, and a set that would need more than `capacity`
is replaced by the one interval over all of them.

Every bit operation is applied to each member. An extension and a byte swap are refused only for a
member that refuses them, so the empty set has them all.
-/

namespace AbstractBits

namespace Interval

/-- The order of members of a set: by lower bound, then upper bound, then stride, and an interval
without a pending byte swap before one with it. -/
def Before (x y : Interval) : Prop :=
  x.lower < y.lower ∨ x.lower = y.lower ∧
    (x.upper < y.upper ∨ x.upper = y.upper ∧
      (x.stride < y.stride ∨ x.stride = y.stride ∧ x.reversed = false ∧ y.reversed = true))

instance (x y : Interval) : Decidable (Before x y) :=
  inferInstanceAs (Decidable (_ ∨ _ ∧ (_ ∨ _ ∧ (_ ∨ _ ∧ _ ∧ _))))

end Interval

/-- Numbers of a bit-vector, described by some intervals. -/
structure IntervalSet where
  bits : Nat
  members : List Interval
  deriving DecidableEq, Repr, Inhabited

namespace IntervalSet

/-- How many members a set can have. -/
def capacity : Nat := 16

/-- The form in which sets are kept: at most `capacity` intervals of the width of the set, none of
them empty and each before the next one. -/
structure Valid (s : IntervalSet) : Prop where
  width : ValidWidth s.bits
  count : s.members.length ≤ capacity
  member : ∀ x ∈ s.members, x.Valid ∧ x.isEmpty = false ∧ x.bits = s.bits
  sorted : s.members.Pairwise Interval.Before

/-- Puts an interval in its place among sorted ones, unless one that differs in the name at most is
there already. -/
def insertMember (x : Interval) : List Interval → List Interval
  | [] => [x]
  | y :: ys =>
    if x.Before y then x :: y :: ys
    else if y.Before x then y :: insertMember x ys
    else y :: ys

/-- The distinct intervals that have numbers at all, in their order. -/
def arrange (members : List Interval) : List Interval :=
  (members.filter fun x => !x.isEmpty).foldl (fun kept x => insertMember x kept) []

/-- The least interval over all members. -/
def joinAll (bits : Nat) (members : List Interval) : Interval :=
  members.foldl Interval.join (Interval.empty bits)

/-- The set of intervals of the given width. -/
def ofMembers (bits : Nat) (members : List Interval) : IntervalSet :=
  let kept := arrange members
  if kept.length ≤ capacity then ⟨bits, kept⟩ else ⟨bits, [joinAll bits kept]⟩

def ofInterval (x : Interval) : IntervalSet := ofMembers x.bits [x]

/-- The set of the given intervals, which must have the given width. -/
def new (bits : Nat) (members : List Interval) : Except OperationError IntervalSet :=
  if ValidWidth bits then
    match members.find? fun x => x.bits != bits with
    | some x => .error (.differentWidths bits x.bits)
    | none => .ok (ofMembers bits members)
  else .error (.badWidth bits)

/-- The least interval over the set. -/
def hull (s : IntervalSet) : Interval := joinAll s.bits s.members

def isEmpty (s : IntervalSet) : Bool := s.members.isEmpty

/-- Whether there are members and all of them have a byte swap pending. -/
def isReversed (s : IntervalSet) : Bool := !s.members.isEmpty && s.members.all (·.reversed)

/-- Whether the set has one member, which is one number. -/
def isSingle (s : IntervalSet) : Bool :=
  match s.members with
  | [x] => x.isSingle
  | _ => false

def contains (s : IntervalSet) (value : Nat) : Bool := s.members.any (·.contains value)

/-- The first `n` numbers, member by member. -/
def sample (s : IntervalSet) (n : Nat) : List Nat := (s.members.flatMap (·.sample n)).take n

/-- The members without names and without pending byte swaps. -/
def stored (s : IntervalSet) : IntervalSet := ofMembers s.bits (s.members.map (·.stored))

/-- The same set without the names of its members. -/
def unnamed (s : IntervalSet) : IntervalSet := { s with members := s.members.map (·.unnamed) }

def text (s : IntervalSet) : String :=
  "\x7b" ++ ", ".intercalate (s.members.map (·.text)) ++ "\x7d"

/-! ## Lattice operations -/

/-- The members of both. -/
def union (s t : IntervalSet) : Except OperationError IntervalSet :=
  requireSameWidth s.bits t.bits (ofMembers s.bits (s.members ++ t.members))

/-- The common numbers of all pairs of members. -/
def intersection (s t : IntervalSet) : Except OperationError IntervalSet :=
  requireSameWidth s.bits t.bits
    (ofMembers s.bits (s.members.flatMap fun x => t.members.map fun y => x.meet y))

/-- Widens the interval over `s` by the one over `t`. -/
def widen (s t : IntervalSet) : Except OperationError Interval :=
  requireSameWidth s.bits t.bits (s.hull.stretch t.hull)

/-- What a comparison says about all members. -/
def verdict (c : Comparison) (s : IntervalSet) (y : Interval) : Verdict :=
  Verdict.joinAll (s.members.map fun x => Interval.verdict c x y)

def compare (c : Comparison) (s : IntervalSet) (y : Interval) : Except OperationError Verdict :=
  requireSameWidth s.bits y.bits (verdict c s y)

/-! ## Bit operations -/

/-- The set of what an operation makes of the members, unless it refuses one. -/
def mapMembers (bits : Nat) (f : Interval → Except OperationError Interval) (s : IntervalSet) :
    Except OperationError IntervalSet :=
  (s.members.mapM f).map (ofMembers bits)

/-- Bits `low` to `high`. -/
def extract (high low : Nat) (s : IntervalSet) : Except OperationError IntervalSet :=
  if Interval.FieldOf s.bits high low then
    .ok (ofMembers (high - low + 1) (s.members.map (·.slice high low)))
  else .error (.badField high low s.bits)

/-- The numbers of `high` in front of those of `low`. -/
def concat (high low : IntervalSet) : Except OperationError IntervalSet :=
  requireWidth (high.bits + low.bits)
    (ofMembers (high.bits + low.bits)
      (high.members.flatMap fun x => low.members.map fun y => x.append y))

/-- The numbers as numbers of `total` bits. -/
def zeroExtend (total : Nat) (s : IntervalSet) : Except OperationError IntervalSet :=
  if ValidWidth total then s.mapMembers total (·.zeroExtend total) else .error (.badWidth total)

/-- The numbers with their sign bit repeated up to `total` bits. -/
def signExtend (total : Nat) (s : IntervalSet) : Except OperationError IntervalSet :=
  if ValidWidth total then s.mapMembers total (·.signExtend total) else .error (.badWidth total)

/-- The numbers shifted to the right by those of `amount`. -/
def shiftRight (s : IntervalSet) (amount : Interval) : IntervalSet :=
  ofMembers s.bits (s.members.map (·.shiftRight amount))

/-- The byte-swapped numbers. -/
def reverse (s : IntervalSet) : Except OperationError IntervalSet := s.mapMembers s.bits (·.reverse)

end IntervalSet

end AbstractBits
