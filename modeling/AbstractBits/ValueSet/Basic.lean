import AbstractBits.Interval.Operations
import AbstractBits.RegionMap
/-!
# Value sets

The values of a bit-vector that may be an address: for each of several memory regions an interval of
offsets. Plain numbers are the offsets in the region `global`. A byte swap of a value set is always
pending.
-/

namespace AbstractBits

/-- The region whose offsets are plain numbers. -/
def numberRegion : String := "global"

/-- Offsets of a bit-vector in several regions. -/
structure ValueSet where
  bits : Nat
  regions : RegionMap
  /-- Whether all offsets are still to be byte-swapped. -/
  reversed : Bool
  deriving DecidableEq, Repr, Inhabited

namespace ValueSet

/-- The form in which value sets are kept: the offsets of every region have the width of the set. A
shift by an amount without members keeps the regions and leaves them no offsets. -/
structure Valid (s : ValueSet) : Prop where
  width : ValidWidth s.bits
  offsets : ∀ e ∈ s.regions.entries, e.2.Valid ∧ e.2.bits = s.bits
  pending : s.reversed = true → s.bits % 8 = 0 ∧ s.bits ≠ 8

/-! ## Construction -/

/-- The value set without any region. -/
def new (bits : Nat) : Except OperationError ValueSet := requireWidth bits ⟨bits, .empty, false⟩

/-- The numbers of an interval as offsets in the global region. -/
def ofInterval (x : Interval) : ValueSet :=
  ⟨x.bits, if x.isEmpty then .empty else RegionMap.empty.insert numberRegion x, false⟩

/-- Adds offsets to those that a region has. -/
def addOffsets (s : ValueSet) (region : String) (offsets : Interval) : ValueSet :=
  if offsets.isEmpty then s
  else
    let joined := (s.regions.get? region).elim offsets fun known => known.join offsets
    { s with regions := s.regions.insert region joined }

/-- Adds offsets of the width of the value set to those that a region has. -/
def insert (s : ValueSet) (region : String) (offsets : Interval) : Except OperationError ValueSet :=
  requireSameWidth s.bits offsets.bits (s.addOffsets region offsets)

/-! ## What is stored -/

def get? (s : ValueSet) (region : String) : Option Interval := s.regions.get? region

def isEmpty (s : ValueSet) : Bool := s.regions.isEmpty

/-- The stored value set, without the pending byte swap. -/
def stored (s : ValueSet) : ValueSet := { s with reversed := false }

/-- The region of a value set that has just one. -/
def onlyRegion? (s : ValueSet) : Option (String × Interval) :=
  match s.regions.entries with
  | [e] => some e
  | _ => none

/-- A value set without a pending byte swap that covers this one: any offset in each region, if a
byte swap is pending. -/
def cover (s : ValueSet) : ValueSet :=
  if s.reversed then ⟨s.bits, s.regions.map fun _ => .whole s.bits, false⟩ else s

/-- Whether there is one region with one offset. -/
def isSingle (s : ValueSet) : Bool := s.onlyRegion?.any (·.2.isSingle)

/-- The first `n` offsets, region by region. -/
def sample (s : ValueSet) (n : Nat) : List Nat :=
  let stored := (s.regions.values.flatMap (·.sample n)).take n
  if s.reversed then stored.map (byteReversed s.bits) else stored

/-- Whether the offsets of some region have a number in common with an interval. -/
def meets (s : ValueSet) (x : Interval) : Bool :=
  s.cover.regions.values.any fun offsets => !(offsets.meet x).isEmpty

/-- The same value set without the names of its intervals. -/
def unnamed (s : ValueSet) : ValueSet := { s with regions := s.regions.map (·.unnamed) }

def text (s : ValueSet) : String :=
  let mark := if s.reversed then "~" else ""
  let entries := ", ".intercalate (s.regions.entries.map fun e => s!"{e.1}: {e.2.text}")
  s!"{mark}({entries})"

/-! ## Lattice operations -/

/-- Applies an operation on stored regions to two value sets of one width. As for intervals, two
pending byte swaps are carried over to the result. -/
def combine (op : RegionMap → RegionMap → RegionMap) (s t : ValueSet) :
    Except OperationError ValueSet :=
  requireSameWidth s.bits t.bits <|
    let both := s.reversed && t.reversed
    let regions :=
      if both then op s.regions t.regions else op s.cover.regions t.cover.regions
    ⟨s.bits, regions.filter fun offsets => !offsets.isEmpty, both⟩

def union (s t : ValueSet) : Except OperationError ValueSet := combine (.unionWith .join) s t

def intersection (s t : ValueSet) : Except OperationError ValueSet := combine (.interWith .meet) s t

/-- Widens the offsets of common regions; a region that only one of them has is taken over. -/
def widen (s t : ValueSet) : Except OperationError ValueSet := combine (.unionWith .stretch) s t

/-! ## Bit operations -/

/-- Applies an operation on offsets to each region. -/
def image (bits : Nat) (f : Interval → Interval) (s : ValueSet) : ValueSet :=
  ⟨bits, s.cover.regions.map f, false⟩

/-- Bits `low` to `high` of the offsets. -/
def extract (high low : Nat) (s : ValueSet) : Except OperationError ValueSet :=
  if Interval.FieldOf s.bits high low then .ok (s.image (high - low + 1) (·.slice high low))
  else .error (.badField high low s.bits)

/-- The offsets shifted to the right by the members of `amount`. -/
def shiftRight (s : ValueSet) (amount : Interval) : ValueSet := s.image s.bits (·.shiftRight amount)

/-- The byte-swapped offsets, in the same regions. -/
def reverse (s : ValueSet) : Except OperationError ValueSet :=
  if s.bits = 8 then .ok s
  else if s.bits % 8 ≠ 0 then .error (.partialBytes s.bits)
  else .ok { s with reversed := !s.reversed }

end ValueSet

end AbstractBits
