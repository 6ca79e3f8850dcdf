import AbstractBits.Denotation
import AbstractBits.Expr.Evaluation
/-!
# Concrete results of expressions

The ordinary meaning of expression trees on single bit-vectors, with which evaluation is compared.
Every leaf is one of the values that it admits, each occurrence on its own. Operations on an address
act on the offset inside its region. Two addresses in different regions have no order: a comparison
of them can come out either way.

The lattice operators and the operators that introduce descriptions have no concrete meaning.

Results:
  * `yields_ofValue` — a value as an operand can be what the value stands for.
-/

namespace AbstractBits

/-- What an operand can be in one run. -/
inductive Concrete where
  /-- An integer, which has no width of its own. -/
  | literal (i : Int)
  | truth (b : Bool)
  /-- A bit-vector with its width. -/
  | vector (bits : Nat) (place : Place)
  /-- The name of a region. -/
  | label (s : String)
  deriving DecidableEq, Repr, Inhabited

namespace Concrete

/-- The place of a bit-vector of a width; an integer beside one takes its width on. -/
inductive At (bits : Nat) : Concrete → Place → Prop where
  | vector (place : Place) : At bits (.vector bits place) place
  | literal (i : Int) : At bits (.literal i) (.number (truncateInt bits i))

/-- How far a shift amount shifts: the number that it is. -/
inductive Amount : Concrete → Nat → Prop where
  | vector (bits n : Nat) : Amount (.vector bits (.number n)) n
  | literal (n : Nat) : Amount (.literal n) n

/-- The width of parts, given by their widths and numbers, put one behind the other. -/
def joinedWidth (parts : List (Nat × Nat)) : Nat :=
  parts.foldl (fun joined part => joined + part.1) 0

/-- The number of parts put one behind the other: the last part has the lowest bits. -/
def joinParts (parts : List (Nat × Nat)) : Nat :=
  parts.foldl (fun joined part => joined * twoPow part.1 + part.2) 0

/-- The result of an operator on single operands. -/
inductive Step : Operator → List Concrete → Concrete → Prop where
  | and (bs : List Bool) : Step .and (bs.map .truth) (.truth (bs.all id))
  | not (b : Bool) : Step .not [.truth b] (.truth !b)
  /-- Places in one region are compared by their offsets. -/
  | compare {c : Comparison} {bits : Nat} {x y : Concrete} {region : String} {a b : Nat}
      (left : At bits x ⟨region, a⟩) (right : At bits y ⟨region, b⟩) :
      Step (.compare c) [x, y] (.truth (decide (c.Holds bits a b)))
  /-- Places in two regions have no order. -/
  | compareApart {c : Comparison} {bits : Nat} {x y : Concrete} {a b : Place} (t : Bool)
      (left : At bits x a) (right : At bits y b) (apart : a.region ≠ b.region) :
      Step (.compare c) [x, y] (.truth t)
  | ite (b : Bool) (yes no : Concrete) : Step .ite [.truth b, yes, no] (if b then yes else no)
  | shiftRight {amount : Concrete} {n : Nat} (bits : Nat) (place : Place)
      (shift : Amount amount n) :
      Step .shiftRight [.vector bits place, amount]
        (.vector bits ⟨place.region, place.offset / twoPow n⟩)
  | concat (parts : List (Nat × Nat)) :
      Step .concat (parts.map fun part => .vector part.1 (.number part.2))
        (.vector (joinedWidth parts) (.number (joinParts parts)))
  /-- A single operand is the result, in whichever region it is. -/
  | concatSingle (bits : Nat) (place : Place) :
      Step .concat [.vector bits place] (.vector bits place)
  | extract {high low bits : Nat} (place : Place) (field : Interval.FieldOf bits high low) :
      Step .extract [.literal high, .literal low, .vector bits place]
        (.vector (high - low + 1)
          ⟨place.region, place.offset / twoPow low % twoPow (high - low + 1)⟩)
  | signExtend (added bits n : Nat) :
      Step .signExtend [.literal added, .vector bits (.number n)]
        (.vector (added + bits) (.number (truncateInt (added + bits) (signedValue bits n))))
  | zeroExtend (added bits n : Nat) :
      Step .zeroExtend [.literal added, .vector bits (.number n)]
        (.vector (added + bits) (.number n))
  | reverse (bits : Nat) (place : Place) :
      Step .reverse [.vector bits place]
        (.vector bits ⟨place.region, byteReversed bits place.offset⟩)
  /-- Numbers become offsets of the region. -/
  | valueSet (region : String) (bits n : Nat) :
      Step .valueSet [.label region, .vector bits (.number n)] (.vector bits ⟨region, n⟩)

end Concrete

namespace Expr

mutual

/-- What an operand can be: a leaf any of its values, a node the result of its operator on what its
operands can be. -/
def Yields : Expr → Concrete → Prop
  | int i, c => c = .literal i
  | float _, _ => False
  | str s, c => c = .label s
  | native b, c => c = .truth b
  | word w, c => c = .vector w.bits (.number w.value)
  | abstract a, c => ∃ place, a.Denotes place ∧ c = .vector a.bits place
  | bool v, c => ∃ b ∈ v.outcomes, c = .truth b
  | node op args _, c => ∃ cs, YieldsAll args cs ∧ Concrete.Step op cs c
  | foreign _, _ => False

/-- What operands can be, each on its own. -/
def YieldsAll : List Expr → List Concrete → Prop
  | [], cs => cs = []
  | d :: ds, cs => ∃ c rest, cs = c :: rest ∧ Yields d c ∧ YieldsAll ds rest

end

/-- The trees whose nodes have a concrete meaning: no lattice operator, and no operator that
introduces a description. -/
inductive HasMeaning : Expr → Prop where
  | int (i : Int) : HasMeaning (int i)
  | str (s : String) : HasMeaning (str s)
  | native (b : Bool) : HasMeaning (native b)
  | word (w : Word) : HasMeaning (word w)
  | abstract {a : AbstractValue} (valid : a.Valid) : HasMeaning (abstract a)
  | bool (v : Verdict) : HasMeaning (bool v)
  | node {op : Operator} {args : List Expr} (bits : Nat) (plain : op.isLattice = false)
      (defined : op ≠ .symbol ∧ op ≠ .interval) (parts : ∀ d ∈ args, HasMeaning d) :
      HasMeaning (node op args bits)

end Expr

namespace Value

/-- What a value stands for. -/
def Denotes : Value → Concrete → Prop
  | int i, c => c = .literal i
  | float _, _ => False
  | str s, c => c = .label s
  | abstract a, c => ∃ place, a.Denotes place ∧ c = .vector a.bits place
  | bool v, c => ∃ b ∈ v.outcomes, c = .truth b

/-- A value as an operand can be what the value stands for. -/
theorem yields_ofValue (v : Value) (c : Concrete) : (Expr.ofValue v).Yields c ↔ v.Denotes c := by
  cases v <;> simp [Expr.ofValue, Expr.Yields, Denotes]

end Value

end AbstractBits
