import AbstractBits.Bits
import AbstractBits.Verdict
/-!
# Order comparisons

Eight comparisons of bit-vectors: four order relations, each on the unsigned or on the signed
reading. A comparison of two sets of numbers is decided from their bounds.

Results:
  * `mirrored_mirrored` — exchanging the sides twice changes nothing.
  * `holds_mirrored` — the mirrored comparison is the comparison with its sides exchanged.
-/

namespace AbstractBits

/-- An order relation between integers. -/
inductive Relation where
  | lt
  | le
  | gt
  | ge
  deriving DecidableEq, Repr, Inhabited

namespace Relation

/-- The relation as a proposition on two integers. -/
def Holds : Relation → Int → Int → Prop
  | lt, a, b => a < b
  | le, a, b => a ≤ b
  | gt, a, b => b < a
  | ge, a, b => b ≤ a

instance (r : Relation) (a b : Int) : Decidable (r.Holds a b) := by
  cases r <;> unfold Holds <;> infer_instance

/-- The same relation read from the other side. -/
def mirrored : Relation → Relation
  | lt => gt
  | le => ge
  | gt => lt
  | ge => le

theorem holds_mirrored_iff (r : Relation) (a b : Int) : r.mirrored.Holds a b ↔ r.Holds b a := by
  cases r <;> exact Iff.rfl

/-- The verdict on all pairs from two ranges, each given by its least and its greatest number: a
strict bound on one side decides for the relation, a bound on the other against it. -/
def decide (r : Relation) (a b : Int × Int) : Verdict :=
  match r with
  | lt => if a.2 < b.1 then .always else if b.2 ≤ a.1 then .never else .maybe
  | le => if a.2 ≤ b.1 then .always else if b.2 < a.1 then .never else .maybe
  | gt => if b.2 < a.1 then .always else if a.2 ≤ b.1 then .never else .maybe
  | ge => if b.2 ≤ a.1 then .always else if a.2 < b.1 then .never else .maybe

def text : Relation → String
  | lt => "LT"
  | le => "LE"
  | gt => "GT"
  | ge => "GE"

end Relation

/-- An order relation on the signed or on the unsigned reading of bit-vectors. -/
structure Comparison where
  signed : Bool
  relation : Relation
  deriving DecidableEq, Repr, Inhabited

namespace Comparison

/-- The number of `bits` bits in the reading of the comparison. -/
def reading (c : Comparison) (bits value : Nat) : Int :=
  if c.signed then signedValue bits value else value

/-- What the comparison says about two numbers of `bits` bits. -/
def Holds (c : Comparison) (bits a b : Nat) : Prop :=
  c.relation.Holds (c.reading bits a) (c.reading bits b)

instance (c : Comparison) (bits a b : Nat) : Decidable (c.Holds bits a b) :=
  inferInstanceAs (Decidable (Relation.Holds _ _ _))

/-- All comparisons, the unsigned ones first. -/
def all : List Comparison :=
  [false, true].flatMap fun signed =>
    [Relation.lt, .le, .gt, .ge].map fun relation => ⟨signed, relation⟩

/-- The comparison that says the same with its sides exchanged. -/
def mirrored (c : Comparison) : Comparison := { c with relation := c.relation.mirrored }

theorem holds_mirrored (c : Comparison) (bits a b : Nat) :
    c.mirrored.Holds bits a b ↔ c.Holds bits b a :=
  Relation.holds_mirrored_iff c.relation (c.reading bits a) (c.reading bits b)

theorem mirrored_mirrored (c : Comparison) : c.mirrored.mirrored = c := by
  obtain ⟨signed, relation⟩ := c
  cases relation <;> rfl

def text (c : Comparison) : String := (if c.signed then "S" else "U") ++ c.relation.text

/-- The comparison of a name, in either case of its (ASCII) letters. -/
def ofText? (name : String) : Option Comparison :=
  let upper := name.toList.map Char.toUpper
  all.find? fun c => c.text.toList == upper

/-- What is said about a name that no comparison has. -/
def unknownText (name : String) : String := s!"unknown comparison `{name}`"

end Comparison

end AbstractBits
