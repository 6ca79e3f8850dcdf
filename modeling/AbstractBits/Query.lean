import AbstractBits.Expr.Operand
/-!
# Questions about values

Samples, bounds, membership and truth of evaluated operands.
-/

namespace AbstractBits

/-- A sample of a value. -/
inductive Sample where
  | bits (n : Nat)
  | bool (b : Bool)
  deriving DecidableEq, Repr, Inhabited

namespace Sample

def text : Sample → String
  | bits n => hexadecimal n
  | bool b => if b then "true" else "false"

/-- How many bytes a sample takes in a list. -/
def bytes : Nat := 32

/-- Numbers as samples, if there is room for them. -/
def ofNumbers (ns : List Nat) : Option (List Sample) :=
  if HasRoom bytes ns.length then some (ns.map .bits) else none

end Sample

/-- Offsets of a value set, at most `n`, in up to `rounds` rounds that each start over with the
first region. A round that yields nothing is the last one. -/
def ValueSet.sampleRounds (v : ValueSet) : (rounds n : Nat) → List Nat
  | 0, _ => []
  | rounds + 1, n =>
    if n = 0 then []
    else
      let batch := v.sample n
      if batch.isEmpty then [] else batch ++ sampleRounds v rounds (n - batch.length)

namespace Value

/-- At most `n` samples. Value sets are sampled in rounds, so that their samples repeat. Whether
there is room for so many is left to `eval`. -/
def samples (rounds : Nat) (v : Value) (n : Nat) : Except EvalError (List Sample) :=
  match v with
  | bool v => .ok ((v.outcomes.take n).map .bool)
  | abstract (.valueSet s) => .ok ((s.sampleRounds rounds n).map .bits)
  | abstract a => .ok ((a.sample n).map .bits)
  | v => .error (.undefinedQuery .eval v.typeText)

/-- At most `n` samples, if there is room for them. A value set is sampled only if there is room for
`n` numbers, however few it has. -/
def eval (rounds : Nat) (v : Value) (n : Nat) : Option (Except EvalError (List Sample)) :=
  match v with
  | abstract (.interval x) => ((x.eval n).bind Sample.ofNumbers).map .ok
  | abstract (.set s) => (Sample.ofNumbers (s.sample n)).map .ok
  | abstract (.valueSet s) =>
    if HasRoom numberBytes n then (Sample.ofNumbers (s.sampleRounds rounds n)).map .ok else none
  | v => some (v.samples rounds n)

/-- The members of the interval over a value, which must have one that is not empty. -/
def bounds (query : Query) (v : Value) : Except EvalError Interval :=
  match v.abstract?.bind AbstractValue.hull? with
  | none => .error (.undefinedQuery query v.typeText)
  | some x => if x.isEmpty then .error (.emptyQuery query) else .ok x

/-- A lower bound of the numbers of a value. -/
def min (v : Value) : Except EvalError Nat := (v.bounds .min).map (·.lower)

/-- An upper bound of the numbers of a value. -/
def max (v : Value) : Except EvalError Nat := (v.bounds .max).map (·.upper)

/-- A candidate for a number of a value of the given width. -/
def candidate (bits : Nat) : Value → Except EvalError Interval
  | int i => (fitInteger i bits).map (.constant bits)
  | v => v.bounds .solution

/-- Whether a value can be a candidate: whether they have a truth value, or a number, in common. -/
def admits (v candidate : Value) : Except EvalError Bool :=
  match v with
  | bool v => candidate.toVerdict.map fun w => w.outcomes.any fun b => v.outcomes.contains b
  | abstract a => do
    let x ← candidate.candidate a.bits
    ofOperation (a.meets x)
  | v => .error (.undefinedQuery .solution v.typeText)

def hasTrue (v : Value) : Except EvalError Bool := v.toVerdict.map (·.hasTrue)

def hasFalse (v : Value) : Except EvalError Bool := v.toVerdict.map (·.hasFalse)

def isTrue (v : Value) : Except EvalError Bool := v.toVerdict.map (·.isTrue)

def isFalse (v : Value) : Except EvalError Bool := v.toVerdict.map (·.isFalse)

/-- Whether a value is known to be one number or one truth value. -/
def isSingle (v : Value) : Except EvalError Bool :=
  match v with
  | abstract a => .ok a.isSingle
  | bool v => .ok (v.outcomes.length == 1)
  | v => .error (.undefinedQuery .unique v.typeText)

def name? (v : Value) : Option String := v.abstract?.bind AbstractValue.name?

end Value

end AbstractBits
