import AbstractBits.Bits
import AbstractBits.Comparison
import AbstractBits.Text.Numeral
/-!
# Requests on the command line

The arguments of a run name one command with its operands. In front of the command the number of
sampling rounds can be set, and the version can be asked for. Operands that start with a dash are
refused unless a `--` stands before them; a dash alone is no option.
-/

namespace AbstractBits

/-- A command with its operands; intervals are still text. -/
inductive Command where
  | compare (c : Comparison) (a b : String)
  | join (a b : String)
  | widen (old new : String)
  | bounds (a : String)
  | sample (a : String) (n : Nat)
  deriving DecidableEq, Repr, Inhabited

/-- What the arguments of a run ask for. -/
inductive Request where
  | version
  /-- A command, and the number of sampling rounds to be set before it. -/
  | command (rounds : Option Nat) (command : Command)
  deriving DecidableEq, Repr, Inhabited

namespace Request

/-- How many numbers `sample` writes if it is not told. -/
def defaultSample : Nat := 8

/-- A count is a decimal number of 64 bits. -/
def count? (text : String) : Option Nat := (Numeral.read 10 (twoPow 64) text.toList).toOption

/-- Whether an argument is taken for an option. -/
def isOption (arg : String) : Bool := arg.startsWith "-" && arg != "-"

/-- The operands among the arguments behind a command. -/
def operands? : List String → Option (List String)
  | [] => some []
  | arg :: args =>
    if arg = "--" then some args
    else if isOption arg then none
    else (operands? args).map (arg :: ·)

/-- The command of a name with its operands. -/
def command? (name : String) (operands : List String) : Option Command :=
  match name, operands with
  | "compare", [c, a, b] => (Comparison.ofText? c).map fun c => .compare c a b
  | "join", [a, b] => some (.join a b)
  | "widen", [old, new] => some (.widen old new)
  | "bounds", [a] => some (.bounds a)
  | "sample", [a] => some (.sample a defaultSample)
  | "sample", [a, n] => (count? n).map fun n => .sample a n
  | _, _ => none

/-- The option that sets the number of sampling rounds. -/
def roundsOption : String := "--sample-rounds"

/-- The number of sampling rounds in the value of the option, which must not have been set
before. -/
def newRounds? (rounds : Option Nat) (value : String) : Option Nat :=
  if rounds.isSome || isOption value then none else count? value

/-- Reads the arguments from left to right, given the rounds that were set before. Asking for the
version ends the reading. -/
def readFrom (rounds : Option Nat) : List String → Option Request
  | [] => none
  | arg :: args =>
    if arg = "--version" || arg.startsWith "-V" then some .version
    else if arg = roundsOption then
      match args with
      | [] => none
      | value :: rest =>
        match newRounds? rounds value with
        | some n => readFrom (some n) rest
        | none => none
    else if arg.startsWith (roundsOption ++ "=") then
      match newRounds? rounds (arg.drop (roundsOption.length + 1)).toString with
      | some n => readFrom (some n) args
      | none => none
    else if isOption arg then none
    else
      match operands? args with
      | some operands => (command? arg operands).map fun command => .command rounds command
      | none => none

/-- What the arguments ask for; nothing if they are refused. -/
def read (args : List String) : Option Request := readFrom none args

end Request

end AbstractBits
