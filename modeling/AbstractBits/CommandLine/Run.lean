import AbstractBits.CommandLine.Request
import AbstractBits.Expr.Evaluation
import AbstractBits.Interval.Parser
import AbstractBits.Query
/-!
# Runs of the command line

A run reads its arguments, loads and updates the configuration, and carries out its command. How
arguments are read and where the configuration is kept are parameters of it; `Request.read` and a
text file are those of the program.
-/

namespace AbstractBits

/-- The stored configuration. -/
structure Config where
  /-- How many rounds a value set is sampled for at most. -/
  sampleRounds : Nat
  deriving DecidableEq, Repr, Inhabited

namespace Config

/-- The configuration that is stored when there is none. -/
def default : Config := ⟨16⟩

/-- Numbers in the stored text are below this limit. -/
def storedLimit : Nat := twoPow 63

def key : String := "sample_rounds = "

def text (c : Config) : String := key ++ toString c.sampleRounds ++ "\n"

/-- Reads what `text` writes. -/
def ofText? (text : String) : Option Config :=
  if key.toList.isPrefixOf text.toList then
    let digits := (text.toList.drop key.toList.length).takeWhile (· != '\n')
    (Numeral.read 10 storedLimit digits).toOption.map Config.mk
  else none

end Config

/-- Why a command that was accepted failed. -/
inductive CommandError where
  | operand (cause : OperandError)
  | evaluation (cause : EvalError)
  /-- The configuration cannot be stored as it should be. -/
  | configuration
  /-- There is no room for the samples. -/
  | noRoom
  deriving DecidableEq, Repr, Inhabited

namespace CommandError

def message : CommandError → String
  | operand cause => cause.message
  | evaluation cause => cause.message
  | configuration => "Failed to serialize configuration data into TOML"
  | noRoom => "capacity overflow"

def cause? : CommandError → Option String
  | operand cause => cause.cause?
  | evaluation _ | noRoom => none
  | configuration => some "out-of-range value for u64 type"

/-- The report of the error. -/
def text (e : CommandError) : String :=
  let cause := e.cause?.elim "" fun cause => s!"\nCaused by:\n    {cause}\n"
  s!"Error: {e.message}\n{cause}"

end CommandError

namespace Command

/-- The interval in an operand. -/
def readOperand (text : String) : Except CommandError Interval :=
  (Interval.parse text).mapError .operand

/-- The value of an operator on two intervals. -/
def combine (op : Operator) (x y : Interval) : Except CommandError Value :=
  (op.call [.abstract (.interval x), .abstract (.interval y)] x.bits).mapError .evaluation

/-- A value as a command writes it. Intervals combine to abstract values and verdicts only. -/
def valueText : Value → String
  | .abstract a => a.text
  | .bool v => v.text
  | v => v.typeText

/-- The line that a command writes. -/
def answer (rounds : Nat) : Command → Except CommandError String
  | compare c a b => do
    let x ← readOperand a
    let y ← readOperand b
    (combine (.compare c) x y).map valueText
  | join a b => do
    let x ← readOperand a
    let y ← readOperand b
    (combine .union x y).map valueText
  | widen old new => do
    let x ← readOperand old
    let y ← readOperand new
    (combine .widen x y).map valueText
  | bounds a => do
    let x ← readOperand a
    let v := Value.abstract (.interval x)
    let lower ← v.min.mapError .evaluation
    let upper ← v.max.mapError .evaluation
    return s!"{hexadecimal lower} {hexadecimal upper}"
  | sample a n => do
    let x ← readOperand a
    match (Value.abstract (.interval x)).eval rounds n with
    | none => throw .noRoom
    | some samples => return " ".intercalate ((← samples.mapError .evaluation).map (·.text))

end Command

/-- The name under which the program gives its version and keeps its configuration. -/
def programName : String := "strider"

/-- What a run shows. -/
structure Outcome where
  exit : Nat
  stdout : String
  /-- The report of a failed command. -/
  stderr : Option String
  deriving DecidableEq, Repr, Inhabited

namespace Outcome

/-- The arguments are refused. -/
def refused : Outcome := ⟨2, "", none⟩

def version : Outcome := ⟨0, s!"{programName} 0.1.0\n", none⟩

/-- The run breaks off. -/
def brokenOff : Outcome := ⟨101, "", none⟩

def ofAnswer : Except CommandError String → Outcome
  | .ok line => ⟨0, line ++ "\n", none⟩
  | .error .noRoom => brokenOff
  | .error e => ⟨1, "", some e.text⟩

end Outcome

/-- How the configuration is kept from run to run. -/
structure ConfigStore (m : Type → Type) where
  /-- The stored configuration, which is created if there is none. -/
  load : ExceptT CommandError m Config
  store (c : Config) : ExceptT CommandError m Unit

namespace ConfigStore

variable {m : Type → Type} [Monad m]

/-- A text file. Without one that can be read there is no configuration. -/
def ofFile (read : m (Option String)) (write : String → m Unit) : ConfigStore m where
  load := do
    match (← read).bind Config.ofText? with
    | some c => return c
    | none =>
      write Config.default.text
      return .default
  store c := do
    if c.sampleRounds < Config.storedLimit then write c.text
    else throw .configuration

/-- A text file in the state. -/
def inState : ConfigStore (StateM (Option String)) := ofFile get fun text => set (some text)

/-- Loads the configuration, and stores it again if the number of sampling rounds is set to another
one. -/
def update (configs : ConfigStore m) (rounds : Option Nat) : ExceptT CommandError m Config := do
  let stored ← configs.load
  match rounds with
  | none => return stored
  | some rounds =>
    let updated : Config := ⟨rounds⟩
    if updated ≠ stored then configs.store updated
    return updated

end ConfigStore

/-- A run with the given arguments. The configuration is created and updated before the operands of
the command are looked at. -/
def run {m : Type → Type} [Monad m] (read : List String → Option Request) (configs : ConfigStore m)
    (args : List String) : m Outcome :=
  match read args with
  | none => return .refused
  | some .version => return .version
  | some (.command rounds command) => do
    let answer ← ExceptT.run do
      let config ← configs.update rounds
      command.answer config.sampleRounds
    return .ofAnswer answer

/-- What was shown, and what was left stored, in each of several runs one after the other. -/
def runAll (stored : Option Config) : List (List String) → List (Outcome × Option Config)
  | [] => []
  | args :: rest =>
    let (outcome, file) := (run Request.read .inState args).run (stored.map Config.text)
    let left := file.bind Config.ofText?
    (outcome, left) :: runAll left rest

end AbstractBits
