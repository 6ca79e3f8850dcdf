/-!
# Three-valued truth

The answer of a test on sets of numbers: it may hold throughout, fail throughout, or do both.

Results:
  * `mem_outcomes_and`, `mem_outcomes_not`, `mem_outcomes_join` — what each connective admits, in
    terms of what its operands admit.
-/

namespace AbstractBits

/-- Whether a statement holds: always, never, or in some cases and not in others. -/
inductive Verdict where
  | always
  | never
  | maybe
  deriving DecidableEq, Repr, Inhabited

namespace Verdict

def ofBool : Bool → Verdict
  | true => always
  | false => never

/-- The truth values that a verdict admits, `true` first. -/
def outcomes : Verdict → List Bool
  | always => [true]
  | never => [false]
  | maybe => [true, false]

def hasTrue (v : Verdict) : Bool := v != never

def hasFalse (v : Verdict) : Bool := v != always

def isTrue (v : Verdict) : Bool := v == always

def isFalse (v : Verdict) : Bool := v == never

/-- Conjunction: one failing operand decides it. -/
def and : Verdict → Verdict → Verdict
  | never, _ => never
  | _, never => never
  | always, always => always
  | _, _ => maybe

def not : Verdict → Verdict
  | always => never
  | never => always
  | maybe => maybe

/-- The verdict over the cases of both operands. -/
def join (v w : Verdict) : Verdict := if v = w then v else maybe

/-- The verdict over all listed cases; without any case nothing is known. -/
def joinAll : List Verdict → Verdict
  | [] => maybe
  | v :: vs => vs.foldl join v

def text : Verdict → String
  | always => "true"
  | never => "false"
  | maybe => "maybe"

/-! ## What the connectives admit -/

theorem hasTrue_iff (v : Verdict) : v.hasTrue = true ↔ true ∈ v.outcomes := by
  cases v <;> decide

theorem hasFalse_iff (v : Verdict) : v.hasFalse = true ↔ false ∈ v.outcomes := by
  cases v <;> decide

theorem mem_outcomes_ofBool (b c : Bool) : c ∈ (ofBool b).outcomes ↔ c = b := by
  cases b <;> cases c <;> decide

theorem mem_outcomes_and (v w : Verdict) (b : Bool) :
    b ∈ (v.and w).outcomes ↔ ∃ c ∈ v.outcomes, ∃ d ∈ w.outcomes, (c && d) = b := by
  cases v <;> cases w <;> cases b <;> decide

theorem mem_outcomes_not (v : Verdict) (b : Bool) : b ∈ v.not.outcomes ↔ (!b) ∈ v.outcomes := by
  cases v <;> cases b <;> decide

theorem mem_outcomes_join (v w : Verdict) (b : Bool) :
    b ∈ (v.join w).outcomes ↔ b ∈ v.outcomes ∨ b ∈ w.outcomes := by
  cases v <;> cases w <;> cases b <;> decide

end Verdict

end AbstractBits
