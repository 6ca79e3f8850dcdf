import AbstractBits.Bits
import AbstractBits.Text.Numeral
/-!
# Refused operations

The shapes that an abstract value can take, and the causes for which an operation on abstract values
is refused.
-/

namespace AbstractBits

/-- How an abstract value describes its numbers: by one interval, by a set of intervals, or by an
interval of offsets for each of several regions. -/
inductive Shape where
  | interval
  | set
  | valueSet
  deriving DecidableEq, Repr, Inhabited

namespace Shape

/-- What messages call a value of the shape. -/
def text : Shape → String
  | interval => "strided interval"
  | set => "discrete interval set"
  | valueSet => "value set"

end Shape

/-- The uses of a value for which it must not have regions. -/
inductive PlainUse where
  | concat
  | zeroExtend
  | signExtend
  | shiftAmount
  deriving DecidableEq, Repr, Inhabited

namespace PlainUse

def text : PlainUse → String
  | concat => "concat"
  | zeroExtend => "zero_extend"
  | signExtend => "sign_extend"
  | shiftAmount => "lshr amount"

end PlainUse

/-- Why an operation on abstract values is refused. -/
inductive OperationError where
  | differentWidths (left right : Nat)
  | badWidth (bits : Nat)
  | badField (high low bits : Nat)
  | crossedBounds (lower upper : Nat)
  | partialBytes (bits : Nat)
  | hasRegions (use : PlainUse) (shape : Shape)
  deriving DecidableEq, Repr, Inhabited

namespace OperationError

def message : OperationError → String
  | differentWidths left right => s!"operand widths differ ({left} vs {right} bits)"
  | badWidth bits => s!"bit width {bits} is outside of 1..=128"
  | badField high low bits => s!"bit range [{high}:{low}] does not fit a {bits}-bit value"
  | crossedBounds lower upper =>
    s!"lower bound {hexadecimal lower} exceeds upper bound {hexadecimal upper}"
  | partialBytes bits => s!"cannot byte-reverse a {bits}-bit value"
  | hasRegions use shape => s!"{use.text} is not supported on {shape.text}"

end OperationError

/-! ## Results of steps -/

theorem map_eq_ok {α β ε : Type} {f : α → β} {e : Except ε α} {y : β} :
    e.map f = .ok y ↔ ∃ x, e = .ok x ∧ f x = y := by
  cases e with
  | error cause => simp [Except.map]
  | ok x => simp [Except.map]

theorem bind_eq_ok {α β ε : Type} {f : α → Except ε β} {e : Except ε α} {y : β} :
    (e >>= f) = .ok y ↔ ∃ x, e = .ok x ∧ f x = .ok y := by
  cases e with
  | error cause => simp [bind, Except.bind]
  | ok x => simp [bind, Except.bind]

theorem mapError_eq_ok {α ε ε' : Type} {f : ε → ε'} {e : Except ε α} {x : α} :
    e.mapError f = .ok x ↔ e = .ok x := by
  cases e with
  | error cause => exact ⟨nofun, nofun⟩
  | ok y =>
    constructor
    · rintro ⟨⟩
      rfl
    · rintro ⟨⟩
      rfl

theorem mapM_eq_map {α β ε : Type} {f : α → Except ε β} {g : α → β} {xs : List α}
    (h : ∀ x ∈ xs, f x = .ok (g x)) : xs.mapM f = .ok (xs.map g) := by
  induction xs with
  | nil => rfl
  | cons x xs ih =>
    rw [List.mapM_cons, h x List.mem_cons_self, ih fun z hz => h z (List.mem_cons_of_mem _ hz)]
    rfl

/-! ## Checks of widths -/

/-- The result of an operation at a width, which must be one of a bit-vector. -/
def requireWidth {α : Type} (bits : Nat) (result : α) : Except OperationError α :=
  if ValidWidth bits then .ok result else .error (.badWidth bits)

/-- The result of an operation on operands of two widths, which must agree. -/
def requireSameWidth {α : Type} (left right : Nat) (result : α) : Except OperationError α :=
  if left = right then .ok result else .error (.differentWidths left right)

theorem requireWidth_eq_ok {α : Type} {bits : Nat} {result x : α} :
    requireWidth bits result = .ok x ↔ ValidWidth bits ∧ result = x := by
  unfold requireWidth
  by_cases h : ValidWidth bits <;> simp [h]

theorem requireSameWidth_eq_ok {α : Type} {left right : Nat} {result x : α} :
    requireSameWidth left right result = .ok x ↔ left = right ∧ result = x := by
  unfold requireSameWidth
  by_cases h : left = right <;> simp [h]

theorem requireSameWidth_map {α β : Type} (f : α → β) (left right : Nat) (result : α) :
    (requireSameWidth left right result).map f = requireSameWidth left right (f result) := by
  unfold requireSameWidth
  split <;> rfl

theorem requireSameWidth_map_eq_ok {α β : Type} {f : α → β} {left right : Nat} {result : α}
    {y : β} :
    (requireSameWidth left right result).map f = .ok y ↔ left = right ∧ f result = y := by
  rw [requireSameWidth_map, requireSameWidth_eq_ok]

end AbstractBits
