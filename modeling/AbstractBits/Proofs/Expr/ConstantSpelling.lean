import AbstractBits.Proofs.Expr.Soundness
import AbstractBits.Proofs.IntervalSet.Verdict
/-!
# Spellings of a constant in a comparison

A constant beside an abstract value can be an integer, which takes on the width of the value and
leaves it the side that answers, or a word, which answers itself if it comes first. All that an
answering word sees of a set is the interval over it. This makes a difference for signed comparisons
with sets of numbers of both signs only, which may be left open then.

Results:
  * `verdict_sides` — the verdicts on a value and an interval, asked from either side.
  * `constant_spellings` — how far the four spellings of a constant agree.
  * `word_in_front_leaves_open` — a comparison that is decided for three of them only.
-/

namespace AbstractBits

/-! ## Asking from either side -/

namespace AbstractValue

variable {c : Comparison} {a : AbstractValue} {y : Interval}

theorem verdict_from_interval (c : Comparison) (y : Interval) (a : AbstractValue) :
    verdict c.mirrored (interval y) a = a.hull?.elim .maybe fun x => x.verdict c y := by
  show a.hull?.elim .maybe (fun x => y.verdict c.mirrored x) = _
  simp only [Interval.verdict_mirrored]

/-- The mirrored comparison asked of an interval has the verdict of the comparison asked of the
value beside it. Only for a set of numbers of both signs may it leave a signed comparison open. -/
theorem verdict_sides (ha : a.Valid) (hy : y.Valid) (hbits : a.bits = y.bits) :
    verdict c.mirrored (interval y) a = verdict c a (interval y) ∨
      verdict c.mirrored (interval y) a = .maybe ∧ c.signed = true ∧ ∃ s, a = set s ∧
      s.CrossesSign := by
  rw [verdict_from_interval]
  cases a with
  | interval x =>
    refine .inl ?_
    show x.cover.verdict c y = x.verdict c y.cover
    rw [Interval.verdict_cover_left, Interval.verdict_cover_right]
  | set s =>
    have hmembers : verdict c (set s) (interval y) = s.verdict c y := by
      show s.verdict c y.cover = s.verdict c y
      simp only [IntervalSet.verdict, Interval.verdict_cover_right]
    rw [hmembers]
    rcases IntervalSet.verdict_hull (c := c) ha hy hbits with hsame | ⟨hopen, hsigned, hcross⟩
    · exact .inl hsame
    · exact .inr ⟨hopen, hsigned, s, rfl, hcross⟩
  | valueSet v =>
    refine .inl ?_
    show _ = (valueSet v).hull?.elim .maybe fun x => x.verdict c y.cover
    simp only [Interval.verdict_cover_right]

theorem compare_interval (hbits : a.bits = y.bits) :
    a.compare c (interval y) = .ok (verdict c a (interval y)) :=
  requireSameWidth_eq_ok.2 ⟨hbits, rfl⟩

theorem interval_compare (hbits : a.bits = y.bits) :
    (interval y).compare c a = .ok (verdict c (interval y) a) :=
  requireSameWidth_eq_ok.2 ⟨hbits.symm, rfl⟩

end AbstractValue

/-! ## Integers of a width -/

theorem signedMin_eq (bits : Nat) : signedMin bits = -(twoPow (bits - 1) : Int) := rfl

theorem cast_allOnes {bits : Nat} (valid : ValidWidth bits) :
    (allOnes bits : Int) = (twoPow bits : Int) - 1 := by
  have hpos : 1 ≤ twoPow bits := twoPow_pos bits
  rw [allOnes, modulus_of_valid valid, Int.ofNat_sub hpos]
  rfl

/-- An integer is accepted from the least signed number of a width up to the greatest unsigned
one. -/
theorem fitInteger_of_fits {i : Int} {bits : Nat} (valid : ValidWidth bits)
    (hmin : -(twoPow (bits - 1) : Int) ≤ i) (hmax : i ≤ (twoPow bits : Int) - 1) :
    fitInteger i bits = .ok (truncateInt bits i) := by
  rw [fitInteger, signedMin_eq, cast_allOnes valid, if_pos ⟨hmin, hmax⟩]

theorem fitInteger_of_not_fits {i : Int} {bits : Nat} (valid : ValidWidth bits)
    (h : i < -(twoPow (bits - 1) : Int) ∨ (twoPow bits : Int) - 1 < i) :
    fitInteger i bits = .error (.integerTooWide i bits) := by
  have hnot : ¬(-(twoPow (bits - 1) : Int) ≤ i ∧ i ≤ (twoPow bits : Int) - 1) := by
    rintro ⟨hmin, hmax⟩
    rcases h with h | h
    · exact absurd hmin (Int.not_le.2 h)
    · exact absurd hmax (Int.not_le.2 h)
  rw [fitInteger, signedMin_eq, cast_allOnes valid, if_neg hnot]

/-- The word of an integer modulo its width is the number that the integer stands for there. -/
theorem truncateInt_eq_of_word {i : Int} {w : Word}
    (hvalue : (w.value : Int) = i % (twoPow w.bits : Int)) : truncateInt w.bits i = w.value := by
  rw [truncateInt, modulus_of_valid w.valid, ← hvalue, Int.toNat_natCast]

namespace Operator

variable {c : Comparison} {a : AbstractValue} {i : Int} {value bits : Nat}

/-! ## Calls of comparisons -/

/-- A comparison is asked of the abstract operand in front, from the other side if that was the
second one. -/
theorem applyCompare_of_front {args : List Value} {o : Value.Fronted} {b : AbstractValue}
    (hfront : Value.bringFront args = .ok o)
    (hother : o.other.toAbstractOf (compare (if o.swapped then c.mirrored else c)) o.front.bits =
      .ok b) :
    applyCompare c args =
      (ofOperation (o.front.compare (if o.swapped then c.mirrored else c) b)).map .bool := by
  simp only [applyCompare, hfront, bind, Except.bind, hother]

theorem applyCompare_of_refused {args : List Value} {o : Value.Fronted} {e : EvalError}
    (hfront : Value.bringFront args = .ok o)
    (hother : o.other.toAbstractOf (compare (if o.swapped then c.mirrored else c)) o.front.bits =
      .error e) : applyCompare c args = .error e := by
  simp only [applyCompare, hfront, bind, Except.bind, hother]

theorem call_compare {args : List Expr} {vs : List Value} (h : Expr.evaluateAll args = .ok vs) :
    (compare c).call args bits = applyCompare c vs := by
  rw [call, Expr.evaluate, h]
  rfl

theorem call_compare_abstract_int :
    (compare c).call [.abstract a, .int i] bits = applyCompare c [.abstract a, .int i] :=
  call_compare (Expr.evaluateAll_map_ofValue [.abstract a, .int i])

theorem call_compare_int_abstract :
    (compare c).call [.int i, .abstract a] bits = applyCompare c [.int i, .abstract a] :=
  call_compare (Expr.evaluateAll_map_ofValue [.int i, .abstract a])

/-- An integer that fits a width is the interval of its number there. -/
theorem toAbstractOf_int (hfits : fitInteger i bits = .ok value) (op : Operator) :
    Value.toAbstractOf op bits (.int i) = .ok (.interval (.constant bits value)) := by
  rw [Value.toAbstractOf, hfits]
  rfl

/-- An integer as the second operand. -/
theorem call_compare_integer (hfits : fitInteger i a.bits = .ok value) :
    (compare c).call [.abstract a, .int i] bits =
      .ok (.bool (AbstractValue.verdict c a (.interval (.constant a.bits value)))) := by
  rw [call_compare_abstract_int,
    applyCompare_of_front (o := ⟨a, .int i, false⟩) rfl (toAbstractOf_int hfits _)]
  show (ofOperation (a.compare c _)).map Value.bool = _
  rw [AbstractValue.compare_interval rfl]
  rfl

/-- An integer as the first operand: the mirrored comparison is asked of the second one. -/
theorem call_compare_integer_front (hfits : fitInteger i a.bits = .ok value) :
    (compare c.mirrored).call [.int i, .abstract a] bits =
      .ok (.bool (AbstractValue.verdict c a (.interval (.constant a.bits value)))) := by
  rw [call_compare_int_abstract,
    applyCompare_of_front (o := ⟨a, .int i, true⟩) rfl (toAbstractOf_int hfits _)]
  show (ofOperation (a.compare c.mirrored.mirrored _)).map Value.bool = _
  rw [Comparison.mirrored_mirrored, AbstractValue.compare_interval rfl]
  rfl

/-- An integer that does not fit is refused in either place. -/
theorem call_compare_refused {e : EvalError} (hfits : fitInteger i a.bits = .error e) :
    (compare c).call [.abstract a, .int i] bits = .error e ∧
      (compare c.mirrored).call [.int i, .abstract a] bits = .error e := by
  have hother (op : Operator) : Value.toAbstractOf op a.bits (.int i) = .error e := by
    rw [Value.toAbstractOf, hfits]
    rfl
  rw [call_compare_abstract_int, call_compare_int_abstract]
  exact ⟨applyCompare_of_refused (o := ⟨a, .int i, false⟩) rfl (hother _),
    applyCompare_of_refused (o := ⟨a, .int i, true⟩) rfl (hother _)⟩

/-- A word as the second operand. -/
theorem call_compare_word {w : Word} (hbits : w.bits = a.bits) :
    (compare c).call [.abstract a, .word w] bits =
      .ok (.bool (AbstractValue.verdict c a (.interval (.constant w.bits w.value)))) := by
  have hargs :
      Expr.evaluateAll [.abstract a, .word w] = .ok [.abstract a, .abstract (Expr.ofWord w)] := by
    simp only [Expr.evaluateAll, Expr.evaluate]
  rw [call_compare hargs,
    applyCompare_of_front (o := ⟨a, .abstract (Expr.ofWord w), false⟩) rfl rfl]
  show (ofOperation (a.compare c (.interval (.constant w.bits w.value)))).map Value.bool = _
  rw [AbstractValue.compare_interval hbits.symm]
  rfl

/-- A word as the first operand answers itself. -/
theorem call_compare_word_front {w : Word} (hbits : w.bits = a.bits) :
    (compare c).call [.word w, .abstract a] bits =
      .ok (.bool (AbstractValue.verdict c (.interval (.constant w.bits w.value)) a)) := by
  have hargs :
      Expr.evaluateAll [.word w, .abstract a] = .ok [.abstract (Expr.ofWord w), .abstract a] := by
    simp only [Expr.evaluateAll, Expr.evaluate]
  rw [call_compare hargs, applyCompare_of_front (o := ⟨Expr.ofWord w, .abstract a, false⟩) rfl rfl]
  show (ofOperation (AbstractValue.compare c (.interval (.constant w.bits w.value)) a)).map
    Value.bool = _
  rw [AbstractValue.interval_compare hbits.symm]
  rfl

/-! ## Spellings -/

/-- An integer that fits the width of an abstract value is compared with it as the word of that
width is, in front of it or behind it, and as the word behind it. The word in front has the same
verdict too, unless it leaves a signed comparison with a set of numbers of both signs open. An
integer that does not fit is refused in both places. -/
theorem constant_spellings (ha : a.Valid) (c : Comparison) (i : Int) (bits : Nat) :
    (-(twoPow (a.bits - 1) : Int) ≤ i → i ≤ (twoPow a.bits : Int) - 1 →
      ∀ w : Word, w.bits = a.bits → (w.value : Int) = i % (twoPow a.bits : Int) →
        ∃ v u : Verdict,
          (compare c).call [.abstract a, .int i] bits = .ok (.bool v) ∧
            (compare c).call [.abstract a, .word w] bits = .ok (.bool v) ∧
            (compare c.mirrored).call [.int i, .abstract a] bits = .ok (.bool v) ∧
            (compare c.mirrored).call [.word w, .abstract a] bits = .ok (.bool u) ∧
            (u = v ∨ u = .maybe ∧ c.signed = true ∧ ∃ s, a = .set s ∧ s.CrossesSign)) ∧
      (i < -(twoPow (a.bits - 1) : Int) ∨ (twoPow a.bits : Int) - 1 < i →
        ∃ e : EvalError, e.kind = .argumentType ∧
          (compare c).call [.abstract a, .int i] bits = .error e ∧
            (compare c.mirrored).call [.int i, .abstract a] bits = .error e) := by
  have hwidth := AbstractValue.width ha
  constructor
  · intro hmin hmax w hbits hvalue
    have hfits : fitInteger i a.bits = .ok w.value := by
      rw [fitInteger_of_fits hwidth hmin hmax, ← hbits,
        truncateInt_eq_of_word (hbits.symm ▸ hvalue)]
    have hconstant : (Interval.constant w.bits w.value).Valid :=
      Interval.valid_constant w.valid w.value
    rw [call_compare_integer hfits, call_compare_integer_front hfits, call_compare_word hbits,
      call_compare_word_front hbits, ← hbits]
    exact ⟨_, _, rfl, rfl, rfl, rfl, AbstractValue.verdict_sides ha hconstant hbits.symm⟩
  · intro hout
    exact ⟨.integerTooWide i a.bits, rfl, call_compare_refused (fitInteger_of_not_fits hwidth hout)⟩

/-- A set of numbers of both signs, -1, 0 and 1. -/
def bothSigns : AbstractValue :=
  .set ⟨8, [⟨8, some ⟨0, 1, 1⟩, false, none⟩, ⟨8, some ⟨255, 255, 0⟩, false, none⟩]⟩

theorem valid_bothSigns : bothSigns.Valid where
  width := by decide
  count := by decide
  member := by
    refine List.forall_mem_cons.2 ⟨⟨?_, rfl, rfl⟩, List.forall_mem_singleton.2 ⟨?_, rfl, rfl⟩⟩
    · exact Interval.valid_ofRange (by decide) (by decide) (by decide)
    · exact Interval.valid_ofRange (by decide) (by decide) (by decide)
  sorted := by decide

/-- 2 as a number of eight bits beside the set, in an unsigned comparison, and 256, which does not
fit. -/
theorem unsigned_spellings_agree :
    (∃ v, (compare ⟨false, .lt⟩).call [.abstract bothSigns, .int 2] 1 = .ok (.bool v) ∧
      (compare ⟨false, .gt⟩).call [.word ⟨8, 2, by decide, by decide⟩, .abstract bothSigns] 1 =
        .ok (.bool v)) ∧
      ∃ e, (compare ⟨false, .lt⟩).call [.abstract bothSigns, .int 256] 1 = .error e := by
  have hfits := (constant_spellings valid_bothSigns ⟨false, .lt⟩ 2 1).1 (by decide) (by decide)
    ⟨8, 2, by decide, by decide⟩ rfl rfl
  have hrefused := (constant_spellings valid_bothSigns ⟨false, .lt⟩ 256 1).2 (.inr (by decide))
  obtain ⟨v, u, hint, -, -, hword, rfl | ⟨-, hsigned, -⟩⟩ := hfits
  · obtain ⟨e, -, he, -⟩ := hrefused
    exact ⟨⟨u, hint, hword⟩, e, he⟩
  · cases hsigned

/-- Each of -1, 0 and 1 is less than 2, but the interval over them is that of all numbers from 0 to
255. -/
theorem word_in_front_leaves_open :
    ¬∀ (a : AbstractValue) (c : Comparison) (i : Int) (w : Word) (bits : Nat), a.Valid →
      -(twoPow (a.bits - 1) : Int) ≤ i → i ≤ (twoPow a.bits : Int) - 1 → w.bits = a.bits →
      (w.value : Int) = i % (twoPow a.bits : Int) →
      (compare c).call [.abstract a, .int i] bits =
        (compare c.mirrored).call [.word w, .abstract a] bits := by
  intro hall
  have hsame :=
    hall bothSigns ⟨true, .lt⟩ 2 ⟨8, 2, by decide, by decide⟩ 1 valid_bothSigns (by decide)
    (by decide) rfl rfl
  have hfits : fitInteger 2 bothSigns.bits = .ok 2 := rfl
  rw [call_compare_integer hfits, call_compare_word_front rfl] at hsame
  have hverdicts : Verdict.always = .maybe := Value.bool.inj (Except.ok.inj hsame)
  cases hverdicts

end Operator

end AbstractBits
