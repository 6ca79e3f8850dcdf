import AbstractBits.Text.Numeral
/-!
# The written forms of numbers

What a text of digits stands for, said without reading it from one end to the other: the last digit
counts once and what stands before it counts the radix times. Reading accepts these forms and no
others.

Results:
  * `readDigits_eq_ok_iff`, `read_eq_ok_iff` — when reading succeeds, and with which number.
-/

namespace AbstractBits

namespace Numeral

/-- One or more digits of a radix, and the number that they stand for. -/
inductive Digits (radix : Nat) : List Char → Nat → Prop where
  | one {c : Char} {d : Nat} (digit : digit? radix c = some d) : Digits radix [c] d
  | snoc {cs : List Char} {n : Nat} {c : Char} {d : Nat} (before : Digits radix cs n)
      (digit : digit? radix c = some d) : Digits radix (cs ++ [c]) (n * radix + d)

/-- Digits with or without a plus sign in front. -/
def Written (radix : Nat) (cs : List Char) (n : Nat) : Prop :=
  Digits radix cs n ∨ ∃ digits, cs = '+' :: digits ∧ Digits radix digits n

namespace Digits

theorem ne_nil {radix n : Nat} {cs : List Char} (h : Digits radix cs n) : cs ≠ [] := by
  cases h with
  | one => exact List.cons_ne_nil _ _
  | snoc => exact List.append_ne_nil_of_right_ne_nil _ (List.cons_ne_nil _ _)

end Digits

/-! ## Reading from the left -/

/-- The number of a text of digits, read from the left behind a number. -/
def continued (radix read : Nat) (ds : List Nat) : Nat := ds.foldl (fun n d => n * radix + d) read

theorem le_continued {radix : Nat} (hradix : 0 < radix) (read : Nat) (ds : List Nat) :
    read ≤ continued radix read ds := by
  induction ds generalizing read with
  | nil => exact Nat.le_refl _
  | cons d ds ih =>
    have hmul := Nat.le_mul_of_pos_right read hradix
    exact Nat.le_trans (Nat.le_trans hmul (Nat.le_add_right _ d)) (ih (read * radix + d))

/-- A text of digits starts with a digit, and what is behind it has the other ones. -/
theorem digits_of_cons {radix : Nat} {c : Char} {cs : List Char} {ds : List Nat}
    (h : (c :: cs).map (digit? radix) = ds.map some) :
    ∃ d es, ds = d :: es ∧ digit? radix c = some d ∧ cs.map (digit? radix) = es.map some := by
  cases ds with
  | nil => cases h
  | cons d es =>
    obtain ⟨hdigit, hrest⟩ := List.cons.inj h
    exact ⟨d, es, rfl, hdigit, hrest⟩

/-- Reading digits behind a number succeeds when all characters are digits and the result is below
the limit; it is for a limit above the number to start with. Digits behind a number do not make it
smaller. -/
theorem readDigits_eq_ok_iff {radix limit read n : Nat} (hradix : 0 < radix) (hread : read < limit)
    {cs : List Char} :
    readDigits radix limit read cs = .ok n ↔
      ∃ ds, cs.map (digit? radix) = ds.map some ∧ n = continued radix read ds ∧ n < limit := by
  induction cs generalizing read with
  | nil =>
    constructor
    · intro h
      cases h
      exact ⟨[], rfl, rfl, hread⟩
    · rintro ⟨ds, hds, rfl, -⟩
      have : ds = [] := by simpa using hds.symm
      subst this
      rfl
  | cons c cs ih =>
    rw [readDigits]
    cases hdigit : digit? radix c with
    | none =>
      constructor
      · intro h
        cases h
      · rintro ⟨ds, hds, -, -⟩
        obtain ⟨d, es, -, hd, -⟩ := digits_of_cons hds
        exact nomatch hdigit.symm.trans hd
    | some d =>
      dsimp only
      by_cases hlimit : read * radix + d < limit
      · rw [if_pos hlimit, ih hlimit]
        constructor
        · rintro ⟨ds, hds, hn, hlt⟩
          exact ⟨d :: ds, by simp [hdigit, hds], hn, hlt⟩
        · rintro ⟨ds, hds, hn, hlt⟩
          obtain ⟨e, es, rfl, he, hes⟩ := digits_of_cons hds
          obtain rfl : d = e := Option.some.inj (hdigit.symm.trans he)
          exact ⟨es, hes, hn, hlt⟩
      · rw [if_neg hlimit]
        constructor
        · intro h
          cases h
        · rintro ⟨ds, hds, hn, hlt⟩
          obtain ⟨e, es, rfl, he, -⟩ := digits_of_cons hds
          obtain rfl : d = e := Option.some.inj (hdigit.symm.trans he)
          have hle := le_continued hradix (read * radix + d) es
          have hn' : n = continued radix (read * radix + d) es := hn
          omega

/-- Digits behind a text of digits. -/
theorem digits_append {radix m : Nat} {before cs : List Char} {ds : List Nat}
    (hbefore : Digits radix before m) (h : cs.map (digit? radix) = ds.map some) :
    Digits radix (before ++ cs) (continued radix m ds) := by
  induction cs generalizing before m ds with
  | nil =>
    have : ds = [] := by simpa using h.symm
    subst this
    rw [List.append_nil]
    exact hbefore
  | cons c cs ih =>
    obtain ⟨d, es, rfl, hdigit, hrest⟩ := digits_of_cons h
    have hcont : continued radix m (d :: es) = continued radix (m * radix + d) es := rfl
    rw [List.append_cons, hcont]
    exact ih (hbefore.snoc hdigit) hrest

/-- The two ways of giving the number of a text of digits agree. -/
theorem digits_iff {radix n : Nat} {cs : List Char} :
    Digits radix cs n ↔
      cs ≠ [] ∧ ∃ ds, cs.map (digit? radix) = ds.map some ∧ n = continued radix 0 ds := by
  constructor
  · intro h
    refine ⟨h.ne_nil, ?_⟩
    induction h with
    | @one c d digit => exact ⟨[d], by simp [digit], by simp [continued]⟩
    | @snoc cs n c d _ digit ih =>
      obtain ⟨ds, hds, rfl⟩ := ih
      exact ⟨ds ++ [d], by simp [hds, digit], by simp [continued]⟩
  · rintro ⟨hne, ds, hds, rfl⟩
    cases cs with
    | nil => exact absurd rfl hne
    | cons c cs =>
      obtain ⟨d, es, rfl, hdigit, hrest⟩ := digits_of_cons hds
      have hstart : continued radix 0 (d :: es) = continued radix d es := by simp [continued]
      rw [hstart]
      exact digits_append (.one hdigit) hrest

theorem digit?_plus (radix : Nat) : digit? radix '+' = none := by
  simp [digit?]

theorem not_digits_plus {radix n : Nat} {cs : List Char} : ¬Digits radix ('+' :: cs) n := by
  intro h
  obtain ⟨-, ds, hds, -⟩ := digits_iff.1 h
  obtain ⟨d, es, -, hd, -⟩ := digits_of_cons hds
  exact nomatch (digit?_plus radix).symm.trans hd

theorem readDigits_zero_eq_ok_iff {radix limit n : Nat} (hradix : 0 < radix) (hlimit : 0 < limit)
    {cs : List Char} (hne : cs ≠ []) :
    readDigits radix limit 0 cs = .ok n ↔ Digits radix cs n ∧ n < limit := by
  rw [readDigits_eq_ok_iff hradix hlimit, digits_iff]
  constructor
  · rintro ⟨ds, hds, hn, hlt⟩
    exact ⟨⟨hne, ds, hds, hn⟩, hlt⟩
  · rintro ⟨⟨-, ds, hds, hn⟩, hlt⟩
    exact ⟨ds, hds, hn, hlt⟩

/-- Reading accepts the written forms of the numbers below the limit, and no other text. -/
theorem read_eq_ok_iff {radix limit n : Nat} (hradix : 0 < radix) (hlimit : 0 < limit)
    {cs : List Char} : read radix limit cs = .ok n ↔ Written radix cs n ∧ n < limit := by
  unfold read
  split
  · constructor
    · intro h
      cases h
    · rintro ⟨h | ⟨digits, h, -⟩, -⟩
      · exact absurd rfl h.ne_nil
      · cases h
  · constructor
    · intro h
      cases h
    · rintro ⟨h | ⟨digits, h, hdigits⟩, -⟩
      · exact absurd h not_digits_plus
      · obtain ⟨-, rfl⟩ := List.cons.inj h
        exact absurd rfl hdigits.ne_nil
  · rename_i cs hne
    have hne' : cs ≠ [] := fun heq => hne (by rw [heq])
    rw [readDigits_zero_eq_ok_iff hradix hlimit hne']
    constructor
    · rintro ⟨h, hlt⟩
      exact ⟨.inr ⟨cs, rfl, h⟩, hlt⟩
    · rintro ⟨h | ⟨digits, h, hdigits⟩, hlt⟩
      · exact absurd h not_digits_plus
      · obtain ⟨-, rfl⟩ := List.cons.inj h
        exact ⟨hdigits, hlt⟩
  · rename_i hnil _ hplus
    rw [readDigits_zero_eq_ok_iff hradix hlimit hnil]
    constructor
    · rintro ⟨h, hlt⟩
      exact ⟨.inl h, hlt⟩
    · rintro ⟨h | ⟨digits, h, -⟩, hlt⟩
      · exact ⟨h, hlt⟩
      · exact absurd h (hplus digits)

end Numeral

end AbstractBits
