import AbstractBits.Interval.Basic
import AbstractBits.Proofs.Construction
import AbstractBits.Proofs.Text.Digits
/-!
# Texts tell intervals apart

A name can be made of the very characters that a text has between its parts, so that a text cannot
be read from its front. But nothing behind a name has an equals sign, and the last one of a text
therefore ends the name; what is behind it is taken apart from its end too. The text of a single
number leaves out the upper bound and the stride, which the normal form of intervals determines.

Results:
  * `parts_of_last_eq` — the parts before and behind the last occurrence of a character.
  * `Layout`, `Layout.unique` — how members are written, and that different members are written
    differently.
  * `label_append_inj`, `body_inj` — the name is found again, and so is everything behind it.
  * `text_eq_iff_identical` — which intervals have the same text.
-/

namespace AbstractBits

namespace Interval

variable {x y : Interval} {r s : Option Progression} {c : Char}
  {cs ds before before' behind behind' : List Char} {name name' : Option String}

/-! ## Taking texts apart -/

/-- A text has one part before and one part behind the last occurrence of a character. Of two
different occurrences, one would stand behind the other. -/
theorem parts_of_last_eq (h : c ∉ behind) (h' : c ∉ behind')
    (heq : before ++ c :: behind = before' ++ c :: behind') :
    before = before' ∧ behind = behind' := by
  rcases List.append_eq_append_iff.1 heq with ⟨between, rfl, hrest⟩ | ⟨between, rfl, hrest⟩
  · cases between with
    | nil => simpa using hrest
    | cons d between =>
      obtain ⟨-, rfl⟩ := List.cons.inj hrest
      simp at h
  · cases between with
    | nil => simpa [eq_comm] using hrest
    | cons d between =>
      obtain ⟨-, rfl⟩ := List.cons.inj hrest
      simp at h'

/-- The characters at which texts are taken apart. -/
def delimiters : List Char := ['=', '<', '>', ',', '/']

theorem no_digit_of_delimiter :
    ∀ c ∈ delimiters, Numeral.digit? 10 c = none ∧ Numeral.digit? 16 c = none ∧
      c ≠ '0' ∧ c ≠ 'x' := by
  simp [delimiters, Numeral.digit?]

theorem not_mem_width (hc : c ∈ delimiters) (bits : Nat) : c ∉ Nat.toDigits 10 bits :=
  Numeral.not_mem_toDigits (by decide) (by decide) (no_digit_of_delimiter c hc).1 bits

theorem not_mem_hexadecimal (hc : c ∈ delimiters) (n : Nat) : c ∉ (hexadecimal n).toList := by
  obtain ⟨-, hdigit, hzero, hx⟩ := no_digit_of_delimiter c hc
  have hdigits := Numeral.not_mem_toDigits (by decide) (by decide) hdigit n
  rw [toList_hexadecimal]
  simp [hzero, hx, hdigits]

/-! ## Members -/

/-- Several members as they are written: the bounds in brackets, and the stride behind them. -/
def severalText (p : Progression) : List Char :=
  ('[' :: (hexadecimal p.lower).toList ++ ',' :: (' ' :: (hexadecimal p.upper).toList ++ [']'])) ++
    '/' :: (hexadecimal p.stride).toList

/-- The three ways in which members are written. -/
inductive Layout : Option Progression → List Char → Prop where
  | nothing : Layout none ['[', ']']
  | single (n : Nat) : Layout (some (.single n)) (hexadecimal n).toList
  | several (p : Progression) : Layout (some p) (severalText p)

/-- A single number in normal form has no other upper bound and no other stride than its layout
says. -/
theorem Valid.layout (hx : x.Valid) : Layout x.range (rangeText x.range).toList := by
  cases hrange : x.range with
  | none => exact .nothing
  | some p =>
    rw [rangeText]
    split
    · rename_i hsingle
      have hlayout := Layout.single p.lower
      rwa [← (hx.normal p hrange).1.eq_single hsingle] at hlayout
    · simpa [severalText, toString] using Layout.several p

/-- Out of normal form, two progressions can be written alike. -/
example : rangeText (some ⟨3, 3, 1⟩) = rangeText (some ⟨3, 3, 0⟩) := rfl

theorem Layout.not_mem (h : Layout r cs) (hc : c = '=' ∨ c = '>') : c ∉ cs := by
  have hdelimiter : c ∈ delimiters := by
    rcases hc with rfl | rfl <;> decide
  cases h with
  | nothing => rcases hc with rfl | rfl <;> decide
  | single n => exact not_mem_hexadecimal hdelimiter n
  | several p => rcases hc with rfl | rfl <;> simp [severalText, not_mem_hexadecimal hdelimiter]

/-- The slash ends the bounds, and the comma the lower one of them. -/
theorem severalText_inj {p q : Progression} (h : severalText p = severalText q) : p = q := by
  have hslash (n : Nat) : '/' ∉ (hexadecimal n).toList := not_mem_hexadecimal (by decide) n
  have hcomma (n : Nat) : ',' ∉ ' ' :: (hexadecimal n).toList ++ [']'] := by
    simp [not_mem_hexadecimal (c := ',') (by decide) n]
  obtain ⟨hbounds, hstride⟩ := parts_of_last_eq (hslash _) (hslash _) h
  obtain ⟨hlower, hupper⟩ := parts_of_last_eq (hcomma _) (hcomma _) hbounds
  have hlower := hexadecimal_inj.1 (List.cons.inj hlower).2
  have hupper := hexadecimal_inj.1 (List.append_cancel_right (List.cons.inj hupper).2)
  have hstride := hexadecimal_inj.1 hstride
  cases p
  cases q
  simp_all

/-- Different members are written differently. Two layouts of different kinds differ in the first or
in the second character. -/
theorem Layout.unique (h : Layout r cs) (h' : Layout s cs) : r = s := by
  generalize heq : cs = ds at h'
  cases h with
  | nothing =>
    cases h' with
    | nothing => rfl
    | single => simp [toList_hexadecimal] at heq
    | several => simp [severalText, toList_hexadecimal] at heq
  | single m =>
    cases h' with
    | nothing => simp [toList_hexadecimal] at heq
    | single n => rw [hexadecimal_inj.1 heq]
    | several => simp [severalText, toList_hexadecimal] at heq
  | several p =>
    cases h' with
    | nothing => simp [severalText, toList_hexadecimal] at heq
    | single => simp [severalText, toList_hexadecimal] at heq
    | several q => rw [severalText_inj heq]

/-! ## What stands before the members -/

/-- The name in front of a text. -/
def label (name : Option String) : List Char := name.elim [] fun name => name.toList ++ ['=']

/-- The mark of a pending byte swap. -/
def swapMark (reversed : Bool) : List Char := if reversed then ['~'] else []

/-- What stands behind the name. -/
def body (x : Interval) : List Char :=
  (swapMark x.reversed ++ '<' :: Nat.toDigits 10 x.bits) ++ '>' :: (rangeText x.range).toList

theorem toList_text (x : Interval) : x.text.toList = label x.name ++ x.body := by
  cases hname : x.name <;> cases hreversed : x.reversed <;>
    simp [text, label, body, swapMark, hname, hreversed, toString]

theorem Valid.equals_not_mem_body (hx : x.Valid) : '=' ∉ x.body := by
  have hmark : '=' ∉ swapMark x.reversed := by
    cases x.reversed <;> decide
  have hwidth : '=' ∉ Nat.toDigits 10 x.bits := not_mem_width (by decide) x.bits
  simp [body, hmark, hwidth, hx.layout.not_mem (.inl rfl)]

/-- The name is found again in front of a text without an equals sign, and so is that there is
none. -/
theorem label_append_inj (h : '=' ∉ behind) (h' : '=' ∉ behind')
    (heq : label name ++ behind = label name' ++ behind') : name = name' ∧ behind = behind' := by
  cases name with
  | none =>
    cases name' with
    | none => exact ⟨rfl, heq⟩
    | some name' =>
      have hnone : behind = label (some name') ++ behind' := heq
      simp [hnone, label] at h
  | some name =>
    cases name' with
    | none =>
      have hnone : label (some name) ++ behind = behind' := heq
      simp [← hnone, label] at h'
    | some name' =>
      simp only [label, Option.elim_some, List.append_assoc, List.singleton_append] at heq
      obtain ⟨hname, hbehind⟩ := parts_of_last_eq h h' heq
      exact ⟨congrArg some (String.toList_inj.1 hname), hbehind⟩

theorem swapMark_inj : ∀ {a b : Bool}, swapMark a = swapMark b → a = b := by
  decide

/-- The width, the members and the pending byte swap are found again. -/
theorem body_inj (hx : x.Valid) (hy : y.Valid) (h : x.body = y.body) :
    x.bits = y.bits ∧ x.range = y.range ∧ x.reversed = y.reversed := by
  obtain ⟨hfront, hmembers⟩ :=
    parts_of_last_eq (hx.layout.not_mem (.inr rfl)) (hy.layout.not_mem (.inr rfl)) h
  have hwidths (bits : Nat) : '<' ∉ Nat.toDigits 10 bits := not_mem_width (by decide) bits
  obtain ⟨hmark, hwidth⟩ := parts_of_last_eq (hwidths _) (hwidths _) hfront
  have hlayout := hy.layout
  rw [← hmembers] at hlayout
  exact ⟨(Numeral.toDigits_inj (by decide) (by decide)).1 hwidth, hx.layout.unique hlayout,
    swapMark_inj hmark⟩

/-! ## Equal texts -/

/-- Intervals that can be built have the same text when they are identical, and only then, whatever
their names are made of. -/
theorem text_eq_iff_identical (hx : Built (.interval x)) (hy : Built (.interval y)) :
    x.text = y.text ↔ x.identical y = true := by
  have hx : x.Valid := hx.valid
  have hy : y.Valid := hy.valid
  rw [identical_iff]
  constructor
  · intro htext
    have hparts : label x.name ++ x.body = label y.name ++ y.body := by
      rw [← toList_text, ← toList_text, htext]
    obtain ⟨hname, hbody⟩ := label_append_inj hx.equals_not_mem_body hy.equals_not_mem_body hparts
    obtain ⟨hbits, hrange, hreversed⟩ := body_inj hx hy hbody
    cases x
    cases y
    simp_all
  · rintro rfl
    rfl

/-- A pending byte swap behind a name is not taken for the end of another name, and an empty name
not for none. -/
theorem texts_of_similar_names_differ :
    text ⟨16, some ⟨256, 512, 256⟩, true, some "<8>=r"⟩ ≠
        text ⟨16, some ⟨256, 512, 256⟩, false, some "<8>=r=~"⟩ ∧
      text ⟨16, some ⟨256, 512, 256⟩, false, some ""⟩ ≠
        text ⟨16, some ⟨256, 512, 256⟩, false, none⟩ := by
  have hpair : Built (.interval ⟨16, some ⟨256, 512, 256⟩, false, none⟩) :=
    .ofBounds (rfl : ofBounds 16 256 256 512 = .ok ⟨16, some ⟨256, 512, 256⟩, false, none⟩)
  have hswapped : Built (.interval ⟨16, some ⟨256, 512, 256⟩, true, none⟩) := .reverse hpair rfl
  constructor
  · intro htext
    have hidentical :=
      (text_eq_iff_identical (.withName hswapped "<8>=r") (.withName hpair "<8>=r=~")).1 htext
    exact absurd hidentical (by decide)
  · intro htext
    have hidentical := (text_eq_iff_identical (.withName hpair "") hpair).1 htext
    exact absurd hidentical (by decide)

end Interval

end AbstractBits
