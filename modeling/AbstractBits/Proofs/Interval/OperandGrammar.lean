import AbstractBits.Interval.Grammar
import AbstractBits.Proofs.Text.Digits
/-!
# Which operands are read

Reading an operand splits it at the first colon, the first slash behind it and the first two dots in
front of that. No number has one of these characters, so that the parts of a written form are found
again. All written forms are read, and nothing else but one: a single number with a stride of 1
behind it, because a stride of 1 is also what a range has whose stride is left out.

Results:
  * `splitOnce_append`, `splitOnce_eq_some` — the parts are found again, and make up the text.
  * `parse_of_operandText`, `parse_of_stridedPoint`, `text_of_parse` — what is read, and what was
    there if it is.
  * `operands_read_iff` — which texts are read beyond the written forms.
-/

namespace AbstractBits

namespace Interval

variable {text : String} {cs before behind number low high step : List Char} {c : Char}
  {bits stride lower upper n : Nat} {x : Interval}

/-! ## Splitting -/

/-- Both parts and the separator make up the text. -/
theorem splitOnce_eq_some {separator : List Char}
    (h : splitOnce separator cs = some (before, behind)) :
    cs = before ++ (separator ++ behind) := by
  induction cs generalizing before with
  | nil =>
    unfold splitOnce at h
    split at h
    · rename_i hempty
      cases h
      rw [List.isEmpty_iff.1 hempty]
      rfl
    · cases h
  | cons c cs ih =>
    unfold splitOnce at h
    split at h
    · rename_i hprefix
      obtain ⟨rest, hrest⟩ := List.isPrefixOf_iff_prefix.1 hprefix
      cases h
      rw [← hrest, List.drop_left, List.nil_append]
    · obtain ⟨⟨front, back⟩, hsplit, heq⟩ := Option.map_eq_some_iff.1 h
      cases heq
      rw [ih hsplit, List.cons_append]

/-- A text without the first character of the separator is the part in front of it. -/
theorem splitOnce_append {separator : List Char} (behind : List Char) (h : c ∉ before) :
    splitOnce (c :: separator) (before ++ (c :: separator ++ behind)) = some (before, behind) := by
  induction before with
  | nil =>
    have hprefix : (c :: separator).isPrefixOf (c :: separator ++ behind) = true :=
      List.isPrefixOf_iff_prefix.2 (List.prefix_append _ _)
    rw [List.nil_append, List.cons_append, splitOnce, ← List.cons_append, if_pos hprefix,
      List.drop_left]
  | cons a before ih =>
    have hne : c ≠ a := List.ne_of_not_mem_cons h
    have hrest : c ∉ before := List.not_mem_of_not_mem_cons h
    have hprefix :
        (c :: separator).isPrefixOf (a :: (before ++ (c :: separator ++ behind))) = false := by
      simp [List.isPrefixOf, hne]
    rw [List.cons_append, splitOnce, hprefix, ih hrest]
    rfl

theorem splitOnce_eq_none {separator : List Char} (h : c ∉ cs) :
    splitOnce (c :: separator) cs = none := by
  induction cs with
  | nil => rfl
  | cons a cs ih =>
    have hne : c ≠ a := List.ne_of_not_mem_cons h
    have hrest : c ∉ cs := List.not_mem_of_not_mem_cons h
    have hprefix : (c :: separator).isPrefixOf (a :: cs) = false := by simp [List.isPrefixOf, hne]
    rw [splitOnce, hprefix, ih hrest]
    rfl

/-! ## Numbers have no separators -/

/-- The characters at which operands are split. -/
def Separates (c : Char) : Prop := c = ':' ∨ c = '/' ∨ c = '.'

theorem Separates.not_mem_written {radix : Nat} (h : Separates c) (hradix : radix ≤ 16)
    (hnumber : Numeral.Written radix cs n) : c ∉ cs := by
  intro hc
  have hall : ∀ r : Fin 17, Numeral.digit? r.val ':' = none ∧ Numeral.digit? r.val '/' = none ∧
      Numeral.digit? r.val '.' = none := by decide
  obtain ⟨hcolon, hslash, hdot⟩ := hall ⟨radix, Nat.lt_succ_of_le hradix⟩
  rcases hnumber.of_mem hc with rfl | ⟨d, hd⟩
  · rcases h with h | h | h <;> cases h
  · rcases h with rfl | rfl | rfl
    · exact nomatch hcolon.symm.trans hd
    · exact nomatch hslash.symm.trans hd
    · exact nomatch hdot.symm.trans hd

theorem Separates.not_mem_number (h : Separates c) (hnumber : NumberText cs n) : c ∉ cs := by
  rcases hnumber.1 with hdecimal | ⟨digits, rfl, hdigits⟩
  · exact h.not_mem_written (by decide) hdecimal
  · have hdigit := h.not_mem_written (Nat.le_refl 16) hdigits
    rcases h with rfl | rfl | rfl <;> simpa using hdigit

theorem Separates.not_mem_width (h : Separates c) (hwidth : WidthText cs bits) : c ∉ cs :=
  h.not_mem_written (by decide) hwidth.1

/-! ## Single numbers with a stride -/

/-- The texts of a single number with a stride behind it, and the interval of the number. -/
inductive StridedPoint (stride : Nat) : List Char → Interval → Prop where
  | intro {width number step : List Char} {bits value : Nat} (hwidth : WidthText width bits)
      (hnumber : NumberText number value) (hstep : NumberText step stride) :
      StridedPoint stride (width ++ ':' :: (number ++ '/' :: step)) (constant bits value)

theorem StridedPoint.slash_mem (h : StridedPoint stride cs x) : '/' ∈ cs := by
  cases h
  simp

theorem StridedPoint.dot_not_mem (h : StridedPoint stride cs x) : '.' ∉ cs := by
  cases h with
  | intro hwidth hnumber hstep =>
    have hdot : Separates '.' := .inr (.inr rfl)
    simp [hdot.not_mem_width hwidth, hdot.not_mem_number hnumber, hdot.not_mem_number hstep]

theorem OperandText.dot_mem_of_slash_mem (h : OperandText cs x) (hslash : '/' ∈ cs) : '.' ∈ cs := by
  have hsep : Separates '/' := .inr (.inl rfl)
  cases h with
  | range => simp
  | strided => simp
  | point hwidth hnumber => simp [hsep.not_mem_width hwidth, hsep.not_mem_number hnumber] at hslash

/-- A single number with a stride is no written form. -/
theorem StridedPoint.not_operandText {y : Interval} (h : StridedPoint stride cs x) :
    ¬OperandText cs y :=
  fun hy => h.dot_not_mem (hy.dot_mem_of_slash_mem h.slash_mem)

/-! ## Reading what is written -/

/-- The width and what stands behind it are found again. -/
theorem parse_of_width (hwidth : WidthText before bits)
    (htext : text.toList = before ++ ':' :: behind)
    (hstride : parseStride behind = .ok (number, stride)) :
    parse text = parseRange text bits stride number := by
  have hlimit : maxBits < twoPow 32 := by decide
  have hsplit : splitOnce [':'] text.toList = some (before, behind) :=
    htext ▸ splitOnce_append behind (Separates.not_mem_width (.inl rfl) hwidth)
  have hbits : parseWidth before = .ok bits :=
    parseWidth_eq_ok_iff.2 ⟨hwidth.1, Nat.lt_of_le_of_lt hwidth.2.2 hlimit⟩
  rw [parse, hsplit]
  dsimp only
  rw [hbits, hstride]
  rfl

theorem parseStride_of_not_mem (h : '/' ∉ cs) : parseStride cs = .ok (cs, 1) := by
  rw [parseStride, splitOnce_eq_none h]

theorem parseStride_append (h : '/' ∉ before) (hstep : NumberText step stride) :
    parseStride (before ++ '/' :: step) = .ok (before, stride) := by
  have hsplit : splitOnce ['/'] (before ++ '/' :: step) = some (before, step) :=
    splitOnce_append step h
  rw [parseStride, hsplit]
  dsimp only
  rw [parseNumber_eq_ok_iff.2 hstep]
  rfl

theorem parseRange_append (hlow : NumberText low lower) (hhigh : NumberText high upper) :
    parseRange text bits stride (low ++ '.' :: '.' :: high) =
      (ofBounds bits stride lower upper).mapError .operation := by
  have hsplit : splitOnce ['.', '.'] (low ++ '.' :: '.' :: high) = some (low, high) :=
    splitOnce_append high (Separates.not_mem_number (.inr (.inr rfl)) hlow)
  rw [parseRange, hsplit]
  dsimp only
  rw [parseNumber_eq_ok_iff.2 hlow, parseNumber_eq_ok_iff.2 hhigh]
  rfl

/-- A single number is refused if a stride other than 1 has been found. -/
theorem parseRange_number (hnumber : NumberText number n) :
    parseRange text bits stride number =
      if stride = 1 then (point bits n).mapError .operation else .error (.strideOfPoint text) := by
  rw [parseRange, splitOnce_eq_none (Separates.not_mem_number (.inr (.inr rfl)) hnumber)]
  dsimp only
  rw [parseNumber_eq_ok_iff.2 hnumber]
  rfl

theorem parse_of_operandText (h : OperandText text.toList x) : parse text = .ok x := by
  have hslash : Separates '/' := .inr (.inl rfl)
  generalize htext : text.toList = cs at h
  cases h with
  | @range _ low high bits lower upper hwidth hlow hhigh ordered =>
    have hnone : '/' ∉ low ++ '.' :: '.' :: high := by
      simp [hslash.not_mem_number hlow, hslash.not_mem_number hhigh]
    rw [parse_of_width hwidth htext (parseStride_of_not_mem hnone), parseRange_append hlow hhigh,
      mapError_eq_ok]
    exact ofBounds_eq_ok.2 ⟨hwidth.2, ordered, rfl⟩
  | @strided width low high step bits lower upper stride hwidth hlow hhigh hstep ordered =>
    have hnone : '/' ∉ low ++ '.' :: '.' :: high := by
      simp [hslash.not_mem_number hlow, hslash.not_mem_number hhigh]
    have htext : text.toList = width ++ ':' :: ((low ++ '.' :: '.' :: high) ++ '/' :: step) := by
      simp [htext]
    rw [parse_of_width hwidth htext (parseStride_append hnone hstep), parseRange_append hlow hhigh,
      mapError_eq_ok]
    exact ofBounds_eq_ok.2 ⟨hwidth.2, ordered, rfl⟩
  | point hwidth hnumber =>
    have hnone := hslash.not_mem_number hnumber
    rw [parse_of_width hwidth htext (parseStride_of_not_mem hnone), parseRange_number hnumber,
      if_pos rfl, mapError_eq_ok]
    exact requireWidth_eq_ok.2 ⟨hwidth.2, rfl⟩

/-- A single number with a stride behind it is read when the stride is 1, which a left out one
counts for too. -/
theorem parse_of_stridedPoint {y : Interval} (h : StridedPoint stride text.toList x) :
    parse text = .ok y ↔ stride = 1 ∧ y = x := by
  generalize htext : text.toList = cs at h
  cases h with
  | intro hwidth hnumber hstep =>
    have hnone := Separates.not_mem_number (.inr (.inl rfl)) hnumber
    rw [parse_of_width hwidth htext (parseStride_append hnone hstep), parseRange_number hnumber]
    split
    · rename_i hone
      rw [mapError_eq_ok, point, requireWidth_eq_ok]
      simp [hone, hwidth.2, eq_comm]
    · rename_i hother
      simp [hother]

/-! ## What has been read -/

theorem parseStride_cases (h : parseStride cs = .ok (before, stride)) :
    (∃ step, cs = before ++ '/' :: step ∧ NumberText step stride) ∨ (before = cs ∧ stride = 1) := by
  unfold parseStride at h
  split at h
  · rename_i range step hsplit
    obtain ⟨n, hstep, heq⟩ := map_eq_ok.1 h
    cases heq
    exact .inl ⟨step, splitOnce_eq_some hsplit, parseNumber_eq_ok_iff.1 hstep⟩
  · cases h
    exact .inr ⟨rfl, rfl⟩

theorem parseRange_cases (h : parseRange text bits stride cs = .ok x) :
    (∃ low high lower upper, cs = low ++ '.' :: '.' :: high ∧ NumberText low lower ∧
      NumberText high upper ∧ ofBounds bits stride lower upper = .ok x) ∨
    (stride = 1 ∧ ∃ value, NumberText cs value ∧ point bits value = .ok x) := by
  unfold parseRange at h
  split at h
  · rename_i low high hsplit
    obtain ⟨lower, hlow, h⟩ := bind_eq_ok.1 h
    obtain ⟨upper, hhigh, h⟩ := bind_eq_ok.1 h
    exact .inl ⟨low, high, lower, upper, splitOnce_eq_some hsplit, parseNumber_eq_ok_iff.1 hlow,
      parseNumber_eq_ok_iff.1 hhigh, mapError_eq_ok.1 h⟩
  · split at h
    · rename_i hone
      obtain ⟨value, hnumber, h⟩ := bind_eq_ok.1 h
      exact .inr ⟨hone, value, parseNumber_eq_ok_iff.1 hnumber, mapError_eq_ok.1 h⟩
    · cases h

theorem parse_cases (h : parse text = .ok x) :
    ∃ width behind bits range stride,
      text.toList = width ++ ':' :: behind ∧ Numeral.Written 10 width bits ∧
      parseStride behind = .ok (range, stride) ∧ parseRange text bits stride range = .ok x := by
  unfold parse at h
  split at h
  · cases h
  · rename_i width behind hsplit
    obtain ⟨bits, hwidth, h⟩ := bind_eq_ok.1 h
    obtain ⟨⟨range, stride⟩, hstride, h⟩ := bind_eq_ok.1 h
    exact ⟨width, behind, bits, range, stride, splitOnce_eq_some hsplit,
      (parseWidth_eq_ok_iff.1 hwidth).1, hstride, h⟩

theorem text_of_parse (h : parse text = .ok x) :
    OperandText text.toList x ∨ StridedPoint 1 text.toList x := by
  obtain ⟨width, behind, bits, range, stride, htext, hwidth, hstride, hrange⟩ := parse_cases h
  rw [htext]
  rcases parseRange_cases hrange with
    ⟨low, high, lower, upper, rfl, hlow, hhigh, hx⟩ | ⟨rfl, value, hnumber, hx⟩
  · obtain ⟨hvalid, ordered, rfl⟩ := ofBounds_eq_ok.1 hx
    rcases parseStride_cases hstride with ⟨step, rfl, hstep⟩ | ⟨rfl, rfl⟩
    · simpa using Or.inl (OperandText.strided ⟨hwidth, hvalid⟩ hlow hhigh hstep ordered)
    · exact .inl (.range ⟨hwidth, hvalid⟩ hlow hhigh ordered)
  · obtain ⟨hvalid, rfl⟩ := requireWidth_eq_ok.1 hx
    rcases parseStride_cases hstride with ⟨step, rfl, hstep⟩ | ⟨rfl, -⟩
    · exact .inr (.intro ⟨hwidth, hvalid⟩ hnumber hstep)
    · exact .inl (.point ⟨hwidth, hvalid⟩ hnumber)

/-- The texts that are read are the written forms and single numbers with a stride of 1, which are
no written form; single numbers with another stride are refused. -/
theorem operands_read_iff (text : String) :
    (∀ x, parse text = .ok x ↔ OperandText text.toList x ∨ StridedPoint 1 text.toList x) ∧
    (((∃ x, parse text = .ok x) ↔ ∃ x, OperandText text.toList x) ↔ ¬∃ x,
      StridedPoint 1 text.toList x) ∧
    ∀ stride x, StridedPoint stride text.toList x → ((∃ y, parse text = .ok y) ↔ stride = 1) := by
  have hread (x : Interval) :
      parse text = .ok x ↔ OperandText text.toList x ∨ StridedPoint 1 text.toList x :=
    ⟨text_of_parse, fun h =>
      h.elim parse_of_operandText fun h => (parse_of_stridedPoint h).2 ⟨rfl, rfl⟩⟩
  refine ⟨hread, ?_, ?_⟩
  · constructor
    · rintro heq ⟨x, hx⟩
      obtain ⟨y, hy⟩ := heq.1 ⟨x, (hread x).2 (.inr hx)⟩
      exact hx.not_operandText hy
    · intro hnot
      constructor
      · rintro ⟨x, hx⟩
        exact ⟨x, ((hread x).1 hx).resolve_right fun h => hnot ⟨x, h⟩⟩
      · rintro ⟨x, hx⟩
        exact ⟨x, (hread x).2 (.inl hx)⟩
  · intro stride x hx
    constructor
    · rintro ⟨y, hy⟩
      exact ((parse_of_stridedPoint hx).1 hy).1
    · rintro rfl
      exact ⟨x, (parse_of_stridedPoint hx).2 ⟨rfl, rfl⟩⟩

/-- A stride of 2 behind a single number is refused. -/
theorem stride_two_of_point_refused : ¬∃ x, parse "8:5/2" = .ok x := by
  have hwidth : WidthText ['8'] 8 := ⟨.inl (.one rfl), by decide⟩
  have hnumber : NumberText ['5'] 5 := ⟨.inl (.inl (.one rfl)), by decide⟩
  have hstep : NumberText ['2'] 2 := ⟨.inl (.inl (.one rfl)), by decide⟩
  have hpoint : StridedPoint 2 "8:5/2".toList (constant 8 5) := .intro hwidth hnumber hstep
  rw [(operands_read_iff "8:5/2").2.2 2 (constant 8 5) hpoint]
  decide

/-- A stride of 1 behind a single number is not noticed. -/
theorem unit_stride_of_point_read :
    ¬∀ text, ((∃ x, parse text = .ok x) ↔ ∃ x, OperandText text.toList x) ∧
      ∀ stride x, StridedPoint stride text.toList x → ¬∃ y, parse text = .ok y := by
  intro h
  have hparse : parse "8:5/1" = .ok (constant 8 5) := rfl
  obtain ⟨x, hx⟩ := (h "8:5/1").1.1 ⟨_, hparse⟩
  have hdot := hx.dot_mem_of_slash_mem (by decide)
  exact absurd hdot (by decide)

end Interval

end AbstractBits
