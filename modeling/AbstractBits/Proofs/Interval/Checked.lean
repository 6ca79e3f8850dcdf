import AbstractBits.Interval.Checked
import AbstractBits.Proofs.Construction
import AbstractBits.Proofs.Progression.Checked
/-!
# Intervals without a step that is not defined

No operation on intervals that can occur takes a step that is not defined: no sum, product or
difference leaves its word, nothing is divided by 0, no shift is too long or loses a bit that it has
to keep, and a neighbour in a class is only asked for from the base on. Together with their answers
this is said of all operations at once.

Results:
  * `checkedSwap_eq` — the bytes of a number, exchanged within the word.
  * `checkedCombine_eq`, `checkedImage_eq`, `checkedProduct_eq` — what the operations have in
    common.
  * `Call.all_steps_defined` — every call on intervals that can occur.
-/

namespace AbstractBits

/-! ## Bytes -/

theorem reverseBytes_zero (count : Nat) : reverseBytes count 0 = 0 := by
  induction count with
  | zero => rfl
  | succ count ih => rw [reverseBytes, ih, Nat.zero_mod, Nat.zero_mul]

/-- Bytes above a number end up below it when all are exchanged. -/
theorem reverseBytes_add {count v : Nat} (above : Nat) (hv : v < twoPow (8 * count)) :
    reverseBytes (count + above) v = reverseBytes count v * twoPow (8 * above) := by
  induction count generalizing v with
  | zero =>
    have hzero : v = 0 := Nat.lt_one_iff.1 hv
    rw [hzero, reverseBytes_zero, reverseBytes_zero, Nat.zero_mul]
  | succ count ih =>
    rw [Nat.succ_add, reverseBytes, reverseBytes, ih (div_lt_of_lt_bytes hv), Nat.mul_add,
      twoPow_add, Nat.add_mul, Nat.mul_assoc]

namespace Interval

variable {x y : Interval} {bits v : Nat}

theorem checkedSwap_eq (width : ValidWidth bits) (bytes : bits % 8 = 0) (hv : v < twoPow bits) :
    checkedSwap bits v = .ok (.ok (byteReversed bits v)) := by
  have hcount : 8 * (bits / 8) = bits := by omega
  have habove : bits / 8 + (16 - bits / 8) = 16 := by
    have := width.2
    unfold maxBits at this
    omega
  have hshift : 8 * (16 - bits / 8) = maxBits - bits := by
    unfold maxBits
    omega
  have hall : reverseBytes 16 v = byteReversed bits v * twoPow (maxBits - bits) := by
    rw [byteReversed, if_pos bytes, ← hshift, ← reverseBytes_add _ (hcount.symm ▸ hv), habove]
  rw [checkedSwap, Checked.rem_of_pos (by decide), Checked.ok_bind, if_neg (not_not_intro bytes),
    Checked.sub_of_le width.2, Checked.ok_bind, Checked.shr_of_lt (Nat.sub_lt (by decide) width.1),
    Checked.ok_bind, hall, Nat.mul_div_cancel _ (twoPow_pos _)]
  rfl

theorem checkedSwap_of_partial (bytes : bits % 8 ≠ 0) :
    checkedSwap bits v = .ok (.error (.partialBytes bits)) := by
  rw [checkedSwap, Checked.rem_of_pos (by decide), Checked.ok_bind, if_pos bytes]
  rfl

theorem checkedReverse_eq (hx : x.Valid) : x.checkedReverse = .ok x.reverse := by
  unfold checkedReverse reverse
  cases hrange : x.range with
  | none => rfl
  | some p =>
    dsimp only
    split
    · rfl
    · by_cases bytes : x.bits % 8 = 0
      · rw [if_neg (not_not_intro bytes)]
        split
        · have hlower : p.lower < twoPow x.bits :=
            (le_allOnes_iff hx.width).1 (Nat.le_trans (hx.fits hrange).1.1 (hx.fits hrange).2)
          rw [checkedSwap_eq hx.width bytes hlower, Checked.ok_bind]
          dsimp only
          rw [Progression.checkedConstant_eq, Checked.ok_bind]
          rfl
        · rw [Checked.rem_of_pos (by decide), Checked.ok_bind, if_neg (not_not_intro bytes)]
          rfl
      · rw [if_pos bytes]
        split
        · rw [checkedSwap_of_partial bytes, Checked.ok_bind]
          rfl
        · rw [Checked.rem_of_pos (by decide), Checked.ok_bind, if_pos bytes]
          rfl

/-! ## Construction and questions -/

theorem checkedCover_eq (x : Interval) : x.checkedCover = .ok x.cover := by
  unfold checkedCover cover
  split
  · rw [Progression.checkedWhole_eq, Checked.ok_bind]
    rfl
  · rfl

theorem checkedOfBounds_eq (bits stride lower upper : Nat) :
    checkedOfBounds bits stride lower upper = .ok (ofBounds bits stride lower upper) := by
  unfold checkedOfBounds ofBounds
  split
  · rw [Checked.truncate_eq, Checked.ok_bind, Checked.truncate_eq, Checked.ok_bind]
    dsimp only
    split
    · rfl
    · rename_i hle
      rw [Progression.checkedBetween_eq _ (Nat.not_lt.1 hle), Checked.ok_bind]
      rfl
  · rfl

theorem checkedSize_eq (hx : x.Valid) : x.checkedSize = .ok x.size := by
  unfold checkedSize size
  cases hrange : x.range with
  | none => rfl
  | some p => exact Progression.checkedSize_eq (hx.fits hrange).1

theorem checkedContains_eq (hx : x.Valid) (v : Nat) : x.checkedContains v = .ok (x.contains v) := by
  rw [checkedContains, checkedCover_eq, Checked.ok_bind, contains]
  cases hrange : x.cover.range with
  | none => rfl
  | some p => exact Progression.checkedMem_eq (fits_cover hx p hrange).1 v

/-- A pending byte swap is only of numbers of whole bytes, which have one each. -/
theorem checkedSample_eq (hx : x.Valid) (n : Nat) : x.checkedSample n = .ok (x.sample n) := by
  rw [checkedSample, sample]
  cases hrange : x.range with
  | none => cases x.reversed <;> rfl
  | some p =>
    have hp := hx.fits hrange
    dsimp only [Option.elim_some]
    rw [Progression.checkedSample_eq hp, Checked.ok_bind]
    split
    · rename_i hrev
      refine mapM_eq_map fun v hv => ?_
      rw [Progression.sample_eq_take] at hv
      have hmem := (Progression.mem_members hp.1).1 (List.mem_of_mem_take hv)
      rw [checkedSwap_eq hx.width (hx.pending hrev).1 (hp.lt_twoPow hx.width hmem), Checked.ok_bind]
      rfl
    · rfl

/-! ## Combining and comparing -/

theorem checkedSameWidth_eq {α : Type} {left right : Nat} {steps : Checked α} {result : α}
    (h : left = right → steps = .ok result) :
    checkedSameWidth left right steps = .ok (requireSameWidth left right result) := by
  unfold checkedSameWidth requireSameWidth
  split
  · rename_i heq
    rw [h heq, Checked.ok_bind]
    rfl
  · rfl

section

variable {k : Kept} {op : Option Progression → Option Progression → Option Progression}
  {steps : Option Progression → Option Progression → Checked (Option Progression)}

/-- The steps of an operation on the members of a width that are all defined. -/
def Defined (bits : Nat)
    (steps : Option Progression → Option Progression → Checked (Option Progression))
    (op : Option Progression → Option Progression → Option Progression) : Prop :=
  ∀ P Q : Option Progression, (∀ p ∈ P, p.Fits bits) → (∀ q ∈ Q, q.Fits bits) →
    steps P Q = .ok (op P Q)

theorem checkedCombine_eq (hx : x.Valid) (hy : y.Valid) (hbits : x.bits = y.bits)
    (keeps : Keeps k x.bits op) (defined : Defined x.bits steps op) :
    checkedCombine steps x y = .ok (combine op x y) := by
  unfold checkedCombine combine
  split
  · have hstored : ∀ q ∈ y.range, q.Fits x.bits := hbits ▸ hy.normal
    have hvalid : (ofRange x.bits (op x.range y.range)).Valid :=
      valid_ofRange_of hx.width (keeps.fits _ _ hx.normal hstored)
    rw [defined _ _ hx.normal hstored, Checked.ok_bind]
    dsimp only
    rw [checkedReverse_eq hvalid, Checked.ok_bind, reverseOrWhole]
    cases (ofRange x.bits (op x.range y.range)).reverse with
    | ok z => rfl
    | error cause =>
      dsimp only
      rw [Progression.checkedWhole_eq, Checked.ok_bind]
      rfl
  · rw [checkedCover_eq, Checked.ok_bind, checkedCover_eq, Checked.ok_bind,
      defined _ _ (fits_cover hx) (hbits ▸ fits_cover hy), Checked.ok_bind]
    rfl

theorem defined_merge {f : Progression → Progression → Checked Progression}
    {g : Progression → Progression → Progression}
    (h : ∀ p q : Progression, p.Fits bits → q.Fits bits → f p q = .ok (g p q)) :
    Defined bits (checkedMerge f) (Option.merge g) := by
  intro P Q hP hQ
  cases P with
  | none => cases Q <;> rfl
  | some p =>
    cases Q with
    | none => rfl
    | some q =>
      rw [checkedMerge, h p q (hP p rfl) (hQ q rfl), Checked.ok_bind]
      rfl

theorem defined_meet (bits : Nat) :
    Defined bits (checkedPairs Progression.checkedMeet) fun P Q =>
      P.bind fun p => Q.bind fun q => p.meet q := by
  intro P Q hP hQ
  cases P with
  | none => rfl
  | some p =>
    cases Q with
    | none => rfl
    | some q => exact Progression.checkedMeet_eq (hP p rfl) (hQ q rfl)

end

theorem checkedUnion_eq (hx : x.Valid) (hy : y.Valid) : x.checkedUnion y = .ok (x.union y) :=
  checkedSameWidth_eq fun hbits =>
    checkedCombine_eq hx hy hbits (keeps_merge (Progression.extends_join x.bits))
      (defined_merge fun _ _ hp _ => Progression.checkedJoin_eq hp.1)

theorem checkedIntersection_eq (hx : x.Valid) (hy : y.Valid) :
    x.checkedIntersection y = .ok (x.intersection y) :=
  checkedSameWidth_eq fun hbits =>
    checkedCombine_eq hx hy hbits (keeps_meet x.bits) (defined_meet x.bits)

theorem checkedWiden_eq (hx : x.Valid) (hy : y.Valid) : x.checkedWiden y = .ok (x.widen y) :=
  checkedSameWidth_eq fun hbits =>
    checkedCombine_eq hx hy hbits (keeps_merge (Progression.extends_widen x.bits))
      (defined_merge fun _ _ hp hq => Progression.checkedWiden_eq hp hq)

theorem checkedVerdict_eq (c : Comparison) (hx : x.Valid) (hy : y.Valid) :
    checkedVerdict c x y = .ok (verdict c x y) := by
  rw [checkedVerdict, verdict, checkedCover_eq, Checked.ok_bind, checkedCover_eq, Checked.ok_bind]
  cases hp : x.cover.range with
  | none => rfl
  | some p =>
    cases hq : y.cover.range with
    | none => rfl
    | some q =>
      dsimp only
      rw [Progression.checkedBounds_eq hx.width _ (fits_cover hx p hp), Checked.ok_bind,
        Progression.checkedBounds_eq hy.width _ (fits_cover hy q hq), Checked.ok_bind]
      rfl

theorem checkedCompare_eq (c : Comparison) (hx : x.Valid) (hy : y.Valid) :
    checkedCompare c x y = .ok (x.compare c y) :=
  checkedSameWidth_eq fun _ => checkedVerdict_eq c hx hy

/-! ## Bit operations -/

theorem checkedImage_eq {f : Progression → Checked Progression} {g : Progression → Progression}
    (hx : x.Valid) (h : ∀ p : Progression, p.Fits x.bits → f p = .ok (g p)) :
    checkedImage bits f x = .ok (image bits g x) := by
  rw [checkedImage, image, checkedCover_eq, Checked.ok_bind]
  cases hrange : x.cover.range with
  | none => rfl
  | some p =>
    dsimp only
    rw [h p (fits_cover hx p hrange), Checked.ok_bind]
    rfl

theorem checkedExtract_eq (hx : x.Valid) (high low : Nat) :
    x.checkedExtract high low = .ok (x.extract high low) := by
  unfold checkedExtract extract
  split
  · rename_i field
    have hwidth := validWidth_field hx.width field
    have hsum : high - low + 1 < twoPow Checked.positionBits :=
      Nat.lt_of_le_of_lt hwidth.2 (by decide)
    have hfield : low + (high - low + 1) ≤ x.bits := by
      obtain ⟨hle, hlt⟩ := field
      omega
    rw [Checked.sub_of_le field.1, Checked.ok_bind, Checked.add_of_lt hsum, Checked.ok_bind,
      checkedImage_eq hx fun p hp =>
        Progression.checkedField_eq hx.width hwidth hfield hp, Checked.ok_bind]
    rfl
  · rfl

theorem checkedProduct_eq {f : Progression → Progression → Checked Progression}
    {g : Progression → Progression → Progression} (hx : x.Valid) (hy : y.Valid)
    (h : ∀ p q : Progression, p.Fits x.bits → q.Fits y.bits → f p q = .ok (g p q)) :
    checkedProduct bits f x y =
      .ok (ofRange bits (x.cover.range.bind fun p => y.cover.range.map fun q => g p q)) := by
  rw [checkedProduct, checkedCover_eq, Checked.ok_bind, checkedCover_eq, Checked.ok_bind]
  cases hp : x.cover.range with
  | none => rfl
  | some p =>
    cases hq : y.cover.range with
    | none => rfl
    | some q =>
      rw [checkedPairs, h p q (fits_cover hx p hp) (fits_cover hy q hq), Checked.ok_bind]
      rfl

theorem checkedConcat_eq (hx : x.Valid) (hy : y.Valid) : x.checkedConcat y = .ok (x.concat y) := by
  have hsum : x.bits + y.bits < twoPow Checked.positionBits :=
    Nat.lt_of_le_of_lt (Nat.add_le_add hx.width.2 hy.width.2) (by decide)
  rw [checkedConcat, concat, requireWidth, Checked.add_of_lt hsum, Checked.ok_bind]
  split
  · rename_i total
    rw [checkedProduct_eq hx hy fun p q hp hq =>
      Progression.checkedAppend_eq hx.width hy.width total.2 hp hq, Checked.ok_bind]
    rfl
  · rfl

theorem checkedZeroExtend_eq (hx : x.Valid) (total : Nat) :
    x.checkedZeroExtend total = .ok (x.zeroExtend total) := by
  unfold checkedZeroExtend checkedExtension zeroExtend
  split
  · rw [checkedImage_eq (g := id) hx fun p hp => ?normal, Checked.ok_bind]
    · rfl
    · rw [Progression.checkedBetween_eq _ hp.1.1, Progression.between_eq_self hp.1]
      rfl
  · rfl

theorem checkedSignExtend_eq (hx : x.Valid) (total : Nat) :
    x.checkedSignExtend total = .ok (x.signExtend total) := by
  unfold checkedSignExtend checkedExtension signExtend
  split
  · rename_i extension
    rw [checkedImage_eq hx fun p hp =>
      Progression.checkedSignExtend_eq hx.width extension.2 extension.1.2 hp, Checked.ok_bind]
    rfl
  · rfl

theorem checkedShiftRight_eq (hx : x.Valid) (hy : y.Valid) :
    x.checkedShiftRight y = .ok (x.shiftRight y) :=
  checkedProduct_eq hx hy fun _ _ hp hq => Progression.checkedShiftRight_eq hx.width hp hq.1

/-! ## Calls -/

namespace Call

/-- The intervals that a call works on can occur. -/
def OnBuilt {α : Type} : Call α → Prop
  | ofBounds .. => True
  | union x y | intersection x y | widen x y | compare _ x y | concat x y | shiftRight x y =>
    Built (.interval x) ∧ Built (.interval y)
  | extract _ _ x | zeroExtend _ x | signExtend _ x | reverse x
  | contains x _ | size x | sample x _ =>
    Built (.interval x)

/-- Every call on intervals that can occur ends with its answer. None of its steps is undefined: no
sum, product or difference leaves its word, no divisor is 0, no shift is too long or loses a bit
that it has to keep, and every neighbour in a class is looked for from the base on. -/
theorem all_steps_defined {α : Type} (call : Call α) (built : call.OnBuilt) :
    call.steps = .ok call.answer := by
  cases call with
  | ofBounds bits stride lower upper => exact checkedOfBounds_eq bits stride lower upper
  | union x y => exact checkedUnion_eq built.1.valid built.2.valid
  | intersection x y => exact checkedIntersection_eq built.1.valid built.2.valid
  | widen x y => exact checkedWiden_eq built.1.valid built.2.valid
  | compare c x y => exact checkedCompare_eq c built.1.valid built.2.valid
  | extract high low x => exact checkedExtract_eq built.valid high low
  | concat high low => exact checkedConcat_eq built.1.valid built.2.valid
  | zeroExtend total x => exact checkedZeroExtend_eq built.valid total
  | signExtend total x => exact checkedSignExtend_eq built.valid total
  | shiftRight x amount => exact checkedShiftRight_eq built.1.valid built.2.valid
  | reverse x => exact checkedReverse_eq built.valid
  | contains x value => exact checkedContains_eq built.valid value
  | size x => exact checkedSize_eq built.valid
  | sample x n => exact checkedSample_eq built.valid n

/-- Joining two words of 64 bits into one of 128, and the sign of a single bit. -/
theorem steps_of_extreme_widths :
    (concat (whole 64) (whole 64)).OnBuilt ∧
      (concat (whole 64) (whole 64)).steps = .ok (.ok (whole 128)) ∧
      (compare ⟨true, .lt⟩ (whole 1) (constant 1 1)).OnBuilt ∧
      (compare ⟨true, .lt⟩ (whole 1) (constant 1 1)).steps = .ok (.ok .never) := by
  have hword : Built (.interval (whole 64)) := (Built.exists_of_validWidth (by decide)).1
  have hbit : Built (.interval (whole 1)) := (Built.exists_of_validWidth (by decide)).1
  have hone : Built (.interval (constant 1 1)) := .point (rfl : point 1 1 = .ok (constant 1 1))
  exact ⟨⟨hword, hword⟩, all_steps_defined (concat (whole 64) (whole 64)) ⟨hword, hword⟩,
    ⟨hbit, hone⟩, all_steps_defined (compare ⟨true, .lt⟩ (whole 1) (constant 1 1)) ⟨hbit, hone⟩⟩

end Call

end Interval

end AbstractBits
