import AbstractBits.Denotation
import AbstractBits.Proofs.Progression.Lattice
/-!
# Byte-swapped intervals

A byte swap of an interval, carried out or left pending, stands for the byte-swapped numbers, and
giving a pending byte swap up stands for more.

Results:
  * `byteReversed_byteReversed` — a second byte swap undoes the first.
  * `denotes_reverse` — a reversed interval stands for exactly the byte-swapped numbers.
  * `mem_cover` — the cover of an interval has all its numbers as members.
  * `reverseOrWhole_reverseOrWhole` — a second reversal of an interval undoes the first.
-/

namespace AbstractBits

/-! ## Byte swaps of numbers -/

theorem byteReversed_byteReversed {bits v : Nat} (bytes : bits % 8 = 0) (h : v < twoPow bits) :
    byteReversed bits (byteReversed bits v) = v := by
  have hbits : 8 * (bits / 8) = bits := by omega
  rw [byteReversed, byteReversed, if_pos bytes, if_pos bytes]
  exact reverseBytes_reverseBytes _ _ (hbits.symm ▸ h)

/-- A single byte has one order. -/
theorem byteReversed_eight {v : Nat} (h : v < twoPow 8) : byteReversed 8 v = v := by
  have h256 : v < 256 := h
  rw [byteReversed, if_pos (by decide)]
  change v % 256 * 1 + 0 = v
  omega

theorem truncate_of_lt {bits v : Nat} (width : ValidWidth bits) (h : v < twoPow bits) :
    truncate bits v = v := by
  rw [truncate, modulus_of_valid width, Nat.mod_eq_of_lt h]

namespace Interval

/-! ## Valid intervals -/

theorem valid_ofRange_of {bits : Nat} {range : Option Progression} (width : ValidWidth bits)
    (h : ∀ p ∈ range, p.Fits bits) : (ofRange bits range).Valid where
  width := width
  normal := h
  pending := by simp [ofRange]

theorem valid_unnamed {x : Interval} (valid : x.Valid) : x.unnamed.Valid :=
  ⟨valid.width, valid.normal, valid.pending⟩

theorem valid_withName {x : Interval} (valid : x.Valid) (name : String) : (x.withName name).Valid :=
  ⟨valid.width, valid.normal, valid.pending⟩

theorem valid_stored {x : Interval} (valid : x.Valid) : x.stored.Valid :=
  valid_ofRange_of valid.width valid.normal

/-- A progression of several members of several bytes can have a byte swap pending. -/
theorem valid_pending {bits : Nat} {p : Progression} (width : ValidWidth bits) (hp : p.Fits bits)
    (bytes : bits % 8 = 0) (several : bits ≠ 8) (hne : p.lower ≠ p.upper) :
    (⟨bits, some p, true, none⟩ : Interval).Valid where
  width := width
  normal := by
    intro q hq
    cases hq
    exact hp
  pending := fun _ => ⟨bytes, several, p, rfl, hne⟩

theorem Valid.fits {x : Interval} (valid : x.Valid) {p : Progression} (h : x.range = some p) :
    p.Fits x.bits :=
  valid.normal p h

theorem exists_range_of_nonempty {x : Interval} (h : x.isEmpty = false) :
    ∃ p, x.range = some p := by
  cases hrange : x.range with
  | none => simp [isEmpty, hrange] at h
  | some p => exact ⟨p, rfl⟩

/-- A byte swap is only ever pending on several members. -/
theorem Valid.ends_ne {x : Interval} (valid : x.Valid) (hrev : x.reversed = true) {p : Progression}
    (hrange : x.range = some p) : p.lower ≠ p.upper := by
  obtain ⟨-, -, q, hq, hne⟩ := valid.pending hrev
  rw [Option.mem_def, hrange, Option.some.injEq] at hq
  exact hq ▸ hne

theorem Valid.reversed_of_isEmpty {x : Interval} (valid : x.Valid) (hempty : x.isEmpty = true) :
    x.reversed = false := by
  cases hrev : x.reversed with
  | false => rfl
  | true =>
    obtain ⟨-, -, p, hp, -⟩ := valid.pending hrev
    rw [Option.mem_def] at hp
    simp [isEmpty, hp] at hempty

/-- The numbers of a valid interval are numbers of its width. -/
theorem Valid.lt_twoPow {x : Interval} (valid : x.Valid) {v : Nat} (h : x.Denotes v) :
    v < twoPow x.bits :=
  (le_allOnes_iff valid.width).1 (valid.le_allOnes h)

theorem denotes_of_range {x : Interval} {p : Progression} (hrange : x.range = some p) {v : Nat} :
    x.Denotes v ↔ ∃ u ∈ p, v = x.shown u := by
  simp [Denotes, hrange]

theorem not_denotes_of_range_none {x : Interval} (hrange : x.range = none) (v : Nat) :
    ¬x.Denotes v := by
  simp [Denotes, hrange]

theorem denotes_stored {x : Interval} {v : Nat} : x.stored.Denotes v ↔ ∃ p ∈ x.range, v ∈ p :=
  denotes_ofRange

/-- The numbers behind a pending byte swap are the stored ones, byte-swapped. -/
theorem Valid.denotes_reversed {x : Interval} (valid : x.Valid) (hrev : x.reversed = true)
    {v : Nat} : x.Denotes v ↔ v < twoPow x.bits ∧ x.stored.Denotes (byteReversed x.bits v) := by
  have bytes := (valid.pending hrev).1
  rw [denotes_stored]
  constructor
  · rintro ⟨p, hp, u, hu, rfl⟩
    have hlt := (le_allOnes_iff valid.width).1 (Nat.le_trans hu.2.1 (valid.normal p hp).2)
    rw [shown, if_pos hrev, byteReversed_byteReversed bytes hlt]
    exact ⟨byteReversed_lt bytes u, p, hp, hu⟩
  · rintro ⟨hlt, p, hp, hmem⟩
    refine ⟨p, hp, _, hmem, ?_⟩
    rw [shown, if_pos hrev, byteReversed_byteReversed bytes hlt]

theorem denotes_of_not_reversed {x : Interval} (hrev : x.reversed = false) {v : Nat} :
    x.Denotes v ↔ x.stored.Denotes v := by
  rw [denotes_stored]
  simp [Denotes, shown, hrev]

theorem denotes_of_reversed {x : Interval} (hrev : x.reversed = true) {v : Nat} :
    x.Denotes v ↔ ∃ u, x.stored.Denotes u ∧ v = byteReversed x.bits u := by
  have hshown (u : Nat) : x.shown u = byteReversed x.bits u := if_pos hrev
  constructor
  · rintro ⟨p, hp, u, hu, rfl⟩
    exact ⟨u, denotes_stored.2 ⟨p, hp, hu⟩, hshown u⟩
  · rintro ⟨u, hu, rfl⟩
    obtain ⟨p, hp, hmem⟩ := denotes_stored.1 hu
    exact ⟨p, hp, u, hmem, (hshown u).symm⟩

/-! ## Covers -/

@[simp] theorem bits_cover (x : Interval) : x.cover.bits = x.bits := by
  unfold cover
  split <;> rfl

theorem reversed_cover (x : Interval) : x.cover.reversed = false := by
  unfold cover
  split
  · rfl
  · rename_i hrev
    simpa using hrev

theorem cover_of_not_reversed {x : Interval} (hrev : x.reversed = false) : x.cover = x := by
  simp [cover, hrev]

theorem cover_of_reversed {x : Interval} (hrev : x.reversed = true) : x.cover = whole x.bits := by
  simp [cover, hrev]

theorem cover_cover (x : Interval) : x.cover.cover = x.cover :=
  cover_of_not_reversed (reversed_cover x)

theorem isEmpty_cover {x : Interval} (valid : x.Valid) : x.cover.isEmpty = x.isEmpty := by
  unfold cover
  split
  · rename_i hrev
    obtain ⟨-, -, p, hrange, -⟩ := valid.pending hrev
    rw [Option.mem_def] at hrange
    simp [isEmpty, hrange, whole, ofRange]
  · rfl

theorem valid_cover {x : Interval} (valid : x.Valid) : x.cover.Valid := by
  unfold cover
  split
  · exact valid_whole valid.width
  · exact valid

theorem fits_cover {x : Interval} (valid : x.Valid) : ∀ p ∈ x.cover.range, p.Fits x.bits := by
  have h := (valid_cover valid).normal
  rwa [bits_cover] at h

/-- Without its pending byte swap an interval has all its numbers as members. -/
theorem mem_cover {x : Interval} (valid : x.Valid) {v : Nat} (h : x.Denotes v) :
    ∃ p ∈ x.cover.range, v ∈ p :=
  denotes_stored.1 ((denotes_of_not_reversed (reversed_cover x)).1 (denotes_cover valid h))

/-! ## Reversal -/

theorem exists_reverse {x : Interval} (bytes : x.bits % 8 = 0) : ∃ y, x.reverse = .ok y := by
  unfold reverse
  split
  · exact ⟨_, rfl⟩
  · rw [if_neg (not_not_intro bytes)]
    split
    · exact ⟨_, rfl⟩
    · split <;> exact ⟨_, rfl⟩

/-- What reversal makes of an interval with members. -/
inductive Reversal (x : Interval) (p : Progression) : Interval → Prop
  | byte (h : x.bits = 8) : Reversal x p x.unnamed
  | single (bytes : x.bits % 8 = 0) (h : p.isSingle = true) :
      Reversal x p (constant x.bits (byteReversed x.bits p.lower))
  | pending (bytes : x.bits % 8 = 0) (several : x.bits ≠ 8) (h : p.isSingle = false) :
      Reversal x p { x.unnamed with reversed := !x.reversed }

theorem reversal_of_reverse {x y : Interval} {p : Progression} (hrange : x.range = some p)
    (h : x.reverse = .ok y) : Reversal x p y := by
  unfold reverse at h
  rw [hrange] at h
  simp only at h
  split at h
  · rename_i hbyte
    cases h
    exact .byte hbyte
  rename_i hseveral
  split at h
  · cases h
  rename_i hbytes
  have bytes : x.bits % 8 = 0 := by simpa using hbytes
  split at h <;> cases h
  · exact .single bytes ‹_›
  · rename_i hsingle
    exact .pending bytes hseveral (by simpa using hsingle)

theorem eq_unnamed_of_reverse {x y : Interval} (hrange : x.range = none) (h : x.reverse = .ok y) :
    y = x.unnamed := by
  unfold reverse at h
  rw [hrange] at h
  cases h
  rfl

theorem bits_reverse {x y : Interval} (h : x.reverse = .ok y) : y.bits = x.bits := by
  cases hrange : x.range with
  | none =>
    rw [eq_unnamed_of_reverse hrange h]
    rfl
  | some p => cases reversal_of_reverse hrange h <;> rfl

theorem valid_reverse {x y : Interval} (valid : x.Valid) (h : x.reverse = .ok y) : y.Valid := by
  cases hrange : x.range with
  | none =>
    rw [eq_unnamed_of_reverse hrange h]
    exact valid_unnamed valid
  | some p =>
    cases reversal_of_reverse hrange h with
    | byte => exact valid_unnamed valid
    | single => exact valid_constant valid.width _
    | pending bytes several hsingle =>
      refine ⟨valid.width, valid.normal, fun _ => ⟨bytes, several, p, hrange, ?_⟩⟩
      simpa [Progression.isSingle] using hsingle

theorem byteReversed_of_byte {x : Interval} {u : Nat} (valid : x.Valid) (hbyte : x.bits = 8)
    (hu : x.Denotes u) : byteReversed x.bits u = u := by
  rw [hbyte]
  exact byteReversed_eight (hbyte ▸ valid.lt_twoPow hu)

/-- The byte swap of a single number is never pending. -/
theorem Valid.reversed_of_single {x : Interval} {p : Progression} (valid : x.Valid)
    (hrange : x.range = some p) (hsingle : p.isSingle = true) : x.reversed = false := by
  cases hrev : x.reversed with
  | false => rfl
  | true => exact absurd (by simpa [Progression.isSingle] using hsingle) (valid.ends_ne hrev hrange)

/-- A byte swap that becomes pending, or cancels a pending one, swaps all numbers. -/
theorem denotes_flip {x : Interval} {p : Progression} {v : Nat} (valid : x.Valid)
    (bytes : x.bits % 8 = 0) (hrange : x.range = some p) :
    Denotes { x.unnamed with reversed := !x.reversed } v ↔
    ∃ u, x.Denotes u ∧ v = byteReversed x.bits u := by
  have hflip : Denotes { x.unnamed with reversed := !x.reversed } v ↔
      ∃ u ∈ p, v = if x.reversed then u else byteReversed x.bits u := by
    rw [denotes_of_range (x := { x.unnamed with reversed := !x.reversed }) hrange]
    cases hrev : x.reversed <;> simp [shown, unnamed, hrev]
  rw [hflip]
  simp only [denotes_of_range hrange, shown]
  cases x.reversed with
  | false => simp
  | true =>
    have hcancel {u : Nat} (hu : u ∈ p) : byteReversed x.bits (byteReversed x.bits u) = u :=
      byteReversed_byteReversed bytes
        ((le_allOnes_iff valid.width).1 (Nat.le_trans hu.2.1 (valid.fits hrange).2))
    constructor
    · rintro ⟨u, hu, hv⟩
      exact ⟨_, ⟨u, hu, rfl⟩, hv.trans (hcancel hu).symm⟩
    · rintro ⟨_, ⟨u, hu, rfl⟩, hv⟩
      exact ⟨u, hu, hv.trans (hcancel hu)⟩

/-- A reversed interval stands for exactly the byte-swapped numbers. -/
theorem denotes_reverse {x y : Interval} (valid : x.Valid) (h : x.reverse = .ok y) {v : Nat} :
    y.Denotes v ↔ ∃ u, x.Denotes u ∧ v = byteReversed x.bits u := by
  cases hrange : x.range with
  | none =>
    rw [eq_unnamed_of_reverse hrange h, denotes_unnamed]
    simp [not_denotes_of_range_none hrange]
  | some p =>
    cases reversal_of_reverse hrange h with
    | byte hbyte =>
      rw [denotes_unnamed]
      constructor
      · intro hv
        exact ⟨v, hv, (byteReversed_of_byte valid hbyte hv).symm⟩
      · rintro ⟨u, hu, rfl⟩
        rwa [byteReversed_of_byte valid hbyte hu]
    | single bytes hsingle =>
      have hrev := valid.reversed_of_single hrange hsingle
      have hfit : byteReversed x.bits p.lower < modulus x.bits := by
        rw [modulus_of_valid valid.width]
        exact byteReversed_lt bytes _
      have hsole (u : Nat) : x.Denotes u ↔ u = p.lower := by
        rw [denotes_of_range hrange, (valid.fits hrange).1.eq_single hsingle]
        simp [shown, hrev]
        rfl
      rw [denotes_constant, truncate, Nat.mod_eq_of_lt hfit]
      simp [hsole]
    | pending bytes => exact denotes_flip valid bytes hrange

/-! ## Reversal where there is one -/

theorem bits_reverseOrWhole (x : Interval) : x.reverseOrWhole.bits = x.bits := by
  unfold reverseOrWhole
  split
  · exact bits_reverse ‹_›
  · rfl

theorem valid_reverseOrWhole {x : Interval} (valid : x.Valid) : x.reverseOrWhole.Valid := by
  unfold reverseOrWhole
  split
  · exact valid_reverse valid ‹_›
  · exact valid_whole valid.width

theorem denotes_reverseOrWhole {x : Interval} (valid : x.Valid) (bytes : x.bits % 8 = 0) {v : Nat} :
    x.reverseOrWhole.Denotes v ↔ ∃ u, x.Denotes u ∧ v = byteReversed x.bits u := by
  obtain ⟨y, hy⟩ := exists_reverse bytes
  rw [reverseOrWhole, hy]
  exact denotes_reverse valid hy

/-! ## A second reversal -/

theorem reverse_eq_ok {x : Interval} (bytes : x.bits % 8 = 0) :
    x.reverse = .ok x.reverseOrWhole := by
  obtain ⟨y, hy⟩ := exists_reverse bytes
  rw [reverseOrWhole, hy]

/-- Names play no part in a reversal. -/
theorem reverseOrWhole_unnamed (x : Interval) : x.unnamed.reverseOrWhole = x.reverseOrWhole := rfl

theorem unnamed_reverseOrWhole (x : Interval) : x.reverseOrWhole.unnamed = x.reverseOrWhole := by
  unfold reverseOrWhole
  split
  · rename_i y hy
    cases hrange : x.range with
    | none =>
      rw [eq_unnamed_of_reverse hrange hy]
      rfl
    | some p => cases reversal_of_reverse hrange hy <;> rfl
  · rfl

theorem isEmpty_reverseOrWhole (x : Interval) : x.reverseOrWhole.isEmpty = x.isEmpty := by
  unfold reverseOrWhole
  cases hrange : x.range with
  | none => simp [reverse, hrange, isEmpty, unnamed]
  | some p =>
    split
    · rename_i y hy
      cases reversal_of_reverse hrange hy <;> simp [isEmpty, hrange, unnamed, constant, ofRange]
    · simp [isEmpty, hrange, whole, ofRange]

theorem reverseOrWhole_of_byte {x : Interval} (hbyte : x.bits = 8) :
    x.reverseOrWhole = x.unnamed := by
  cases hrange : x.range <;> simp [reverseOrWhole, reverse, hrange, hbyte]

/-- A single number of several bytes is byte-swapped at once. -/
theorem reverseOrWhole_of_single {x : Interval} {p : Progression} (bytes : x.bits % 8 = 0)
    (several : x.bits ≠ 8) (hrange : x.range = some p) (hsingle : p.isSingle = true) :
    x.reverseOrWhole = constant x.bits (byteReversed x.bits p.lower) := by
  simp [reverseOrWhole, reverse, hrange, bytes, several, hsingle]

/-- On several numbers of several bytes a byte swap becomes pending, or cancels a pending one. -/
theorem reverseOrWhole_of_several {x : Interval} {p : Progression} (bytes : x.bits % 8 = 0)
    (several : x.bits ≠ 8) (hrange : x.range = some p) (hsingle : p.isSingle = false) :
    x.reverseOrWhole = { x.unnamed with reversed := !x.reversed } := by
  simp [reverseOrWhole, reverse, hrange, bytes, several, hsingle]

/-- Behind a pending byte swap the byte-swapped interval is stored. -/
theorem Valid.stored_eq_reverseOrWhole {x : Interval} (valid : x.Valid) (hrev : x.reversed = true) :
    x.stored = x.reverseOrWhole := by
  obtain ⟨bytes, several, p, hrange, hne⟩ := valid.pending hrev
  have hsingle : p.isSingle = false := by simpa [Progression.isSingle] using hne
  rw [reverseOrWhole_of_several bytes several hrange hsingle, hrev]
  rfl

/-- A second reversal undoes the first, up to the name. -/
theorem reverseOrWhole_reverseOrWhole {x : Interval} (valid : x.Valid) (bytes : x.bits % 8 = 0) :
    x.reverseOrWhole.reverseOrWhole = x.unnamed := by
  by_cases hbyte : x.bits = 8
  · rw [reverseOrWhole_of_byte hbyte, reverseOrWhole_of_byte (x := x.unnamed) hbyte]
    rfl
  cases hrange : x.range with
  | none =>
    have hswapped : x.reverseOrWhole = x.unnamed := by simp [reverseOrWhole, reverse, hrange]
    rw [hswapped, reverseOrWhole_unnamed, hswapped]
  | some p =>
    cases hsingle : p.isSingle with
    | true =>
      obtain ⟨hnormal, hupper⟩ := valid.fits hrange
      have hlower : p.lower < twoPow x.bits :=
        (le_allOnes_iff valid.width).1 (Nat.le_trans hnormal.1 hupper)
      rw [reverseOrWhole_of_single bytes hbyte hrange hsingle, constant,
        truncate_of_lt valid.width (byteReversed_lt bytes _),
        reverseOrWhole_of_single (x := ofRange x.bits _) bytes hbyte rfl
          (by simp [Progression.isSingle, Progression.single])]
      show constant x.bits (byteReversed x.bits (byteReversed x.bits p.lower)) = x.unnamed
      rw [byteReversed_byteReversed bytes hlower, constant, truncate_of_lt valid.width hlower,
        ← hnormal.eq_single hsingle, unnamed, hrange, valid.reversed_of_single hrange hsingle]
      rfl
    | false =>
      rw [reverseOrWhole_of_several bytes hbyte hrange hsingle,
        reverseOrWhole_of_several (x := { x.unnamed with reversed := !x.reversed }) bytes
          hbyte hrange hsingle]
      simp [unnamed]

end Interval

end AbstractBits
