import Mathlib.Logic.ExistsUnique
import AbstractBits.Proofs.Interval.Bounds
/-!
# One number or several

An interval of one number is determined by it and never has a byte swap pending. On several numbers
of several bytes a byte swap becomes pending, or cancels a pending one. A join of two intervals
keeps pending byte swaps of both, but gives up a single one, so that it does not matter whether the
byte swap comes before or after it exactly if both intervals have one pending or none has.

Results:
  * `Valid.isSingle_iff` — an interval is known to be one number exactly when it stands for one.
  * `several_of_ne`, `Several.exists_ne` — several numbers are at least two.
  * `byteSwapped_join_iff` — when the byte-swapped join of what is stored is the join.
-/

namespace AbstractBits

namespace Interval

variable {x y : Interval} {v w : Nat}

/-! ## Single numbers -/

theorem shown_injective (hx : x.Valid) {u w : Nat} (hu : u < twoPow x.bits) (hw : w < twoPow x.bits)
    (h : x.shown u = x.shown w) : u = w := by
  unfold shown at h
  split at h
  · rename_i hrev
    have bytes := (hx.pending hrev).1
    rw [← byteReversed_byteReversed bytes hu, h, byteReversed_byteReversed bytes hw]
  · exact h

theorem exists_range_of_isSingle (h : x.isSingle = true) :
    ∃ p, x.range = some p ∧ p.isSingle = true := by
  cases hrange : x.range with
  | none => simp [isSingle, hrange] at h
  | some p => exact ⟨p, rfl, by simpa [isSingle, hrange] using h⟩

/-- An interval of one number is determined by it, up to its name. -/
theorem Valid.unnamed_eq_constant (hx : x.Valid) (hsingle : x.isSingle = true) (hv : x.Denotes v) :
    x.unnamed = ofRange x.bits (some (.single v)) := by
  obtain ⟨p, hrange, hp⟩ := exists_range_of_isSingle hsingle
  have hrev := hx.reversed_of_single hrange hp
  have hsole := (hx.fits hrange).1.eq_single hp
  obtain ⟨u, hu, hvu⟩ := (denotes_of_range hrange).1 hv
  rw [hsole, Progression.mem_single] at hu
  have hlower : p.lower = v := by simp [hvu, hu, shown, hrev]
  rw [hlower] at hsole
  simp [unnamed, ofRange, hrange, hrev, hsole]

/-- An interval is known to be one number exactly when it stands for one. Both of its stored bounds
stand for that one. -/
theorem Valid.isSingle_iff (hx : x.Valid) : x.isSingle = true ↔ ∃! v, x.Denotes v := by
  constructor
  · intro hsingle
    obtain ⟨p, hrange, -⟩ := exists_range_of_isSingle hsingle
    have hsome : x.isEmpty = false := by simp [isEmpty, hrange]
    obtain ⟨v, hv⟩ := hx.exists_denotes.2 hsome
    refine ⟨v, hv, fun w hw => ?_⟩
    have hconstant : (ofRange x.bits (some (.single v))).Denotes w :=
      hx.unnamed_eq_constant hsingle hv ▸ (denotes_unnamed x w).2 hw
    simpa [denotes_ofRange] using hconstant
  · rintro ⟨v, ⟨p, hp, u, hu, rfl⟩, hunique⟩
    obtain ⟨hnormal, hupper⟩ := hx.normal p hp
    have hbound {w : Nat} (hw : w ∈ p) : w < twoPow x.bits :=
      (le_allOnes_iff hx.width).1 (Nat.le_trans hw.2.1 hupper)
    have hsame {w : Nat} (hw : w ∈ p) : w = u :=
      shown_injective hx (hbound hw) (hbound hu) (hunique _ ⟨p, hp, w, hw, rfl⟩)
    have hends : p.lower = p.upper := (hsame hnormal.lower_mem).trans (hsame hnormal.upper_mem).symm
    rw [Option.mem_def] at hp
    simp [isSingle, hp, Progression.isSingle, hends]

/-! ## Several numbers -/

/-- Whether there are several numbers. -/
def Several (x : Interval) : Prop := ∃ p, x.range = some p ∧ p.isSingle = false

theorem Several.isEmpty (h : x.Several) : x.isEmpty = false := by
  obtain ⟨p, hrange, -⟩ := h
  simp [Interval.isEmpty, hrange]

theorem Valid.several_of_reversed (hx : x.Valid) (hrev : x.reversed = true) : x.Several := by
  obtain ⟨-, -, p, hrange, hne⟩ := hx.pending hrev
  exact ⟨p, hrange, by simpa [Progression.isSingle] using hne⟩

theorem several_of_unnamed_eq (h : x.unnamed = y.unnamed) (hx : x.Several) : y.Several := by
  obtain ⟨p, hrange, hp⟩ := hx
  have hsame : x.unnamed.range = y.unnamed.range := congrArg range h
  exact ⟨p, hsame.symm.trans hrange, hp⟩

theorem reversed_of_unnamed_eq (h : x.unnamed = y.unnamed) : x.reversed = y.reversed :=
  (congrArg reversed h : x.unnamed.reversed = y.unnamed.reversed)

/-- Several numbers without a pending byte swap include two different ones. -/
theorem Several.exists_ne (h : x.Several) (hx : x.Valid) (hrev : x.reversed = false) :
    ∃ v w, v ≠ w ∧ x.Denotes v ∧ x.Denotes w := by
  obtain ⟨p, hrange, hp⟩ := h
  have hnormal := (hx.fits hrange).1
  have hshown (u : Nat) : u = x.shown u := by simp [shown, hrev]
  refine ⟨p.lower, p.upper, by simpa [Progression.isSingle] using hp, ?_, ?_⟩
  · exact (denotes_of_range hrange).2 ⟨p.lower, hnormal.lower_mem, hshown _⟩
  · exact (denotes_of_range hrange).2 ⟨p.upper, hnormal.upper_mem, hshown _⟩

theorem several_of_ne (hx : x.Valid) (hv : x.Denotes v) (hw : x.Denotes w) (hne : v ≠ w) :
    x.Several := by
  have hsingle : x.isSingle = false := by
    refine Bool.eq_false_iff.2 fun hsingle => ?_
    obtain ⟨u, -, hunique⟩ := hx.isSingle_iff.1 hsingle
    exact hne ((hunique v hv).trans (hunique w hw).symm)
  obtain ⟨p, hrange, -⟩ := hv
  rw [Option.mem_def] at hrange
  exact ⟨p, hrange, by simpa [isSingle, hrange] using hsingle⟩

/-! ## Byte swap of several numbers -/

theorem reversed_reverseOrWhole (bytes : x.bits % 8 = 0) (hbyte : x.bits ≠ 8) (h : x.Several) :
    x.reverseOrWhole.reversed = !x.reversed := by
  obtain ⟨p, hrange, hp⟩ := h
  rw [reverseOrWhole_of_several bytes hbyte hrange hp]

/-- A pending byte swap of a byte-swapped interval was not pending before. -/
theorem Valid.not_reversed_of_reverseOrWhole (hx : x.Valid) (h : x.reverseOrWhole.reversed = true) :
    x.reversed = false := by
  cases hrev : x.reversed with
  | false => rfl
  | true =>
    rw [← hx.stored_eq_reverseOrWhole hrev] at h
    cases h

/-- Behind a pending byte swap several numbers are stored. -/
theorem Valid.several_stored (hx : x.Valid) (hrev : x.reversed = true) : x.stored.Several :=
  hx.several_of_reversed hrev

/-! ## Byte-swapped joins -/

/-- The interval that a lattice operator is given in the place of one with a pending byte swap. -/
def unreversed (x : Interval) : Interval := if x.reversed then x.stored else x

/-- Two pending byte swaps are put on the result of joining what is stored. -/
theorem swapped_join_of_reversed (hx : x.reversed = true) (hy : y.reversed = true) :
    (x.stored.join y.stored).reverseOrWhole = x.join y := by
  simp only [join, combine, hx, hy, Bool.and_self, if_true]
  rfl

/-- Several numbers without a pending byte swap have one after they were joined and byte-swapped. -/
theorem reversed_swapped_join (hx : x.Valid) (hy : y.Valid) (hbits : x.bits = y.bits)
    (hbyte : x.bits % 8 = 0 ∧ x.bits ≠ 8) (hrev : x.reversed = false) (hseveral : x.Several) :
    (x.join y).reverseOrWhole.reversed = true := by
  have hjoin := retains_join hx hy hbits
  obtain ⟨v, w, hne, hv, hw⟩ := hseveral.exists_ne hx hrev
  have hjoined :=
    several_of_ne hjoin.valid (hjoin.denotes v (.inl hv)) (hjoin.denotes w (.inl hw)) hne
  rw [← hjoin.width] at hbyte
  rw [reversed_reverseOrWhole hbyte.1 hbyte.2 hjoined, reversed_join hrev]
  rfl

/-- A single pending byte swap is given up by a join. -/
theorem swapped_join_of_one (hx : x.Valid) (hy : y.Valid) (hbits : x.bits = y.bits)
    (hxrev : x.reversed = true) (hyrev : y.reversed = false) :
    (x.stored.join y).reverseOrWhole.unnamed ≠ (x.join y).unnamed := by
  intro heq
  obtain ⟨bytes, several, -⟩ := hx.pending hxrev
  have hpending := reversed_swapped_join (valid_stored hx) hy hbits ⟨bytes, several⟩ rfl
    (hx.several_stored hxrev)
  rw [reversed_of_unnamed_eq heq, join_comm hx hy hbits, reversed_join hyrev] at hpending
  cases hpending

theorem byteSwapped_join_iff (hx : x.Valid) (hy : y.Valid) (hbits : x.bits = y.bits)
    (hany : x.reversed = true ∨ y.reversed = true) :
    (x.unreversed.join y.unreversed).reverseOrWhole.unnamed = (x.join y).unnamed ↔
      x.reversed = y.reversed := by
  cases hxrev : x.reversed with
  | true =>
    cases hyrev : y.reversed with
    | true =>
      simp only [unreversed, hxrev, hyrev, if_true, swapped_join_of_reversed hxrev hyrev]
    | false =>
      simp only [unreversed, hxrev, hyrev, if_true, Bool.false_eq_true, if_false]
      exact iff_of_false (swapped_join_of_one hx hy hbits hxrev hyrev) nofun
  | false =>
    have hyrev : y.reversed = true := hany.resolve_left (Bool.eq_false_iff.1 hxrev)
    simp only [unreversed, hxrev, hyrev, if_true, Bool.false_eq_true, if_false]
    refine iff_of_false ?_ nofun
    rw [join_comm hx (valid_stored hy) hbits, join_comm hx hy hbits]
    exact swapped_join_of_one hy hx hbits.symm hyrev hxrev

end Interval

end AbstractBits
