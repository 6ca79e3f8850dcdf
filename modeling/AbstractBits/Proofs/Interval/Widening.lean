import AbstractBits.Proofs.Interval.Lattice
import AbstractBits.Proofs.Progression.Widening
/-!
# How often a widening can change an interval

An empty interval can get members once, and a pending byte swap can be given up once, for the
interval of all numbers. All other changes are changes of the stored progression. Names play no
part.

Results:
  * `changesLeft` — a bound on the changes to come, at most `3 * bits + 1`.
  * `descends_stretch` — a widening that changes an interval lowers the bound.
-/

namespace AbstractBits

theorem Descends.trans {a b c : Nat} {p q : Prop} (hab : Descends a b p) (hbc : Descends b c q) :
    Descends a c (p ∧ q) where
  le := Nat.le_trans hbc.le hab.le
  unchanged := by
    intro heq
    have hle := hab.le
    have hle' := hbc.le
    exact ⟨hab.unchanged (by omega), hbc.unchanged (by omega)⟩

namespace Interval

variable {x y : Interval} {p q : Progression}

/-- How often an interval can still be changed by widening. -/
def changesLeft (x : Interval) : Nat :=
  match x.range with
  | none => 3 * x.bits + 1
  | some p => p.changesLeft x.bits + if x.reversed then 1 else 0

theorem changesLeft_of_none (hrange : x.range = none) : x.changesLeft = 3 * x.bits + 1 := by
  simp only [changesLeft, hrange]

theorem changesLeft_of_some (hrange : x.range = some p) :
    x.changesLeft = p.changesLeft x.bits + if x.reversed then 1 else 0 := by
  simp only [changesLeft, hrange]

theorem changesLeft_ofRange_some (bits : Nat) (p : Progression) :
    (ofRange bits (some p)).changesLeft = p.changesLeft bits := rfl

theorem changesLeft_whole {bits : Nat} (width : ValidWidth bits) : (whole bits).changesLeft = 0 :=
  Progression.changesLeft_whole width

/-- The progression behind a pending byte swap has several members. -/
theorem Valid.stride_pos (hx : x.Valid) (hrev : x.reversed = true) (hrange : x.range = some p) :
    0 < p.stride := by
  exact (hx.fits hrange).1.stride_pos (by simpa [Progression.isSingle] using hx.ends_ne hrev hrange)

theorem Valid.changesLeft_le_of_some (hx : x.Valid) (hsome : x.isEmpty = false) :
    x.changesLeft ≤ 3 * x.bits := by
  obtain ⟨p, hrange⟩ := exists_range_of_nonempty hsome
  rw [changesLeft_of_some hrange]
  cases hrev : x.reversed with
  | false => exact (hx.fits hrange).changesLeft_le hx.width
  | true => exact (hx.fits hrange).changesLeft_lt hx.width (hx.stride_pos hrev hrange)

theorem Valid.changesLeft_le (hx : x.Valid) : x.changesLeft ≤ 3 * x.bits + 1 := by
  cases hsome : x.isEmpty with
  | false => exact Nat.le_succ_of_le (hx.changesLeft_le_of_some hsome)
  | true => exact Nat.le_of_eq (changesLeft_of_none (by simpa [isEmpty] using hsome))

/-! ## One widening -/

/-- Without a pending byte swap in front, a widening acts on the members. -/
theorem stretch_of_not_reversed (hrev : x.reversed = false) :
    x.stretch y =
      ofRange x.bits (Option.merge (Progression.widen (allOnes x.bits)) x.range y.cover.range) := by
  simp [stretch, combine, hrev, cover_of_not_reversed]

theorem descends_stretch_of_not_reversed (hx : x.Valid) (hy : y.Valid) (hbits : x.bits = y.bits)
    (hrev : x.reversed = false) :
    Descends x.changesLeft (x.stretch y).changesLeft ((x.stretch y).unnamed = x.unnamed) := by
  have hyfits := hbits ▸ fits_cover hy
  rw [stretch_of_not_reversed hrev]
  cases hrange : x.range with
  | none =>
    cases hother : y.cover.range with
    | none =>
      rw [changesLeft_of_none hrange]
      exact .of_unchanged _ (by simp [unnamed, ofRange, hrange, hrev])
    | some q =>
      refine .of_lt ?_
      rw [changesLeft_of_none hrange, Option.merge_none_left, changesLeft_ofRange_some]
      exact Nat.lt_succ_of_le ((hyfits q hother).changesLeft_le hx.width)
  | some p =>
    have hleft : x.changesLeft = p.changesLeft x.bits := by simp [changesLeft_of_some hrange, hrev]
    cases hother : y.cover.range with
    | none =>
      rw [hleft]
      exact .of_unchanged _ (by simp [unnamed, ofRange, hrange, hrev])
    | some q =>
      rw [hleft]
      refine (Progression.descends_widen hx.width (hx.fits hrange) (hyfits q hother)).imp ?_
      intro h
      simp [unnamed, ofRange, hrange, hrev, h]

/-- Two pending byte swaps are carried over to the widening of the stored members. -/
theorem stretch_of_reversed (hx : x.Valid) (hy : y.Valid) (hbits : x.bits = y.bits)
    (hxrev : x.reversed = true) (hyrev : y.reversed = true) (hxrange : x.range = some p)
    (hyrange : y.range = some q) :
    x.stretch y = ⟨x.bits, some (Progression.widen (allOnes x.bits) p q), true, none⟩ :=
  combine_of_reversed (Progression.extends_widen x.bits) hx hy hbits hxrev hyrev hxrange hyrange

/-- A widening that changes an interval leaves it fewer changes. A pending byte swap is given up for
all numbers, which a widening cannot change. -/
theorem descends_stretch (hx : x.Valid) (hy : y.Valid) (hbits : x.bits = y.bits) :
    Descends x.changesLeft (x.stretch y).changesLeft ((x.stretch y).unnamed = x.unnamed) := by
  cases hxrev : x.reversed with
  | false => exact descends_stretch_of_not_reversed hx hy hbits hxrev
  | true =>
    obtain ⟨-, -, p, hxrange, -⟩ := hx.pending hxrev
    rw [Option.mem_def] at hxrange
    cases hyrev : y.reversed with
    | true =>
      obtain ⟨-, -, q, hyrange, -⟩ := hy.pending hyrev
      rw [Option.mem_def] at hyrange
      obtain ⟨hle, hsame⟩ :=
        Progression.descends_widen hx.width (hx.fits hxrange) (hbits ▸ hy.fits hyrange)
      rw [stretch_of_reversed hx hy hbits hxrev hyrev hxrange hyrange, changesLeft_of_some hxrange,
        hxrev]
      refine ⟨Nat.succ_le_succ hle, ?_⟩
      intro heq
      have hwiden := hsame (Nat.succ.inj heq)
      simp [unnamed, hxrange, hxrev, hwiden]
    | false =>
      have hwhole : x.stretch y = (whole x.bits).stretch y := by
        simp [stretch, combine, hxrev, hyrev, cover, whole, ofRange]
      have hstays := (descends_stretch_of_not_reversed (valid_whole hx.width) hy hbits rfl).le
      rw [changesLeft_whole hx.width] at hstays
      refine .of_lt ?_
      rw [hwhole, changesLeft_of_some hxrange, hxrev, if_pos rfl]
      omega

/-- An interval gives up a pending byte swap before it is covered by a set. -/
theorem descends_cover (hx : x.Valid) :
    Descends x.changesLeft x.cover.stored.changesLeft (x.cover.stored.unnamed = x.unnamed) := by
  cases hrev : x.reversed with
  | false =>
    have hsame : x.cover.stored.unnamed = x.unnamed := by
      simp [cover_of_not_reversed hrev, stored, ofRange, unnamed, hrev]
    have hleft : x.cover.stored.changesLeft = x.changesLeft := by
      simp [cover_of_not_reversed hrev, changesLeft, stored, ofRange, hrev]
    rw [hleft]
    exact .of_unchanged _ hsame
  | true =>
    obtain ⟨-, -, p, hrange, -⟩ := hx.pending hrev
    have hleft : x.cover.stored.changesLeft = 0 := by
      rw [cover_of_reversed hrev]
      exact changesLeft_whole hx.width
    refine .of_lt ?_
    rw [hleft, changesLeft_of_some hrange, hrev, if_pos rfl]
    exact Nat.succ_pos _

end Interval

end AbstractBits
