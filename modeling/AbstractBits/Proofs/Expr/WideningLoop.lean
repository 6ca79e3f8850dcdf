import AbstractBits.Expr.Evaluation
import AbstractBits.Proofs.Expr.LatticeCall
import AbstractBits.Proofs.Interval.Semilattice
import AbstractBits.Proofs.Interval.Widening
/-!
# When a loop with widening stops

The analysis of a loop keeps an abstract value for the head of the loop. Every trip joins the head
with what the body makes of it, and widens the head by that. The analysis stops when a trip leaves
the head as it was, names apart.

A widening leaves an interval as it was exactly if there is nothing new to include. So the analysis
of a loop stops with a head that includes what the body makes of it, and it does stop, since a trip
that changes the head leaves it fewer changes.

Results:
  * `unnamed_stretch_eq_iff` — a widening changes nothing exactly if the newer interval is included.
  * `trip_includes` — the head after a trip includes the head before it and what the body made of
    that.
  * `settles_includes`, `exists_settles` — what a run stops with, and that it stops.
  * `widening_stops_iff` — the test by which a run stops is exact.
-/

namespace AbstractBits

/-! ## Loops -/

/-- A loop over values of a width. -/
structure Loop where
  bits : Nat
  /-- What the body makes of a value at the head; nothing where it gives up. -/
  body : AbstractValue → Option AbstractValue

namespace Loop

/-- The head after one more trip around the loop. -/
def trip (loop : Loop) (head : AbstractValue) : Option AbstractValue := do
  let newer ← loop.body head
  let joined ← (Operator.union.call [.abstract head, .abstract newer] loop.bits).toOption
  let widened ← (Operator.widen.call [.abstract head, .ofValue joined] loop.bits).toOption
  widened.abstract?

/-- The analysis that starts with one head stops with another one. -/
inductive Settles (loop : Loop) : AbstractValue → AbstractValue → Prop where
  | stop {head next : AbstractValue} :
      loop.trip head = some next → next.unnamed = head.unnamed → Settles loop head head
  | again {head next last : AbstractValue} :
      loop.trip head = some next → next.unnamed ≠ head.unnamed → Settles loop next last →
      Settles loop head last

/-- Counting up by 4 from the numbers at the head, with 16 bits: both bounds move by 4, the upper
one no further than the last multiple of 4. -/
def countByFour : Loop where
  bits := 16
  body head := do
    let hull ← head.hull?
    let counted :=
      Interval.ofBounds 16 (max hull.stride 4) (hull.lower + 4) (min (hull.upper + 4) 0xfffc)
    counted.toOption.map .interval

end Loop

namespace Interval

variable {bits : Nat} {x y z : Interval}

/-! ## Widenings that change nothing -/

theorem Plain.stretch_eq (hx : x.Plain bits) (hy : y.Plain bits) :
    x.stretch y = ofRange x.bits
      (Option.merge (Progression.widen (allOnes x.bits)) x.range y.range) :=
  combine_of_not_reversed hx.unreversed hy.unreversed

theorem Plain.stretch (hx : x.Plain bits) (hy : y.Plain bits) : (x.stretch y).Plain bits :=
  hx.combine hy (keeps_merge (Progression.extends_widen _))

theorem widen_eq (hbits : x.bits = y.bits) : x.widen y = .ok (x.stretch y) :=
  requireSameWidth_eq_ok.2 ⟨hbits, rfl⟩

/-- Without pending byte swaps only the members are compared. -/
theorem unnamed_ofRange_eq_iff {range : Option Progression} (hrev : x.reversed = false) :
    (ofRange x.bits range).unnamed = x.unnamed ↔ range = x.range := by
  simp [unnamed, ofRange, hrev]

/-- A widening changes nothing exactly if the newer interval is included. -/
theorem unnamed_stretch_eq_iff (hx : x.Plain bits) (hy : y.Plain bits) :
    (x.stretch y).unnamed = x.unnamed ↔ y ⊆ x := by
  rw [hx.stretch_eq hy, unnamed_ofRange_eq_iff hx.unreversed, subset_iff_ranges hy hx.unreversed]
  cases hyrange : y.range with
  | none => simp
  | some q =>
    cases hxrange : x.range with
    | none => simp
    | some p =>
      rw [hx.width]
      simpa using Progression.widen_eq_self_iff (hx.fits hxrange) (hy.fits hyrange)

end Interval

namespace Loop

open AbstractValue (interval)

variable {loop : Loop} {x y : Interval} {next last : AbstractValue}

/-- The body of a loop makes plain intervals of plain intervals. -/
def KeepsPlain (loop : Loop) : Prop :=
  ∀ (x : Interval) (newer : AbstractValue),
    x.Plain loop.bits → loop.body (.interval x) = some newer →
    ∃ y, newer = .interval y ∧ y.Plain loop.bits

/-! ## One trip -/

theorem unreversed_interval (hrev : x.reversed = false) :
    (interval x).unreversed = .interval x := by
  simp [AbstractValue.unreversed, AbstractValue.isReversed, hrev]

/-- A lattice operator on plain intervals is the operation on them. -/
theorem call_intervals {op : Operator} (bits : Nat) {z : Interval} (hlattice : op.isLattice = true)
    (hx : x.reversed = false) (hy : y.reversed = false)
    (hz : op.onValues (.interval x) (.interval y) = .ok (.interval z)) :
    op.call [.abstract (.interval x), .abstract (.interval y)] bits =
      .ok (.abstract (.interval z)) := by
  rw [← unreversed_interval hx, ← unreversed_interval hy] at hz
  rw [Operator.call_lattice hlattice hz]
  simp [AbstractValue.isReversed, hx, hy, Except.map]

theorem trip_interval (hx : x.Plain loop.bits) (hy : y.Plain loop.bits)
    (hbody : loop.body (.interval x) = some (.interval y)) :
    loop.trip (.interval x) = some (.interval (x.stretch (x.join y))) := by
  have hjoin := hx.join hy
  have hunion : Operator.union.onValues (.interval x) (.interval y) = .ok (.interval (x.join y)) :=
    congrArg (Except.map AbstractValue.interval) (Interval.union_eq (hx.same_width hy))
  have hwiden : Operator.widen.onValues (.interval x) (.interval (x.join y)) =
      .ok (.interval (x.stretch (x.join y))) :=
    congrArg (Except.map AbstractValue.interval) (Interval.widen_eq (hx.same_width hjoin))
  have hunionCall := call_intervals loop.bits rfl hx.unreversed hy.unreversed hunion
  have hwidenCall := call_intervals loop.bits rfl hx.unreversed hjoin.unreversed hwiden
  simp [trip, hbody, hunionCall, Except.toOption, Expr.ofValue, hwidenCall, Value.abstract?]

/-- A trip from a plain interval is a widening by what the body makes of it, joined with it. -/
theorem trip_eq_some (hkeeps : loop.KeepsPlain) (hx : x.Plain loop.bits)
    (h : loop.trip (.interval x) = some next) :
    ∃ y, loop.body (.interval x) = some (.interval y) ∧ y.Plain loop.bits ∧
      next = .interval (x.stretch (x.join y)) := by
  cases hbody : loop.body (.interval x) with
  | none => simp [trip, hbody] at h
  | some newer =>
    obtain ⟨y, rfl, hy⟩ := hkeeps x newer hx hbody
    rw [trip_interval hx hy hbody, Option.some.injEq] at h
    exact ⟨y, rfl, hy, h.symm⟩

/-- The head after a trip includes the head before it and what the body made of that. -/
theorem trip_includes (hkeeps : loop.KeepsPlain) (hx : x.Plain loop.bits)
    (h : loop.trip (.interval x) = some next) :
    ∃ y z, loop.body (.interval x) = some (.interval y) ∧ next = .interval z ∧
      z.Plain loop.bits ∧ x ⊆ z ∧ y ⊆ z ∧ (next.unnamed = (interval x).unnamed ↔ y ⊆ x) := by
  obtain ⟨y, hbody, hy, rfl⟩ := trip_eq_some hkeeps hx h
  have hjoin := hx.join hy
  have hretains := Interval.retains_stretch hx.valid hjoin.valid (hx.same_width hjoin)
  have hincludes := (hx.join_subset_iff hy (hx.stretch hjoin)).1 hretains.subset_right
  refine ⟨y, _, hbody, rfl, hx.stretch hjoin, hincludes.1, hincludes.2, ?_⟩
  have hstable := Interval.unnamed_stretch_eq_iff hx hjoin
  rw [hx.join_subset_iff hy hx, and_iff_right (Interval.subset_refl x)] at hstable
  simpa [AbstractValue.unnamed] using hstable

/-! ## Runs -/

/-- A run stops with a head that includes the first one and what the body makes of it. -/
theorem settles_includes (hkeeps : loop.KeepsPlain) {start : AbstractValue}
    (h : loop.Settles start last) :
    ∀ x, start = .interval x → x.Plain loop.bits → ∃ head y,
      last = .interval head ∧ head.Plain loop.bits ∧ x ⊆ head ∧
      loop.body last = some (.interval y) ∧ y ⊆ head := by
  induction h with
  | stop htrip hsame =>
    rintro x rfl hx
    obtain ⟨y, -, hbody, -, -, -, -, hstable⟩ := trip_includes hkeeps hx htrip
    exact ⟨x, y, rfl, hx, Interval.subset_refl x, hbody, hstable.1 hsame⟩
  | again htrip _ _ ih =>
    rintro x rfl hx
    obtain ⟨-, z, -, rfl, hz, hxz, -⟩ := trip_includes hkeeps hx htrip
    obtain ⟨head, y, hlast, hhead, hzhead, hbody, hyhead⟩ := ih z rfl hz
    exact ⟨head, y, hlast, hhead, Interval.subset_trans hxz hzhead, hbody, hyhead⟩

/-- A run stops if the body does not give up, since each trip that changes the head leaves it fewer
changes. -/
theorem exists_settles (hkeeps : loop.KeepsPlain)
    (hdefined : ∀ x : Interval, x.Plain loop.bits → (loop.body (.interval x)).isSome = true)
    (hx : x.Plain loop.bits) : ∃ last, loop.Settles (.interval x) last := by
  induction hleft : x.changesLeft using Nat.strongRecOn generalizing x with
  | _ left ih =>
    obtain ⟨newer, hbody⟩ := Option.isSome_iff_exists.1 (hdefined x hx)
    obtain ⟨y, rfl, hy⟩ := hkeeps x newer hx hbody
    have hjoin := hx.join hy
    have htrip := trip_interval hx hy hbody
    by_cases hsame : (x.stretch (x.join y)).unnamed = x.unnamed
    · exact ⟨_, .stop htrip (congrArg AbstractValue.interval hsame)⟩
    · have hdescends := Interval.descends_stretch hx.valid hjoin.valid (hx.same_width hjoin)
      have hlt : (x.stretch (x.join y)).changesLeft < left :=
        hleft ▸ Nat.lt_of_le_of_ne hdescends.le fun heq => hsame (hdescends.unchanged heq)
      obtain ⟨last, hlast⟩ := ih _ hlt (hx.stretch hjoin) rfl
      exact ⟨last, .again htrip (fun heq => hsame (AbstractValue.interval.inj heq)) hlast⟩

/-! ## Counting -/

theorem countByFour_body (hrev : x.reversed = false) :
    countByFour.body (.interval x) =
      (Interval.ofBounds 16 (max x.stride 4) (x.lower + 4) (min (x.upper + 4) 0xfffc)).toOption.map
        .interval := by
  simp [countByFour, AbstractValue.hull?, Interval.cover_of_not_reversed hrev]

theorem plain_of_ofBounds {bits stride lower upper : Nat}
    (h : Interval.ofBounds bits stride lower upper = .ok x) : x.Plain bits := by
  have hvalid := Interval.valid_of_ofBounds h
  obtain ⟨-, -, rfl⟩ := Interval.ofBounds_eq_ok.1 h
  exact ⟨hvalid, rfl, rfl⟩

theorem keepsPlain_countByFour : countByFour.KeepsPlain := by
  intro x newer hx hbody
  rw [countByFour_body hx.unreversed] at hbody
  cases hcounted :
    Interval.ofBounds 16 (max x.stride 4) (x.lower + 4) (min (x.upper + 4) 0xfffc) with
  | error e => simp [hcounted, Except.toOption] at hbody
  | ok y =>
    simp only [hcounted, Except.toOption, Option.map_some, Option.some.injEq] at hbody
    exact ⟨y, hbody.symm, plain_of_ofBounds hcounted⟩

/-! ## The test by which a run stops -/

/-- Widening leaves an interval as it was, its name apart, exactly if the newer interval is
included. So the same widening for a second time changes nothing, and a run that stops has found a
head that includes what the body makes of it. -/
theorem widening_stops_iff {bits : Nat} {w n : Interval} (hw : w.Plain bits) (hn : n.Plain bits) :
    (∃ z, w.widen n = .ok z ∧ (z.unnamed = w.unnamed ↔ n ⊆ w) ∧
      ∃ z', z.widen n = .ok z' ∧ z'.unnamed = z.unnamed) ∧
    ∀ loop : Loop, loop.bits = bits → loop.KeepsPlain →
      ∀ last, loop.Settles (.interval w) last →
        ∃ head y, last = .interval head ∧ head.Plain bits ∧ w ⊆ head ∧
          loop.body last = some (.interval y) ∧ y ⊆ head := by
  have hz := hw.stretch hn
  constructor
  · refine ⟨w.stretch n, Interval.widen_eq (hw.same_width hn),
      Interval.unnamed_stretch_eq_iff hw hn, ?_⟩
    refine ⟨(w.stretch n).stretch n, Interval.widen_eq (hz.same_width hn), ?_⟩
    have hretains := Interval.retains_stretch hw.valid hn.valid (hw.same_width hn)
    exact (Interval.unnamed_stretch_eq_iff hz hn).2 hretains.subset_right
  · rintro loop rfl hkeeps last hsettles
    exact settles_includes hkeeps hsettles w rfl hw

/-- Counting up by 4 from 0 stops after two trips with all multiples of 4. -/
theorem count_by_four_stops :
    countByFour.Settles (interval (.constant 16 0))
        (.interval (.ofRange 16 (some ⟨0, 0xfffc, 4⟩))) ∧
      (∃ y,
        countByFour.body (.interval (.ofRange 16 (some ⟨0, 0xfffc, 4⟩))) = some (.interval y) ∧
        y ⊆ Interval.ofRange 16 (some ⟨0, 0xfffc, 4⟩)) ∧
      ∃ z, (Interval.constant 16 0).widen (.constant 16 4) = .ok z ∧
        z.unnamed ≠ (Interval.constant 16 0).unnamed := by
  have hplain (value : Nat) : (Interval.constant 16 value).Plain 16 :=
    Interval.plain_constant (by decide) value
  have hfirst : countByFour.trip (interval (.constant 16 0)) =
      some (.interval (.ofRange 16 (some ⟨0, 0xfffc, 4⟩))) := rfl
  have hsecond : countByFour.trip (interval (.ofRange 16 (some ⟨0, 0xfffc, 4⟩))) =
      some (.interval (.ofRange 16 (some ⟨0, 0xfffc, 4⟩))) := rfl
  have hsettles : countByFour.Settles (interval (.constant 16 0))
      (interval (.ofRange 16 (some ⟨0, 0xfffc, 4⟩))) :=
    .again hfirst (by decide) (.stop hsecond rfl)
  obtain ⟨⟨z, hz, hstable, -⟩, hstops⟩ := widening_stops_iff (hplain 0) (hplain 4)
  have hapart : ¬Interval.constant 16 4 ⊆ Interval.constant 16 0 := by
    intro h
    have hfour := h 4 (Interval.denotes_constant.2 rfl)
    exact absurd (Interval.denotes_constant.1 hfour) (by decide)
  obtain ⟨head, y, hhead, -, -, hbody, hincluded⟩ :=
    hstops countByFour rfl keepsPlain_countByFour _ hsettles
  cases hhead
  exact ⟨hsettles, ⟨y, hbody, hincluded⟩, z, hz, fun hsame => hapart (hstable.1 hsame)⟩

end Loop

end AbstractBits
