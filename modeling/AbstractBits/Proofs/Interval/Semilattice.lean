import AbstractBits.Proofs.Interval.Inclusion
/-!
# The union of intervals as a least upper bound

Without pending byte swaps the union of two intervals is included in all others that include both.
How several intervals are put together makes no difference, with pending byte swaps too: if all of
them have one it is kept, if none has one nothing happens to the members, and as soon as some do and
some do not, all numbers of the width are left.

Results:
  * `least_join` — without pending byte swaps a join is the least interval over both.
  * `join_join_of_mixed` — with pending byte swaps on some of three intervals their joins admit any
    number.
  * `union_semilattice` — a union is a least upper bound, commutative, associative and idempotent.
-/

namespace AbstractBits

namespace Interval

variable {x y z : Interval} {bits : Nat}

/-! ## Least upper bounds -/

/-- An interval that includes two others, and is included in every interval of the width that does
so without a pending byte swap. -/
structure LeastOver (x y z : Interval) : Prop where
  left : x ⊆ z
  right : y ⊆ z
  least : ∀ t : Interval, t.Plain z.bits → x ⊆ t → y ⊆ t → z ⊆ t

theorem Plain.join (hx : x.Plain bits) (hy : y.Plain bits) : (x.join y).Plain bits :=
  hx.combine hy (keeps_merge (Progression.extends_join _))

theorem join_subset (hx : x.Plain bits) (hy : y.Plain bits) (hzrev : z.reversed = false)
    (hxz : x ⊆ z) (hyz : y ⊆ z) : x.join y ⊆ z := by
  rw [join_of_not_reversed hx.unreversed hy.unreversed]
  cases hxrange : x.range with
  | none =>
    rw [Option.merge_none_left]
    exact fun v hv => hyz v ((denotes_of_not_reversed hy.unreversed).2 hv)
  | some p =>
    cases hyrange : y.range with
    | none =>
      rw [Option.merge_none_right, ← hxrange]
      exact fun v hv => hxz v ((denotes_of_not_reversed hx.unreversed).2 hv)
    | some q =>
      obtain ⟨r, hr, hpr⟩ := (subset_iff_ranges hx hzrev).1 hxz p hxrange
      have hqr : q ⊆ r := (subset_iff_of_ranges hy.unreversed hzrev hyrange hr).1 hyz
      have hjoin :=
        (Progression.join_subset_iff (hx.fits hxrange).1 (hy.fits hyrange).1).2 ⟨hpr, hqr⟩
      exact (subset_iff_of_ranges rfl hzrev rfl hr).2 hjoin

/-- Without pending byte swaps a join is the least interval over both. -/
theorem least_join (hx : x.Plain bits) (hy : y.Plain bits) : LeastOver x y (x.join y) where
  left := (retains_join hx.valid hy.valid (hx.same_width hy)).subset_left
  right := (retains_join hx.valid hy.valid (hx.same_width hy)).subset_right
  least := fun _ ht hxt hyt => join_subset hx hy ht.unreversed hxt hyt

theorem Plain.join_subset_iff (hx : x.Plain bits) (hy : y.Plain bits) (hz : z.Plain bits) :
    x.join y ⊆ z ↔ x ⊆ z ∧ y ⊆ z := by
  have hleast := least_join hx hy
  constructor
  · intro h
    exact ⟨subset_trans hleast.left h, subset_trans hleast.right h⟩
  · rintro ⟨hxz, hyz⟩
    exact join_subset hx hy hz.unreversed hxz hyz

/-! ## One interval joined with itself -/

theorem join_self (hx : x.Valid) : x.join x = x.unnamed := by
  cases hrange : x.range with
  | none =>
    have hrev := hx.reversed_of_isEmpty (by simp [isEmpty, hrange])
    simp [join_of_not_reversed hrev hrev, unnamed, ofRange, hrange, hrev]
  | some p =>
    have hself := Progression.join_self (hx.fits hrange).1
    cases hrev : x.reversed with
    | false => simp [join_of_not_reversed hrev hrev, unnamed, ofRange, hrange, hrev, hself]
    | true =>
      rw [join, combine_of_reversed (Progression.extends_join _) hx hx rfl hrev hrev hrange hrange]
      simp [unnamed, hrange, hrev, hself]

/-! ## Three intervals -/

/-- All numbers of the width stay all numbers. -/
theorem whole_join (hx : x.Valid) : (whole x.bits).join x = whole x.bits := by
  have hwhole : (whole x.bits).reversed = false := rfl
  rw [join, combine_of_not_both (by simp [hwhole]), cover_of_not_reversed hwhole]
  cases hcover : x.cover.range with
  | none => rfl
  | some p =>
    exact congrArg (fun q => ofRange x.bits (some q))
      (Progression.whole_join (fits_cover hx p hcover))

/-- A pending byte swap of the first operand alone leaves all numbers of the width. -/
theorem join_of_reversed_left (hy : y.Valid) (hbits : x.bits = y.bits) (hxrev : x.reversed = true)
    (hyrev : y.reversed = false) : x.join y = whole x.bits := by
  rw [join, combine_of_not_both (by simp [hyrev]), cover_of_reversed hxrev,
    cover_of_not_reversed hyrev, hbits]
  have hwhole := whole_join hy
  rwa [join_of_not_reversed rfl hyrev] at hwhole

/-- A single pending byte swap leaves all numbers of the width. -/
theorem join_of_one_reversed (hx : x.Valid) (hy : y.Valid) (hbits : x.bits = y.bits)
    (hone : x.reversed ≠ y.reversed) : x.join y = whole x.bits := by
  cases hxrev : x.reversed with
  | true => exact join_of_reversed_left hy hbits hxrev (by simpa [hxrev] using hone)
  | false =>
    rw [join_comm hx hy hbits, hbits]
    exact join_of_reversed_left hx hbits.symm (by simpa [hxrev] using hone) hxrev

theorem reversed_join_of_both (hx : x.Valid) (hy : y.Valid) (hbits : x.bits = y.bits)
    (hxrev : x.reversed = true) (hyrev : y.reversed = true) : (x.join y).reversed = true := by
  obtain ⟨-, -, p, hp, -⟩ := hx.pending hxrev
  obtain ⟨-, -, q, hq, -⟩ := hy.pending hyrev
  rw [join, combine_of_reversed (Progression.extends_join _) hx hy hbits hxrev hyrev hp hq]

/-- With pending byte swaps on some of three intervals, but not on all, their joins admit any
number. -/
theorem join_join_of_mixed (hx : x.Valid) (hy : y.Valid) (hz : z.Valid) (hxy : x.bits = y.bits)
    (hxz : x.bits = z.bits) (hmixed : ¬(x.reversed = y.reversed ∧ x.reversed = z.reversed)) :
    (x.join y).join z = whole x.bits := by
  have hretains := retains_join hx hy hxy
  have hwidth : (x.join y).bits = x.bits := hretains.width
  by_cases hsame : x.reversed = y.reversed
  · have hrest : x.reversed ≠ z.reversed := fun h => hmixed ⟨hsame, h⟩
    have hone : (x.join y).reversed ≠ z.reversed := by
      cases hxrev : x.reversed with
      | false =>
        rw [reversed_join hxrev, ← hxrev]
        exact hrest
      | true =>
        rw [reversed_join_of_both hx hy hxy hxrev (hsame ▸ hxrev), ← hxrev]
        exact hrest
    rw [join_of_one_reversed hretains.valid hz (hwidth.trans hxz) hone, hwidth]
  · rw [join_of_one_reversed hx hy hxy hsame, hxz]
    exact whole_join hz

/-- Joining what is stored is associative. -/
theorem merge_join_assoc {P Q R : Option Progression} (hP : ∀ p ∈ P, p.Fits bits)
    (hQ : ∀ q ∈ Q, q.Fits bits) (hR : ∀ r ∈ R, r.Fits bits) :
    Option.merge Progression.join (Option.merge Progression.join P Q) R =
      Option.merge Progression.join P (Option.merge Progression.join Q R) := by
  cases P with
  | none => simp
  | some p =>
    cases Q with
    | none => simp
    | some q =>
      cases R with
      | none => simp
      | some r =>
        exact congrArg some (Progression.join_assoc (hP p rfl).1 (hQ q rfl).1 (hR r rfl).1)

theorem join_assoc_of_not_reversed (hx : x.Valid) (hy : y.Valid) (hz : z.Valid)
    (hxy : x.bits = y.bits) (hxz : x.bits = z.bits) (hxrev : x.reversed = false)
    (hyrev : y.reversed = false) (hzrev : z.reversed = false) :
    (x.join y).join z = x.join (y.join z) := by
  rw [join_of_not_reversed (reversed_join hxrev) hzrev,
    join_of_not_reversed hxrev (reversed_join hyrev), join_of_not_reversed hxrev hyrev,
    join_of_not_reversed hyrev hzrev]
  exact congrArg (ofRange x.bits) (merge_join_assoc hx.normal (hxy ▸ hy.normal) (hxz ▸ hz.normal))

theorem join_assoc_of_reversed (hx : x.Valid) (hy : y.Valid) (hz : z.Valid) (hxy : x.bits = y.bits)
    (hxz : x.bits = z.bits) (hxrev : x.reversed = true) (hyrev : y.reversed = true)
    (hzrev : z.reversed = true) : (x.join y).join z = x.join (y.join z) := by
  obtain ⟨-, -, p, hp, -⟩ := hx.pending hxrev
  obtain ⟨-, -, q, hq, -⟩ := hy.pending hyrev
  obtain ⟨-, -, r, hr, -⟩ := hz.pending hzrev
  have hyz : y.bits = z.bits := hxy.symm.trans hxz
  have hleft := retains_join hx hy hxy
  have hright := retains_join hy hz hyz
  have hxyjoin : x.join y = ⟨x.bits, some (p.join q), true, none⟩ :=
    combine_of_reversed (Progression.extends_join _) hx hy hxy hxrev hyrev hp hq
  have hyzjoin : y.join z = ⟨y.bits, some (q.join r), true, none⟩ :=
    combine_of_reversed (Progression.extends_join _) hy hz hyz hyrev hzrev hq hr
  rw [hxyjoin] at hleft ⊢
  rw [hyzjoin] at hright ⊢
  rw [join, combine_of_reversed (Progression.extends_join _) hleft.valid hz hxz rfl hzrev rfl hr,
    join, combine_of_reversed (Progression.extends_join _) hx hright.valid hxy hxrev rfl hp rfl,
    Progression.join_assoc (hx.fits hp).1 (hy.fits hq).1 (hz.fits hr).1]

/-- Unless all byte swaps are alike, the right-hand side is the left-hand side of the three in the
opposite order. -/
theorem join_assoc (hx : x.Valid) (hy : y.Valid) (hz : z.Valid) (hxy : x.bits = y.bits)
    (hxz : x.bits = z.bits) : (x.join y).join z = x.join (y.join z) := by
  have hyz : y.bits = z.bits := hxy.symm.trans hxz
  by_cases hsame : x.reversed = y.reversed ∧ x.reversed = z.reversed
  · obtain ⟨hxyrev, hxzrev⟩ := hsame
    cases hxrev : x.reversed with
    | false =>
      exact join_assoc_of_not_reversed hx hy hz hxy hxz hxrev (hxyrev ▸ hxrev) (hxzrev ▸ hxrev)
    | true => exact join_assoc_of_reversed hx hy hz hxy hxz hxrev (hxyrev ▸ hxrev) (hxzrev ▸ hxrev)
  · have hother : ¬(z.reversed = y.reversed ∧ z.reversed = x.reversed) := by
      rintro ⟨hzy, hzx⟩
      exact hsame ⟨hzx.symm.trans hzy, hzx.symm⟩
    have hright := retains_join hy hz hyz
    have hcomm : x.join (y.join z) = (z.join y).join x := by
      rw [join_comm hx hright.valid (hxy.trans hright.width.symm), join_comm hy hz hyz]
    rw [join_join_of_mixed hx hy hz hxy hxz hsame, hcomm,
      join_join_of_mixed hz hy hx hyz.symm hxz.symm hother, hxz]

/-! ## The union -/

theorem union_eq (hbits : x.bits = y.bits) : x.union y = .ok (x.join y) :=
  requireSameWidth_eq_ok.2 ⟨hbits, rfl⟩

/-- Intervals of one width have a union. Without pending byte swaps it is the least interval over
both. With and without them the union is commutative, associative and, up to names, idempotent. -/
theorem union_semilattice (hx : x.Valid) (hy : y.Valid) (hbits : x.bits = y.bits) :
    ∃ u, x.union y = .ok u ∧ u.Valid ∧ u.bits = x.bits ∧
      (x.reversed = false → y.reversed = false → u.reversed = false ∧ LeastOver x y u) ∧
      y.union x = .ok u ∧
      x.union x = .ok x.unnamed ∧
      ∀ t : Interval, t.Valid → t.bits = x.bits →
        ∃ r w, y.union t = .ok r ∧ u.union t = .ok w ∧ x.union r = .ok w := by
  have hretains := retains_join hx hy hbits
  refine ⟨x.join y, union_eq hbits, hretains.valid, hretains.width, ?_, ?_, ?_, ?_⟩
  · intro hxrev hyrev
    exact ⟨reversed_join hxrev, least_join ⟨hx, rfl, hxrev⟩ ⟨hy, hbits.symm, hyrev⟩⟩
  · rw [union_eq hbits.symm, join_comm hx hy hbits]
  · rw [union_eq rfl, join_self hx]
  · intro t ht htbits
    have hyt : y.bits = t.bits := hbits.symm.trans htbits.symm
    have hright := retains_join hy ht hyt
    refine ⟨y.join t, (x.join y).join t, union_eq hyt,
      union_eq (hretains.width.trans htbits.symm), ?_⟩
    rw [join_assoc hx hy ht hbits htbits.symm]
    exact union_eq (hbits.trans hright.width.symm)

/-- The number 1 joins the numbers 4, 10 and 16 in steps of 3, whatever is joined to them
afterwards. -/
theorem union_of_steps :
    ∃ u, (ofRange 16 (some ⟨4, 16, 6⟩)).union (constant 16 1) = .ok u ∧
      u = ofRange 16 (some ⟨1, 16, 3⟩) ∧
      LeastOver (ofRange 16 (some ⟨4, 16, 6⟩)) (constant 16 1) u ∧
      ∃ r w, (constant 16 1).union ⟨16, some ⟨256, 512, 256⟩, true, none⟩ = .ok r ∧
        u.union ⟨16, some ⟨256, 512, 256⟩, true, none⟩ = .ok w ∧
        (ofRange 16 (some ⟨4, 16, 6⟩)).union r = .ok w := by
  have hx : (ofRange 16 (some ⟨4, 16, 6⟩)).Valid :=
    valid_ofRange (by decide) (by decide) (by decide)
  have hy : (constant 16 1).Valid := valid_constant (by decide) 1
  have ht : Interval.Valid ⟨16, some ⟨256, 512, 256⟩, true, none⟩ :=
    valid_pending (by decide) ⟨by decide, by decide⟩ (by decide) (by decide) (by decide)
  obtain ⟨u, hu, -, -, hleast, -, -, hassoc⟩ := union_semilattice hx hy rfl
  have hsteps :
      (ofRange 16 (some ⟨4, 16, 6⟩)).union (constant 16 1) = .ok (ofRange 16 (some ⟨1, 16, 3⟩)) :=
    rfl
  obtain rfl : u = ofRange 16 (some ⟨1, 16, 3⟩) := Except.ok.inj (hu.symm.trans hsteps)
  exact ⟨_, hu, rfl, (hleast rfl rfl).2, hassoc _ ht rfl⟩

end Interval

end AbstractBits
