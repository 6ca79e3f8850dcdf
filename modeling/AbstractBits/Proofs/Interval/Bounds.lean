import AbstractBits.Proofs.Interval.Lattice
/-!
# Stored bounds

Without a pending byte swap the stored bounds of an interval are its least and its greatest number,
and the interval over two others ends in bounds of these.

Results:
  * `bounds_of_denotes`, `Valid.denotes_bounds` — the stored bounds are bounds, and they are among
    the numbers.
  * `endsIn_join` — the interval over two others ends in bounds of these.
-/

namespace AbstractBits

namespace Interval

variable {x y z : Interval} {members : List Interval} {v : Nat}

/-! ## One interval -/

/-- Without a pending byte swap the numbers lie between the stored bounds. -/
theorem bounds_of_denotes (hrev : x.reversed = false) (hv : x.Denotes v) :
    x.lower ≤ v ∧ v ≤ x.upper := by
  obtain ⟨p, hp, hmem⟩ := denotes_stored.1 ((denotes_of_not_reversed hrev).1 hv)
  rw [Option.mem_def] at hp
  simp only [lower, upper, hp, Option.elim_some]
  exact ⟨hmem.1, hmem.2.1⟩

/-- Without a pending byte swap the stored bounds of an interval that is not empty are among its
numbers. -/
theorem Valid.denotes_bounds (hx : x.Valid) (hrev : x.reversed = false)
    (hsome : x.isEmpty = false) : x.Denotes x.lower ∧ x.Denotes x.upper := by
  obtain ⟨p, hrange⟩ := exists_range_of_nonempty hsome
  have hnormal := (hx.fits hrange).1
  simp only [denotes_of_range hrange, lower, upper, shown, hrange, hrev, Option.elim_some]
  exact ⟨⟨_, hnormal.lower_mem, rfl⟩, ⟨_, hnormal.upper_mem, rfl⟩⟩

/-! ## Joined intervals -/

/-- An interval ends in bounds of some others, unless it is empty. -/
structure EndsIn (z : Interval) (members : List Interval) : Prop where
  lower : z.isEmpty = false → ∃ x ∈ members, x.isEmpty = false ∧ x.lower = z.lower
  upper : z.isEmpty = false → ∃ x ∈ members, x.isEmpty = false ∧ x.upper = z.upper

theorem endsIn_of_mem (h : x ∈ members) : EndsIn x members :=
  ⟨fun hsome => ⟨x, h, hsome, rfl⟩, fun hsome => ⟨x, h, hsome, rfl⟩⟩

theorem EndsIn.trans {others : List Interval} (h : EndsIn z members)
    (hmembers : ∀ x ∈ members, EndsIn x others) : EndsIn z others where
  lower := by
    intro hsome
    obtain ⟨x, hx, hxsome, hxz⟩ := h.lower hsome
    obtain ⟨y, hy, hysome, hyx⟩ := (hmembers x hx).lower hxsome
    exact ⟨y, hy, hysome, hyx.trans hxz⟩
  upper := by
    intro hsome
    obtain ⟨x, hx, hxsome, hxz⟩ := h.upper hsome
    obtain ⟨y, hy, hysome, hyx⟩ := (hmembers x hx).upper hxsome
    exact ⟨y, hy, hysome, hyx.trans hxz⟩

theorem reversed_join (hrev : x.reversed = false) : (x.join y).reversed = false := by
  rw [join, combine_of_not_both (by simp [hrev])]
  rfl

theorem join_of_not_reversed (hxrev : x.reversed = false) (hyrev : y.reversed = false) :
    x.join y = ofRange x.bits (Option.merge Progression.join x.range y.range) :=
  combine_of_not_reversed hxrev hyrev

theorem endsIn_join (hx : x.Valid) (hy : y.Valid) (hxrev : x.reversed = false)
    (hyrev : y.reversed = false) : EndsIn (x.join y) [x, y] := by
  rw [join_of_not_reversed hxrev hyrev]
  cases hxr : x.range with
  | none =>
    cases hyr : y.range with
    | none => constructor <;> simp [ofRange, isEmpty]
    | some q =>
      constructor <;> exact fun _ => ⟨y, by simp, by simp [isEmpty, hyr],
        by simp [lower, upper, ofRange, hyr]⟩
  | some p =>
    cases hyr : y.range with
    | none =>
      constructor <;> exact fun _ => ⟨x, by simp, by simp [isEmpty, hxr],
        by simp [lower, upper, ofRange, hxr]⟩
    | some q =>
      have hupper := Progression.upper_join (hx.fits hxr).1 (hy.fits hyr).1
      constructor
      · intro _
        rcases Nat.le_total p.lower q.lower with hle | hle
        · exact ⟨x, by simp, by simp [isEmpty, hxr],
            by simp [lower, ofRange, hxr, Progression.lower_join, Nat.min_eq_left hle]⟩
        · exact ⟨y, by simp, by simp [isEmpty, hyr],
            by simp [lower, ofRange, hyr, Progression.lower_join, Nat.min_eq_right hle]⟩
      · intro _
        rcases Nat.le_total p.upper q.upper with hle | hle
        · exact ⟨y, by simp, by simp [isEmpty, hyr],
            by simp [upper, ofRange, hyr, hupper, Nat.max_eq_right hle]⟩
        · exact ⟨x, by simp, by simp [isEmpty, hxr],
            by simp [upper, ofRange, hxr, hupper, Nat.max_eq_left hle]⟩

end Interval

end AbstractBits
