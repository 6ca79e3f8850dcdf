import AbstractBits.Proofs.Interval.Bounds
import AbstractBits.Proofs.Progression.Inclusion
/-!
# Inclusion of intervals

One interval is included in another if the other stands for all numbers that it stands for. Without
pending byte swaps this is inclusion of the stored progressions.

Results:
  * `Plain` — the intervals for which inclusion can be read off what is stored.
  * `subset_iff_ranges` — inclusion in terms of what is stored.
-/

namespace AbstractBits

namespace Interval

variable {x y z : Interval} {bits v : Nat}

/-! ## Plain intervals -/

/-- A valid interval of a width without a pending byte swap. -/
structure Plain (bits : Nat) (x : Interval) : Prop where
  valid : x.Valid
  width : x.bits = bits
  unreversed : x.reversed = false

theorem Plain.same_width (hx : x.Plain bits) (hy : y.Plain bits) : x.bits = y.bits :=
  hx.width.trans hy.width.symm

theorem Plain.fits {p : Progression} (hx : x.Plain bits) (hrange : x.range = some p) :
    p.Fits bits :=
  hx.width ▸ hx.valid.fits hrange

theorem plain_constant (width : ValidWidth bits) (value : Nat) : (constant bits value).Plain bits :=
  ⟨valid_constant width value, rfl, rfl⟩

theorem plain_ofRange {p : Progression} (width : ValidWidth bits) (hp : p.Fits bits) :
    (ofRange bits (some p)).Plain bits :=
  ⟨valid_ofRange width hp.1 hp.2, rfl, rfl⟩

/-- What two plain intervals are combined to is plain. -/
theorem Plain.combine {k : Kept} {op : Option Progression → Option Progression → Option Progression}
    (hx : x.Plain bits) (hy : y.Plain bits) (keeps : Keeps k x.bits op) :
    (combine op x y).Plain bits := by
  have hretains := retains_combine hx.valid hy.valid (hx.same_width hy) keeps
  refine ⟨hretains.valid, hretains.width.trans hx.width, ?_⟩
  rw [combine_of_not_reversed hx.unreversed hy.unreversed]
  rfl

/-! ## Inclusion -/

instance : HasSubset Interval where
  Subset x y := ∀ v, x.Denotes v → y.Denotes v

theorem subset_refl (x : Interval) : x ⊆ x := fun _ hv => hv

theorem subset_trans (hxy : x ⊆ y) (hyz : y ⊆ z) : x ⊆ z := fun v hv => hyz v (hxy v hv)

theorem Retains.subset_left (h : Retains .either x y z) : x ⊆ z := fun v hv => h.denotes v (.inl hv)

theorem Retains.subset_right (h : Retains .either x y z) : y ⊆ z :=
  fun v hv => h.denotes v (.inr hv)

/-- Without a pending byte swap the numbers are the stored members. -/
theorem denotes_iff_mem (hrev : x.reversed = false) : x.Denotes v ↔ ∃ p ∈ x.range, v ∈ p :=
  (denotes_of_not_reversed hrev).trans denotes_stored

theorem Plain.denotes_iff {p : Progression} (hx : x.Plain bits) (hrange : x.range = some p) :
    x.Denotes v ↔ v ∈ p := by
  simp [denotes_iff_mem hx.unreversed, hrange]

theorem Plain.unnamed_eq {p : Progression} (hx : x.Plain bits) (hrange : x.range = some p) :
    x.unnamed = ofRange bits (some p) := by
  rw [unnamed, hrange, hx.width, hx.unreversed]
  rfl

theorem subset_iff_ranges (hx : x.Plain bits) (hyrev : y.reversed = false) :
    x ⊆ y ↔ ∀ p ∈ x.range, ∃ q ∈ y.range, p ⊆ q := by
  constructor
  · intro h p hp
    have hlower := (hx.fits hp).1.lower_mem
    obtain ⟨q, hq, -⟩ :=
      (denotes_iff_mem hyrev).1 (h _ ((denotes_iff_mem hx.unreversed).2 ⟨p, hp, hlower⟩))
    refine ⟨q, hq, fun v hv => ?_⟩
    obtain ⟨q', hq', hmem⟩ :=
      (denotes_iff_mem hyrev).1 (h v ((denotes_iff_mem hx.unreversed).2 ⟨p, hp, hv⟩))
    exact Option.mem_unique hq hq' ▸ hmem
  · intro h v hv
    obtain ⟨p, hp, hmem⟩ := (denotes_iff_mem hx.unreversed).1 hv
    obtain ⟨q, hq, hpq⟩ := h p hp
    exact (denotes_iff_mem hyrev).2 ⟨q, hq, hpq v hmem⟩

/-- Two intervals with members are included if their progressions are. -/
theorem subset_iff_of_ranges {p q : Progression} (hxrev : x.reversed = false)
    (hyrev : y.reversed = false) (hxrange : x.range = some p) (hyrange : y.range = some q) :
    x ⊆ y ↔ p ⊆ q := by
  have hx (v : Nat) : x.Denotes v ↔ v ∈ p := by simp [denotes_iff_mem hxrev, hxrange]
  have hy (v : Nat) : y.Denotes v ↔ v ∈ q := by simp [denotes_iff_mem hyrev, hyrange]
  exact forall_congr' fun v => imp_congr (hx v) (hy v)

theorem empty_subset (hrange : x.range = none) : x ⊆ y :=
  fun v hv => absurd hv (not_denotes_of_range_none hrange v)

end Interval

end AbstractBits
