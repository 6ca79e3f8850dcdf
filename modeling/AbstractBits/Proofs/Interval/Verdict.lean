import AbstractBits.Proofs.Interval.Lattice
/-!
# What a comparison of intervals knows

A verdict is read off the bounds of both intervals, in the reading of the comparison. These are
readings of numbers of the intervals, so that a comparison of numbers without pending byte swaps is
decided exactly if it comes out the same for all pairs; and a verdict does not depend on the side
from which it is asked.

Results:
  * `decide_eq_ofBool_iff` — two ranges are decided exactly if their ends are.
  * `verdict_eq_ofBool_iff` — two intervals are decided exactly if all pairs of numbers are.
  * `verdict_mirrored` — the mirrored comparison has the same verdict with its sides exchanged.
-/

namespace AbstractBits

namespace Relation

variable {r : Relation} {a b : Int × Int} {m n : Int} {t : Bool}

theorem decide_mirrored (r : Relation) (a b : Int × Int) :
    r.mirrored.decide b a = r.decide a b := by
  cases r <;> rfl

/-- A verdict on two ranges that decides holds of all pairs from them. -/
theorem holds_of_decide (h : r.decide a b = .ofBool t) (ham : a.1 ≤ m) (hma : m ≤ a.2)
    (hbn : b.1 ≤ n) (hnb : n ≤ b.2) : Decidable.decide (r.Holds m n) = t :=
  (Verdict.mem_outcomes_ofBool t _).1 (h ▸ Interval.mem_outcomes_decide r ham hma hbn hnb)

/-- Two ranges are decided exactly if it comes out the same for their ends. -/
theorem decide_eq_ofBool_iff (ha : a.1 ≤ a.2) (hb : b.1 ≤ b.2) :
    r.decide a b = .ofBool t ↔
    ∀ m ∈ [a.1, a.2], ∀ n ∈ [b.1, b.2], Decidable.decide (r.Holds m n) = t := by
  constructor
  · intro h m hm n hn
    have hmem {e : Int × Int} {k : Int} (he : e.1 ≤ e.2) (hk : k ∈ [e.1, e.2]) :
        e.1 ≤ k ∧ k ≤ e.2 := by
      rcases List.mem_cons.1 hk with rfl | hk
      · exact ⟨Int.le_refl _, he⟩
      · rw [List.mem_singleton.1 hk]
        exact ⟨he, Int.le_refl _⟩
    obtain ⟨ham, hma⟩ := hmem ha hm
    obtain ⟨hbn, hnb⟩ := hmem hb hn
    exact holds_of_decide h ham hma hbn hnb
  · intro h
    simp only [List.forall_mem_cons, List.not_mem_nil, false_implies, implies_true, and_true] at h
    obtain ⟨⟨hll, hlu⟩, hul, huu⟩ := h
    cases t with
    | true =>
      simp only [decide_eq_true_eq] at hll hlu hul huu
      cases r <;> simp only [Holds] at hll hlu hul huu <;>
        simp only [Relation.decide, Verdict.ofBool] <;> grind
    | false =>
      simp only [decide_eq_false_iff_not] at hll hlu hul huu
      cases r <;> simp only [Holds] at hll hlu hul huu <;>
        simp only [Relation.decide, Verdict.ofBool] <;> grind

/-- What comes out the same for two numbers does so for all numbers between them. -/
theorem holds_of_between {lo hi : Int} (hlo : Decidable.decide (r.Holds lo n) = t)
    (hhi : Decidable.decide (r.Holds hi n) = t) (hlm : lo ≤ m) (hmh : m ≤ hi) :
    Decidable.decide (r.Holds m n) = t := by
  have hends : r.decide (lo, hi) (n, n) = .ofBool t := by
    refine (decide_eq_ofBool_iff (Int.le_trans hlm hmh) (Int.le_refl n)).2 ?_
    simp only [List.forall_mem_cons, List.not_mem_nil, false_implies, implies_true, and_true, hlo,
      hhi, and_self]
  exact holds_of_decide hends hlm hmh (Int.le_refl n) (Int.le_refl n)

end Relation

namespace Interval

variable {c : Comparison} {x y : Interval} {t : Bool}

/-! ## Verdicts -/

/-- The mirrored comparison has the same verdict with its sides exchanged. -/
theorem verdict_mirrored (c : Comparison) (x y : Interval) :
    verdict c.mirrored y x = verdict c x y := by
  unfold verdict
  cases x.cover.range with
  | none => cases y.cover.range <;> rfl
  | some p =>
    cases y.cover.range with
    | none => rfl
    | some q => exact Relation.decide_mirrored _ _ _

theorem verdict_cover_left (c : Comparison) (x y : Interval) :
    verdict c x.cover y = verdict c x y := by
  unfold verdict
  rw [cover_cover, bits_cover]

theorem verdict_cover_right (c : Comparison) (x y : Interval) :
    verdict c x y.cover = verdict c x y := by
  unfold verdict
  rw [cover_cover, bits_cover]

/-- Nothing is known of an empty interval. -/
theorem nonempty_of_verdict (hx : x.Valid) (hy : y.Valid) (h : verdict c x y = .ofBool t) :
    x.isEmpty = false ∧ y.isEmpty = false := by
  have hmaybe : Verdict.maybe ≠ .ofBool t := by cases t <;> nofun
  rw [← isEmpty_cover hx, ← isEmpty_cover hy]
  unfold verdict at h
  split at h
  · rename_i p q hp hq
    exact ⟨by simp [isEmpty, hp], by simp [isEmpty, hq]⟩
  · exact absurd h hmaybe

/-- Two intervals are decided exactly if the comparison comes out the same for all pairs of numbers,
where a pending byte swap admits any number. -/
theorem verdict_eq_ofBool_iff (hx : x.Valid) (hy : y.Valid) (hbits : x.bits = y.bits) :
    verdict c x y = .ofBool t ↔ x.isEmpty = false ∧ y.isEmpty = false ∧
      ∀ u v, x.cover.Denotes u → y.cover.Denotes v → decide (c.Holds x.bits u v) = t := by
  constructor
  · intro h
    obtain ⟨hxsome, hysome⟩ := nonempty_of_verdict hx hy h
    refine ⟨hxsome, hysome, fun u v hu hv => ?_⟩
    have houtcome := mem_outcomes_verdict (c := c) (valid_cover hx) (valid_cover hy)
      (by rw [bits_cover, bits_cover, hbits]) hu hv
    rw [verdict_cover_left, verdict_cover_right, h, bits_cover] at houtcome
    exact (Verdict.mem_outcomes_ofBool t _).1 houtcome
  · rintro ⟨hxsome, hysome, hall⟩
    obtain ⟨p, hp⟩ := exists_range_of_nonempty ((isEmpty_cover hx).trans hxsome)
    obtain ⟨q, hq⟩ := exists_range_of_nonempty ((isEmpty_cover hy).trans hysome)
    have hpfits := fits_cover hx p hp
    have hqfits := hbits ▸ fits_cover hy q hq
    obtain ⟨u₁, hu₁, u₂, hu₂, hpb⟩ := Progression.exists_bounds c hpfits
    obtain ⟨v₁, hv₁, v₂, hv₂, hqb⟩ := Progression.exists_bounds c hqfits
    have hpair {u v : Nat} (hu : u ∈ p) (hv : v ∈ q) : decide (c.Holds x.bits u v) = t := by
      refine hall u v ?_ ?_
      · exact (denotes_of_not_reversed (reversed_cover x)).2 (denotes_stored.2 ⟨p, hp, hu⟩)
      · exact (denotes_of_not_reversed (reversed_cover y)).2 (denotes_stored.2 ⟨q, hq, hv⟩)
    have hpord := Progression.bounds_le c hx.width hpfits hu₁
    have hqord := Progression.bounds_le c hx.width hqfits hv₁
    simp only [verdict, hp, hq, ← hbits]
    refine (Relation.decide_eq_ofBool_iff (Int.le_trans hpord.1 hpord.2)
      (Int.le_trans hqord.1 hqord.2)).2 ?_
    rw [hpb, hqb]
    simp only [List.forall_mem_cons, List.not_mem_nil, false_implies, implies_true, and_true]
    exact ⟨⟨hpair hu₁ hv₁, hpair hu₁ hv₂⟩, hpair hu₂ hv₁, hpair hu₂ hv₂⟩

end Interval

end AbstractBits
