import AbstractBits.Proofs.IntervalSet.Verdict
/-!
# Comparisons without pending byte swaps

A verdict is exact if it tells what can be seen from the pairs of numbers: it decides when they all
agree, and stays open only when there is a pair on either side. Without a pending byte swap the
bounds that decide a verdict are numbers of the interval, so that the verdict on it is exact, in the
signed reading too, where the bounds next to the sign boundary are other numbers than the first and
the last one. The verdicts on the members of a set are joined, which decides exactly what is decided
for all of them.

Results:
  * `Verdict.exact_of_decided` — a verdict that decides exactly what the pairs decide is exact.
  * `compare_exact` — intervals and sets are compared exactly with an interval of their width.
-/

namespace AbstractBits

namespace Verdict

/-- The verdict is what can be seen from the pairs of numbers of two families. -/
structure Exact (v : Verdict) (X Y : Nat → Prop) (holds : Nat → Nat → Prop) : Prop where
  always : v = .always ↔ ∀ u w, X u → Y w → holds u w
  never : v = .never ↔ ∀ u w, X u → Y w → ¬holds u w
  maybe : v = .maybe ↔ (∃ u w, X u ∧ Y w ∧ holds u w) ∧ ∃ u w, X u ∧ Y w ∧ ¬holds u w

variable {v : Verdict} {X Y : Nat → Prop} {holds : Nat → Nat → Prop}

theorem eq_maybe_iff (v : Verdict) : v = .maybe ↔ v ≠ .never ∧ v ≠ .always := by
  cases v <;> decide

/-- A verdict that decides exactly what all pairs decide is open only when there are pairs of both
kinds. -/
theorem exact_of_decided [∀ u w, Decidable (holds u w)]
    (h : ∀ t, v = .ofBool t ↔ ∀ u w, X u → Y w → decide (holds u w) = t) : v.Exact X Y holds := by
  have halways : v = .always ↔ ∀ u w, X u → Y w → holds u w := by
    have htrue := h true
    simp only [decide_eq_true_eq] at htrue
    exact htrue
  have hnever : v = .never ↔ ∀ u w, X u → Y w → ¬holds u w := by
    have hfalse := h false
    simp only [decide_eq_false_iff_not] at hfalse
    exact hfalse
  refine ⟨halways, hnever, ?_⟩
  rw [eq_maybe_iff, Ne, Ne, halways, hnever]
  simp only [Classical.not_forall, Classical.not_not, exists_prop]

end Verdict

/-- What decides the comparison of two intervals is what all pairs of numbers decide. -/
theorem Interval.decided_iff {c : Comparison} {x y : Interval} {t : Bool} (hx : x.Valid)
    (hxsome : x.isEmpty = false) (hxrev : x.reversed = false) (hy : y.Valid)
    (hysome : y.isEmpty = false) (hyrev : y.reversed = false) (hbits : x.bits = y.bits) :
    x.verdict c y = .ofBool t ↔
    ∀ u w, x.Denotes u → y.Denotes w → decide (c.Holds y.bits u w) = t := by
  rw [Interval.verdict_eq_ofBool_iff hx hy hbits, and_iff_right hxsome, and_iff_right hysome,
    Interval.cover_of_not_reversed hxrev, Interval.cover_of_not_reversed hyrev, hbits]

namespace IntervalSet

variable {c : Comparison} {s : IntervalSet} {y : Interval} {t : Bool}

theorem decided_iff (hs : s.Valid) (hsome : s.members ≠ [])
    (hrev : ∀ x ∈ s.members, x.reversed = false) (hy : y.Valid) (hysome : y.isEmpty = false)
    (hyrev : y.reversed = false) (hbits : s.bits = y.bits) :
    s.verdict c y = .ofBool t ↔
    ∀ u w, s.Denotes u → y.Denotes w → decide (c.Holds y.bits u w) = t := by
  rw [verdict_eq_ofBool_iff hs hy hbits, and_iff_right hsome, and_iff_right hysome,
    Interval.cover_of_not_reversed hyrev, hbits]
  constructor
  · rintro h u w ⟨x, hx, hu⟩ hw
    exact h x hx u w ((Interval.cover_of_not_reversed (hrev x hx)).symm ▸ hu) hw
  · intro h x hx u w hu hw
    exact h u w ⟨x, hx, Interval.cover_of_not_reversed (hrev x hx) ▸ hu⟩ hw

/-- A comparison of an interval or a set of intervals with an interval, all of one width, not empty
and without pending byte swaps, has a verdict: that it always holds if it holds for all pairs of
numbers, that it never does if it holds for none, and otherwise neither. -/
theorem compare_exact (c : Comparison) {y : Interval} (hy : y.Valid) (hysome : y.isEmpty = false)
    (hyrev : y.reversed = false) :
    (∀ x : Interval, x.Valid → x.isEmpty = false → x.reversed = false → x.bits = y.bits →
      ∃ v, x.compare c y = .ok v ∧ v.Exact x.Denotes y.Denotes (c.Holds y.bits)) ∧
    ∀ s : IntervalSet, s.Valid → s.members ≠ [] → (∀ x ∈ s.members, x.reversed = false) →
      s.bits = y.bits →
      ∃ v, s.compare c y = .ok v ∧ v.Exact s.Denotes y.Denotes (c.Holds y.bits) := by
  constructor
  · intro x hx hxsome hxrev hbits
    refine ⟨x.verdict c y, requireSameWidth_eq_ok.2 ⟨hbits, rfl⟩,
      Verdict.exact_of_decided fun t => ?_⟩
    exact Interval.decided_iff hx hxsome hxrev hy hysome hyrev hbits
  · intro s hs hsome hrev hbits
    refine ⟨s.verdict c y, requireSameWidth_eq_ok.2 ⟨hbits, rfl⟩,
      Verdict.exact_of_decided fun t => ?_⟩
    exact decided_iff hs hsome hrev hy hysome hyrev hbits

/-- From 100 to 200 in steps of ten; 130 and more are negative as signed numbers of eight bits. -/
def tens : Interval := .ofRange 8 (some ⟨100, 200, 10⟩)

theorem valid_tens : tens.Valid := Interval.valid_ofRange (by decide) (by decide) (by decide)

/-- The greatest of the tens is 120 as a signed number, and not 127, which is no step. Beside 7 and
the tens, 115 is between numbers of the set. -/
theorem signed_bounds_attained :
    tens.compare ⟨true, .lt⟩ (.constant 8 121) = .ok .always ∧
      (∀ u, tens.Denotes u → Comparison.Holds ⟨true, .lt⟩ 8 u 121) ∧
      IntervalSet.compare ⟨true, .lt⟩ ⟨8, [.constant 8 7, tens]⟩ (.constant 8 115) = .ok .maybe ∧
      ∃ u, IntervalSet.Denotes ⟨8, [.constant 8 7, tens]⟩ u ∧
        ¬Comparison.Holds ⟨true, .lt⟩ 8 u 115 := by
  have hpoint (n : Nat) : (Interval.constant 8 n).Valid := Interval.valid_constant (by decide) n
  have hset : IntervalSet.Valid ⟨8, [.constant 8 7, tens]⟩ := by
    refine ⟨by decide, by decide, ?_, by decide⟩
    exact List.forall_mem_cons.2
      ⟨⟨hpoint 7, rfl, rfl⟩, List.forall_mem_singleton.2 ⟨valid_tens, rfl, rfl⟩⟩
  obtain ⟨v, hv, hexact⟩ :=
    (compare_exact ⟨true, .lt⟩ (hpoint 121) rfl rfl).1 tens valid_tens rfl rfl rfl
  obtain ⟨w, hw, hopen⟩ :=
    (compare_exact ⟨true, .lt⟩ (hpoint 115) rfl rfl).2 _ hset nofun (by decide) rfl
  have hvalways : v = .always := Except.ok.inj (hv.symm.trans rfl)
  have hwmaybe : w = .maybe := Except.ok.inj (hw.symm.trans rfl)
  refine ⟨rfl, fun u hu => ?_, rfl, ?_⟩
  · exact hexact.always.1 hvalways u 121 hu (Interval.denotes_constant.2 (by decide))
  · obtain ⟨-, u, n, hu, hn, hnot⟩ := hopen.maybe.1 hwmaybe
    rw [Interval.denotes_constant.1 hn] at hnot
    exact ⟨u, hu, hnot⟩

end IntervalSet

end AbstractBits
