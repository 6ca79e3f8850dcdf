import AbstractBits.Proofs.Interval.Verdict
import AbstractBits.Proofs.IntervalSet.Members
/-!
# What a comparison of sets knows

A set is compared member by member, while only the interval over it is left of a set on the other
side. That interval has numbers between the members, which make no difference to a comparison as
long as the reading of the comparison keeps their order: whatever comes out the same for two numbers
does so for those between them. A signed comparison turns the order over at the sign boundary, so
that the interval over numbers of both signs may not be decided where all members are.

Results:
  * `verdict_eq_ofBool_iff` — a set is decided exactly if all pairs of numbers are.
  * `verdict_hull` — the interval over a set has the verdict of the set, or crosses the sign
    boundary and leaves a signed comparison open.
-/

namespace AbstractBits

namespace Verdict

variable {v : Verdict} {vs : List Verdict} {t : Bool}

theorem join_eq_ofBool_iff {w : Verdict} :
    v.join w = .ofBool t ↔ v = .ofBool t ∧ w = .ofBool t := by
  cases v <;> cases w <;> cases t <;> decide

theorem foldl_join_eq_ofBool_iff :
    vs.foldl join v = .ofBool t ↔ v = .ofBool t ∧ ∀ w ∈ vs, w = .ofBool t := by
  induction vs generalizing v with
  | nil => simp
  | cons w ws ih => rw [List.foldl_cons, ih, join_eq_ofBool_iff, List.forall_mem_cons, and_assoc]

/-- Several cases are decided exactly if each of them is, to the same. -/
theorem joinAll_eq_ofBool_iff : joinAll vs = .ofBool t ↔ vs ≠ [] ∧ ∀ v ∈ vs, v = .ofBool t := by
  cases vs with
  | nil => cases t <;> simp [joinAll, ofBool]
  | cons v vs =>
    rw [joinAll, foldl_join_eq_ofBool_iff, List.forall_mem_cons,
      and_iff_right (List.cons_ne_nil v vs)]

theorem ofBool_or_maybe (v : Verdict) : v = .maybe ∨ ∃ t, v = .ofBool t := by
  cases v with
  | always => exact .inr ⟨true, rfl⟩
  | never => exact .inr ⟨false, rfl⟩
  | maybe => exact .inl rfl

end Verdict

namespace Comparison

variable {c : Comparison} {bits lo u hi v : Nat} {t : Bool}

/-- The reading of a comparison keeps the order of numbers, unless it is signed and they have both
signs. -/
theorem reading_le_reading (valid : ValidWidth bits) (hlu : lo ≤ u) (hhi : u < twoPow bits)
    (hsign : c.signed = true → u < signWeight bits ∨ signWeight bits ≤ lo) :
    c.reading bits lo ≤ c.reading bits u := by
  unfold reading
  split
  · exact Progression.signedValue_le_signedValue valid.1 hlu hhi (hsign ‹_›)
  · exact Int.ofNat_le.2 hlu

/-- What comes out the same for two numbers does so for those between them, unless a signed
comparison is asked about numbers of both signs. -/
theorem holds_of_between (valid : ValidWidth bits) (hhi : hi < twoPow bits)
    (hsign : ¬(c.signed = true ∧ lo < signWeight bits ∧ signWeight bits ≤ hi))
    (hlo : decide (c.Holds bits lo v) = t) (hup : decide (c.Holds bits hi v) = t) (hlu : lo ≤ u)
    (huh : u ≤ hi) : decide (c.Holds bits u v) = t := by
  have hside (hsigned : c.signed = true) : hi < signWeight bits ∨ signWeight bits ≤ lo := by
    rcases Nat.lt_or_ge hi (signWeight bits) with hlt | hge
    · exact .inl hlt
    · exact .inr (Nat.not_lt.1 fun hlow => hsign ⟨hsigned, hlow, hge⟩)
  refine Relation.holds_of_between hlo hup
    (reading_le_reading valid hlu (Nat.lt_of_le_of_lt huh hhi) ?_)
    (reading_le_reading valid huh hhi ?_)
  · exact fun hsigned => (hside hsigned).imp_left (Nat.lt_of_le_of_lt huh)
  · exact fun hsigned => (hside hsigned).imp_right fun h => Nat.le_trans h hlu

end Comparison

namespace IntervalSet

open AbstractBits.Interval (EndsIn)

variable {c : Comparison} {s : IntervalSet} {x y : Interval} {u : Nat} {t : Bool}

/-! ## Members -/

/-- A set is decided exactly if it has members and the comparison comes out the same for all pairs
of numbers, where a pending byte swap admits any number. -/
theorem verdict_eq_ofBool_iff (hs : s.Valid) (hy : y.Valid) (hbits : s.bits = y.bits) :
    s.verdict c y = .ofBool t ↔ s.members ≠ [] ∧ y.isEmpty = false ∧
      ∀ x ∈ s.members, ∀ u v, x.cover.Denotes u → y.cover.Denotes v →
        decide (c.Holds s.bits u v) = t := by
  have hmember {x : Interval} (hx : x ∈ s.members) : x.verdict c y = .ofBool t ↔ y.isEmpty = false ∧
      ∀ u v, x.cover.Denotes u → y.cover.Denotes v → decide (c.Holds s.bits u v) = t := by
    obtain ⟨hvalid, hsome, hxbits⟩ := hs.member x hx
    rw [Interval.verdict_eq_ofBool_iff hvalid hy (hxbits.trans hbits), hxbits, and_iff_right hsome]
  rw [verdict, Verdict.joinAll_eq_ofBool_iff, List.forall_mem_map, Ne, List.map_eq_nil_iff]
  constructor
  · rintro ⟨hne, hall⟩
    obtain ⟨x, hx⟩ := List.exists_mem_of_ne_nil _ hne
    exact ⟨hne, ((hmember hx).1 (hall x hx)).1, fun x hx => ((hmember hx).1 (hall x hx)).2⟩
  · rintro ⟨hne, hysome, hall⟩
    exact ⟨hne, fun x hx => (hmember hx).2 ⟨hysome, hall x hx⟩⟩

/-! ## The interval over a set -/

/-- A join gives up the pending byte swaps of what is joined. -/
theorem foldl_join_cover (xs : List Interval) {start : Interval} (hrev : start.reversed = false) :
    (xs.map (·.cover)).foldl Interval.join start = xs.foldl Interval.join start := by
  induction xs generalizing start with
  | nil => rfl
  | cons x xs ih =>
    have hjoin : start.join x.cover = start.join x := by
      simp only [Interval.join, Interval.combine, hrev, Bool.false_and, Bool.false_eq_true,
        if_false, Interval.cover_cover]
    rw [List.map_cons, List.foldl_cons, List.foldl_cons, hjoin, ih (Interval.reversed_join hrev)]

theorem hull_eq_joinAll_cover (s : IntervalSet) :
    s.hull = joinAll s.bits (s.members.map (·.cover)) :=
  (foldl_join_cover s.members rfl).symm

theorem uniform_map_cover (hs : s.Valid) : Uniform s.bits (s.members.map (·.cover)) := by
  intro y hy
  obtain ⟨x, hx, rfl⟩ := List.mem_map.1 hy
  obtain ⟨hvalid, hbits⟩ := hs.uniform x hx
  exact ⟨Interval.valid_cover hvalid, (Interval.bits_cover x).trans hbits⟩

/-- The interval over a set has all numbers that pending byte swaps of members admit. -/
theorem denotes_hull_of_cover (hs : s.Valid) (hx : x ∈ s.members) (hu : x.cover.Denotes u) :
    s.hull.Denotes u := by
  rw [hull_eq_joinAll_cover]
  exact denotes_joinAll hs.width (uniform_map_cover hs) ⟨x.cover, List.mem_map_of_mem hx, hu⟩

theorem endsIn_hull_cover (hs : s.Valid) : EndsIn s.hull (s.members.map (·.cover)) := by
  rw [hull_eq_joinAll_cover]
  refine endsIn_joinAll hs.width (uniform_map_cover hs) fun y hy => ?_
  obtain ⟨x, -, rfl⟩ := List.mem_map.1 hy
  exact Interval.reversed_cover x

/-- The bounds of the interval over a set are numbers of members, where a pending byte swap admits
any number. -/
theorem exists_cover_denotes_ends (hs : s.Valid) (hsome : s.hull.isEmpty = false) :
    (∃ x ∈ s.members, x.cover.Denotes s.hull.lower) ∧
    ∃ x ∈ s.members, x.cover.Denotes s.hull.upper := by
  have hends := endsIn_hull_cover hs
  obtain ⟨y, hy, hysome, hlower⟩ := hends.lower hsome
  obtain ⟨z, hz, hzsome, hupper⟩ := hends.upper hsome
  have hyden := (uniform_map_cover hs y hy).1.denotes_bounds
  have hzden := (uniform_map_cover hs z hz).1.denotes_bounds
  obtain ⟨x, hx, rfl⟩ := List.mem_map.1 hy
  obtain ⟨w, hw, rfl⟩ := List.mem_map.1 hz
  exact ⟨⟨x, hx, hlower ▸ (hyden (Interval.reversed_cover x) hysome).1⟩,
    w, hw, hupper ▸ (hzden (Interval.reversed_cover w) hzsome).2⟩

/-- Whether there are numbers without the sign bit and numbers with it in the interval over a
set. -/
def CrossesSign (s : IntervalSet) : Prop :=
  s.hull.lower < signWeight s.bits ∧ signWeight s.bits ≤ s.hull.upper

theorem isEmpty_hull_iff (hs : s.Valid) : s.hull.isEmpty = false ↔ s.members ≠ [] := by
  constructor
  · intro hsome hnil
    obtain ⟨⟨x, hx, -⟩, -⟩ := exists_cover_denotes_ends hs hsome
    rw [hnil] at hx
    cases hx
  · intro hne
    obtain ⟨x, hx⟩ := List.exists_mem_of_ne_nil _ hne
    obtain ⟨hvalid, hsome, -⟩ := hs.member x hx
    obtain ⟨v, hv⟩ := hvalid.exists_denotes.2 hsome
    exact (valid_hull hs).exists_denotes.1 ⟨v, denotes_hull hs ⟨x, hx, hv⟩⟩

theorem verdict_hull_eq_ofBool_iff (hs : s.Valid) (hy : y.Valid) (hbits : s.bits = y.bits) :
    s.hull.verdict c y = .ofBool t ↔ s.members ≠ [] ∧ y.isEmpty = false ∧
      ∀ u v, s.hull.Denotes u → y.cover.Denotes v → decide (c.Holds s.bits u v) = t := by
  rw [Interval.verdict_eq_ofBool_iff (valid_hull hs) hy ((bits_hull hs).trans hbits),
    Interval.cover_of_not_reversed (reversed_hull s), bits_hull hs, isEmpty_hull_iff hs]

/-- What is decided for the interval over a set is decided for the set. -/
theorem verdict_of_hull (hs : s.Valid) (hy : y.Valid) (hbits : s.bits = y.bits)
    (h : s.hull.verdict c y = .ofBool t) : s.verdict c y = .ofBool t := by
  obtain ⟨hne, hysome, hall⟩ := (verdict_hull_eq_ofBool_iff hs hy hbits).1 h
  refine (verdict_eq_ofBool_iff hs hy hbits).2 ⟨hne, hysome, fun x hx u v hu hv => ?_⟩
  exact hall u v (denotes_hull_of_cover hs hx hu) hv

/-- What is decided for a set is decided for the interval over it, unless a signed comparison is
asked about numbers of both signs. -/
theorem verdict_hull_of (hs : s.Valid) (hy : y.Valid) (hbits : s.bits = y.bits)
    (hsign : ¬(c.signed = true ∧ s.CrossesSign)) (h : s.verdict c y = .ofBool t) :
    s.hull.verdict c y = .ofBool t := by
  obtain ⟨hne, hysome, hall⟩ := (verdict_eq_ofBool_iff hs hy hbits).1 h
  refine (verdict_hull_eq_ofBool_iff hs hy hbits).2 ⟨hne, hysome, fun u v hu hv => ?_⟩
  have hsome := (isEmpty_hull_iff hs).2 hne
  obtain ⟨⟨x, hx, hlower⟩, z, hz, hupper⟩ := exists_cover_denotes_ends hs hsome
  obtain ⟨hlu, huh⟩ := Interval.bounds_of_denotes (reversed_hull s) hu
  have hlt : s.hull.upper < twoPow s.bits := by
    rw [← bits_hull hs]
    exact (valid_hull hs).lt_twoPow ((valid_hull hs).denotes_bounds (reversed_hull s) hsome).2
  exact Comparison.holds_of_between hs.width hlt hsign (hall x hx _ v hlower hv)
    (hall z hz _ v hupper hv) hlu huh

/-- The interval over a set has the verdict of the set, or it has numbers of both signs and leaves a
signed comparison open. -/
theorem verdict_hull (hs : s.Valid) (hy : y.Valid) (hbits : s.bits = y.bits) :
    s.hull.verdict c y = s.verdict c y ∨
      s.hull.verdict c y = .maybe ∧ c.signed = true ∧ s.CrossesSign := by
  rcases (s.hull.verdict c y).ofBool_or_maybe with hmaybe | ⟨t, ht⟩
  · by_cases hsign : c.signed = true ∧ s.CrossesSign
    · exact .inr ⟨hmaybe, hsign⟩
    · rcases (s.verdict c y).ofBool_or_maybe with hset | ⟨t, ht⟩
      · exact .inl (hmaybe.trans hset.symm)
      · exact .inl ((verdict_hull_of hs hy hbits hsign ht).trans ht.symm)
  · exact .inl (ht.trans (verdict_of_hull hs hy hbits ht).symm)

end IntervalSet

end AbstractBits
