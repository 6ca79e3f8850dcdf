import AbstractBits.Proofs.AbstractValue.ByteOrder
/-!
# Comparisons and bit operations in every shape

Where the interval over a value stands in for the value, it stands for all its numbers, and a value
that has such an interval has places in the global region only. So no operation on the intervals
loses a number, and a comparison answers for all pairs of places that it can order.

Results:
  * `covers_of_hull?` — the interval over a value.
  * `mem_outcomes_verdict` — a comparison admits what it says about any two places.
  * `imagesOf_extract`, `imagesOf_zeroExtend`, `imagesOf_signExtend`, `imagesOf_reverse`,
    `denotes_shiftRight`, `denotes_concat` — the bit operations stand for the images.
-/

namespace AbstractBits

namespace ValueSet

variable {s : ValueSet} {place : Place} {region : String} {x : Interval}

theorem entries_of_onlyRegion? {e : String × Interval} (h : s.onlyRegion? = some e) :
    s.regions.entries = [e] := by
  unfold onlyRegion? at h
  split at h
  · rename_i he
    cases h
    exact he
  · cases h

/-- The offsets of the only region of a value set, without its pending byte swap. -/
theorem denotes_of_onlyRegion? (hs : s.Valid) (h : s.cover.onlyRegion? = some (region, x)) :
    x.Valid ∧ x.bits = s.bits ∧
      ∀ place, s.Denotes place → place.region = region ∧ x.Denotes place.offset := by
  have hentries := entries_of_onlyRegion? h
  have hget : s.cover.regions.get? region = some x :=
    RegionMap.get?_eq_some_iff.2 (hentries ▸ List.mem_singleton.2 rfl)
  obtain ⟨hvalid, hbits⟩ := uniform_cover hs region x hget
  refine ⟨hvalid, hbits, ?_⟩
  intro place hv
  obtain ⟨y, hy, hyv⟩ := denotes_cover hs hv
  have hmem := RegionMap.get?_eq_some_iff.1 hy
  rw [hentries, List.mem_singleton, Prod.mk.injEq] at hmem
  exact ⟨hmem.1, hmem.2 ▸ hyv⟩

end ValueSet

namespace AbstractValue

variable {a b r : AbstractValue} {p q : Place} {c : Comparison}

/-! ## The interval over a value -/

/-- A value that has an interval over it has places in the global region only, and the interval has
all their numbers. -/
theorem covers_of_hull? {x : Interval} (ha : a.Valid) (h : a.hull? = some x) :
    x.Valid ∧ x.bits = a.bits ∧
      ∀ place, a.Denotes place → place.region = numberRegion ∧ x.Denotes place.offset := by
  cases a with
  | interval y =>
    cases h
    exact ⟨Interval.valid_cover ha, Interval.bits_cover y,
      fun place hv => ⟨hv.1, Interval.denotes_cover ha hv.2⟩⟩
  | set s =>
    cases h
    exact ⟨IntervalSet.valid_hull ha, IntervalSet.bits_hull ha,
      fun place hv => ⟨hv.1, IntervalSet.denotes_hull ha hv.2⟩⟩
  | valueSet v =>
    simp only [hull?] at h
    split at h
    · rename_i region offsets honly
      split at h
      · rename_i hregion
        cases h
        subst hregion
        exact ValueSet.denotes_of_onlyRegion? ha honly
      · cases h
    · cases h

/-! ## Comparison -/

theorem mem_outcomes_maybe (t : Bool) : t ∈ Verdict.maybe.outcomes := by
  cases t <;> decide

theorem mem_outcomes_foldl_join {t : Bool} {v : Verdict} {vs : List Verdict} (start : Verdict)
    (h : t ∈ start.outcomes ∨ v ∈ vs ∧ t ∈ v.outcomes) :
    t ∈ (vs.foldl Verdict.join start).outcomes := by
  induction vs generalizing start with
  | nil =>
    rcases h with h | ⟨hv, -⟩
    · exact h
    · cases hv
  | cons w ws ih =>
    refine ih _ ?_
    rw [Verdict.mem_outcomes_join]
    rcases h with h | ⟨hv, ht⟩
    · exact .inl (.inl h)
    · rcases List.mem_cons.1 hv with rfl | hv
      · exact .inl (.inr ht)
      · exact .inr ⟨hv, ht⟩

/-- The verdict over some cases admits what each of them admits. -/
theorem mem_outcomes_joinAll {t : Bool} {v : Verdict} {vs : List Verdict} (hv : v ∈ vs)
    (ht : t ∈ v.outcomes) : t ∈ (Verdict.joinAll vs).outcomes := by
  cases vs with
  | nil => cases hv
  | cons w ws =>
    refine mem_outcomes_foldl_join (v := v) _ ?_
    rcases List.mem_cons.1 hv with rfl | hv
    · exact .inl ht
    · exact .inr ⟨hv, ht⟩

/-- A comparison with a value goes by the interval over it. -/
theorem mem_outcomes_hull? {f : Interval → Verdict} {t : Bool} (hb : b.Valid) (hq : b.Denotes q)
    (h : ∀ y : Interval, y.Valid → y.bits = b.bits → q.region = numberRegion → y.Denotes q.offset →
      t ∈ (f y).outcomes) :
    t ∈ (b.hull?.elim .maybe f).outcomes := by
  cases hhull : b.hull? with
  | none => exact mem_outcomes_maybe t
  | some y =>
    obtain ⟨hvalid, hbits, hdenotes⟩ := covers_of_hull? hb hhull
    obtain ⟨hregion, hoffset⟩ := hdenotes q hq
    exact h y hvalid hbits hregion hoffset

/-- A comparison of two values admits what it says about any two of their places; about places in
different regions it can say anything. -/
theorem mem_outcomes_verdict {t : Bool} (ha : a.Valid) (hb : b.Valid) (hbits : a.bits = b.bits)
    (hp : a.Denotes p) (hq : b.Denotes q)
    (ht : p.region = q.region → t = decide (c.Holds a.bits p.offset q.offset)) :
    t ∈ (verdict c a b).outcomes := by
  have hinterval {x y : Interval} (hx : x.Valid) (hy : y.Valid) (hxbits : x.bits = a.bits)
      (hybits : y.bits = b.bits) (hxp : x.Denotes p.offset) (hyq : y.Denotes q.offset)
      (hregion : p.region = q.region) : t ∈ (Interval.verdict c x y).outcomes := by
    rw [ht hregion, ← hxbits]
    exact Interval.mem_outcomes_verdict hx hy (hxbits.trans (hbits.trans hybits.symm)) hxp hyq
  cases a with
  | interval x =>
    refine mem_outcomes_hull? hb hq ?_
    intro y hy hybits hqregion hyq
    exact hinterval ha hy rfl hybits hp.2 hyq (hp.1.trans hqregion.symm)
  | set s =>
    refine mem_outcomes_hull? hb hq ?_
    intro y hy hybits hqregion hyq
    obtain ⟨hpregion, x, hx, hxp⟩ := hp
    obtain ⟨hxvalid, hxbits⟩ := IntervalSet.Valid.uniform ha x hx
    exact mem_outcomes_joinAll (List.mem_map_of_mem hx)
      (hinterval hxvalid hy hxbits hybits hxp hyq (hpregion.trans hqregion.symm))
  | valueSet v =>
    cases b with
    | valueSet w =>
      simp only [verdict]
      split
      · rename_i region x other y hx hy
        split
        · obtain ⟨hxvalid, hxbits, hxden⟩ := ValueSet.denotes_of_onlyRegion? ha hx
          obtain ⟨hyvalid, hybits, hyden⟩ := ValueSet.denotes_of_onlyRegion? hb hy
          obtain ⟨hpregion, hxp⟩ := hxden p hp
          obtain ⟨hqregion, hyq⟩ := hyden q hq
          exact hinterval hxvalid hyvalid hxbits hybits hxp hyq
            (by rw [hpregion, hqregion]; exact ‹_ = _›.symm)
        · exact mem_outcomes_maybe t
      · exact mem_outcomes_maybe t
    | interval y =>
      refine mem_outcomes_hull? ha hp ?_
      intro x hx hxbits hpregion hxp
      refine mem_outcomes_hull? hb hq ?_
      intro y hy hybits hqregion hyq
      exact hinterval hx hy hxbits hybits hxp hyq (hpregion.trans hqregion.symm)
    | set t =>
      refine mem_outcomes_hull? ha hp ?_
      intro x hx hxbits hpregion hxp
      refine mem_outcomes_hull? hb hq ?_
      intro y hy hybits hqregion hyq
      exact hinterval hx hy hxbits hybits hxp hyq (hpregion.trans hqregion.symm)

/-! ## Bit operations -/

/-- A valid value of a width that stands for the images of the offsets of another one. -/
structure ImagesOf (bits : Nat) (f : Nat → Nat) (a r : AbstractValue) : Prop where
  valid : r.Valid
  width : r.bits = bits
  denotes : ∀ place, a.Denotes place → r.Denotes ⟨place.region, f place.offset⟩

section

variable {bits : Nat} {f : Nat → Nat}

theorem imagesOf_interval {x z : Interval} (h : Interval.Images bits f x z) :
    ImagesOf bits f (interval x) (interval z) :=
  ⟨h.valid, h.width, fun _ hv => ⟨hv.1, h.denotes _ hv.2⟩⟩

theorem imagesOf_set {s u : IntervalSet} (h : IntervalSet.ImagesOf bits f s u) :
    ImagesOf bits f (set s) (set u) :=
  ⟨h.valid, h.width, fun _ hv => ⟨hv.1, h.denotes _ hv.2⟩⟩

theorem imagesOf_valueSet {v w : ValueSet} (h : ValueSet.ImagesOf bits f v w) :
    ImagesOf bits f (valueSet v) (valueSet w) :=
  ⟨h.valid, h.width, h.denotes⟩

/-- The result of an operation in one shape stands for the images if what the operation succeeds
with does. -/
theorem imagesOf_map {α : Type} {shape : α → AbstractValue} {result : Except OperationError α}
    (himages : ∀ z, result = .ok z → ImagesOf bits f a (shape z)) (h : result.map shape = .ok r) :
    ImagesOf bits f a r := by
  obtain ⟨z, hz, rfl⟩ := map_eq_ok.1 h
  exact himages z hz

end

theorem imagesOf_extract {high low : Nat} (ha : a.Valid) (h : a.extract high low = .ok r) :
    ImagesOf (high - low + 1) (fun v => v / twoPow low % twoPow (high - low + 1)) a r := by
  cases a with
  | interval x =>
    exact imagesOf_map (fun _ hz => imagesOf_interval (Interval.images_of_extract ha hz)) h
  | set s => exact imagesOf_map (fun _ hu => imagesOf_set (IntervalSet.imagesOf_extract ha hu)) h
  | valueSet v =>
    exact imagesOf_map (fun _ hw => imagesOf_valueSet (ValueSet.imagesOf_extract ha hw)) h

theorem imagesOf_zeroExtend {total : Nat} (ha : a.Valid) (h : a.zeroExtend total = .ok r) :
    ImagesOf total id a r := by
  cases a with
  | interval x =>
    exact imagesOf_map (fun _ hz => imagesOf_interval (Interval.images_of_zeroExtend ha hz)) h
  | set s => exact imagesOf_map (fun _ hu => imagesOf_set (IntervalSet.imagesOf_zeroExtend ha hu)) h
  | valueSet v => cases h

theorem imagesOf_signExtend {total : Nat} (ha : a.Valid) (h : a.signExtend total = .ok r) :
    ImagesOf total (fun v => truncateInt total (signedValue a.bits v)) a r := by
  cases a with
  | interval x =>
    exact imagesOf_map (fun _ hz => imagesOf_interval (Interval.images_of_signExtend ha hz)) h
  | set s => exact imagesOf_map (fun _ hu => imagesOf_set (IntervalSet.imagesOf_signExtend ha hu)) h
  | valueSet v => cases h

theorem imagesOf_reverse (ha : a.Valid) (h : a.reverse = .ok r) :
    ImagesOf a.bits (byteReversed a.bits) a r := by
  obtain ⟨hvalid, hbits⟩ := valid_reverse ha h
  exact ⟨hvalid, hbits, fun place hv => (denotes_reverse ha h).2 ⟨place, hv, rfl⟩⟩

theorem valid_shiftRight (ha : a.Valid) (hb : b.Valid) (h : a.shiftRight b = .ok r) :
    r.Valid ∧ r.bits = a.bits := by
  unfold shiftRight at h
  split at h
  · cases h
  · rename_i y hhull
    obtain ⟨hy, -, -⟩ := covers_of_hull? hb hhull
    cases a with
    | interval x =>
      cases h
      exact ⟨Interval.valid_shiftRight ha hy, rfl⟩
    | set s =>
      cases h
      exact ⟨IntervalSet.valid_shiftRight ha hy, IntervalSet.bits_ofMembers _ _⟩
    | valueSet v =>
      cases h
      exact ⟨ValueSet.valid_shiftRight ha hy, rfl⟩

/-- The shift of every offset by every number of the amount is among the results. -/
theorem denotes_shiftRight {n : Nat} (ha : a.Valid) (hb : b.Valid) (h : a.shiftRight b = .ok r)
    (hp : a.Denotes p) (hn : b.Denotes (.number n)) :
    r.Denotes ⟨p.region, p.offset / twoPow n⟩ := by
  unfold shiftRight at h
  split at h
  · cases h
  · rename_i y hhull
    obtain ⟨hy, -, hden⟩ := covers_of_hull? hb hhull
    have hyn : y.Denotes n := (hden _ hn).2
    cases a with
    | interval x =>
      cases h
      exact (imagesOf_interval (Interval.images_shiftRight ha hy hyn)).denotes p hp
    | set s =>
      cases h
      exact (imagesOf_set (IntervalSet.imagesOf_shiftRight ha hy hyn)).denotes p hp
    | valueSet v =>
      cases h
      exact (imagesOf_valueSet (ValueSet.imagesOf_shiftRight ha hy hyn)).denotes p hp

/-- The numbers of one value in front of those of another one. -/
theorem denotes_concat (ha : a.Valid) (hb : b.Valid) (h : a.concat b = .ok r) :
    r.Valid ∧ r.bits = a.bits + b.bits ∧
      ∀ u v, a.Denotes (.number u) → b.Denotes (.number v) →
        r.Denotes (.number (u * twoPow b.bits + v)) := by
  obtain ⟨hleft, hright⟩ := lifted_align ha hb
  unfold concat at h
  cases halign : align a b with
  | intervals x y =>
    rw [halign] at h hleft hright
    obtain ⟨z, hz, rfl⟩ := map_eq_ok.1 h
    obtain ⟨width, rfl⟩ := requireWidth_eq_ok.1 hz
    have hxbits : x.bits = a.bits := hleft.width
    have hybits : y.bits = b.bits := hright.width
    refine ⟨Interval.valid_append hleft.valid hright.valid width, ?_, fun u v hu hv => ⟨rfl, ?_⟩⟩
    · rw [← hxbits, ← hybits]
      rfl
    · rw [← hybits]
      exact Interval.denotes_append hleft.valid hright.valid (hleft.denotes _ hu).2
        (hright.denotes _ hv).2
  | sets s t =>
    rw [halign] at h hleft hright
    obtain ⟨z, hz, rfl⟩ := map_eq_ok.1 h
    obtain ⟨hvalid, hwidth⟩ := IntervalSet.valid_concat hleft.valid hright.valid hz
    have hsbits : s.bits = a.bits := hleft.width
    have htbits : t.bits = b.bits := hright.width
    refine ⟨hvalid, ?_, fun u v hu hv => ⟨rfl, ?_⟩⟩
    · rw [← hsbits, ← htbits]
      exact hwidth
    · rw [← htbits]
      exact IntervalSet.denotes_concat hleft.valid hright.valid hz (hleft.denotes _ hu).2
        (hright.denotes _ hv).2
  | valueSets v w =>
    rw [halign] at h
    cases h

end AbstractValue

end AbstractBits
