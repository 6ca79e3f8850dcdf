import AbstractBits.Proofs.Query.Sampling
/-!
# Rounds over a value set

A value set is sampled in rounds, and each round asks for what the earlier ones have left open. A
round yields fewer offsets than it is asked for only if it yields all there are, and only the last
one is cut short, so that the rounds go through one list of all offsets over and over. A round that
yields nothing has no offsets to yield, and the ones after it would have none either.

A value set is not sampled at all without room for as many numbers as asked for, however few there
are.

Results:
  * `mem_listing`, `sample_eq_take` — a round yields a beginning of the list of all offsets.
  * `sampleRounds_eq_take` — the rounds yield a beginning of the repeated list.
  * `exists_eval_iff` — when a value set is sampled.
  * `samples_cycle` — the samples of a value set, one by one.
-/

namespace AbstractBits

/-- A repeated list, entry by entry. -/
theorem getElem?_flatten_replicate {α : Type} {l : List α} {rounds i : Nat}
    (h : i < rounds * l.length) : (List.replicate rounds l).flatten[i]? = l[i % l.length]? := by
  induction rounds generalizing i with
  | zero => simp at h
  | succ rounds ih =>
    rw [List.replicate_succ, List.flatten_cons]
    rcases Nat.lt_or_ge i l.length with hlt | hge
    · rw [List.getElem?_append_left hlt, Nat.mod_eq_of_lt hlt]
    · have hrest : i - l.length < rounds * l.length := by
        rw [Nat.succ_mul] at h
        exact Nat.sub_lt_right_of_lt_add hge h
      rw [List.getElem?_append_right hge, ih hrest, Nat.mod_eq_sub_mod hge]

/-- Beginnings of lists are enough for the beginning of all lists in a row. -/
theorem take_flatMap_take {α β : Type} (f : α → List β) (l : List α) {m n : Nat} (h : m ≤ n) :
    (l.flatMap fun a => (f a).take n).take m = (l.flatMap f).take m := by
  induction l generalizing m with
  | nil => rfl
  | cons a l ih =>
    have hleft : m - min n (f a).length = m - (f a).length := by omega
    rw [List.flatMap_cons, List.flatMap_cons, List.take_append, List.take_append, List.take_take,
      Nat.min_eq_left h, List.length_take, hleft, ih (Nat.le_trans (Nat.sub_le _ _) h)]

namespace ValueSet

variable {s : ValueSet} {rounds n v : Nat}

/-- All offsets, region by region, each region in the order of its stored members. -/
def listing (s : ValueSet) : List Nat := (s.regions.values.flatMap (·.listing)).map s.shown

theorem mem_listing (hs : s.Valid) : v ∈ s.listing ↔ ∃ region, s.Denotes ⟨region, v⟩ := by
  rw [listing, List.mem_map]
  constructor
  · rintro ⟨u, hu, rfl⟩
    obtain ⟨x, hx, hux⟩ := List.mem_flatMap.1 hu
    obtain ⟨e, he, rfl⟩ := List.mem_map.1 hx
    exact ⟨e.1, e.2, RegionMap.get?_eq_some_iff.2 he, u,
      (Interval.mem_listing (hs.offsets e he).1).1 hux, rfl⟩
  · rintro ⟨region, x, hx, u, hu, hoffset⟩
    have he := RegionMap.get?_eq_some_iff.1 hx
    have hux := (Interval.mem_listing (hs.offsets _ he).1).2 hu
    exact ⟨u, List.mem_flatMap.2 ⟨x, List.mem_map_of_mem he, hux⟩, hoffset.symm⟩

theorem map_shown (s : ValueSet) (stored : List Nat) :
    stored.map s.shown = if s.reversed then stored.map (byteReversed s.bits) else stored :=
  map_if s.reversed (byteReversed s.bits) stored

/-- A round yields a beginning of the list of all offsets. -/
theorem sample_eq_take (hn : n ≤ allOnes maxBits) : s.sample n = s.listing.take n := by
  have hsample : (fun x : Interval => x.sample n) = fun x => x.listing.take n := by
    funext x
    rw [x.sample_eq_take, Nat.min_eq_left hn]
  rw [sample, hsample, take_flatMap_take _ _ (Nat.le_refl n), listing, ← List.map_take, map_shown]

/-- The rounds yield a beginning of the repeated list. -/
theorem sampleRounds_eq_take (hn : n ≤ allOnes maxBits) :
    s.sampleRounds rounds n = (List.replicate rounds s.listing).flatten.take n := by
  induction rounds generalizing n with
  | zero => simp [sampleRounds]
  | succ rounds ih =>
    have hrest := ih (Nat.le_trans (Nat.sub_le n s.listing.length) hn)
    simp only [sampleRounds, List.replicate_succ, List.flatten_cons, List.take_append,
      sample_eq_take hn, List.length_take, tsub_min, hrest]
    split
    · rename_i hzero
      simp [hzero]
    split
    · rename_i hn hempty
      have hnone : s.listing = [] := by simpa [hn] using hempty
      simp [hnone]
    · rfl

theorem length_sampleRounds (hn : n ≤ allOnes maxBits) :
    (s.sampleRounds rounds n).length = min n (rounds * s.listing.length) := by
  simp [sampleRounds_eq_take hn]

/-- A value set is sampled if there is room for as many numbers as asked for, and for all
samples. -/
theorem eval_eq_some_iff {r : Except EvalError (List Sample)} :
    (Value.abstract (.valueSet s)).eval rounds n = some r ↔
      (n < 2 ^ 59 ∧ (s.sampleRounds rounds n).length < 2 ^ 58) ∧
        .ok ((s.sampleRounds rounds n).map .bits) = r := by
  simp [Value.eval, hasRoom_numberBytes, Sample.ofNumbers_eq_some_iff, and_assoc]

/-- When a value set is sampled. -/
theorem exists_eval_iff :
    (∃ r, (Value.abstract (.valueSet s)).eval rounds n = some r) ↔
      n < 2 ^ 59 ∧ min n (rounds * s.listing.length) < 2 ^ 58 := by
  simp only [eval_eq_some_iff, exists_eq_right', and_congr_right_iff]
  intro hn
  rw [length_sampleRounds (Nat.le_trans (Nat.le_of_lt hn) (by decide))]

/-- The samples of a value set, if there is room for them, go through the list of all its offsets
over and over. -/
theorem samples_cycle (hs : s.Valid) (hn : n < 2 ^ 59)
    (hroom : min n (rounds * s.listing.length) < 2 ^ 58) :
    (∀ v, v ∈ s.listing ↔ ∃ region, s.Denotes ⟨region, v⟩) ∧
      ∃ ss, (Value.abstract (.valueSet s)).eval rounds n = some (.ok ss) ∧
        ss.length = min n (rounds * s.listing.length) ∧
        ∀ i < ss.length, ss[i]? = (s.listing[i % s.listing.length]?).map .bits := by
  have hcount : n ≤ allOnes maxBits := Nat.le_trans (Nat.le_of_lt hn) (by decide)
  obtain ⟨r, hr⟩ := exists_eval_iff.2 ⟨hn, hroom⟩
  obtain ⟨-, rfl⟩ := eval_eq_some_iff.1 hr
  refine ⟨fun v => mem_listing hs, _, hr, ?_, fun i hi => ?_⟩
  · rw [List.length_map, length_sampleRounds hcount]
  · rw [List.length_map, length_sampleRounds hcount, Nat.lt_min] at hi
    rw [List.getElem?_map, sampleRounds_eq_take hcount, List.getElem?_take_of_lt hi.1,
      getElem?_flatten_replicate hi.2]

/-- Two offsets in one region and one in another, all with a byte swap pending. -/
def swappedOffsets : ValueSet :=
  ⟨16, (RegionMap.empty.insert "heap" (.ofRange 16 (some ⟨256, 512, 256⟩))).insert "stack"
    (.constant 16 768), true⟩

/-- The fifth sample is in the second round. -/
theorem fifth_sample_of_three :
    ∃ ss, (Value.abstract (.valueSet swappedOffsets)).eval 2 5 = some (.ok ss) ∧
      ss.length = 5 ∧ ss[4]? = some (.bits 2) := by
  have hpair : (Interval.ofRange 16 (some ⟨256, 512, 256⟩)).Valid :=
    Interval.valid_ofRange (by decide) (by decide) (by decide)
  have hpoint : (Interval.constant 16 768).Valid := Interval.valid_constant (by decide) 768
  have hregions : RegionMap.Uniform 16 swappedOffsets.regions :=
    RegionMap.uniform_insert
      (RegionMap.uniform_insert (RegionMap.uniform_empty 16) hpair rfl) hpoint rfl
  have hs : swappedOffsets.Valid := ⟨by decide, RegionMap.uniform_iff.1 hregions, by decide⟩
  have hlisting : swappedOffsets.listing = [1, 2, 3] := by decide
  have hroom : min 5 (2 * swappedOffsets.listing.length) < 2 ^ 58 := by
    rw [hlisting]
    decide
  obtain ⟨-, ss, hss, hlength, hentry⟩ := samples_cycle hs (by decide) hroom
  rw [hlisting] at hlength hentry
  exact ⟨ss, hss, hlength, hentry 4 (by rw [hlength]; decide)⟩

end ValueSet

end AbstractBits
