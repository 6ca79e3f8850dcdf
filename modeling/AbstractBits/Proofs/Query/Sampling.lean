import AbstractBits.Query
import AbstractBits.Proofs.Interval.Enumeration
import AbstractBits.Proofs.IntervalSet.Members
import AbstractBits.Proofs.ValueSet.Lattice
/-!
# Samples

Whatever is sampled from a value is one of its numbers, or an offset of one of its places: an
interval lists its stored members and carries out a pending byte swap on each, sets and value sets
put such lists together, and the rounds over a value set only repeat what one round yields.

Results:
  * `IntervalSet.denotes_of_mem_sample`, `ValueSet.exists_denotes_of_mem_sample` — the samples of
    sets and of value sets.
  * `Value.exists_samples` — every abstract value can be sampled, and its samples belong to its
    places.
  * `Value.samples_of_eval` — samples that there is room for are the samples that there are.
-/

namespace AbstractBits

variable {n v : Nat}

theorem Sample.hasRoom_bytes {count : Nat} : HasRoom bytes count ↔ count < 2 ^ 58 :=
  hasRoom_iff (by decide) (by decide)

theorem Sample.ofNumbers_eq_some_iff {ns : List Nat} {ss : List Sample} :
    ofNumbers ns = some ss ↔ ns.length < 2 ^ 58 ∧ ns.map .bits = ss := by
  simp [ofNumbers, hasRoom_bytes]

theorem IntervalSet.denotes_of_mem_sample {s : IntervalSet} (hs : s.Valid) (h : v ∈ s.sample n) :
    s.Denotes v := by
  obtain ⟨x, hx, hv⟩ := List.mem_flatMap.1 (List.mem_of_mem_take h)
  exact ⟨x, hx, (hs.uniform x hx).1.denotes_of_mem_sample hv⟩

namespace ValueSet

variable {s : ValueSet} {rounds : Nat}

/-- A sample is an offset of some region. -/
theorem exists_denotes_of_mem_sample (hs : s.Valid) (h : v ∈ s.sample n) :
    ∃ place, s.Denotes place ∧ place.offset = v := by
  have hstored {u : Nat} (hu : u ∈ (s.regions.values.flatMap (·.sample n)).take n) :
      ∃ place, s.Denotes place ∧ place.offset = s.shown u := by
    obtain ⟨x, hx, hux⟩ := List.mem_flatMap.1 (List.mem_of_mem_take hu)
    obtain ⟨e, he, rfl⟩ := List.mem_map.1 hx
    have hdenotes := (hs.offsets e he).1.denotes_of_mem_sample hux
    exact ⟨⟨e.1, s.shown u⟩, ⟨e.2, RegionMap.get?_eq_some_iff.2 he, u, hdenotes, rfl⟩, rfl⟩
  unfold sample at h
  split at h
  · rename_i hrev
    obtain ⟨u, hu, rfl⟩ := List.mem_map.1 h
    obtain ⟨place, hplace, hoffset⟩ := hstored hu
    exact ⟨place, hplace, by rw [hoffset, shown, if_pos hrev]⟩
  · rename_i hrev
    obtain ⟨place, hplace, hoffset⟩ := hstored h
    exact ⟨place, hplace, by rw [hoffset, shown, if_neg hrev]⟩

/-- Later rounds yield nothing that no single round yields. -/
theorem mem_sample_of_mem_sampleRounds (h : v ∈ s.sampleRounds rounds n) : ∃ m, v ∈ s.sample m := by
  induction rounds generalizing n with
  | zero => cases h
  | succ rounds ih =>
    simp only [sampleRounds] at h
    split at h
    · cases h
    split at h
    · cases h
    rcases List.mem_append.1 h with h | h
    · exact ⟨n, h⟩
    · exact ih h

end ValueSet

/-- Every abstract value can be sampled, and its samples belong to its places. -/
theorem Value.exists_samples {a : AbstractValue} (ha : a.Valid) (rounds n : Nat) :
    ∃ ss, (Value.abstract a).samples rounds n = .ok ss ∧
      ∀ s ∈ ss, ∃ place, a.Denotes place ∧ s = .bits place.offset := by
  cases a with
  | interval x =>
    refine ⟨_, rfl, fun s hs => ?_⟩
    obtain ⟨v, hv, rfl⟩ := List.mem_map.1 hs
    exact ⟨.number v, ⟨rfl, Interval.Valid.denotes_of_mem_sample ha hv⟩, rfl⟩
  | set t =>
    refine ⟨_, rfl, fun s hs => ?_⟩
    obtain ⟨v, hv, rfl⟩ := List.mem_map.1 hs
    exact ⟨.number v, ⟨rfl, IntervalSet.denotes_of_mem_sample ha hv⟩, rfl⟩
  | valueSet w =>
    refine ⟨_, rfl, fun s hs => ?_⟩
    obtain ⟨v, hv, rfl⟩ := List.mem_map.1 hs
    obtain ⟨m, hm⟩ := ValueSet.mem_sample_of_mem_sampleRounds hv
    obtain ⟨place, hplace, rfl⟩ := ValueSet.exists_denotes_of_mem_sample ha hm
    exact ⟨place, hplace, rfl⟩

/-- Samples that there is room for are the samples that there are. -/
theorem Value.samples_of_eval {v : Value} {rounds : Nat} {r : Except EvalError (List Sample)}
    (h : v.eval rounds n = some r) : v.samples rounds n = r := by
  cases v with
  | abstract a =>
    cases a with
    | interval x =>
      obtain ⟨ss, hss, rfl⟩ := Option.map_eq_some_iff.1 h
      obtain ⟨l, hl, hss⟩ := Option.bind_eq_some_iff.1 hss
      obtain ⟨-, rfl⟩ := Interval.eval_eq_some_iff.1 hl
      obtain ⟨-, rfl⟩ := Sample.ofNumbers_eq_some_iff.1 hss
      rfl
    | set s =>
      obtain ⟨ss, hss, rfl⟩ := Option.map_eq_some_iff.1 h
      obtain ⟨-, rfl⟩ := Sample.ofNumbers_eq_some_iff.1 hss
      rfl
    | valueSet s =>
      obtain ⟨-, h⟩ := Option.ite_none_right_eq_some.1 h
      obtain ⟨ss, hss, rfl⟩ := Option.map_eq_some_iff.1 h
      obtain ⟨-, rfl⟩ := Sample.ofNumbers_eq_some_iff.1 hss
      rfl
  | _ => exact Option.some.inj h

end AbstractBits
