import AbstractBits.Proofs.Progression.Lattice
/-!
# Listed progressions

All members of a progression from below, without a limit on how many they are. A sample is a
beginning of this list, and the size is its length; both end where a count of `maxBits` bits does.

Results:
  * `mem_members`, `ascending_members` — the members, in ascending order.
  * `sample_eq_take`, `size_eq_min_length` — samples and sizes in terms of the list.
  * `not_mem_sample_whole` — the last of all numbers of the greatest width is past every count.
-/

namespace AbstractBits

namespace Progression

variable {p : Progression} {n v : Nat}

/-- All members, from below. -/
def members (p : Progression) : List Nat :=
  (List.range ((p.upper - p.lower) / p.stride + 1)).map fun k => p.lower + k * p.stride

theorem length_members (p : Progression) :
    p.members.length = (p.upper - p.lower) / p.stride + 1 := by
  rw [members, List.length_map, List.length_range]

theorem mem_members (hp : p.Normal) : v ∈ p.members ↔ v ∈ p := by
  rw [members, List.mem_map, mem_iff_exists]
  constructor
  · rintro ⟨k, hk, rfl⟩
    refine ⟨k, rfl, ?_⟩
    have hlast : k ≤ (p.upper - p.lower) / p.stride := Nat.le_of_lt_succ (List.mem_range.1 hk)
    calc p.lower + k * p.stride
        ≤ p.lower + (p.upper - p.lower) / p.stride * p.stride :=
          Nat.add_le_add_left (Nat.mul_le_mul_right _ hlast) _
      _ ≤ p.lower + (p.upper - p.lower) := Nat.add_le_add_left (Nat.div_mul_le_self _ _) _
      _ = p.upper := Nat.add_sub_cancel' hp.1
  · rintro ⟨k, rfl, hupper⟩
    rcases Nat.eq_zero_or_pos p.stride with hzero | hpos
    · exact ⟨0, List.mem_range.2 (Nat.succ_pos _), by rw [hzero, Nat.mul_zero, Nat.mul_zero]⟩
    · have hlast : k ≤ (p.upper - p.lower) / p.stride :=
        (Nat.le_div_iff_mul_le hpos).2 (Nat.le_sub_of_add_le' hupper)
      exact ⟨k, List.mem_range.2 (Nat.lt_succ_of_le hlast), rfl⟩

/-- A progression without steps has a single member, so that no member is listed twice. -/
theorem ascending_members (p : Progression) : p.members.Pairwise (· < ·) := by
  rcases Nat.eq_zero_or_pos p.stride with hzero | hpos
  · simp [members, hzero]
  · refine List.pairwise_map.2 (List.pairwise_lt_range.imp fun hlt => ?_)
    exact Nat.add_lt_add_left (Nat.mul_lt_mul_of_pos_right hlt hpos) _

theorem nodup_members (p : Progression) : p.members.Nodup := p.ascending_members.imp Nat.ne_of_lt

/-- The size is the number of members, as far as it can be counted. -/
theorem size_eq_min_length (p : Progression) : p.size = min p.members.length (allOnes maxBits) := by
  rw [size, length_members]
  split
  · rename_i hzero
    rw [hzero, Nat.div_zero]
    rfl
  · rfl

/-- A sample is a beginning of the list of all members. -/
theorem sample_eq_take (p : Progression) (n : Nat) :
    p.sample n = p.members.take (min n (allOnes maxBits)) := by
  rw [sample, size_eq_min_length, length_members, members, ← List.map_take, List.take_range,
    Nat.min_assoc, Nat.min_comm (allOnes maxBits)]

/-- The last of all numbers of the greatest width is past every count. -/
theorem not_mem_sample_whole (n : Nat) : allOnes maxBits ∉ (whole maxBits).sample n := by
  intro hv
  obtain ⟨k, hk, heq⟩ := List.mem_map.1 hv
  rw [List.mem_range, size_eq_min_length] at hk
  rw [whole_eq validWidth_maxBits, Nat.zero_add, Nat.mul_one] at heq
  have hcount : k < allOnes maxBits :=
    Nat.lt_of_lt_of_le hk (Nat.le_trans (Nat.min_le_right _ _) (Nat.min_le_right _ _))
  exact Nat.lt_irrefl k (heq ▸ hcount)

end Progression

end AbstractBits
