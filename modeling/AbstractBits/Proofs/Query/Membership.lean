import AbstractBits.Proofs.Expr.ConstantSpelling
import AbstractBits.Proofs.Interval.Intersection
import AbstractBits.Proofs.Interval.Several
import AbstractBits.Proofs.Query.Bounds
/-!
# Candidates for a value

Whether a candidate can be a number of a value is asked of each interval of the value, by an
intersection with the interval over the candidate. An intersection loses no common number, so that
the answer is never wrongly no. It is exact where one side is a single number and no byte swap is
pending.

Results:
  * `exists_part`, `Unswapped.exists_part_iff` — the intervals that are asked, and the places of the
    value.
  * `isEmpty_meet_of_common`, `isEmpty_meet_iff_of_single` — what an intersection says about common
    numbers.
  * `Value.admits_common_and_exact` — the answer to a question.
-/

namespace AbstractBits

/-! ## Intersections -/

namespace Interval

variable {x y : Interval} {bits n : Nat}

/-- An intersection is not empty if there is a common number. -/
theorem isEmpty_meet_of_common (hx : x.Valid) (hy : y.Valid) (hbits : x.bits = y.bits)
    (hxn : x.Denotes n) (hyn : y.Denotes n) : (x.meet y).isEmpty = false := by
  have hretains := retains_meet hx hy hbits
  exact hretains.valid.exists_denotes.1 ⟨n, hretains.denotes n ⟨hxn, hyn⟩⟩

/-- Without pending byte swaps, the intersection with a single number tells whether that is among
the numbers. -/
theorem isEmpty_meet_iff_of_single (hx : x.Plain bits) (hy : y.Plain bits)
    (hsingle : y.isSingle = true) (hyn : y.Denotes n) :
    (x.meet y).isEmpty = false ↔ x.Denotes n := by
  constructor
  · intro hsome
    obtain ⟨v, hv⟩ := (hx.meet hy).valid.exists_denotes.2 hsome
    obtain ⟨hxv, hyv⟩ := (denotes_meet_iff_common hx hy (.inr (.inl hsingle))).1 hv
    exact (hy.valid.isSingle_iff.1 hsingle).unique hyv hyn ▸ hxv
  · intro hxn
    exact isEmpty_meet_of_common hx.valid hy.valid (hx.same_width hy) hxn hyn

end Interval

/-! ## The intervals of a value -/

namespace AbstractValue

variable {a : AbstractValue} {x y : Interval} {n : Nat} {region : String}

/-- The intervals that a value is asked about a candidate by. -/
def parts : AbstractValue → List Interval
  | interval x => [x]
  | set s => s.members
  | valueSet v => v.cover.regions.values

theorem meets_eq (a : AbstractValue) (y : Interval) :
    a.meets y = requireSameWidth a.bits y.bits (a.parts.any fun x => !(x.meet y).isEmpty) := by
  cases a with
  | interval x => simp [meets, parts]
  | set s => rfl
  | valueSet v => rfl

theorem uniform_parts (ha : a.Valid) (hx : x ∈ a.parts) : x.Valid ∧ x.bits = a.bits := by
  cases a with
  | interval y =>
    obtain rfl := List.mem_singleton.1 hx
    exact ⟨ha, rfl⟩
  | set s => exact IntervalSet.Valid.uniform ha x hx
  | valueSet v =>
    obtain ⟨e, he, rfl⟩ := List.mem_map.1 hx
    exact RegionMap.uniform_iff.1 (ValueSet.uniform_cover ha) e he

/-- A number of a value, or an offset of one of its regions, is among the numbers of its
intervals. -/
theorem exists_part (ha : a.Valid) (hn : a.Denotes ⟨region, n⟩) : ∃ x ∈ a.parts, x.Denotes n := by
  cases a with
  | interval y => exact ⟨y, List.mem_singleton_self y, hn.2⟩
  | set s => exact hn.2
  | valueSet v =>
    obtain ⟨x, hx, hxn⟩ := ValueSet.denotes_cover ha hn
    exact ⟨x, List.mem_map_of_mem (RegionMap.get?_eq_some_iff.1 hx), hxn⟩

/-- Where no byte swap is pending, the numbers of the intervals are those of the value. -/
theorem Unswapped.exists_part_iff (hplain : a.Unswapped) (ha : a.Valid) :
    (∃ x ∈ a.parts, x.Denotes n) ↔ ∃ region, a.Denotes ⟨region, n⟩ := by
  refine ⟨?_, fun ⟨region, hn⟩ => exists_part ha hn⟩
  rintro ⟨x, hx, hxn⟩
  cases a with
  | interval y => exact ⟨numberRegion, rfl, List.mem_singleton.1 hx ▸ hxn⟩
  | set s => exact ⟨numberRegion, rfl, x, hx, hxn⟩
  | valueSet v =>
    rw [parts, ValueSet.cover_of_not_reversed hplain.1] at hx
    obtain ⟨e, he, rfl⟩ := List.mem_map.1 hx
    exact ⟨e.1, (ValueSet.denotes_of_not_reversed hplain.1).2
      ⟨e.2, RegionMap.get?_eq_some_iff.2 he, hxn⟩⟩

theorem Unswapped.reversed_part (hplain : a.Unswapped) (hx : x ∈ a.parts) : x.reversed = false := by
  cases a with
  | interval y => exact List.mem_singleton.1 hx ▸ hplain
  | set s => exact hplain x hx
  | valueSet v =>
    rw [parts, ValueSet.cover_of_not_reversed hplain.1] at hx
    exact hplain.2 x hx

/-- A value meets every interval that has one of its numbers. -/
theorem meets_of_common (ha : a.Valid) (hy : y.Valid) (hbits : a.bits = y.bits)
    (hn : a.Denotes ⟨region, n⟩) (hyn : y.Denotes n) : a.meets y = .ok true := by
  obtain ⟨x, hx, hxn⟩ := exists_part ha hn
  obtain ⟨hxvalid, hxbits⟩ := uniform_parts ha hx
  have hsome := Interval.isEmpty_meet_of_common hxvalid hy (hxbits.trans hbits) hxn hyn
  rw [meets_eq, requireSameWidth_eq_ok]
  exact ⟨hbits, List.any_eq_true.2 ⟨x, hx, by rw [hsome]; rfl⟩⟩

/-- Where no byte swap is pending, a value meets a single number exactly if that is one of its
numbers. -/
theorem Unswapped.exists_meets (hplain : a.Unswapped) (ha : a.Valid) (hy : y.Plain a.bits)
    (hsingle : y.isSingle = true) (hyn : y.Denotes n) :
    ∃ answer, a.meets y = .ok answer ∧ (answer = true ↔ ∃ region, a.Denotes ⟨region, n⟩) := by
  refine ⟨_, by rw [meets_eq]; exact requireSameWidth_eq_ok.2 ⟨hy.width.symm, rfl⟩, ?_⟩
  rw [List.any_eq_true, ← hplain.exists_part_iff ha]
  refine exists_congr fun x => and_congr_right fun hx => ?_
  obtain ⟨hxvalid, hxbits⟩ := uniform_parts ha hx
  rw [Bool.not_eq_true',
    Interval.isEmpty_meet_iff_of_single ⟨hxvalid, hxbits, hplain.reversed_part hx⟩ hy hsingle hyn]

end AbstractValue

/-! ## Candidates -/

namespace Value

variable {a : AbstractValue} {candidate : Value} {c : Concrete} {x : Interval} {bits n : Nat}

/-- The interval over a candidate has the numbers that the candidate can be. -/
theorem denotes_of_candidate (width : ValidWidth bits) (hv : candidate.Valid)
    (h : candidate.candidate bits = .ok x) (hc : candidate.Denotes c)
    (hat : Concrete.At bits c (.number n)) : x.Valid ∧ x.Denotes n := by
  cases candidate with
  | int i =>
    obtain ⟨m, hm, rfl⟩ := map_eq_ok.1 h
    cases hc
    cases hat
    refine ⟨Interval.valid_constant width m, Interval.denotes_constant.2 ?_⟩
    rw [fitInteger_eq_ok hm, truncate, Nat.mod_eq_of_lt (truncateInt_lt bits i)]
  | abstract b =>
    obtain ⟨hhull, -⟩ := bounds_eq_ok.1 h
    obtain ⟨hvalid, -, hcovers⟩ := AbstractValue.covers_of_hull? hv hhull
    exact ⟨hvalid, (hcovers _ (denotes_of_at hc hat).2).2⟩
  | float x => cases h
  | str s => cases h
  | bool v => cases h

/-- The candidates that are single numbers of a width: an integer from the least signed number to
the greatest unsigned one, and an interval of one number, which a word is when it is evaluated. -/
inductive SingleNumber (bits : Nat) : Value → Nat → Prop where
  | integer {i : Int} (hmin : -(twoPow (bits - 1) : Int) ≤ i) (hmax : i ≤ (twoPow bits : Int) - 1) :
      SingleNumber bits (.int i) (truncateInt bits i)
  | point {y : Interval} {n : Nat} (width : y.bits = bits) (single : y.isSingle = true)
      (hn : y.Denotes n) :
      SingleNumber bits (.abstract (.interval y)) n

/-- The interval over a single number is that number. -/
theorem SingleNumber.exists_candidate (width : ValidWidth bits) (hv : candidate.Valid)
    (h : SingleNumber bits candidate n) :
    ∃ x, candidate.candidate bits = .ok x ∧ x.Plain bits ∧ x.isSingle = true ∧ x.Denotes n := by
  cases h with
  | @integer i hmin hmax =>
    refine ⟨.constant bits (truncateInt bits i), ?_, Interval.plain_constant width _, ?_, ?_⟩
    · rw [Value.candidate, fitInteger_of_fits width hmin hmax]
      rfl
    · simp [Interval.constant, Interval.ofRange, Interval.isSingle, Progression.isSingle,
        Progression.single]
    · rw [Interval.denotes_constant, truncate, Nat.mod_eq_of_lt (truncateInt_lt bits i)]
  | @point y _ hwidth hsingle hn =>
    obtain ⟨p, hrange, hp⟩ := Interval.exists_range_of_isSingle hsingle
    have hrev := Interval.Valid.reversed_of_single hv hrange hp
    have hhull : (AbstractValue.interval y).hull? = some y :=
      congrArg some (Interval.cover_of_not_reversed hrev)
    have hsome : y.isEmpty = false := by simp [Interval.isEmpty, hrange]
    exact ⟨y, bounds_eq_ok.2 ⟨hhull, hsome⟩, ⟨hv, hwidth, hrev⟩, hsingle, hn⟩

theorem admits_eq_ok {answer : Bool} : (Value.abstract a).admits candidate = .ok answer ↔
    ∃ x, candidate.candidate a.bits = .ok x ∧ a.meets x = .ok answer := by
  rw [admits, bind_eq_ok]
  simp only [ofOperation_eq_ok]

/-- A candidate is admitted if it can be a number of the value, or an offset of one of its regions.
If no byte swap is pending in the value, a single number is admitted only then. -/
theorem admits_common_and_exact (ha : a.Valid) (hv : candidate.Valid) :
    (∀ answer, (Value.abstract a).admits candidate = .ok answer →
      ∀ region n c, a.Denotes ⟨region, n⟩ → candidate.Denotes c → Concrete.At a.bits c (.number n) →
        answer = true) ∧
      (a.Unswapped → ∀ n, SingleNumber a.bits candidate n →
        ∃ answer, (Value.abstract a).admits candidate = .ok answer ∧
          (answer = true ↔ ∃ region, a.Denotes ⟨region, n⟩)) := by
  have width := AbstractValue.width ha
  constructor
  · intro answer hanswer region n c hn hc hat
    obtain ⟨x, hx, hmeets⟩ := admits_eq_ok.1 hanswer
    obtain ⟨hvalid, hxn⟩ := denotes_of_candidate width hv hx hc hat
    have hbits : a.bits = x.bits := by
      rw [AbstractValue.meets_eq, requireSameWidth_eq_ok] at hmeets
      exact hmeets.1
    exact Except.ok.inj (hmeets.symm.trans (AbstractValue.meets_of_common ha hvalid hbits hn hxn))
  · intro hplain n hsingle
    obtain ⟨x, hx, hxplain, hxsingle, hxn⟩ := hsingle.exists_candidate width hv
    obtain ⟨answer, hmeets, hiff⟩ := hplain.exists_meets ha hxplain hxsingle hxn
    exact ⟨answer, admits_eq_ok.2 ⟨x, hx, hmeets⟩, hiff⟩

/-- Of the byte-swapped images of 256 and 512 the number 1 is admitted. Of the multiples of 8 in a
byte -8 is admitted and 7 is not. -/
theorem candidates_of_swapped_and_plain :
    (Value.abstract (.interval ⟨16, some ⟨256, 512, 256⟩, true, none⟩)).admits (.int 1) = .ok true ∧
      (Value.abstract (.interval (.ofRange 8 (some ⟨0, 248, 8⟩)))).admits (.int (-8)) = .ok true ∧
      (Value.abstract (.interval (.ofRange 8 (some ⟨0, 248, 8⟩)))).admits (.int 7) = .ok false := by
  have hswapped : (AbstractValue.interval ⟨16, some ⟨256, 512, 256⟩, true, none⟩).Valid :=
    Interval.valid_pending (by decide) ⟨by decide, by decide⟩ (by decide) (by decide) (by decide)
  have hplain : (AbstractValue.interval (.ofRange 8 (some ⟨0, 248, 8⟩))).Valid :=
    Interval.valid_ofRange (by decide) (by decide) (by decide)
  have hinteger (i : Int) : (Value.int i).Valid := trivial
  refine ⟨?_, ?_, ?_⟩
  · have hone :
        (AbstractValue.interval ⟨16, some ⟨256, 512, 256⟩, true, none⟩).Denotes ⟨numberRegion, 1⟩ :=
      ⟨rfl, _, rfl, 256, by decide, by decide⟩
    obtain ⟨answer, hanswer⟩ :
        ∃ answer, (Value.abstract (.interval ⟨16, some ⟨256, 512, 256⟩, true, none⟩)).admits
          (.int 1) = .ok answer :=
      ⟨_, rfl⟩
    rw [hanswer,
      (admits_common_and_exact hswapped (hinteger 1)).1 answer hanswer _ _
        (.literal 1) hone rfl (.literal 1)]
  · obtain ⟨answer, hanswer, hiff⟩ :=
      (admits_common_and_exact hplain (hinteger (-8))).2 rfl 248 (.integer (by decide) (by decide))
    rw [hanswer, hiff.2 ⟨numberRegion, rfl, _, rfl, 248, by decide, rfl⟩]
  · obtain ⟨answer, hanswer, hiff⟩ :=
      (admits_common_and_exact hplain (hinteger 7)).2 rfl 7 (.integer (by decide) (by decide))
    have hnot : answer ≠ true := fun htrue => by
      obtain ⟨region, -, p, hp, u, hu, hshown⟩ := hiff.1 htrue
      cases hp
      obtain rfl : u = 7 := hshown.symm
      exact absurd hu (by decide)
    rw [hanswer, eq_false_of_ne_true hnot]

end Value

end AbstractBits
