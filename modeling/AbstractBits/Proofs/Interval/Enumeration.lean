import Mathlib.Data.Set.Card
import AbstractBits.Construction
import AbstractBits.Proofs.Interval.Inclusion
import AbstractBits.Proofs.Interval.Several
import AbstractBits.Proofs.Progression.Enumeration
import AbstractBits.Proofs.Progression.Image
/-!
# Listing, counting and asking

An interval can be listed, counted, asked for a number, asked for extreme sizes and compared.
Without a pending byte swap these are views of one set of numbers. They differ where numbers are too
many: all numbers of the greatest width are one more than can be counted, and no call lists a number
that has too many below it for a list with room in memory.

Results:
  * `mem_listing`, `nodup_listing`, `sample_eq_take` — a sample is a beginning of a list of all
    numbers.
  * `Plain.unnamed_eq_iff` — intervals are equal if they stand for the same numbers.
  * `eval_eq_some_iff`, `Valid.exists_eval_iff` — which calls are answered, and which numbers they
    list.
  * `ViewsAgree`, `samples_and_views` — what the views have to do with each other.
  * `last_of_whole_unlisted` — a number that is contained and that no call lists.
-/

namespace AbstractBits

/-! ## Lists -/

theorem map_if {α : Type} (c : Bool) (f : α → α) (l : List α) :
    (l.map fun a => if c then f a else a) = if c then l.map f else l := by
  cases c with
  | true => rfl
  | false => exact List.map_id l

/-- A beginning of an ascending list has every entry up to one of its own. -/
theorem mem_take_of_le {l : List Nat} {k u : Nat} (hl : l.Pairwise (· < ·)) (hv : v ∈ l.take k)
    (hu : u ∈ l) (hle : u ≤ v) : u ∈ l.take k := by
  rw [← List.take_append_drop k l] at hl hu
  obtain ⟨-, -, hacross⟩ := List.pairwise_append.1 hl
  rcases List.mem_append.1 hu with htake | hdrop
  · exact htake
  · exact absurd (hacross v hv u hdrop) (Nat.not_lt.2 hle)

/-- An entry of an ascending list is as far from its beginning as there are lesser ones. -/
theorem mem_take_iff {l : List Nat} {k : Nat} (hl : l.Pairwise (· < ·)) :
    v ∈ l.take k ↔ v ∈ l ∧ (l.filter (· < v)).length < k := by
  induction l generalizing k with
  | nil => simp
  | cons a l ih =>
    obtain ⟨hfirst, hrest⟩ := List.pairwise_cons.1 hl
    cases k with
    | zero => simp
    | succ k =>
      rw [List.take_succ_cons, List.mem_cons, List.mem_cons, ih hrest]
      rcases eq_or_ne v a with rfl | hne
      · have hbelow : (v :: l).filter (· < v) = [] := by
          simpa using fun u hu => Nat.le_of_lt (hfirst u hu)
        simp [hbelow]
      · rw [or_iff_right hne, or_iff_right hne, and_congr_right_iff]
        intro hv
        rw [List.filter_cons_of_pos (by simpa using hfirst v hv), List.length_cons,
          Nat.succ_lt_succ_iff]

/-- A set of numbers has as many as a list of them without repetitions. -/
theorem ncard_eq_length {s : Set Nat} {l : List Nat} (hl : l.Nodup) (h : ∀ v, v ∈ s ↔ v ∈ l) :
    s.ncard = l.length := by
  have hlisted : s = (l.toFinset : Set Nat) := by
    ext v
    simp [h v]
  rw [hlisted, Set.ncard_coe_finset, List.toFinset_card_of_nodup hl]

theorem hasRoom_numberBytes {count : Nat} : HasRoom numberBytes count ↔ count < 2 ^ 59 :=
  hasRoom_iff (by decide) (by decide)

namespace Interval

variable {x y : Interval} {p : Progression} {bits n v : Nat}

/-! ## The list of all numbers -/

/-- All numbers, in the order of the stored members. -/
def listing (x : Interval) : List Nat := (x.range.elim [] (·.members)).map x.shown

theorem map_shown (x : Interval) (stored : List Nat) :
    stored.map x.shown = if x.reversed then stored.map (byteReversed x.bits) else stored :=
  map_if x.reversed (byteReversed x.bits) stored

theorem sample_eq_take (x : Interval) (n : Nat) :
    x.sample n = x.listing.take (min n (allOnes maxBits)) := by
  have hstored : x.range.elim [] (·.sample n) =
      (x.range.elim [] (·.members)).take (min n (allOnes maxBits)) := by
    cases x.range with
    | none => exact List.take_nil.symm
    | some p => exact p.sample_eq_take n
  rw [sample, hstored, listing, ← List.map_take, map_shown]

theorem size_eq_min_length (x : Interval) : x.size = min x.listing.length (allOnes maxBits) := by
  rw [size, listing, List.length_map]
  cases x.range with
  | none => exact (Nat.zero_min _).symm
  | some p => exact p.size_eq_min_length

/-- A sample is the beginning of the list that has as many numbers as asked for, or as can be
counted. -/
theorem sample_eq_take_size (x : Interval) (n : Nat) :
    x.sample n = x.listing.take (min n x.size) := by
  rw [sample_eq_take, size_eq_min_length, ← Nat.min_assoc, Nat.min_right_comm,
    ← List.take_eq_take_min]

theorem mem_listing (hx : x.Valid) : v ∈ x.listing ↔ x.Denotes v := by
  cases hrange : x.range with
  | none => simp [listing, Denotes, hrange]
  | some p =>
    have hmem (u : Nat) : u ∈ p.members ↔ u ∈ p := Progression.mem_members (hx.fits hrange).1
    simp only [listing, hrange, Option.elim_some, List.mem_map, hmem, denotes_of_range hrange,
      eq_comm]

theorem nodup_listing (hx : x.Valid) : x.listing.Nodup := by
  cases hrange : x.range with
  | none => simp [listing, hrange]
  | some p =>
    obtain ⟨hnormal, hupper⟩ := hx.fits hrange
    have hbound {u : Nat} (hu : u ∈ p.members) : u < twoPow x.bits :=
      (le_allOnes_iff hx.width).1 (Nat.le_trans ((Progression.mem_members hnormal).1 hu).2.1 hupper)
    rw [listing, hrange]
    exact List.Nodup.map_on (fun u hu w hw h => shown_injective hx (hbound hu) (hbound hw) h)
      p.nodup_members

theorem ascending_listing (hrev : x.reversed = false) : x.listing.Pairwise (· < ·) := by
  rw [listing, map_shown, hrev]
  cases x.range with
  | none => exact .nil
  | some p => exact p.ascending_members

/-- How many numbers an interval stands for. -/
theorem ncard_denotes (hx : x.Valid) : {v | x.Denotes v}.ncard = x.listing.length :=
  ncard_eq_length (nodup_listing hx) fun _ => (mem_listing hx).symm

/-- How many of them are below a number. -/
theorem ncard_denotes_lt (hx : x.Valid) (v : Nat) :
    {u | x.Denotes u ∧ u < v}.ncard = (x.listing.filter (· < v)).length := by
  refine ncard_eq_length ((nodup_listing hx).filter _) fun u => ?_
  simp [mem_listing hx]

theorem Valid.denotes_of_mem_sample (hx : x.Valid) (hv : v ∈ x.sample n) : x.Denotes v := by
  rw [sample_eq_take] at hv
  exact (mem_listing hx).1 (List.mem_of_mem_take hv)

/-! ## Calls -/

/-- A call is answered if there is room for the numbers that it asks for, as far as there are so
many. -/
theorem eval_eq_some_iff {l : List Nat} :
    x.eval n = some l ↔ min n x.size < 2 ^ 59 ∧ x.sample n = l := by
  simp [eval, hasRoom_numberBytes]

/-- A call lists a number if there are not too many below it. -/
theorem Valid.exists_eval_iff (hx : x.Valid) (hrev : x.reversed = false) :
    (∃ n < 2 ^ 64, ∃ l, x.eval n = some l ∧ v ∈ l) ↔
      x.Denotes v ∧ {u | x.Denotes u ∧ u < v}.ncard < 2 ^ 59 - 1 := by
  rw [ncard_denotes_lt hx, ← mem_listing hx]
  constructor
  · rintro ⟨n, -, l, hl, hv⟩
    obtain ⟨hroom, rfl⟩ := eval_eq_some_iff.1 hl
    rw [sample_eq_take_size] at hv
    obtain ⟨hmem, hbelow⟩ := (mem_take_iff (ascending_listing hrev)).1 hv
    exact ⟨hmem, Nat.lt_of_lt_of_le hbelow (Nat.le_sub_one_of_lt hroom)⟩
  · rintro ⟨hmem, hbelow⟩
    have hlength : (x.listing.filter (· < v)).length < x.listing.length :=
      List.length_filter_lt_length_iff_exists.2 ⟨v, hmem, by simp⟩
    have hlimit : 2 ^ 59 - 1 ≤ allOnes maxBits := by decide
    refine ⟨2 ^ 59 - 1, by decide, _, eval_eq_some_iff.2 ⟨?_, rfl⟩, ?_⟩
    · exact Nat.lt_of_le_of_lt (Nat.min_le_left _ _) (by decide)
    · rw [sample_eq_take_size, mem_take_iff (ascending_listing hrev), and_iff_right hmem,
        size_eq_min_length]
      exact Nat.lt_min.2 ⟨hbelow, Nat.lt_min.2 ⟨hlength, Nat.lt_of_lt_of_le hbelow hlimit⟩⟩

/-! ## Equal intervals -/

theorem Plain.range_of_subset (hx : x.Plain bits) (hy : y.Plain bits) (hxy : x ⊆ y) (hyx : y ⊆ x)
    (hp : x.range = some p) : y.range = some p := by
  obtain ⟨q, hq, hpq⟩ := (subset_iff_ranges hx hy.unreversed).1 hxy p hp
  have hqp := (subset_iff_of_ranges hy.unreversed hx.unreversed hq hp).1 hyx
  rw [Progression.subset_antisymm (hx.fits hp).1 (hy.fits hq).1 hpq hqp]
  exact hq

theorem Plain.unnamed_eq_of_subset (hx : x.Plain bits) (hy : y.Plain bits) (hxy : x ⊆ y)
    (hyx : y ⊆ x) : x.unnamed = y.unnamed := by
  have hrange : x.range = y.range :=
    Option.ext fun _ => ⟨hx.range_of_subset hy hxy hyx, hy.range_of_subset hx hyx hxy⟩
  simp only [unnamed, hrange, hx.width, hy.width, hx.unreversed, hy.unreversed]

/-- Intervals are equal if they stand for the same numbers. -/
theorem Plain.unnamed_eq_iff (hx : x.Plain bits) (hy : y.Plain bits) :
    x.unnamed = y.unnamed ↔ ∀ v, x.Denotes v ↔ y.Denotes v := by
  constructor
  · intro h v
    rw [← denotes_unnamed x, h, denotes_unnamed]
  · intro h
    exact hx.unnamed_eq_of_subset hy (fun v => (h v).1) (fun v => (h v).2)

/-! ## Asking and counting -/

theorem Plain.contains_iff (hx : x.Plain bits) : x.contains v = true ↔ x.Denotes v := by
  rw [contains, cover_of_not_reversed hx.unreversed, denotes_iff_mem hx.unreversed]
  cases x.range <;> simp

/-- The interval of all numbers of its width is known to be that. -/
theorem Valid.isTop_iff (hx : x.Valid) : x.isTop = true ↔ x.unnamed = whole x.bits := by
  rw [whole, Progression.whole_eq hx.width]
  constructor
  · intro htop
    obtain ⟨hrev, p, hrange, ⟨hlower, hupper⟩, hstride⟩ :
        x.reversed = false ∧ ∃ p, x.range = some p ∧
          (p.lower = 0 ∧ p.upper = allOnes x.bits) ∧ p.stride ≤ 1 := by
      simpa [isTop, Option.any_eq_true] using htop
    have hpos := allOnes_pos hx.width
    have hne : p.stride ≠ 0 := fun hzero => by
      have hends := (hx.fits hrange).1.2.1.1 hzero
      rw [hlower, hupper] at hends
      exact Nat.ne_of_lt hpos hends
    have hone : p.stride = 1 := Nat.le_antisymm hstride (Nat.pos_of_ne_zero hne)
    rw [unnamed, hrev, hrange, ← hlower, ← hupper, ← hone]
    rfl
  · intro h
    have hrev : x.reversed = false := congrArg reversed h
    have hrange : x.range = some ⟨0, allOnes x.bits, 1⟩ := congrArg range h
    simp [isTop, hrev, hrange]

/-! ## The views -/

/-- What a call answers that asks for `n` numbers, and when it does. -/
structure Listed (x : Interval) (n : Nat) : Prop where
  answered : (∃ l, x.eval n = some l) ↔ min n x.size < 2 ^ 59
  length : ∀ l, x.eval n = some l → l.length = min n x.size
  distinct : ∀ l, x.eval n = some l → l.Nodup
  denoted : ∀ l, x.eval n = some l → ∀ v ∈ l, x.Denotes v

/-- The views of the numbers of an interval without a pending byte swap. -/
structure ViewsAgree (x : Interval) : Prop where
  /-- No number is left out below a listed one. -/
  smallest : ∀ n l, x.eval n = some l → ∀ v ∈ l, ∀ u, x.Denotes u → u ≤ v → u ∈ l
  ascending : ∀ n l, x.eval n = some l → l.Pairwise (· < ·)
  contains : ∀ v, x.contains v = true ↔ x.Denotes v
  /-- The numbers that a call lists which asks for less than `2 ^ 64` of them. -/
  listed : ∀ v, (∃ n < 2 ^ 64, ∃ l, x.eval n = some l ∧ v ∈ l) ↔
    x.contains v = true ∧ {u | x.Denotes u ∧ u < v}.ncard < 2 ^ 59 - 1
  size : x.size = min {v | x.Denotes v}.ncard (allOnes maxBits)
  isEmpty : x.isEmpty = true ↔ ∀ v, ¬x.Denotes v
  isSingle : x.isSingle = true ↔ ∃! v, x.Denotes v
  isTop : x.isTop = true ↔ ∀ v, v ≤ allOnes x.bits → x.Denotes v
  equal : ∀ y : Interval, y.Valid → y.bits = x.bits → y.reversed = false →
    (x.unnamed = y.unnamed ↔ ∀ v, x.Denotes v ↔ y.Denotes v)

theorem Valid.listed (hx : x.Valid) (n : Nat) : x.Listed n where
  answered := by simp [eval_eq_some_iff]
  length := by
    intro l hl
    obtain ⟨-, rfl⟩ := eval_eq_some_iff.1 hl
    rw [sample_eq_take_size, List.length_take, size_eq_min_length, Nat.min_assoc,
      Nat.min_right_comm, Nat.min_self]
  distinct := by
    intro l hl
    obtain ⟨-, rfl⟩ := eval_eq_some_iff.1 hl
    rw [sample_eq_take]
    exact (nodup_listing hx).sublist (List.take_sublist _ _)
  denoted := by
    intro l hl v hv
    obtain ⟨-, rfl⟩ := eval_eq_some_iff.1 hl
    exact hx.denotes_of_mem_sample hv

theorem Valid.isEmpty_iff (hx : x.Valid) : x.isEmpty = true ↔ ∀ v, ¬x.Denotes v := by
  rw [← not_exists, hx.exists_denotes, Bool.not_eq_false]

theorem Plain.isTop_iff (hx : x.Plain bits) :
    x.isTop = true ↔ ∀ v, v ≤ allOnes bits → x.Denotes v := by
  have width : ValidWidth bits := hx.width ▸ hx.valid.width
  rw [hx.valid.isTop_iff, hx.width, ← show (whole bits).unnamed = whole bits from rfl,
    hx.unnamed_eq_iff ⟨valid_whole width, rfl, rfl⟩]
  constructor
  · intro h v hv
    exact (h v).2 (denotes_whole.2 hv)
  · intro h v
    rw [denotes_whole]
    exact ⟨fun hv => hx.width ▸ hx.valid.le_allOnes hv, h v⟩

theorem Plain.viewsAgree (hx : x.Plain x.bits) : x.ViewsAgree where
  smallest := by
    intro n l hl v hv u hu hle
    obtain ⟨-, rfl⟩ := eval_eq_some_iff.1 hl
    rw [sample_eq_take] at hv ⊢
    exact mem_take_of_le (ascending_listing hx.unreversed) hv ((mem_listing hx.valid).2 hu) hle
  ascending := by
    intro n l hl
    obtain ⟨-, rfl⟩ := eval_eq_some_iff.1 hl
    rw [sample_eq_take]
    exact (ascending_listing hx.unreversed).sublist (List.take_sublist _ _)
  contains := fun _ => hx.contains_iff
  listed := fun _ =>
    (hx.valid.exists_eval_iff hx.unreversed).trans (and_congr_left' hx.contains_iff.symm)
  size := by rw [ncard_denotes hx.valid, size_eq_min_length]
  isEmpty := hx.valid.isEmpty_iff
  isSingle := hx.valid.isSingle_iff
  isTop := hx.isTop_iff
  equal := fun _ hy hbits hrev => hx.unnamed_eq_iff ⟨hy, hbits, hrev⟩

/-- Calls list different numbers, as many as asked for or as there are, if there is room for them.
Without a pending byte swap the views of the numbers agree. -/
theorem samples_and_views (hx : x.Valid) :
    (∀ n, x.Listed n) ∧ (x.reversed = false → x.ViewsAgree) :=
  ⟨hx.listed, fun hrev => Plain.viewsAgree ⟨hx, rfl, hrev⟩⟩

/-- The two smallest of three numbers, and their number. -/
theorem views_of_two_five_eight :
    let x : Interval := ofRange 8 (some ⟨2, 8, 3⟩)
    x.Valid ∧ x.Listed 2 ∧ x.eval 2 = some [2, 5] ∧ x.ViewsAgree := by
  have hx : (ofRange 8 (some ⟨2, 8, 3⟩)).Valid := valid_of_ofBounds (rfl : ofBounds 8 3 2 9 = .ok _)
  obtain ⟨hlisted, hviews⟩ := samples_and_views hx
  exact ⟨hx, hlisted 2, by decide, hviews rfl⟩

/-- The last number of the greatest width is contained in the interval of all, and no call lists
it. -/
theorem last_of_whole_unlisted :
    Built (.interval (whole 128)) ∧ (whole 128).reversed = false ∧
      (whole 128).contains (2 ^ 128 - 1) = true ∧
      ∀ n l, (whole 128).eval n = some l → 2 ^ 128 - 1 ∉ l := by
  have hplain : (whole 128).Plain 128 := ⟨valid_whole validWidth_maxBits, rfl, rfl⟩
  refine ⟨.top (rfl : top 128 = .ok (whole 128)), rfl, ?_, fun n l hl hv => ?_⟩
  · exact hplain.contains_iff.2 (denotes_whole.2 (Nat.le_refl _))
  · obtain ⟨-, rfl⟩ := eval_eq_some_iff.1 hl
    exact Progression.not_mem_sample_whole n hv

end Interval

end AbstractBits
