import Mathlib.Data.Set.Card
import Mathlib.Data.Set.Finite.Lattice
import AbstractBits.Proofs.AbstractValue.Lattice
import AbstractBits.Proofs.ValueSet.Widening
/-!
# Repeated widening stops

A value that is widened over and over by newer ones changes only finitely often, as long as the
regions of the newer ones come from finitely many names. A set becomes an interval with the first
widening, an interval can become a value set, and a value set stays one; in each shape the changes
that are left are bounded.

Results:
  * `descends_widen` — a widening that changes a value leaves it fewer changes.
  * `repeated_widening_stabilizes` — every sequence of widenings is constant from some step on, and
    intervals change at most `3 * bits + 3` times.
-/

namespace AbstractBits

/-! ## Sequences with finitely many changes -/

section

variable {α : Type} {f : Nat → α} {left : Nat → Nat}

theorem antitone_of_descends (h : ∀ i, Descends (left i) (left (i + 1)) (f (i + 1) = f i)) :
    Antitone left :=
  antitone_nat_of_succ_le fun i => (h i).le

/-- Each change has a bound of its own below the first one. -/
theorem injOn_changes (h : ∀ i, Descends (left i) (left (i + 1)) (f (i + 1) = f i)) :
    Set.MapsTo (fun i => left (i + 1)) {i | f (i + 1) ≠ f i} (Finset.range (left 0) : Finset Nat) ∧
      Set.InjOn (fun i => left (i + 1)) {i | f (i + 1) ≠ f i} := by
  have hanti := antitone_of_descends h
  have hdrop {i : Nat} (hi : f (i + 1) ≠ f i) : left (i + 1) < left i :=
    Nat.lt_of_le_of_ne (h i).le fun heq => hi ((h i).unchanged heq)
  refine ⟨fun i hi => ?_, fun i hi j hj heq => ?_⟩
  · rw [Finset.mem_coe, Finset.mem_range]
    exact Nat.lt_of_lt_of_le (hdrop hi) (hanti (Nat.zero_le i))
  · simp only at heq
    rcases Nat.lt_trichotomy i j with hlt | rfl | hlt
    · have hle := hanti (Nat.succ_le_of_lt hlt)
      have := hdrop hj
      simp only [Nat.succ_eq_add_one] at hle
      omega
    · rfl
    · have hle := hanti (Nat.succ_le_of_lt hlt)
      have := hdrop hi
      simp only [Nat.succ_eq_add_one] at hle
      omega

theorem finite_changes (h : ∀ i, Descends (left i) (left (i + 1)) (f (i + 1) = f i)) :
    {i | f (i + 1) ≠ f i}.Finite := by
  obtain ⟨hmaps, hinj⟩ := injOn_changes h
  exact Set.Finite.of_injOn hmaps hinj (Finset.finite_toSet _)

theorem ncard_changes_le (h : ∀ i, Descends (left i) (left (i + 1)) (f (i + 1) = f i)) :
    {i | f (i + 1) ≠ f i}.ncard ≤ left 0 := by
  obtain ⟨hmaps, hinj⟩ := injOn_changes h
  have hle := Set.ncard_le_ncard_of_injOn _ hmaps hinj (Finset.finite_toSet _)
  rwa [Set.ncard_coe_finset, Finset.card_range] at hle

/-- After the last change the sequence is constant. -/
theorem eventually_constant (h : ∀ i, Descends (left i) (left (i + 1)) (f (i + 1) = f i)) :
    ∃ N, ∀ i, N ≤ i → f i = f N := by
  obtain ⟨N, hN⟩ := (finite_changes h).bddAbove
  refine ⟨N + 1, ?_⟩
  intro i hi
  induction i, hi using Nat.le_induction with
  | base => rfl
  | succ i hi ih =>
    by_contra hne
    have hchange : i ∈ {i | f (i + 1) ≠ f i} := fun heq => hne (heq.trans ih)
    have := hN hchange
    omega

end

/-! ## One widening -/

namespace IntervalSet

theorem empty_join (bits : Nat) (x : Interval) :
    (Interval.empty bits).join x = .ofRange bits x.cover.range := by
  have hnone : (Interval.empty bits).cover.range = none := rfl
  rw [Interval.join, Interval.combine, if_neg (by simp [Interval.empty, Interval.ofRange]), hnone,
    Option.merge_none_left]
  rfl

/-- The interval over a set of one interval is its cover. -/
theorem hull_ofInterval {x : Interval} (hx : x.Valid) : (ofInterval x).hull = x.cover.stored := by
  cases hsome : x.isEmpty with
  | true =>
    have hrange : x.range = none := by simpa [Interval.isEmpty] using hsome
    have hrev := hx.reversed_of_isEmpty hsome
    simp [hull, ofInterval, ofMembers, arrange, hsome, joinAll, capacity, Interval.empty,
      Interval.cover_of_not_reversed hrev, Interval.stored, hrange]
  | false =>
    simp [hull, ofInterval, ofMembers, arrange, insertMember, hsome, joinAll, capacity, empty_join,
      Interval.stored]

end IntervalSet

namespace AbstractValue

variable {names : Finset String} {a b : AbstractValue}

/-- All regions of a value set have names from a set. -/
def Within (names : Finset String) : AbstractValue → Prop
  | valueSet v => v.regions.Within names
  | _ => True

/-- More changes than a value set with regions of the given names can have left. -/
def plainRoof (names : Finset String) (bits : Nat) : Nat := names.card * (3 * bits + 2) + 2

/-- How often a value with regions of the given names can still be changed by widening. -/
def changesLeft (names : Finset String) : AbstractValue → Nat
  | interval x => plainRoof names x.bits + x.changesLeft
  | set s => plainRoof names s.bits + (3 * s.bits + 2)
  | valueSet v => v.changesLeft names

theorem within_ofInterval (hnumber : numberRegion ∈ names) (x : Interval) :
    (ValueSet.ofInterval x).regions.Within names := by
  refine RegionMap.within_of_get? ?_
  intro region hregion
  have hne : region ≠ numberRegion := fun heq => hregion (heq ▸ hnumber)
  unfold ValueSet.ofInterval
  split
  · rfl
  · simp only [RegionMap.get?_insert, RegionMap.get?_empty, if_neg hne]

theorem within_toValueSet (hnumber : numberRegion ∈ names) (ha : a.Within names) :
    a.toValueSet.regions.Within names := by
  cases a with
  | interval x => exact within_ofInterval hnumber x
  | set s => exact within_ofInterval hnumber s.hull
  | valueSet v => exact ha

/-- A plain value can become a value set, which has fewer changes left. -/
theorem descends_toValueSet {u : ValueSet} {p : Prop} (hu : u.Valid) (hbits : u.bits = a.bits)
    (hplain : plainRoof names a.bits ≤ a.changesLeft names) :
    Descends (a.changesLeft names) ((valueSet u).changesLeft names) p := by
  have hle := hu.changesLeft_le names
  refine .of_lt ?_
  rw [hbits] at hle
  unfold plainRoof at hplain
  have hvalueSet : (valueSet u).changesLeft names = u.changesLeft names := rfl
  omega

/-- The intervals over two plain values, widened. -/
theorem descends_stretch {x y : Interval} (hx : x.Valid) (hy : y.Valid) (hbits : x.bits = y.bits) :
    Descends ((interval x).changesLeft names) ((interval (x.stretch y)).changesLeft names)
      ((interval (x.stretch y)).unnamed = (interval x).unnamed) := by
  have hwidth := (Interval.retains_stretch hx hy hbits).width
  have hroof := Descends.of_unchanged (plainRoof names x.bits) trivial
  simp only [changesLeft, hwidth]
  exact (hroof.add (Interval.descends_stretch hx hy hbits)).imp fun h => congrArg interval h.2

/-- A set becomes an interval, which has fewer changes left. -/
theorem descends_set {s : IntervalSet} {z : Interval} {p : Prop} (hz : z.Valid)
    (hbits : z.bits = s.bits) :
    Descends ((set s).changesLeft names) ((interval z).changesLeft names) p := by
  have hle := hz.changesLeft_le
  refine .of_lt ?_
  rw [hbits] at hle
  simp only [changesLeft, hbits]
  omega

/-- An interval gives up a pending byte swap when it is widened by a set. -/
theorem descends_stretch_cover {x y : Interval} (hx : x.Valid) (hy : y.Valid)
    (hbits : x.bits = y.bits) :
    Descends ((interval x).changesLeft names)
      ((interval (x.cover.stored.stretch y)).changesLeft names)
      ((interval (x.cover.stored.stretch y)).unnamed = (interval x).unnamed) := by
  have hcover : x.cover.stored.Valid := Interval.valid_stored (Interval.valid_cover hx)
  have hwidth : x.cover.stored.bits = x.bits := Interval.bits_cover x
  have hsteps :=
    (Interval.descends_cover hx).trans (Interval.descends_stretch hcover hy (hwidth.trans hbits))
  have hstretched := (Interval.retains_stretch hcover hy (hwidth.trans hbits)).width.trans hwidth
  have hroof := Descends.of_unchanged (plainRoof names x.bits) trivial
  simp only [changesLeft, hstretched]
  exact (hroof.add hsteps).imp fun h => congrArg interval (h.2.2.trans h.2.1)

/-- A widening that changes a value leaves it fewer changes. -/
theorem descends_widen (ha : a.Valid) (hb : b.Valid) (hbits : a.bits = b.bits)
    (hnumber : numberRegion ∈ names) (haw : a.Within names) (hbw : b.Within names) :
    ∃ c, a.widen b = .ok c ∧ c.Within names ∧
      Descends (a.changesLeft names) (c.changesLeft names) (c.unnamed = a.unnamed) := by
  obtain ⟨c, hc, hretains⟩ := combines_widen.succeeds a b ha hb hbits
  obtain ⟨hleft, hright⟩ := lifted_align ha hb
  have hsame := hleft.width.trans (hbits.trans hright.width.symm)
  have hsets := ValueSet.descends_widen (lifted_toValueSet ha).valid (lifted_toValueSet hb).valid
    ((lifted_toValueSet ha).width.trans (hbits.trans (lifted_toValueSet hb).width.symm))
    (within_toValueSet hnumber haw) (within_toValueSet hnumber hbw)
  obtain ⟨u, hu, huw, hdescends⟩ := hsets
  refine ⟨c, hc, ?_⟩
  cases a with
  | interval x =>
    cases b with
    | interval y =>
      have hwiden : (interval x).widen (interval y) = .ok (interval (x.stretch y)) :=
        map_requireSameWidth hsame _ _
      cases hc.symm.trans hwiden
      exact ⟨trivial, descends_stretch ha hb hsame⟩
    | set t =>
      have hwiden :
          (interval x).widen (set t) = .ok (interval (x.cover.stored.stretch t.hull)) := by
        rw [← IntervalSet.hull_ofInterval ha]
        exact map_requireSameWidth hsame _ _
      cases hc.symm.trans hwiden
      exact ⟨trivial, descends_stretch_cover ha (IntervalSet.valid_hull hb)
        (hbits.trans (IntervalSet.bits_hull hb).symm)⟩
    | valueSet w =>
      have hwiden : (interval x).widen (valueSet w) = .ok (valueSet u) := map_eq_ok.2 ⟨u, hu, rfl⟩
      cases hc.symm.trans hwiden
      exact ⟨huw, descends_toValueSet hretains.valid hretains.width (Nat.le_add_right _ _)⟩
  | set s =>
    cases b with
    | interval y =>
      have hwiden : (set s).widen (interval y) =
          .ok (interval (s.hull.stretch (IntervalSet.ofInterval y).hull)) :=
        map_requireSameWidth hsame _ _
      cases hc.symm.trans hwiden
      exact ⟨trivial, descends_set hretains.valid hretains.width⟩
    | set t =>
      have hwiden : (set s).widen (set t) = .ok (interval (s.hull.stretch t.hull)) :=
        map_requireSameWidth hsame _ _
      cases hc.symm.trans hwiden
      exact ⟨trivial, descends_set hretains.valid hretains.width⟩
    | valueSet w =>
      have hwiden : (set s).widen (valueSet w) = .ok (valueSet u) := map_eq_ok.2 ⟨u, hu, rfl⟩
      cases hc.symm.trans hwiden
      exact ⟨huw, descends_toValueSet hretains.valid hretains.width (Nat.le_add_right _ _)⟩
  | valueSet v =>
    have hwiden : (valueSet v).widen b = .ok (valueSet u) := map_eq_ok.2 ⟨u, hu, rfl⟩
    cases hc.symm.trans hwiden
    exact ⟨huw, hdescends.imp fun h => congrArg valueSet h⟩

/-! ## Runs -/

/-- What becomes of a value that is widened by one newer value after the other. A widening that is
refused would leave it as it is. -/
def widened (start : AbstractValue) (news : Nat → AbstractValue) : Nat → AbstractValue
  | 0 => start
  | i + 1 =>
    match (widened start news i).widen (news i) with
    | .ok c => c
    | .error _ => widened start news i

theorem widened_succ {start c : AbstractValue} {news : Nat → AbstractValue} {i : Nat}
    (h : (widened start news i).widen (news i) = .ok c) : widened start news (i + 1) = c := by
  simp only [widened, h]

section

variable {start : AbstractValue} {news : Nat → AbstractValue}

/-- All values of a run are valid values of its width. -/
theorem valid_widened (hstart : start.Valid)
    (hnews : ∀ i, (news i).Valid ∧ (news i).bits = start.bits) (i : Nat) :
    (widened start news i).Valid ∧ (widened start news i).bits = start.bits := by
  induction i with
  | zero => exact ⟨hstart, rfl⟩
  | succ i ih =>
    obtain ⟨hvalid, hbits⟩ := ih
    obtain ⟨hnew, hnewbits⟩ := hnews i
    obtain ⟨c, hc, hretains⟩ := combines_widen.succeeds _ _ hvalid hnew (hbits.trans hnewbits.symm)
    rw [widened_succ hc]
    exact ⟨hretains.valid, hretains.width.trans hbits⟩

/-- All widenings of a run succeed. -/
theorem widen_widened (hstart : start.Valid)
    (hnews : ∀ i, (news i).Valid ∧ (news i).bits = start.bits) (i : Nat) :
    (widened start news i).widen (news i) = .ok (widened start news (i + 1)) := by
  obtain ⟨hvalid, hbits⟩ := valid_widened hstart hnews i
  obtain ⟨hnew, hnewbits⟩ := hnews i
  obtain ⟨c, hc, -⟩ := combines_widen.succeeds _ _ hvalid hnew (hbits.trans hnewbits.symm)
  rw [hc, widened_succ hc]

theorem within_widened (hstart : start.Valid)
    (hnews : ∀ i, (news i).Valid ∧ (news i).bits = start.bits) (hnumber : numberRegion ∈ names)
    (hsw : start.Within names) (hnw : ∀ i, (news i).Within names) (i : Nat) :
    (widened start news i).Within names := by
  induction i with
  | zero => exact hsw
  | succ i ih =>
    obtain ⟨hvalid, hbits⟩ := valid_widened hstart hnews i
    obtain ⟨hnew, hnewbits⟩ := hnews i
    obtain ⟨c, hc, hwithin, -⟩ :=
      descends_widen hvalid hnew (hbits.trans hnewbits.symm) hnumber ih (hnw i)
    rwa [widened_succ hc]

/-- Every step of a run that changes the value leaves it fewer changes. -/
theorem descends_widened (hstart : start.Valid)
    (hnews : ∀ i, (news i).Valid ∧ (news i).bits = start.bits) (hnumber : numberRegion ∈ names)
    (hsw : start.Within names) (hnw : ∀ i, (news i).Within names) (i : Nat) :
    Descends ((widened start news i).changesLeft names)
      ((widened start news (i + 1)).changesLeft names)
      ((widened start news (i + 1)).unnamed = (widened start news i).unnamed) := by
  obtain ⟨hvalid, hbits⟩ := valid_widened hstart hnews i
  obtain ⟨hnew, hnewbits⟩ := hnews i
  obtain ⟨c, hc, -, hdescends⟩ := descends_widen hvalid hnew (hbits.trans hnewbits.symm) hnumber
    (within_widened hstart hnews hnumber hsw hnw i) (hnw i)
  rwa [widened_succ hc]

/-- Widened by intervals, an interval stays one. -/
theorem exists_widened_interval {x : Interval} {ys : Nat → Interval} (hx : x.Valid)
    (hys : ∀ i, (ys i).Valid ∧ (ys i).bits = x.bits) (i : Nat) :
    ∃ z, widened (interval x) (fun i => interval (ys i)) i = interval z ∧ z.Valid ∧
      z.bits = x.bits := by
  induction i with
  | zero => exact ⟨x, rfl, hx, rfl⟩
  | succ i ih =>
    obtain ⟨z, hz, hvalid, hbits⟩ := ih
    obtain ⟨hy, hybits⟩ := hys i
    have hsame := hbits.trans hybits.symm
    have hretains := Interval.retains_stretch hvalid hy hsame
    refine ⟨z.stretch (ys i), widened_succ ?_, hretains.valid, hretains.width.trans hbits⟩
    rw [hz]
    exact map_requireSameWidth hsame _ _

/-- How often an interval can still be changed; other values play no part. -/
def intervalChangesLeft : AbstractValue → Nat
  | interval x => x.changesLeft
  | _ => 0

theorem descends_widened_interval {x : Interval} {ys : Nat → Interval} (hx : x.Valid)
    (hys : ∀ i, (ys i).Valid ∧ (ys i).bits = x.bits) (i : Nat) :
    Descends (widened (interval x) (fun i => interval (ys i)) i).intervalChangesLeft
      (widened (interval x) (fun i => interval (ys i)) (i + 1)).intervalChangesLeft
      ((widened (interval x) (fun i => interval (ys i)) (i + 1)).unnamed =
        (widened (interval x) (fun i => interval (ys i)) i).unnamed) := by
  obtain ⟨z, hz, hvalid, hbits⟩ := exists_widened_interval hx hys i
  obtain ⟨hy, hybits⟩ := hys i
  have hsame := hbits.trans hybits.symm
  have hstep :
      widened (interval x) (fun i => interval (ys i)) (i + 1) = interval (z.stretch (ys i)) := by
    refine widened_succ ?_
    rw [hz]
    exact map_requireSameWidth hsame _ _
  rw [hstep, hz]
  exact (Interval.descends_stretch hvalid hy hsame).imp fun h => congrArg interval h

/-- The names of regions that a value brings into a run. -/
def startNames : AbstractValue → Finset String
  | valueSet v => (v.regions.entries.map fun e => e.1).toFinset
  | _ => ∅

/-- A value that is widened again and again, by newer values with regions from finitely many names,
is the same from some step on. If all of them are intervals, it changes at most three times for each
bit of the width and three times more. -/
theorem repeated_widening_stabilizes (names : Finset String) (hstart : start.Valid)
    (hnews : ∀ i, (news i).Valid ∧ (news i).bits = start.bits)
    (hnames : ∀ i v, news i = valueSet v → ∀ e ∈ v.regions.entries, e.1 ∈ names) :
    (∀ i, (widened start news i).widen (news i) = .ok (widened start news (i + 1))) ∧
      (∃ N, ∀ i, N ≤ i → (widened start news i).unnamed = (widened start news N).unnamed) ∧
      ((∃ x, start = interval x) → (∀ i, ∃ y, news i = interval y) →
        {i | (widened start news (i + 1)).unnamed ≠ (widened start news i).unnamed}.Finite ∧
        {i | (widened start news (i + 1)).unnamed ≠ (widened start news i).unnamed}.ncard ≤
          3 * start.bits + 3) := by
  refine ⟨widen_widened hstart hnews, ?_, ?_⟩
  · let known := insert numberRegion (names ∪ start.startNames)
    have hnumber : numberRegion ∈ known := Finset.mem_insert_self _ _
    have hsw : start.Within known := by
      cases start with
      | valueSet v =>
        intro e he
        refine Finset.mem_insert_of_mem (Finset.mem_union_right _ ?_)
        simp only [startNames, List.mem_toFinset]
        exact List.mem_map_of_mem he
      | _ => trivial
    have hnw (i : Nat) : (news i).Within known := by
      cases hnew : news i with
      | valueSet v =>
        intro e he
        exact Finset.mem_insert_of_mem (Finset.mem_union_left _ (hnames i v hnew e he))
      | _ => trivial
    exact eventually_constant (descends_widened hstart hnews hnumber hsw hnw)
  · rintro ⟨x, rfl⟩ hintervals
    choose ys hys using hintervals
    obtain rfl : news = fun i => interval (ys i) := funext hys
    let run := widened (interval x) fun i => interval (ys i)
    have hchain (i : Nat) : Descends (run i).intervalChangesLeft (run (i + 1)).intervalChangesLeft
        ((run (i + 1)).unnamed = (run i).unnamed) :=
      descends_widened_interval hstart hnews i
    have hle : x.changesLeft ≤ 3 * x.bits + 1 := Interval.Valid.changesLeft_le hstart
    exact ⟨finite_changes (f := fun i => (run i).unnamed) hchain,
      Nat.le_trans (ncard_changes_le (f := fun i => (run i).unnamed) hchain)
        (Nat.le_trans hle (Nat.le_add_right _ 2))⟩

end

/-- One byte counted up, and a byte-swapped range that is widened by a number and an offset into a
stack in turn. -/
theorem widened_counter_stabilizes :
    {i | (widened (interval (.constant 8 0)) (fun i => interval (.constant 8 i)) (i + 1)).unnamed ≠
          (widened (interval (.constant 8 0)) (fun i => interval (.constant 8 i)) i).unnamed}.ncard
        ≤ 27 ∧
      ∃ N, ∀ i, N ≤ i →
        (widened (interval ⟨16, some ⟨256, 512, 256⟩, true, none⟩)
          (fun i => if i % 2 = 0 then interval (.constant 16 7)
            else valueSet ⟨16, RegionMap.empty.insert "stack" (.constant 16 8), false⟩) i).unnamed =
        (widened (interval ⟨16, some ⟨256, 512, 256⟩, true, none⟩)
          (fun i => if i % 2 = 0 then interval (.constant 16 7)
            else valueSet ⟨16, RegionMap.empty.insert "stack" (.constant 16 8), false⟩)
          N).unnamed := by
  have hbyte : ValidWidth 8 := by decide
  have hword : ValidWidth 16 := by decide
  constructor
  · have hzero : (interval (.constant 8 0)).Valid := Interval.valid_constant hbyte 0
    have hcounter (i : Nat) : (interval (.constant 8 i)).Valid ∧
        (interval (.constant 8 i)).bits = (interval (.constant 8 0)).bits :=
      ⟨Interval.valid_constant hbyte i, rfl⟩
    obtain ⟨-, -, hcount⟩ := repeated_widening_stabilizes ∅ hzero hcounter fun i v h => by cases h
    exact (hcount ⟨_, rfl⟩ fun i => ⟨_, rfl⟩).2
  · have hswapped : (interval ⟨16, some ⟨256, 512, 256⟩, true, none⟩).Valid :=
      Interval.valid_pending hword ⟨by decide, by decide⟩ (by decide) (by decide) (by decide)
    refine (repeated_widening_stabilizes {"stack"} hswapped (fun i => ?_) fun i v h => ?_).2.1
    · split
      · exact ⟨Interval.valid_constant hword 7, rfl⟩
      · exact ⟨ValueSet.valid_of_uniform hword
          (RegionMap.uniform_insert (RegionMap.uniform_empty 16)
          (Interval.valid_constant hword 8) rfl), rfl⟩
    · split at h
      · cases h
      · cases h
        intro e he
        rcases RegionMap.mem_insertEntry he with rfl | he
        · exact Finset.mem_singleton_self _
        · cases he

end AbstractValue

end AbstractBits
