import Mathlib.Algebra.BigOperators.Group.List.Basic
import AbstractBits.Proofs.Interval.Semilattice
import AbstractBits.Proofs.ValueSet.Occupied
/-!
# The order in which offsets are added

Without a pending byte swap of the value set, adding offsets to a region is a union with the value
set of that region alone. Maps of offsets of one width, with some offsets in each region, are a
commutative monoid under the union region by region. Empty intervals add nothing, as the regions
without offsets are left out. So a value set that is built up entry by entry is a sum, and neither
the order of the entries nor the grouping of unions makes a difference for it.

Results:
  * `Filled.instAddCommMonoid` — maps of offsets are added up region by region.
  * `insert_ofFilled`, `union_ofFilled` — what one insertion and one union make of them.
  * `ofEntries_eq`, `Grouping.unite_eq` — what sequences of insertions and groupings of unions make
    of them.
  * `insertion_order_irrelevant` — all of these are the same.
-/

namespace AbstractBits

namespace RegionMap

variable {bits : Nat} {m n k : RegionMap}

/-! ## Unions of maps of offsets -/

theorem keeps_join (bits : Nat) : Keeps .either bits (unionWith .join) :=
  keeps_unionWith fun _ _ hx hy hxbits hybits =>
    Interval.retains_join hx hy (hxbits.trans hybits.symm)

theorem occupied_join (hm : m.Uniform bits) (hn : n.Uniform bits) (hmocc : m.Occupied)
    (hnocc : n.Occupied) : (m.unionWith .join n).Occupied := by
  intro region z hz
  rw [get?_unionWith] at hz
  cases hx : m.get? region with
  | none =>
    rw [hx, Option.merge_none_left] at hz
    exact hnocc region z hz
  | some x =>
    cases hy : n.get? region with
    | none =>
      rw [hx, hy, Option.merge_none_right] at hz
      exact hmocc region z (hx.trans hz)
    | some y =>
      obtain ⟨hxvalid, hxbits⟩ := hm region x hx
      obtain ⟨hyvalid, hybits⟩ := hn region y hy
      rw [hx, hy] at hz
      obtain rfl := Option.some.inj hz
      exact Interval.isEmpty_join_of hxvalid hyvalid (hxbits.trans hybits.symm) (hnocc region y hy)

theorem join_assoc (hm : m.Uniform bits) (hn : n.Uniform bits) (hk : k.Uniform bits) :
    (m.unionWith .join n).unionWith .join k = m.unionWith .join (n.unionWith .join k) := by
  refine ext_get? fun region => ?_
  simp only [get?_unionWith]
  cases hx : m.get? region with
  | none => simp only [Option.merge_none_left]
  | some x =>
    cases hy : n.get? region with
    | none => simp only [Option.merge_none_left, Option.merge_none_right]
    | some y =>
      cases hz : k.get? region with
      | none => simp only [Option.merge_none_right]
      | some z =>
        obtain ⟨hxvalid, hxbits⟩ := hm region x hx
        obtain ⟨hyvalid, hybits⟩ := hn region y hy
        obtain ⟨hzvalid, hzbits⟩ := hk region z hz
        exact congrArg some (Interval.join_assoc hxvalid hyvalid hzvalid (hxbits.trans hybits.symm)
          (hxbits.trans hzbits.symm))

/-- In a map with offsets in each region there is no region to leave out. -/
theorem filter_of_occupied (hm : m.Occupied) : (m.filter fun offsets => !offsets.isEmpty) = m := by
  refine ext_get? fun region => ?_
  rw [get?_filter]
  cases hx : m.get? region with
  | none => rfl
  | some x => rw [Option.filter_some, hm region x hx, Bool.not_false, if_pos rfl]

/-! ## Sums of maps of offsets -/

/-- Offsets of one width by region, with some in each region. -/
@[ext] structure Filled (bits : Nat) where
  map : RegionMap
  uniform : map.Uniform bits
  occupied : map.Occupied

namespace Filled

instance : Zero (Filled bits) where
  zero := ⟨.empty, uniform_empty bits, occupied_empty⟩

instance : Add (Filled bits) where
  add a b := ⟨a.map.unionWith .join b.map, (keeps_join bits).uniform _ _ a.uniform b.uniform,
    occupied_join a.uniform b.uniform a.occupied b.occupied⟩

theorem map_zero : (0 : Filled bits).map = .empty := rfl

theorem map_add (a b : Filled bits) : (a + b).map = a.map.unionWith .join b.map := rfl

protected theorem add_comm (a b : Filled bits) : a + b = b + a :=
  Filled.ext (unionWith_comm
    (fun _ _ hx hy hxbits hybits => Interval.join_comm hx hy (hxbits.trans hybits.symm))
    a.uniform b.uniform)

protected theorem zero_add (a : Filled bits) : 0 + a = a := by
  refine Filled.ext (ext_get? fun region => ?_)
  rw [map_add, map_zero, get?_unionWith, get?_empty, Option.merge_none_left]

instance instAddCommMonoid : AddCommMonoid (Filled bits) where
  add_assoc a b c := Filled.ext (join_assoc a.uniform b.uniform c.uniform)
  zero_add := Filled.zero_add
  add_zero a := (Filled.add_comm a 0).trans (Filled.zero_add a)
  add_comm := Filled.add_comm
  nsmul := nsmulRec

theorem denotes_add_left {a b : Filled bits} {region : String} {v : Nat}
    (h : a.map.Denotes region v) : (a + b).map.Denotes region v :=
  (keeps_join bits).denotes _ _ a.uniform b.uniform region v (.inl h)

end Filled

end RegionMap

namespace ValueSet

open AbstractBits.RegionMap (Filled)

variable {bits : Nat}

/-- Offsets of a width for a region. -/
structure Entry (bits : Nat) where
  region : String
  offsets : Interval
  valid : offsets.Valid
  width : offsets.bits = bits

/-- The offsets of one entry. There is no region for an empty interval. -/
def Entry.filled (e : Entry bits) : Filled bits :=
  if hempty : e.offsets.isEmpty = true then 0
  else ⟨RegionMap.empty.insert e.region e.offsets,
    RegionMap.uniform_insert (RegionMap.uniform_empty bits) e.valid e.width,
    RegionMap.occupied_insert RegionMap.occupied_empty (by simpa using hempty)⟩

theorem Entry.filled_of_empty {e : Entry bits} (hempty : e.offsets.isEmpty = true) : e.filled = 0 :=
  dif_pos hempty

theorem Entry.map_filled {e : Entry bits} (hsome : e.offsets.isEmpty = false) :
    e.filled.map = RegionMap.empty.insert e.region e.offsets := by
  rw [filled, dif_neg (by simp [hsome])]

/-- The value set of offsets by region, without a pending byte swap. -/
def ofFilled (a : Filled bits) : ValueSet := ⟨bits, a.map, false⟩

/-! ## One step -/

/-- Adding an entry is adding its offsets. In the region of the entry both sides are the join with
what is there, elsewhere what is there alone. -/
theorem insert_ofFilled (a : Filled bits) (e : Entry bits) :
    (ofFilled a).insert e.region e.offsets = .ok (ofFilled (a + e.filled)) := by
  rw [insert_eq e.region e.width.symm]
  cases hempty : e.offsets.isEmpty with
  | true => rw [addOffsets_of_empty _ _ hempty, Entry.filled_of_empty hempty, add_zero]
  | false =>
    have hmap : a.map.insert e.region ((ofFilled a).offsetsAfter e.region e.offsets) =
        (a + e.filled).map := by
      refine RegionMap.ext_get? fun other => ?_
      rw [Filled.map_add, Entry.map_filled hempty, RegionMap.get?_insert, RegionMap.get?_unionWith,
        RegionMap.get?_insert, RegionMap.get?_empty]
      by_cases hregion : other = e.region
      · rw [if_pos hregion, if_pos hregion, hregion]
        show some ((a.map.get? e.region).elim _ _) = _
        cases a.map.get? e.region <;> rfl
      · rw [if_neg hregion, if_neg hregion, Option.merge_none_right]
    rw [addOffsets_of_nonempty _ _ hempty]
    exact congrArg (fun regions => Except.ok (⟨bits, regions, false⟩ : ValueSet)) hmap

/-- A union adds the offsets of both value sets. -/
theorem union_ofFilled (a b : Filled bits) :
    (ofFilled a).union (ofFilled b) = .ok (ofFilled (a + b)) := by
  refine requireSameWidth_eq_ok.2 ⟨rfl, ?_⟩
  simp only [ofFilled, cover, Bool.and_self, Bool.false_eq_true, if_false]
  rw [← Filled.map_add, RegionMap.filter_of_occupied (a + b).occupied]

/-! ## Sequences of steps -/

/-- The value set of a width that entries are added to one after the other. -/
def ofEntries (bits : Nat) (entries : List (Entry bits)) : Except OperationError ValueSet := do
  entries.foldlM (fun s e => s.insert e.region e.offsets) (← new bits)

/-- Adding entries one after the other is adding up their offsets. The induction is on the entries,
for whatever has been added up before. -/
theorem foldlM_insert_eq (a : Filled bits) (entries : List (Entry bits)) :
    entries.foldlM (fun s e => s.insert e.region e.offsets) (ofFilled a) =
      .ok (ofFilled (a + (entries.map (·.filled)).sum)) := by
  induction entries generalizing a with
  | nil =>
    rw [List.foldlM_nil, List.map_nil, List.sum_nil, add_zero]
    rfl
  | cons e entries ih =>
    rw [List.foldlM_cons, insert_ofFilled]
    refine (ih (a + e.filled)).trans ?_
    rw [List.map_cons, List.sum_cons, add_assoc]

theorem ofEntries_eq (width : ValidWidth bits) (entries : List (Entry bits)) :
    ofEntries bits entries = .ok (ofFilled (entries.map (·.filled)).sum) := by
  have hnew : new bits = .ok (ofFilled 0) := requireWidth_eq_ok.2 ⟨width, rfl⟩
  rw [ofEntries, hnew]
  exact (foldlM_insert_eq 0 entries).trans (by rw [zero_add])

/-- A way to put the value sets of single entries together by unions. -/
inductive Grouping (bits : Nat) where
  | entry (e : Entry bits)
  | both (left right : Grouping bits)

namespace Grouping

/-- The entries from left to right. -/
def entries : Grouping bits → List (Entry bits)
  | entry e => [e]
  | both left right => left.entries ++ right.entries

/-- The union of the value sets of the entries, one of two groups after the other. -/
def unite : Grouping bits → Except OperationError ValueSet
  | entry e => ofEntries bits [e]
  | both left right => do (← left.unite).union (← right.unite)

/-- The union of groups adds up the offsets of all entries. -/
theorem unite_eq (width : ValidWidth bits) (g : Grouping bits) :
    g.unite = .ok (ofFilled (g.entries.map (·.filled)).sum) := by
  induction g with
  | entry e => exact ofEntries_eq width [e]
  | both left right ihleft ihright =>
    rw [unite, ihleft, ihright, entries, List.map_append, List.sum_append]
    exact union_ofFilled _ _

end Grouping

/-- The offsets of each entry are among the sum of all. -/
theorem denotes_of_mem {entries : List (Entry bits)} {e : Entry bits} (he : e ∈ entries) {v : Nat}
    (hv : e.offsets.Denotes v) : (ofFilled (entries.map (·.filled)).sum).Denotes ⟨e.region, v⟩ := by
  obtain ⟨before, after, rfl⟩ := List.append_of_mem he
  have hperm : (before ++ e :: after).Perm (e :: (before ++ after)) := List.perm_middle
  rw [(hperm.map _).sum_eq, List.map_cons, List.sum_cons]
  have hself : e.filled.map.Denotes e.region v := by
    rw [Entry.map_filled (e.valid.exists_denotes.1 ⟨v, hv⟩)]
    exact RegionMap.denotes_insert_self hv
  exact (denotes_of_not_reversed rfl).2 (Filled.denotes_add_left hself)

/-- Entries are added to a value set without loss of an offset, whatever the regions and intervals.
The value set is the same, names included, if the entries are added in another order, and if the
value sets of the single entries are put together by unions in any order and grouping. -/
theorem insertion_order_irrelevant (width : ValidWidth bits) (entries : List (Entry bits)) :
    ∃ s, ofEntries bits entries = .ok s ∧
      (∀ e ∈ entries, ∀ v, e.offsets.Denotes v → s.Denotes ⟨e.region, v⟩) ∧
      (∀ others, others.Perm entries → ofEntries bits others = .ok s) ∧
      ∀ g : Grouping bits, g.entries.Perm entries → g.unite = .ok s := by
  have hsum {others : List (Entry bits)} (h : others.Perm entries) :
      (others.map (·.filled)).sum = (entries.map (·.filled)).sum := (h.map _).sum_eq
  refine ⟨_, ofEntries_eq width entries,
    fun e he v => denotes_of_mem he, fun others hperm => ?_, fun g hperm => ?_⟩
  · rw [ofEntries_eq width others, hsum hperm]
  · rw [g.unite_eq width, hsum hperm]

/-- The numbers 256 and 512 behind a byte swap. -/
def swappedPair : Entry 16 :=
  ⟨"stack", ⟨16, some ⟨256, 512, 256⟩, true, none⟩,
    Interval.valid_pending (by decide) ⟨by decide, by decide⟩ (by decide) (by decide) (by decide),
    rfl⟩

/-- The number 3 in the same region. -/
def plainThree : Entry 16 := ⟨"stack", .constant 16 3, Interval.valid_constant (by decide) 3, rfl⟩

/-- No number in the same region. -/
def noOffset : Entry 16 := ⟨"stack", .empty 16, Interval.valid_empty (by decide), rfl⟩

/-- All numbers of the width are left of the three, in the opposite order and in two groups as
well. -/
theorem swapped_and_plain_in_any_order :
    ∃ s, ofEntries 16 [swappedPair, plainThree, noOffset] = .ok s ∧
      s.get? "stack" = some (.whole 16) ∧ ofEntries 16 [noOffset, plainThree, swappedPair] = .ok s ∧
      (Grouping.both (.both (.entry plainThree) (.entry noOffset)) (.entry swappedPair)).unite =
        .ok s := by
  obtain ⟨s, hs, -, horder, hgroups⟩ :=
    insertion_order_irrelevant (by decide : ValidWidth 16) [swappedPair, plainThree, noOffset]
  have hwhole : ofEntries 16 [swappedPair, plainThree, noOffset] =
      .ok ⟨16, .insert .empty "stack" (.whole 16), false⟩ := rfl
  obtain rfl := Except.ok.inj (hwhole.symm.trans hs)
  refine ⟨_, hs, rfl, horder _ (List.reverse_perm [swappedPair, plainThree, noOffset]),
    hgroups _ ?_⟩
  exact @List.perm_append_comm _ [plainThree, noOffset] [swappedPair]

end ValueSet

end AbstractBits
