import Mathlib.Algebra.Order.BigOperators.Group.Finset
import AbstractBits.Proofs.Interval.Widening
import AbstractBits.Proofs.ValueSet.Lattice
/-!
# How often a widening can change a value set

Every region runs its own chain of widenings. A region can come into being once, and offsets that
are empty to begin with can be dropped once. With all regions from one finite set of names, the
changes of a value set are bounded by the sum over the names, and by one more for a pending byte
swap that is given up.

Results:
  * `changesLeft` — a bound on the changes to come.
  * `descends_widen` — a widening that changes a value set lowers the bound.
-/

namespace AbstractBits

namespace Descends

theorem add {a b c d : Nat} {p q : Prop} (hab : Descends a b p) (hcd : Descends c d q) :
    Descends (a + c) (b + d) (p ∧ q) where
  le := Nat.add_le_add hab.le hcd.le
  unchanged := by
    intro heq
    have hle := hab.le
    have hle' := hcd.le
    exact ⟨hab.unchanged (by omega), hcd.unchanged (by omega)⟩

theorem sum {names : Finset String} {before after : String → Nat} {p : String → Prop}
    (h : ∀ name ∈ names, Descends (before name) (after name) (p name)) :
    Descends (∑ name ∈ names, before name) (∑ name ∈ names, after name)
      (∀ name ∈ names, p name) where
  le := Finset.sum_le_sum fun name hname => (h name hname).le
  unchanged := by
    intro heq name hname
    have hall := (Finset.sum_eq_sum_iff_of_le fun name hname => (h name hname).le).1 heq
    exact (h name hname).unchanged (hall name hname)

end Descends

namespace RegionMap

variable {bits : Nat} {names : Finset String} {m n : RegionMap} {x : Interval}

/-- How often what is held for a region can still be changed by widening. -/
def heldChangesLeft (bits : Nat) : Option Interval → Nat
  | none => 3 * bits + 1
  | some x => if x.isEmpty then 3 * bits + 2 else x.changesLeft

/-- How often the regions of the given names can still be changed by widening. -/
def changesLeft (bits : Nat) (names : Finset String) (m : RegionMap) : Nat :=
  ∑ name ∈ names, heldChangesLeft bits (m.get? name)

/-- All regions have names from a set. -/
def Within (names : Finset String) (m : RegionMap) : Prop := ∀ e ∈ m.entries, e.1 ∈ names

theorem Within.get?_eq_none (h : m.Within names) {region : String} (hregion : region ∉ names) :
    m.get? region = none := by
  cases hget : m.get? region with
  | none => rfl
  | some x => exact absurd (h _ (get?_eq_some_iff.1 hget)) hregion

theorem within_of_get? (h : ∀ region, region ∉ names → m.get? region = none) : m.Within names := by
  intro e he
  by_contra hregion
  have hget : m.get? e.1 = some e.2 := get?_eq_some_iff.2 he
  rw [h e.1 hregion] at hget
  cases hget

theorem heldChangesLeft_of_some (hx : x.isEmpty = false) :
    heldChangesLeft bits (some x) = x.changesLeft := by
  simp [heldChangesLeft, hx]

theorem heldChangesLeft_of_empty (hx : x.isEmpty = true) :
    heldChangesLeft bits (some x) = 3 * bits + 2 := by
  simp [heldChangesLeft, hx]

theorem heldChangesLeft_le {held : Option Interval} (h : ∀ x ∈ held, x.Valid ∧ x.bits = bits) :
    heldChangesLeft bits held ≤ 3 * bits + 2 := by
  cases held with
  | none => exact Nat.le_succ _
  | some x =>
    obtain ⟨hx, hbits⟩ := h x rfl
    cases hsome : x.isEmpty with
    | true => exact Nat.le_of_eq (heldChangesLeft_of_empty hsome)
    | false =>
      rw [heldChangesLeft_of_some hsome]
      have := hx.changesLeft_le_of_some hsome
      omega

/-- The bound for a region that is dropped unless it has offsets. -/
theorem heldChangesLeft_filter_le (hx : x.Valid) (hbits : x.bits = bits) :
    heldChangesLeft bits ((some x).filter fun offsets => !offsets.isEmpty) ≤ 3 * bits + 1 := by
  cases hsome : x.isEmpty with
  | true => simp [Option.filter_some, hsome, heldChangesLeft]
  | false =>
    have hle := hx.changesLeft_le_of_some hsome
    simp only [Option.filter_some, hsome, Bool.not_false, if_true, heldChangesLeft,
      Bool.false_eq_true, if_false]
    omega

/-- The chain of one region: a widening that changes what is held for it leaves it fewer changes. -/
theorem descends_held {held newer : Option Interval} (h : ∀ x ∈ held, x.Valid ∧ x.bits = bits)
    (hnewer : ∀ y ∈ newer, y.Valid ∧ y.bits = bits) :
    Descends (heldChangesLeft bits held)
      (heldChangesLeft bits ((Option.merge Interval.stretch held newer).filter fun offsets =>
        !offsets.isEmpty))
      (((Option.merge Interval.stretch held newer).filter fun offsets => !offsets.isEmpty).map
        Interval.unnamed = held.map Interval.unnamed) := by
  cases held with
  | none =>
    rw [Option.merge_none_left]
    cases newer with
    | none => exact .of_unchanged _ rfl
    | some y =>
      obtain ⟨hy, hybits⟩ := hnewer y rfl
      cases hsome : y.isEmpty with
      | true =>
        rw [Option.filter_some, if_neg (by simp [hsome])]
        exact .of_unchanged _ rfl
      | false =>
        refine .of_lt ?_
        have hle := hy.changesLeft_le_of_some hsome
        rw [Option.filter_some, if_pos (by simp [hsome]), heldChangesLeft_of_some hsome]
        simp only [heldChangesLeft]
        omega
  | some x =>
    obtain ⟨hx, hxbits⟩ := h x rfl
    cases newer with
    | none =>
      rw [Option.merge_none_right]
      cases hsome : x.isEmpty with
      | true =>
        refine .of_lt ?_
        rw [heldChangesLeft_of_empty hsome]
        exact Nat.lt_succ_of_le (heldChangesLeft_filter_le hx hxbits)
      | false =>
        rw [Option.filter_some, if_pos (by simp [hsome])]
        exact .of_unchanged _ rfl
    | some y =>
      obtain ⟨hy, hybits⟩ := hnewer y rfl
      have hsame := hxbits.trans hybits.symm
      have hretains := Interval.retains_stretch hx hy hsame
      rw [Option.merge_some_some]
      cases hsome : x.isEmpty with
      | true =>
        refine .of_lt ?_
        rw [heldChangesLeft_of_empty hsome]
        exact Nat.lt_succ_of_le
          (heldChangesLeft_filter_le hretains.valid (hretains.width.trans hxbits))
      | false =>
        obtain ⟨v, hv⟩ := hx.exists_denotes.2 hsome
        have hstretched := hretains.valid.exists_denotes.1 ⟨v, hretains.denotes v (.inl hv)⟩
        rw [Option.filter_some, if_pos (by simp [hstretched]), heldChangesLeft_of_some hstretched,
          heldChangesLeft_of_some hsome]
        exact (Interval.descends_stretch hx hy hsame).imp fun heq => by simp [heq]

/-! ## All regions -/

/-- The regions of a widening. -/
def stretchWith (m n : RegionMap) : RegionMap :=
  (m.unionWith Interval.stretch n).filter fun offsets => !offsets.isEmpty

theorem get?_stretchWith (m n : RegionMap) (region : String) :
    (m.stretchWith n).get? region =
      (Option.merge Interval.stretch (m.get? region) (n.get? region)).filter fun offsets =>
        !offsets.isEmpty := by
  rw [stretchWith, get?_filter, get?_unionWith]

theorem within_stretchWith (hm : m.Within names) (hn : n.Within names) :
    (m.stretchWith n).Within names := by
  refine within_of_get? ?_
  intro region hregion
  rw [get?_stretchWith, hm.get?_eq_none hregion, hn.get?_eq_none hregion]
  rfl

theorem within_map (f : Interval → Interval) (hm : m.Within names) : (m.map f).Within names := by
  refine within_of_get? ?_
  intro region hregion
  rw [get?_map, hm.get?_eq_none hregion]
  rfl

/-- A widening that changes some region leaves all of them together fewer changes. -/
theorem descends_stretchWith (hm : m.Uniform bits) (hn : n.Uniform bits) (hmw : m.Within names)
    (hnw : n.Within names) :
    Descends (m.changesLeft bits names) ((m.stretchWith n).changesLeft bits names)
      ((m.stretchWith n).map Interval.unnamed = m.map Interval.unnamed) := by
  have hregion (name : String) :
      Descends (heldChangesLeft bits (m.get? name))
        (heldChangesLeft bits ((m.stretchWith n).get? name))
        (((m.stretchWith n).get? name).map Interval.unnamed =
          (m.get? name).map Interval.unnamed) := by
    rw [get?_stretchWith]
    exact descends_held (hm name) (hn name)
  refine (Descends.sum fun name _ => hregion name).imp fun hall => ext_get? ?_
  intro region
  rw [get?_map, get?_map]
  by_cases hname : region ∈ names
  · exact hall region hname
  · rw [(within_stretchWith hmw hnw).get?_eq_none hname, hmw.get?_eq_none hname]

/-- Giving up a pending byte swap leaves the regions no more changes than they had. -/
theorem changesLeft_map_whole_le (width : ValidWidth bits) (names : Finset String) (m : RegionMap) :
    (m.map fun _ => .whole bits).changesLeft bits names ≤ m.changesLeft bits names := by
  refine Finset.sum_le_sum ?_
  intro name _
  rw [get?_map]
  cases m.get? name with
  | none => exact Nat.le_refl _
  | some x =>
    have hwhole : heldChangesLeft bits (some (.whole bits)) = 0 := by
      rw [heldChangesLeft_of_some rfl, Interval.changesLeft_whole width]
    exact Nat.le_trans (Nat.le_of_eq hwhole) (Nat.zero_le _)

end RegionMap

namespace ValueSet

variable {names : Finset String} {s t : ValueSet}

/-- How often a value set with regions of the given names can still be changed by widening. -/
def changesLeft (names : Finset String) (s : ValueSet) : Nat :=
  s.regions.changesLeft s.bits names + if s.reversed then 1 else 0

theorem Valid.changesLeft_le (hs : s.Valid) (names : Finset String) :
    s.changesLeft names ≤ names.card * (3 * s.bits + 2) + 1 := by
  have hregions : s.regions.changesLeft s.bits names ≤ names.card * (3 * s.bits + 2) :=
    Finset.sum_le_card_nsmul _ _ _ fun name _ => RegionMap.heldChangesLeft_le (hs.uniform name)
  unfold changesLeft
  split <;> omega

/-- A widening that changes a value set leaves it fewer changes. A pending byte swap that is given
up leaves every region its whole width. -/
theorem descends_widen (hs : s.Valid) (ht : t.Valid) (hbits : s.bits = t.bits)
    (hsw : s.regions.Within names) (htw : t.regions.Within names) :
    ∃ u, s.widen t = .ok u ∧ u.regions.Within names ∧
      Descends (s.changesLeft names) (u.changesLeft names) (u.unnamed = s.unnamed) := by
  refine ⟨_, requireSameWidth_eq_ok.2 ⟨hbits, rfl⟩, ?_⟩
  have htc : t.cover.regions.Uniform s.bits := hbits ▸ uniform_cover ht
  have htcw : t.cover.regions.Within names := by
    unfold cover
    split
    · exact RegionMap.within_map _ htw
    · exact htw
  cases hsrev : s.reversed with
  | false =>
    have hcover : s.cover = s := cover_of_not_reversed hsrev
    simp only [Bool.false_and, Bool.false_eq_true, if_false, hcover]
    refine ⟨RegionMap.within_stretchWith hsw htcw, ?_⟩
    simp only [changesLeft, hsrev, Bool.false_eq_true, if_false, Nat.add_zero]
    refine (RegionMap.descends_stretchWith hs.uniform htc hsw htcw).imp ?_
    intro heq
    simp only [unnamed, hsrev, ValueSet.mk.injEq, true_and, and_true]
    exact heq
  | true =>
    cases htrev : t.reversed with
    | true =>
      have htu : t.regions.Uniform s.bits := hbits ▸ ht.uniform
      simp only [Bool.and_self, if_true]
      refine ⟨RegionMap.within_stretchWith hsw htw, ?_⟩
      simp only [changesLeft, hsrev, if_true]
      refine ((RegionMap.descends_stretchWith hs.uniform htu hsw htw).add
        (.of_unchanged 1 trivial)).imp
        fun heq => ?_
      simp only [unnamed, hsrev, ValueSet.mk.injEq, true_and, and_true]
      exact heq.1
    | false =>
      have hcover : s.cover.regions = s.regions.map fun _ => .whole s.bits := by simp [cover, hsrev]
      have hsc : s.cover.regions.Uniform s.bits := uniform_cover hs
      have hscw : s.cover.regions.Within names := hcover ▸ RegionMap.within_map _ hsw
      simp only [Bool.and_false, Bool.false_eq_true, if_false]
      refine ⟨RegionMap.within_stretchWith hscw htcw, .of_lt ?_⟩
      have hstep := (RegionMap.descends_stretchWith hsc htc hscw htcw).le
      have hwhole := RegionMap.changesLeft_map_whole_le hs.width names s.regions
      rw [← hcover] at hwhole
      simp only [changesLeft, hsrev, if_true, Bool.false_eq_true, if_false, Nat.add_zero]
      exact Nat.lt_succ_of_le (Nat.le_trans hstep hwhole)

end ValueSet

end AbstractBits
