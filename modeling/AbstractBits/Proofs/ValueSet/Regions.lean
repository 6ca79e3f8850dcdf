import AbstractBits.RegionMap
import AbstractBits.Proofs.Interval.Lattice
/-!
# What region maps stand for

A map stands, in each region, for the offsets that it holds there. Operations on the maps of two
value sets act region by region, so what they keep is what the operation on offsets keeps.

Results:
  * `get?_eq_some_iff` — what a map holds is what its entries are.
  * `keeps_unionWith`, `keeps_interWith` — the operations on two maps keep what the operations on
    offsets keep.
-/

namespace AbstractBits

namespace RegionMap

variable {bits : Nat} {m n : RegionMap} {region : String} {x : Interval} {v : Nat}

/-- What a map holds is what its entries are. No later entry has the same key. -/
theorem get?_eq_some_iff : m.get? region = some x ↔ (region, x) ∈ m.entries := by
  obtain ⟨entries, sorted⟩ := m
  simp only [get?]
  induction entries with
  | nil => simp
  | cons e es ih =>
    obtain ⟨he, hes⟩ := List.pairwise_cons.1 sorted
    obtain ⟨key, offsets⟩ := e
    rw [lookup_cons_entry, List.mem_cons, Prod.mk.injEq]
    split
    · rename_i hkey
      subst hkey
      have hfresh : (region, x) ∉ es := fun hmem => String.lt_irrefl region (he (region, x) hmem)
      simp [hfresh, eq_comm]
    · rename_i hkey
      simp [hkey, ih hes]

/-- Valid offsets of one width in every region. -/
def Uniform (bits : Nat) (m : RegionMap) : Prop :=
  ∀ region, ∀ x ∈ m.get? region, x.Valid ∧ x.bits = bits

theorem uniform_iff : m.Uniform bits ↔ ∀ e ∈ m.entries, e.2.Valid ∧ e.2.bits = bits := by
  constructor
  · intro h e he
    exact h e.1 e.2 (get?_eq_some_iff.2 he)
  · intro h region x hx
    exact h (region, x) (get?_eq_some_iff.1 hx)

/-- The offsets that a map stands for in a region. -/
def Denotes (m : RegionMap) (region : String) (v : Nat) : Prop := ∃ x ∈ m.get? region, x.Denotes v

/-! ## Construction -/

theorem uniform_empty (bits : Nat) : empty.Uniform bits :=
  forall_get?_empty

theorem uniform_insert (hm : m.Uniform bits) (hx : x.Valid) (hbits : x.bits = bits) :
    (m.insert region x).Uniform bits :=
  forall_get?_insert hm ⟨hx, hbits⟩

theorem denotes_insert_self (hv : x.Denotes v) : (m.insert region x).Denotes region v :=
  ⟨x, by simp [get?_insert], hv⟩

theorem uniform_map {width : Nat} {f : Interval → Interval} (hm : m.Uniform bits)
    (hf : ∀ x : Interval, x.Valid → x.bits = bits → (f x).Valid ∧ (f x).bits = width) :
    (m.map f).Uniform width :=
  forall_get?_map hm fun x hx => hf x hx.1 hx.2

theorem denotes_map {f : Interval → Interval} {g : Nat → Nat} (hm : m.Uniform bits)
    (hf : ∀ x : Interval, x.Valid → x.bits = bits → ∀ v, x.Denotes v → (f x).Denotes (g v))
    (hv : m.Denotes region v) : (m.map f).Denotes region (g v) := by
  obtain ⟨x, hx, hxv⟩ := hv
  obtain ⟨hvalid, hbits⟩ := hm region x hx
  rw [Option.mem_def] at hx
  exact ⟨f x, by simp [get?_map, hx], hf x hvalid hbits v hxv⟩

/-! ## Regions without offsets -/

theorem uniform_filter (keep : Interval → Bool) (hm : m.Uniform bits) :
    (m.filter keep).Uniform bits := by
  intro region x hx
  rw [get?_filter, Option.mem_def, Option.filter_eq_some_iff] at hx
  exact hm region x hx.1

/-- Leaving out regions without offsets gives up no offset. -/
theorem denotes_filter_nonempty (hm : m.Uniform bits) :
    (m.filter fun offsets => !offsets.isEmpty).Denotes region v ↔ m.Denotes region v := by
  simp only [Denotes, get?_filter, Option.mem_def, Option.filter_eq_some_iff]
  constructor
  · rintro ⟨x, ⟨hx, -⟩, hv⟩
    exact ⟨x, hx, hv⟩
  · rintro ⟨x, hx, hv⟩
    have hsome := (hm region x hx).1.exists_denotes.1 ⟨v, hv⟩
    exact ⟨x, ⟨hx, by simp [hsome]⟩, hv⟩

/-! ## Two maps -/

/-- An operation on the maps of two value sets that keeps what `k` says, region by region. -/
structure Keeps (k : Kept) (bits : Nat) (op : RegionMap → RegionMap → RegionMap) : Prop where
  uniform : ∀ m n : RegionMap, m.Uniform bits → n.Uniform bits → (op m n).Uniform bits
  denotes : ∀ m n : RegionMap, m.Uniform bits → n.Uniform bits → ∀ region v,
    k.Holds (m.Denotes region v) (n.Denotes region v) → (op m n).Denotes region v

/-- An operation on offsets of a width that keeps what `k` says. -/
def KeepsOffsets (k : Kept) (bits : Nat) (f : Interval → Interval → Interval) : Prop :=
  ∀ x y : Interval, x.Valid → y.Valid → x.bits = bits → y.bits = bits →
    Interval.Retains k x y (f x y)

theorem keeps_unionWith {f : Interval → Interval → Interval} (hf : KeepsOffsets .either bits f) :
    Keeps .either bits (unionWith f) where
  uniform := by
    intro m n hm hn region z hz
    rw [get?_unionWith] at hz
    cases hx : m.get? region with
    | none =>
      rw [hx, Option.merge_none_left] at hz
      exact hn region z hz
    | some x =>
      obtain ⟨hxvalid, hxbits⟩ := hm region x hx
      cases hy : n.get? region with
      | none =>
        rw [hx, hy] at hz
        cases hz
        exact ⟨hxvalid, hxbits⟩
      | some y =>
        obtain ⟨hyvalid, hybits⟩ := hn region y hy
        rw [hx, hy] at hz
        cases hz
        obtain ⟨hvalid, hwidth, -⟩ := hf x y hxvalid hyvalid hxbits hybits
        exact ⟨hvalid, hwidth.trans hxbits⟩
  denotes := by
    intro m n hm hn region v hv
    simp only [Denotes, get?_unionWith]
    cases hx : m.get? region with
    | none =>
      rcases hv with ⟨x, hmem, -⟩ | ⟨y, hy, hyv⟩
      · rw [hx] at hmem
        cases hmem
      · rw [Option.merge_none_left]
        exact ⟨y, hy, hyv⟩
    | some x =>
      obtain ⟨hxvalid, hxbits⟩ := hm region x hx
      cases hy : n.get? region with
      | none =>
        rcases hv with ⟨x', hmem, hxv⟩ | ⟨y, hmem, -⟩
        · rw [hx] at hmem
          cases hmem
          exact ⟨x, rfl, hxv⟩
        · rw [hy] at hmem
          cases hmem
      | some y =>
        obtain ⟨hyvalid, hybits⟩ := hn region y hy
        refine ⟨f x y, rfl, (hf x y hxvalid hyvalid hxbits hybits).denotes v ?_⟩
        simpa [Denotes, hx, hy] using hv

theorem keeps_interWith {f : Interval → Interval → Interval} (hf : KeepsOffsets .common bits f) :
    Keeps .common bits (interWith f) where
  uniform := by
    intro m n hm hn region z hz
    rw [get?_interWith, Option.mem_def, Option.bind_eq_some_iff] at hz
    obtain ⟨x, hx, hz⟩ := hz
    obtain ⟨y, hy, rfl⟩ := Option.map_eq_some_iff.1 hz
    obtain ⟨hxvalid, hxbits⟩ := hm region x hx
    obtain ⟨hyvalid, hybits⟩ := hn region y hy
    obtain ⟨hvalid, hwidth, -⟩ := hf x y hxvalid hyvalid hxbits hybits
    exact ⟨hvalid, hwidth.trans hxbits⟩
  denotes := by
    rintro m n hm hn region v ⟨⟨x, hx, hxv⟩, y, hy, hyv⟩
    obtain ⟨hxvalid, hxbits⟩ := hm region x hx
    obtain ⟨hyvalid, hybits⟩ := hn region y hy
    rw [Option.mem_def] at hx hy
    exact ⟨f x y, by simp [get?_interWith, hx, hy],
      (hf x y hxvalid hyvalid hxbits hybits).denotes v ⟨hxv, hyv⟩⟩

/-! ## Order of the maps -/

/-- An operation on offsets of a width that does not depend on their order. -/
def CommutesOnOffsets (bits : Nat) (f : Interval → Interval → Interval) : Prop :=
  ∀ x y : Interval, x.Valid → y.Valid → x.bits = bits → y.bits = bits → f x y = f y x

/-- Offsets held for one region by two maps are combined to the same in either order. -/
theorem CommutesOnOffsets.eq {f : Interval → Interval → Interval} {n : RegionMap} {y : Interval}
    (hf : CommutesOnOffsets bits f) (hm : m.Uniform bits) (hn : n.Uniform bits)
    (hx : m.get? region = some x) (hy : n.get? region = some y) : f x y = f y x := by
  obtain ⟨hxvalid, hxbits⟩ := hm region x hx
  obtain ⟨hyvalid, hybits⟩ := hn region y hy
  exact hf x y hxvalid hyvalid hxbits hybits

/-- An operation on two maps that combines what they hold for a region does not depend on their
order, if it combines offsets in this way and does not tell which of the maps holds what only one of
them does. -/
theorem CommutesOnOffsets.comm_of_get? {f : Interval → Interval → Interval}
    {op : RegionMap → RegionMap → RegionMap}
    {g : Option Interval → Option Interval → Option Interval} {n : RegionMap}
    (hf : CommutesOnOffsets bits f)
    (hop : ∀ m n region, (op m n).get? region = g (m.get? region) (n.get? region))
    (hone : ∀ x, g (some x) none = g none (some x))
    (hboth : ∀ x y, g (some x) (some y) = some (f x y)) (hm : m.Uniform bits)
    (hn : n.Uniform bits) : op m n = op n m := by
  refine ext_get? fun region => ?_
  rw [hop, hop]
  cases hx : m.get? region with
  | none =>
    cases n.get? region with
    | none => rfl
    | some y => exact (hone y).symm
  | some x =>
    cases hy : n.get? region with
    | none => exact hone x
    | some y => rw [hboth, hboth, hf.eq hm hn hx hy]

theorem unionWith_comm {f : Interval → Interval → Interval} (hf : CommutesOnOffsets bits f)
    {n : RegionMap} (hm : m.Uniform bits) (hn : n.Uniform bits) :
    m.unionWith f n = n.unionWith f m :=
  hf.comm_of_get? (get?_unionWith f) (fun _ => rfl) (fun _ _ => rfl) hm hn

theorem interWith_comm {f : Interval → Interval → Interval} (hf : CommutesOnOffsets bits f)
    {n : RegionMap} (hm : m.Uniform bits) (hn : n.Uniform bits) :
    m.interWith f n = n.interWith f m :=
  hf.comm_of_get? (g := fun x y => x.bind fun x => y.map fun y => f x y)
    (get?_interWith f) (fun _ => rfl)
    (fun _ _ => rfl) hm hn

end RegionMap

end AbstractBits
