import AbstractBits.Interval.Basic
/-!
# Offsets by region

A finite map from the names of memory regions to intervals of offsets, kept as a list in the order
of the names. The order makes maps with the same contents equal.

Results:
  * `ext_get?` — a map is determined by what it holds for each region.
  * `get?_insert`, `get?_map`, `get?_filter`, `get?_unionWith`, `get?_interWith` — what each
    operation holds for a region.
  * `forall_get?_insert`, `forall_get?_map` — what is true of all offsets.
-/

namespace AbstractBits

/-- Intervals of offsets by region, in the order of the regions' names. -/
structure RegionMap where
  entries : List (String × Interval)
  sorted : entries.Pairwise fun a b => a.1 < b.1
  deriving DecidableEq, Repr

namespace RegionMap

/-- No region. -/
def empty : RegionMap := ⟨[], List.Pairwise.nil⟩

instance : Inhabited RegionMap := ⟨empty⟩

def isEmpty (m : RegionMap) : Bool := m.entries.isEmpty

/-- The offsets held for a region. -/
def get? (m : RegionMap) (region : String) : Option Interval := m.entries.lookup region

/-- The offsets of all regions, in the order of the names. -/
def values (m : RegionMap) : List Interval := m.entries.map (·.2)

/-- Puts an entry in its place among sorted ones, where it replaces one of the same name. -/
def insertEntry (region : String) (offsets : Interval) :
    List (String × Interval) → List (String × Interval)
  | [] => [(region, offsets)]
  | e :: es =>
    if region < e.1 then (region, offsets) :: e :: es
    else if region = e.1 then (region, offsets) :: es
    else e :: insertEntry region offsets es

theorem mem_insertEntry {region : String} {offsets : Interval} {e : String × Interval}
    {es : List (String × Interval)} (h : e ∈ insertEntry region offsets es) :
    e = (region, offsets) ∨ e ∈ es := by
  induction es with
  | nil => simpa [insertEntry] using h
  | cons d ds ih =>
    simp only [insertEntry] at h
    split at h
    · simpa using h
    · split at h
      · rcases List.mem_cons.1 h with h | h
        · exact .inl h
        · exact .inr (List.mem_cons_of_mem _ h)
      · rcases List.mem_cons.1 h with h | h
        · exact .inr (h ▸ List.mem_cons_self)
        · rcases ih h with h | h
          · exact .inl h
          · exact .inr (List.mem_cons_of_mem _ h)

theorem lt_of_not_lt_of_ne {a b : String} (h : ¬a < b) (hne : a ≠ b) : b < a := by
  rcases Decidable.em (b < a) with hlt | hlt
  · exact hlt
  · exact absurd (String.le_antisymm (String.not_lt.1 hlt) (String.not_lt.1 h)) hne

theorem sorted_insertEntry (region : String) (offsets : Interval) {es : List (String × Interval)}
    (sorted : es.Pairwise fun a b => a.1 < b.1) :
    (insertEntry region offsets es).Pairwise fun a b => a.1 < b.1 := by
  induction es with
  | nil => exact List.pairwise_singleton _ _
  | cons d ds ih =>
    obtain ⟨hd, hds⟩ := List.pairwise_cons.1 sorted
    unfold insertEntry
    split
    · rename_i hlt
      refine List.pairwise_cons.2 ⟨fun e he => ?_, sorted⟩
      rcases List.mem_cons.1 he with rfl | he
      · exact hlt
      · exact String.lt_trans hlt (hd e he)
    · rename_i hnlt
      split
      · rename_i heq
        exact List.pairwise_cons.2 ⟨fun e he => heq ▸ hd e he, hds⟩
      · rename_i hne
        refine List.pairwise_cons.2 ⟨fun e he => ?_, ih hds⟩
        rcases mem_insertEntry he with rfl | he
        · exact lt_of_not_lt_of_ne hnlt hne
        · exact hd e he

/-- Sets the offsets of a region. -/
def insert (m : RegionMap) (region : String) (offsets : Interval) : RegionMap :=
  ⟨insertEntry region offsets m.entries, sorted_insertEntry region offsets m.sorted⟩

/-- Applies a function to the offsets of all regions. -/
def map (f : Interval → Interval) (m : RegionMap) : RegionMap :=
  ⟨m.entries.map fun e => (e.1, f e.2), List.pairwise_map.2 m.sorted⟩

/-- The regions whose offsets satisfy a test. -/
def filter (keep : Interval → Bool) (m : RegionMap) : RegionMap :=
  ⟨m.entries.filter fun e => keep e.2, m.sorted.filter _⟩

/-- The regions of both maps; the offsets of common ones are combined. -/
def unionWith (f : Interval → Interval → Interval) (a b : RegionMap) : RegionMap :=
  b.entries.foldl
    (fun m e => m.insert e.1 ((a.get? e.1).elim e.2 fun offsets => f offsets e.2)) a

/-- The common regions of both maps, with their offsets combined. -/
def interWith (f : Interval → Interval → Interval) (a b : RegionMap) : RegionMap where
  entries := a.entries.filterMap fun e => (b.get? e.1).map fun offsets => (e.1, f e.2 offsets)
  sorted := by
    refine List.pairwise_filterMap.2 (a.sorted.imp fun hlt d hd e he => ?_)
    obtain ⟨_, _, rfl⟩ := Option.map_eq_some_iff.1 hd
    obtain ⟨_, _, rfl⟩ := Option.map_eq_some_iff.1 he
    exact hlt

/-! ## What a map holds for a region -/

theorem lookup_cons_entry (region : String) (e : String × Interval)
    (es : List (String × Interval)) :
    (e :: es).lookup region = if region = e.1 then some e.2 else es.lookup region := by
  obtain ⟨key, offsets⟩ := e
  by_cases h : region = key
  · subst h
    rw [List.lookup_cons, beq_self_eq_true, if_pos rfl]
  · have hbeq : (region == key) = false := by simpa using h
    rw [List.lookup_cons, hbeq, if_neg h]

theorem lookup_eq_none_of_lt {region : String} {es : List (String × Interval)}
    (h : ∀ e ∈ es, region < e.1) : es.lookup region = none := by
  rw [List.lookup_eq_none_iff]
  intro e he
  have hne : region ≠ e.1 := fun heq => String.lt_irrefl _ (heq ▸ h e he)
  simpa using hne

theorem lookup_insertEntry (region other : String) (offsets : Interval)
    (es : List (String × Interval)) :
    (insertEntry region offsets es).lookup other =
      if other = region then some offsets else es.lookup other := by
  induction es with
  | nil => by_cases h : other = region <;> simp [insertEntry, lookup_cons_entry, h]
  | cons d ds ih =>
    unfold insertEntry
    split
    · by_cases h : other = region <;> simp [lookup_cons_entry, h]
    · split
      · rename_i heq
        subst heq
        by_cases h : other = d.1 <;> simp [lookup_cons_entry, h]
      · rename_i hne
        by_cases h : other = d.1
        · have : other ≠ region := fun heq => hne (heq ▸ h)
          subst h
          simp [lookup_cons_entry, this]
        · simp [lookup_cons_entry, h, ih]

theorem get?_empty (region : String) : empty.get? region = none := rfl

theorem get?_insert (m : RegionMap) (region other : String) (offsets : Interval) :
    (m.insert region offsets).get? other = if other = region then some offsets else m.get? other :=
  lookup_insertEntry region other offsets m.entries

theorem forall_get?_empty {P : Interval → Prop} : ∀ region, ∀ x ∈ empty.get? region, P x := by
  intro region x hx
  rw [get?_empty] at hx
  cases hx

theorem forall_get?_insert {P : Interval → Prop} {m : RegionMap} {region : String}
    {offsets : Interval} (hm : ∀ other, ∀ x ∈ m.get? other, P x) (hoffsets : P offsets) :
    ∀ other, ∀ x ∈ (m.insert region offsets).get? other, P x := by
  intro other x hx
  rw [get?_insert] at hx
  split at hx
  · cases hx
    exact hoffsets
  · exact hm other x hx

theorem get?_map (f : Interval → Interval) (m : RegionMap) (region : String) :
    (m.map f).get? region = (m.get? region).map f := by
  simp only [get?, map]
  induction m.entries with
  | nil => rfl
  | cons d ds ih => by_cases h : region = d.1 <;> simp [lookup_cons_entry, h, ih]

theorem forall_get?_map {P Q : Interval → Prop} {f : Interval → Interval} {m : RegionMap}
    (hm : ∀ region, ∀ x ∈ m.get? region, P x) (hf : ∀ x, P x → Q (f x)) :
    ∀ region, ∀ x ∈ (m.map f).get? region, Q x := by
  intro region y hy
  rw [get?_map] at hy
  obtain ⟨x, hx, rfl⟩ := Option.map_eq_some_iff.1 hy
  exact hf x (hm region x hx)

theorem get?_filter (keep : Interval → Bool) (m : RegionMap) (region : String) :
    (m.filter keep).get? region = (m.get? region).filter keep := by
  obtain ⟨entries, sorted⟩ := m
  simp only [get?, filter]
  induction entries with
  | nil => rfl
  | cons d ds ih =>
    obtain ⟨hd, hds⟩ := List.pairwise_cons.1 sorted
    by_cases h : region = d.1
    · subst h
      by_cases hkeep : keep d.2 = true
      · simp [lookup_cons_entry, Option.filter_some, hkeep]
      · have hnone := lookup_eq_none_of_lt hd
        rw [List.filter_cons_of_neg (by simpa using hkeep), ih hds, hnone]
        simp [lookup_cons_entry, Option.filter_some, hkeep]
    · by_cases hkeep : keep d.2 = true <;> simp [lookup_cons_entry, h, hkeep, ih hds]

theorem get?_interWith (f : Interval → Interval → Interval) (a b : RegionMap) (region : String) :
    (a.interWith f b).get? region =
      (a.get? region).bind fun x => (b.get? region).map fun y => f x y := by
  obtain ⟨entries, sorted⟩ := a
  simp only [get?, interWith]
  induction entries with
  | nil => rfl
  | cons d ds ih =>
    obtain ⟨hd, hds⟩ := List.pairwise_cons.1 sorted
    by_cases h : region = d.1
    · subst h
      cases hb : b.entries.lookup d.1 with
      | none =>
        have hnone := lookup_eq_none_of_lt hd
        simp only [List.filterMap_cons, hb, Option.map_none, ih hds, hnone]
        simp [lookup_cons_entry]
      | some y => simp [hb, lookup_cons_entry]
    · cases hb : b.entries.lookup d.1 <;>
        simp [lookup_cons_entry, hb, h, ih hds]

theorem get?_foldl_insert (f : Interval → Interval → Interval) (a m : RegionMap) (region : String)
    (es : List (String × Interval)) (sorted : es.Pairwise fun a b => a.1 < b.1) :
    (es.foldl (fun m e => m.insert e.1 ((a.get? e.1).elim e.2 fun offsets => f offsets e.2)) m).get?
        region =
      match es.lookup region with
      | some y => some ((a.get? region).elim y fun x => f x y)
      | none => m.get? region := by
  induction es generalizing m with
  | nil => rfl
  | cons d ds ih =>
    obtain ⟨hd, hds⟩ := List.pairwise_cons.1 sorted
    rw [List.foldl_cons, ih _ hds]
    by_cases h : region = d.1
    · subst h
      rw [lookup_eq_none_of_lt hd]
      simp [get?_insert, lookup_cons_entry]
    · simp [get?_insert, lookup_cons_entry, h]

theorem get?_unionWith (f : Interval → Interval → Interval) (a b : RegionMap) (region : String) :
    (a.unionWith f b).get? region = Option.merge f (a.get? region) (b.get? region) := by
  rw [unionWith, get?_foldl_insert f a a region b.entries b.sorted]
  simp only [get?]
  cases b.entries.lookup region <;> cases a.entries.lookup region <;> rfl

/-- A map is determined by what it holds for each region. -/
theorem ext_get? {a b : RegionMap} (h : ∀ region, a.get? region = b.get? region) : a = b := by
  obtain ⟨es, hes⟩ := a
  obtain ⟨ds, hds⟩ := b
  simp only [get?] at h
  suffices es = ds by simp [this]
  induction es generalizing ds with
  | nil =>
    cases ds with
    | nil => rfl
    | cons d ds => simpa [lookup_cons_entry] using h d.1
  | cons e es ih =>
    obtain ⟨he, hes'⟩ := List.pairwise_cons.1 hes
    cases ds with
    | nil => simpa [lookup_cons_entry] using h e.1
    | cons d ds =>
      obtain ⟨hd, hds'⟩ := List.pairwise_cons.1 hds
      have hkey : e.1 = d.1 := by
        rcases Decidable.em (e.1 = d.1) with heq | hne
        · exact heq
        · have hsome : (d :: ds).lookup e.1 = some e.2 := by rw [← h e.1]; simp [lookup_cons_entry]
          have hsome' : (e :: es).lookup d.1 = some d.2 := by rw [h d.1]; simp [lookup_cons_entry]
          rcases Decidable.em (e.1 < d.1) with hlt | hnlt
          · rw [lookup_eq_none_of_lt] at hsome
            · cases hsome
            · intro x hx
              rcases List.mem_cons.1 hx with rfl | hx
              · exact hlt
              · exact String.lt_trans hlt (hd x hx)
          · have hlt := lt_of_not_lt_of_ne hnlt hne
            rw [lookup_eq_none_of_lt] at hsome'
            · cases hsome'
            · intro x hx
              rcases List.mem_cons.1 hx with rfl | hx
              · exact hlt
              · exact String.lt_trans hlt (he x hx)
      have hval : e.2 = d.2 := by
        have := h e.1
        rw [hkey] at this
        simpa [lookup_cons_entry, hkey] using this
      have htail : es = ds := by
        refine ih hes' ds hds' fun region => ?_
        rcases Decidable.em (region = e.1) with heq | hne
        · rw [heq, lookup_eq_none_of_lt he, hkey, lookup_eq_none_of_lt hd]
        · have := h region
          have hned : region ≠ d.1 := fun heq => hne (heq.trans hkey.symm)
          simpa [lookup_cons_entry, hne, hned] using this
      rw [htail, Prod.ext hkey hval]

end RegionMap

end AbstractBits
