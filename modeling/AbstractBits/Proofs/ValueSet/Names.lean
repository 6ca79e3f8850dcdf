import AbstractBits.Proofs.Interval.Names
import AbstractBits.ValueSet.Basic
/-!
# Names of offsets

A value set keeps the offsets that an operation leaves alone as they are, with their names: those of
a region that only one operand of a union has, and all of them behind a byte swap. So an operation
on value sets without names gives its result without names. A field of the offsets and a shift read
no names at all.

Results:
  * `RegionMap.map_unionWith`, `RegionMap.map_interWith`, `RegionMap.map_filter` — what is done to
    all offsets before regions are combined can be done after it.
  * `cover_unnamed`, `addOffsets_unnamed`, `combine_unnamed` — the operations that keep offsets keep
    their names.
  * `extract_unnamed`, `shiftRight_unnamed`, `sample_unnamed`, `meets_unnamed` — the others read
    none.
-/

namespace AbstractBits

namespace RegionMap

variable {f : Interval → Interval → Interval} {g h : Interval → Interval} {keep : Interval → Bool}

theorem map_map (g h : Interval → Interval) (m : RegionMap) :
    (m.map g).map h = m.map fun x => h (g x) := by
  refine ext_get? fun region => ?_
  simp only [get?_map, Option.map_map, Function.comp_def]

theorem map_insert (g : Interval → Interval) (m : RegionMap) (region : String) (x : Interval) :
    (m.map g).insert region (g x) = (m.insert region x).map g := by
  refine ext_get? fun other => ?_
  rw [get?_insert, get?_map, get?_map, get?_insert]
  split <;> rfl

/-- A test that does not depend on what is done to the offsets keeps the same regions before and
after. -/
theorem map_filter (hkeep : ∀ x, keep (g x) = keep x) (m : RegionMap) :
    (m.map g).filter keep = (m.filter keep).map g := by
  refine ext_get? fun region => ?_
  rw [get?_filter, get?_map, get?_map, get?_filter]
  cases m.get? region with
  | none => rfl
  | some x =>
    simp only [Option.map_some, Option.filter_some, hkeep]
    split <;> rfl

theorem map_unionWith (hf : ∀ x y, f (g x) (g y) = g (f x y)) (a b : RegionMap) :
    (a.map g).unionWith f (b.map g) = (a.unionWith f b).map g := by
  refine ext_get? fun region => ?_
  rw [get?_unionWith, get?_map, get?_map, get?_map, get?_unionWith]
  cases a.get? region <;> cases b.get? region <;> simp [Option.merge, hf]

theorem map_interWith (hf : ∀ x y, f (g x) (g y) = g (f x y)) (a b : RegionMap) :
    (a.map g).interWith f (b.map g) = (a.interWith f b).map g := by
  refine ext_get? fun region => ?_
  rw [get?_interWith, get?_map, get?_map, get?_map, get?_interWith]
  cases a.get? region <;> cases b.get? region <;> simp [hf]

theorem values_map (g : Interval → Interval) (m : RegionMap) :
    (m.map g).values = m.values.map g := by
  simp only [values, map, List.map_map, Function.comp_def]

end RegionMap

namespace ValueSet

variable (v w : ValueSet) {op : RegionMap → RegionMap → RegionMap}

/-! ## Construction -/

theorem ofInterval_unnamed (x : Interval) : ofInterval x.unnamed = (ofInterval x).unnamed := by
  have hempty : x.unnamed.isEmpty = x.isEmpty := rfl
  rw [ofInterval, ofInterval, hempty]
  split <;> rfl

theorem addOffsets_unnamed (region : String) (x : Interval) :
    v.unnamed.addOffsets region x.unnamed = (v.addOffsets region x).unnamed := by
  have hempty : x.unnamed.isEmpty = x.isEmpty := rfl
  rw [addOffsets, addOffsets, hempty]
  split
  · rfl
  · have hjoined :
        (v.unnamed.regions.get? region).elim x.unnamed (fun known => known.join x.unnamed) =
          ((v.regions.get? region).elim x fun known => known.join x).unnamed := by
      rw [unnamed, RegionMap.get?_map]
      cases v.regions.get? region with
      | none => rfl
      | some known =>
        exact (Interval.join_unnamed_both known x).trans (Interval.unnamed_join known x).symm
    simp only [hjoined]
    simp only [unnamed, RegionMap.map_insert]

theorem insert_unnamed (region : String) (x : Interval) :
    v.unnamed.insert region x.unnamed = (v.insert region x).map unnamed := by
  rw [insert, addOffsets_unnamed]
  exact (requireSameWidth_map unnamed v.bits x.bits _).symm

/-! ## What is stored -/

theorem cover_unnamed : v.unnamed.cover = v.cover.unnamed := by
  have hwhole : (v.regions.map fun _ => Interval.whole v.bits).map (·.unnamed) =
      (v.regions.map (·.unnamed)).map fun _ => Interval.whole v.bits := by
    rw [RegionMap.map_map, RegionMap.map_map]
    rfl
  cases hrev : v.reversed with
  | false => simp only [cover, unnamed, hrev, Bool.false_eq_true, if_false]
  | true => simp only [cover, unnamed, hrev, if_true, hwhole]

theorem onlyRegion?_unnamed :
    v.unnamed.onlyRegion? = v.onlyRegion?.map fun e => (e.1, e.2.unnamed) := by
  obtain ⟨bits, ⟨entries, sorted⟩, reversed⟩ := v
  match entries with
  | [] => rfl
  | [e] => rfl
  | e :: e' :: es => rfl

theorem values_unnamed : v.unnamed.regions.values = v.regions.values.map (·.unnamed) :=
  RegionMap.values_map _ _

/-! ## Lattice operations -/

/-- Regions are combined without names if the operation on stored regions does so. -/
theorem combine_unnamed
    (hop : ∀ a b, op (a.map (·.unnamed)) (b.map (·.unnamed)) = (op a b).map (·.unnamed)) :
    combine op v.unnamed w.unnamed = (combine op v w).map unnamed := by
  have hregions :
      (if v.reversed && w.reversed then op v.unnamed.regions w.unnamed.regions
        else op v.unnamed.cover.regions w.unnamed.cover.regions) =
      (if v.reversed && w.reversed then op v.regions w.regions
        else op v.cover.regions w.cover.regions).map (·.unnamed) := by
    rw [cover_unnamed, cover_unnamed]
    split <;> exact hop _ _
  have hkeep (m : RegionMap) : (m.map (·.unnamed)).filter (fun x => !x.isEmpty) =
      (m.filter fun x => !x.isEmpty).map (·.unnamed) := by
    refine RegionMap.map_filter ?_ m
    exact fun _ => rfl
  have hresult : combine op v.unnamed w.unnamed = requireSameWidth v.bits w.bits
      ⟨v.bits, (if v.reversed && w.reversed then op v.unnamed.regions w.unnamed.regions
        else op v.unnamed.cover.regions w.unnamed.cover.regions).filter fun x => !x.isEmpty,
        v.reversed && w.reversed⟩ := rfl
  rw [hresult, hregions, hkeep, combine, requireSameWidth_map]
  rfl

theorem union_unnamed : v.unnamed.union w.unnamed = (v.union w).map unnamed :=
  combine_unnamed v w (RegionMap.map_unionWith fun x y =>
    (Interval.join_unnamed_both x y).trans (Interval.unnamed_join x y).symm)

theorem intersection_unnamed : v.unnamed.intersection w.unnamed = (v.intersection w).map unnamed :=
  combine_unnamed v w (RegionMap.map_interWith fun x y =>
    (Interval.meet_unnamed x y).trans (Interval.unnamed_meet x y).symm)

theorem widen_unnamed : v.unnamed.widen w.unnamed = (v.widen w).map unnamed :=
  combine_unnamed v w (RegionMap.map_unionWith fun x y =>
    (Interval.stretch_unnamed x y).trans (Interval.unnamed_stretch x y).symm)

/-! ## Bit operations -/

theorem image_unnamed (bits : Nat) {f g : Interval → Interval} (hfg : ∀ x, f x.unnamed = g x) :
    image bits f v.unnamed = image bits g v := by
  rw [image, cover_unnamed, unnamed, RegionMap.map_map, image]
  simp only [hfg]

theorem extract_unnamed (high low : Nat) : v.unnamed.extract high low = v.extract high low := by
  rw [extract, image_unnamed v _ (Interval.slice_unnamed high low)]
  rfl

theorem shiftRight_unnamed (y : Interval) : v.unnamed.shiftRight y.unnamed = v.shiftRight y :=
  image_unnamed v v.bits fun x => Interval.shiftRight_unnamed x y

theorem reverse_unnamed : v.unnamed.reverse = v.reverse.map unnamed := by
  show (if v.bits = 8 then _ else if v.bits % 8 ≠ 0 then _ else _) = _
  unfold reverse
  split
  · rfl
  · split <;> rfl

/-! ## Questions -/

theorem isSingle_unnamed : v.unnamed.isSingle = v.isSingle := by
  rw [isSingle, onlyRegion?_unnamed, Option.any_map]
  rfl

theorem sample_unnamed (n : Nat) : v.unnamed.sample n = v.sample n := by
  rw [sample, values_unnamed, List.flatMap_map]
  rfl

theorem meets_unnamed (y : Interval) : v.unnamed.meets y.unnamed = v.meets y := by
  rw [meets, cover_unnamed, values_unnamed, List.any_map]
  simp only [Function.comp_def, Interval.meet_unnamed]
  rfl

end ValueSet

end AbstractBits
