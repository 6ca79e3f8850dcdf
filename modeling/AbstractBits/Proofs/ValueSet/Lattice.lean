import AbstractBits.Denotation
import AbstractBits.Proofs.ValueSet.Regions
/-!
# What combined value sets stand for

The pending byte swap of a value set is one more layer over those of its offsets, with the same
rule: two of them are carried over to the result, a single one is given up for the whole width in
every region.

Results:
  * `denotes_cover` — giving up a pending byte swap gives up no place.
  * `retains_combine` — a combination of two value sets keeps what the operation on their regions
    keeps.
  * `retains_union`, `retains_intersection`, `retains_widen` — the three operations.
  * `union_comm`, `intersection_comm` — the order of the operands makes no difference.
-/

namespace AbstractBits

namespace ValueSet

variable {s t : ValueSet} {place : Place}

/-! ## Valid value sets -/

theorem Valid.uniform (h : s.Valid) : s.regions.Uniform s.bits := RegionMap.uniform_iff.2 h.offsets

theorem valid_of_uniform {bits : Nat} {regions : RegionMap} (width : ValidWidth bits)
    (h : regions.Uniform bits) : (⟨bits, regions, false⟩ : ValueSet).Valid where
  width := width
  offsets := RegionMap.uniform_iff.1 h
  pending := by simp

theorem valid_ofInterval {x : Interval} (hx : x.Valid) : (ofInterval x).Valid := by
  refine valid_of_uniform hx.width ?_
  split
  · exact RegionMap.uniform_empty _
  · exact RegionMap.uniform_insert (RegionMap.uniform_empty _) hx rfl

theorem valid_stored (hs : s.Valid) : s.stored.Valid := valid_of_uniform hs.width hs.uniform

theorem valid_of_new {bits : Nat} (h : new bits = .ok s) : s.Valid := by
  obtain ⟨width, rfl⟩ := requireWidth_eq_ok.1 h
  exact valid_of_uniform width (RegionMap.uniform_empty bits)

theorem denotes_of_not_reversed (hrev : s.reversed = false) :
    s.Denotes place ↔ s.regions.Denotes place.region place.offset := by
  simp only [Denotes, RegionMap.Denotes, shown, hrev, get?]
  constructor
  · rintro ⟨x, hx, u, hu, hoffset⟩
    exact ⟨x, hx, hoffset ▸ hu⟩
  · rintro ⟨x, hx, hv⟩
    exact ⟨x, hx, _, hv, rfl⟩

/-- The offsets behind a pending byte swap are those of the regions, byte-swapped. -/
theorem Valid.denotes_reversed (hs : s.Valid) (hrev : s.reversed = true) :
    s.Denotes place ↔
      place.offset < twoPow s.bits ∧
      s.regions.Denotes place.region (byteReversed s.bits place.offset) := by
  have bytes := (hs.pending hrev).1
  simp only [Denotes, RegionMap.Denotes, shown, hrev, if_true, get?]
  constructor
  · rintro ⟨x, hx, u, hu, hoffset⟩
    obtain ⟨hvalid, hbits⟩ := hs.uniform _ x hx
    have hlt := hbits ▸ hvalid.lt_twoPow hu
    rw [hoffset, byteReversed_byteReversed bytes hlt]
    exact ⟨byteReversed_lt bytes u, x, hx, hu⟩
  · rintro ⟨hlt, x, hx, hv⟩
    exact ⟨x, hx, _, hv, (byteReversed_byteReversed bytes hlt).symm⟩

/-- The offsets of a valid value set are numbers of its width. -/
theorem Valid.lt_twoPow (hs : s.Valid) (hv : s.Denotes place) : place.offset < twoPow s.bits := by
  cases hrev : s.reversed with
  | true => exact ((hs.denotes_reversed hrev).1 hv).1
  | false =>
    obtain ⟨x, hx, hxv⟩ := (denotes_of_not_reversed hrev).1 hv
    obtain ⟨hvalid, hbits⟩ := hs.uniform _ x hx
    exact hbits ▸ hvalid.lt_twoPow hxv

/-! ## Covers -/

@[simp] theorem bits_cover (s : ValueSet) : s.cover.bits = s.bits := by
  unfold cover
  split <;> rfl

theorem cover_of_not_reversed (hrev : s.reversed = false) : s.cover = s := if_neg (by simp [hrev])

theorem valid_cover (hs : s.Valid) : s.cover.Valid := by
  unfold cover
  split
  · exact valid_of_uniform hs.width
      (RegionMap.uniform_map hs.uniform fun _ _ _ => ⟨Interval.valid_whole hs.width, rfl⟩)
  · exact hs

theorem uniform_cover (hs : s.Valid) : s.cover.regions.Uniform s.bits :=
  bits_cover s ▸ (valid_cover hs).uniform

/-- Giving up a pending byte swap gives up no place. -/
theorem denotes_cover (hs : s.Valid) (hv : s.Denotes place) :
    s.cover.regions.Denotes place.region place.offset := by
  unfold cover
  split
  · rename_i hrev
    obtain ⟨hlt, x, hx, -⟩ := (hs.denotes_reversed hrev).1 hv
    refine ⟨.whole s.bits, ?_, Interval.denotes_whole.2 ((le_allOnes_iff hs.width).2 hlt)⟩
    rw [Option.mem_def] at hx
    simp [RegionMap.get?_map, hx]
  · rename_i hrev
    exact (denotes_of_not_reversed (by simpa using hrev)).1 hv

/-! ## Combined value sets -/

/-- A valid value set of the width of the first of two operands, for what is kept of both. -/
structure Retains (k : Kept) (s t u : ValueSet) : Prop where
  valid : u.Valid
  width : u.bits = s.bits
  denotes : ∀ place, k.Holds (s.Denotes place) (t.Denotes place) → u.Denotes place

/-- A combination of two value sets of one width keeps what the operation on their regions keeps.
Behind two pending byte swaps both operands stand for a place by the byte-swapped image of its
offset. -/
theorem retains_combine {k : Kept} {op : RegionMap → RegionMap → RegionMap} (hs : s.Valid)
    (ht : t.Valid) (hbits : s.bits = t.bits) (keeps : RegionMap.Keeps k s.bits op) :
    ∃ u, combine op s t = .ok u ∧ Retains k s t u := by
  refine ⟨_, requireSameWidth_eq_ok.2 ⟨hbits, rfl⟩, ?_⟩
  cases hboth : s.reversed && t.reversed with
  | false =>
    have hsc := uniform_cover hs
    have htc := hbits ▸ uniform_cover ht
    have hop := keeps.uniform _ _ hsc htc
    refine ⟨valid_of_uniform hs.width (RegionMap.uniform_filter _ hop), rfl, ?_⟩
    intro place hv
    rw [denotes_of_not_reversed rfl]
    refine (RegionMap.denotes_filter_nonempty hop).2 ?_
    exact keeps.denotes _ _ hsc htc _ _ (hv.imp (denotes_cover hs) (denotes_cover ht))
  | true =>
    obtain ⟨hsrev, htrev⟩ := Bool.and_eq_true_iff.1 hboth
    have htu := hbits ▸ ht.uniform
    have hop := keeps.uniform _ _ hs.uniform htu
    have hvalid : (⟨s.bits, (op s.regions t.regions).filter fun offsets => !offsets.isEmpty, true⟩ :
        ValueSet).Valid :=
      ⟨hs.width, RegionMap.uniform_iff.1 (RegionMap.uniform_filter _ hop),
        fun _ => hs.pending hsrev⟩
    refine ⟨hvalid, rfl, ?_⟩
    intro place hv
    have hlt : place.offset < twoPow s.bits :=
      hv.or.elim hs.lt_twoPow fun h => hbits ▸ ht.lt_twoPow h
    refine (hvalid.denotes_reversed rfl).2 ⟨hlt, (RegionMap.denotes_filter_nonempty hop).2 ?_⟩
    exact keeps.denotes _ _ hs.uniform htu _ _
      (hv.imp (fun h => ((hs.denotes_reversed hsrev).1 h).2)
        fun h => hbits ▸ ((ht.denotes_reversed htrev).1 h).2)

theorem retains_union (hs : s.Valid) (ht : t.Valid) (hbits : s.bits = t.bits) :
    ∃ u, s.union t = .ok u ∧ Retains .either s t u :=
  retains_combine hs ht hbits (RegionMap.keeps_unionWith fun _ _ hx hy hxb hyb =>
    Interval.retains_join hx hy (hxb.trans hyb.symm))

theorem retains_intersection (hs : s.Valid) (ht : t.Valid) (hbits : s.bits = t.bits) :
    ∃ u, s.intersection t = .ok u ∧ Retains .common s t u :=
  retains_combine hs ht hbits (RegionMap.keeps_interWith fun _ _ hx hy hxb hyb =>
    Interval.retains_meet hx hy (hxb.trans hyb.symm))

theorem retains_widen (hs : s.Valid) (ht : t.Valid) (hbits : s.bits = t.bits) :
    ∃ u, s.widen t = .ok u ∧ Retains .either s t u :=
  retains_combine hs ht hbits (RegionMap.keeps_unionWith fun _ _ hx hy hxb hyb =>
    Interval.retains_stretch hx hy (hxb.trans hyb.symm))

/-! ## Order of operands -/

/-- Value sets of one width are combined to the same in either order, if their regions are. -/
theorem combine_comm {op : RegionMap → RegionMap → RegionMap} (hs : s.Valid) (ht : t.Valid)
    (hbits : s.bits = t.bits)
    (hop : ∀ m n : RegionMap, m.Uniform s.bits → n.Uniform s.bits → op m n = op n m) :
    combine op s t = combine op t s := by
  have hstored := hop _ _ hs.uniform (hbits ▸ ht.uniform)
  have hcover := hop _ _ (uniform_cover hs) (hbits ▸ uniform_cover ht)
  unfold combine
  rw [Bool.and_comm, hstored, hcover, hbits]

theorem union_comm (hs : s.Valid) (ht : t.Valid) (hbits : s.bits = t.bits) :
    s.union t = t.union s :=
  combine_comm hs ht hbits fun _ _ => RegionMap.unionWith_comm fun _ _ hx hy hxb hyb =>
    Interval.join_comm hx hy (hxb.trans hyb.symm)

theorem intersection_comm (hs : s.Valid) (ht : t.Valid) (hbits : s.bits = t.bits) :
    s.intersection t = t.intersection s :=
  combine_comm hs ht hbits fun _ _ => RegionMap.interWith_comm fun _ _ hx hy hxb hyb =>
    Interval.meet_comm hx hy (hxb.trans hyb.symm)

end ValueSet

end AbstractBits
