import AbstractBits.Proofs.Interval.Semilattice
import AbstractBits.Proofs.Interval.Transfer
import AbstractBits.Proofs.Interval.Verdict
import AbstractBits.Proofs.Progression.Monotone
/-!
# Operations on intervals and inclusion

Larger intervals have larger results: what an operation makes of included intervals is included in
what it makes of the larger ones, and a comparison that is decided for the larger ones is decided in
the same way for all non-empty intervals in them.

Results:
  * `image_subset_image`, `pairs_subset_pairs` — what is made of members, or of pairs of them, keeps
    inclusion.
  * `operations_monotone` — the operations on intervals keep inclusion.
-/

namespace AbstractBits

namespace Interval

variable {x x' y y' : Interval} {m n bits : Nat}

/-- Two results, of which the first one is included in the second one. -/
def Included (first second : Except OperationError Interval) : Prop :=
  ∃ z z', first = .ok z ∧ second = .ok z' ∧ z ⊆ z'

theorem included_ok (h : x ⊆ x') : Included (.ok x) (.ok x') := ⟨x, x', rfl, rfl, h⟩

/-! ## Images of members -/

theorem exists_larger_range {p : Progression} (hx : x.Plain m) (hx' : x'.Plain m) (h : x ⊆ x')
    (hp : x.range = some p) : ∃ p', x'.range = some p' ∧ p ⊆ p' :=
  (subset_iff_ranges hx hx'.unreversed).1 h p hp

theorem image_subset_image {f : Progression → Progression} (hx : x.Plain m) (hx' : x'.Plain m)
    (h : x ⊆ x') (hf : ∀ p p' : Progression, p.Fits m → p ⊆ p' → f p ⊆ f p') :
    x.image bits f ⊆ x'.image bits f := by
  unfold image
  rw [cover_of_not_reversed hx.unreversed, cover_of_not_reversed hx'.unreversed]
  cases hrange : x.range with
  | none => exact empty_subset rfl
  | some p =>
    obtain ⟨p', hrange', hpp'⟩ := exists_larger_range hx hx' h hrange
    rw [hrange']
    exact (subset_iff_of_ranges rfl rfl rfl rfl).2 (hf p p' (hx.fits hrange) hpp')

/-- What is made of all pairs of members keeps inclusion on both sides. -/
theorem pairs_subset_pairs {f : Progression → Progression → Progression} (hx : x.Plain m)
    (hx' : x'.Plain m) (hy : y.Plain n) (hy' : y'.Plain n) (hxx' : x ⊆ x') (hyy' : y ⊆ y')
    (hf : ∀ p p' q q' : Progression, p.Fits m → q.Fits n → q'.Fits n → p ⊆ p' → q ⊆ q' →
      f p q ⊆ f p' q') :
    ofRange bits (x.cover.range.bind fun p => y.cover.range.map fun q => f p q) ⊆
      ofRange bits (x'.cover.range.bind fun p => y'.cover.range.map fun q => f p q) := by
  rw [cover_of_not_reversed hx.unreversed, cover_of_not_reversed hx'.unreversed,
    cover_of_not_reversed hy.unreversed, cover_of_not_reversed hy'.unreversed]
  cases hxrange : x.range with
  | none => exact empty_subset rfl
  | some p =>
    cases hyrange : y.range with
    | none => exact empty_subset rfl
    | some q =>
      obtain ⟨p', hxrange', hpp'⟩ := exists_larger_range hx hx' hxx' hxrange
      obtain ⟨q', hyrange', hqq'⟩ := exists_larger_range hy hy' hyy' hyrange
      rw [hxrange', hyrange']
      exact (subset_iff_of_ranges rfl rfl rfl rfl).2
        (hf p p' q q' (hx.fits hxrange) (hy.fits hyrange) (hy'.fits hyrange') hpp' hqq')

/-! ## Operations -/

theorem join_subset_join (hx : x.Plain m) (hx' : x'.Plain m) (hy : y.Plain m) (hy' : y'.Plain m)
    (hxx' : x ⊆ x') (hyy' : y ⊆ y') : x.join y ⊆ x'.join y' := by
  have hleast := least_join hx' hy'
  exact join_subset hx hy (hx'.join hy').unreversed (subset_trans hxx' hleast.left)
    (subset_trans hyy' hleast.right)

theorem append_subset_append (hx : x.Plain m) (hx' : x'.Plain m) (hy : y.Plain n) (hy' : y'.Plain n)
    (hxx' : x ⊆ x') (hyy' : y ⊆ y') : x.append y ⊆ x'.append y' := by
  unfold append
  rw [hx.width, hx'.width, hy.width, hy'.width]
  exact pairs_subset_pairs hx hx' hy hy' hxx' hyy' fun _ _ _ _ hp hq _ hpp' hqq' =>
    Progression.append_subset_append n hp.1 hq.1 hpp' hqq'

theorem slice_subset_slice {high low : Nat} (field : FieldOf m high low) (hx : x.Plain m)
    (hx' : x'.Plain m) (h : x ⊆ x') : x.slice high low ⊆ x'.slice high low := by
  have hwidth := validWidth_field (hx.width ▸ hx.valid.width) field
  exact image_subset_image hx hx' h fun _ _ hp hpp' =>
    Progression.field_subset_field low hwidth hp.1 hpp'

theorem shiftRight_subset_shiftRight (hx : x.Plain m) (hx' : x'.Plain m) (hy : y.Plain n)
    (hy' : y'.Plain n) (hxx' : x ⊆ x') (hyy' : y ⊆ y') : x.shiftRight y ⊆ x'.shiftRight y' := by
  unfold shiftRight
  rw [hx.width, hx'.width]
  exact pairs_subset_pairs hx hx' hy hy' hxx' hyy' fun _ _ _ _ hp hq hq' hpp' hqq' =>
    Progression.shiftRight_subset_shiftRight hp.1 hq.1 hq'.1 hpp' hqq'

/-- A comparison that is decided for larger intervals is decided in the same way for all non-empty
ones in them. -/
theorem verdict_of_subset {c : Comparison} {t : Bool} (hx : x.Plain m) (hx' : x'.Plain m)
    (hy : y.Plain m) (hy' : y'.Plain m) (hxx' : x ⊆ x') (hyy' : y ⊆ y') (hxsome : x.isEmpty = false)
    (hysome : y.isEmpty = false) (h : verdict c x' y' = .ofBool t) : verdict c x y = .ofBool t := by
  obtain ⟨-, -, hall⟩ := (verdict_eq_ofBool_iff hx'.valid hy'.valid (hx'.same_width hy')).1 h
  refine (verdict_eq_ofBool_iff hx.valid hy.valid (hx.same_width hy)).2
    ⟨hxsome, hysome, fun u v hu hv => ?_⟩
  rw [cover_of_not_reversed hx.unreversed] at hu
  rw [cover_of_not_reversed hy.unreversed] at hv
  rw [cover_of_not_reversed hx'.unreversed, cover_of_not_reversed hy'.unreversed] at hall
  rw [hx.same_width hx']
  exact hall u v (hxx' u hu) (hyy' v hv)

/-- Larger intervals have larger results, in all operations that are defined for their widths, and
what a comparison decides for them it decides in the same way for the non-empty intervals in
them. -/
theorem operations_monotone (hx : x.Plain m) (hx' : x'.Plain m) (hy : y.Plain n) (hy' : y'.Plain n)
    (hxx' : x ⊆ x') (hyy' : y ⊆ y') :
    (m = n → Included (x.union y) (x'.union y')) ∧
      (ValidWidth (m + n) → Included (x.concat y) (x'.concat y')) ∧
      (∀ high low, FieldOf m high low → Included (x.extract high low) (x'.extract high low)) ∧
      (∀ total, ExtensionOf m total → Included (x.zeroExtend total) (x'.zeroExtend total) ∧
        Included (x.signExtend total) (x'.signExtend total)) ∧
      x.shiftRight y ⊆ x'.shiftRight y' ∧
      ∀ c t, x.isEmpty = false → y.isEmpty = false → x'.compare c y' = .ok (.ofBool t) →
        x.compare c y = .ok (.ofBool t) := by
  refine ⟨?_, ?_, ?_, ?_, shiftRight_subset_shiftRight hx hx' hy hy' hxx' hyy', ?_⟩
  · rintro rfl
    rw [union_eq (hx.same_width hy), union_eq (hx'.same_width hy')]
    exact included_ok (join_subset_join hx hx' hy hy' hxx' hyy')
  · intro width
    simp only [concat, hx.width, hx'.width, hy.width, hy'.width, requireWidth, if_pos width]
    exact included_ok (append_subset_append hx hx' hy hy' hxx' hyy')
  · intro high low field
    simp only [extract, hx.width, hx'.width, if_pos field]
    exact included_ok (slice_subset_slice field hx hx' hxx')
  · intro total extension
    simp only [zeroExtend, signExtend, hx.width, hx'.width, if_pos extension]
    constructor
    · exact included_ok (image_subset_image hx hx' hxx' fun _ _ _ hpp' => hpp')
    · exact included_ok (image_subset_image hx hx' hxx' fun _ _ hp hpp' =>
        Progression.signExtend_subset_signExtend total hp.1 hpp')
  · intro c t hxsome hysome hcompare
    obtain ⟨hwidths, hverdict⟩ := requireSameWidth_eq_ok.1 hcompare
    obtain rfl : m = n := hx'.width.symm.trans (hwidths.trans hy'.width)
    exact requireSameWidth_eq_ok.2
      ⟨hx.same_width hy, verdict_of_subset hx hx' hy hy' hxx' hyy' hxsome hysome hverdict⟩

/-- The number 128, which is negative in 8 bits, and the numbers from 126 to 129, which are of both
signs. -/
theorem operations_on_sign_boundary :
    Included ((constant 8 128).signExtend 16) ((ofRange 8 (some ⟨126, 129, 1⟩)).signExtend 16) ∧
      (constant 8 128).shiftRight (constant 8 1) ⊆
        (ofRange 8 (some ⟨126, 129, 1⟩)).shiftRight (ofRange 8 (some ⟨1, 2, 1⟩)) ∧
      (constant 8 128).compare ⟨false, .gt⟩ (constant 8 1) = .ok .always := by
  have hconstant (value : Nat) : (constant 8 value).Plain 8 := plain_constant (by decide) value
  have hlarge : (ofRange 8 (some ⟨126, 129, 1⟩)).Plain 8 :=
    plain_ofRange (by decide) ⟨by decide, by decide⟩
  have hamounts : (ofRange 8 (some ⟨1, 2, 1⟩)).Plain 8 :=
    plain_ofRange (by decide) ⟨by decide, by decide⟩
  have hsubset : constant 8 128 ⊆ ofRange 8 (some ⟨126, 129, 1⟩) :=
    (subset_iff_of_ranges rfl rfl rfl rfl).2
      ((Progression.subset_iff (Progression.normal_single _)).2 (by decide))
  have hamount : constant 8 1 ⊆ ofRange 8 (some ⟨1, 2, 1⟩) :=
    (subset_iff_of_ranges rfl rfl rfl rfl).2
      ((Progression.subset_iff (Progression.normal_single _)).2 (by decide))
  obtain ⟨-, -, -, hextensions, hshift, hcompare⟩ :=
    operations_monotone (hconstant 128) hlarge (hconstant 1) hamounts hsubset hamount
  exact ⟨(hextensions 16 (by decide)).2, hshift, hcompare ⟨false, .gt⟩ true rfl rfl rfl⟩

end Interval

end AbstractBits
