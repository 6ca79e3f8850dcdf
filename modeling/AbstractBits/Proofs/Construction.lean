import AbstractBits.Construction
import AbstractBits.Proofs.AbstractValue.Transfer
import AbstractBits.Proofs.ValueSet.Insertion
/-!
# What is built is valid

Every operation keeps the form in which descriptions are kept, so that validity is no condition on
descriptions that can occur.

Results:
  * `Built.valid` — the invariant of all sequences of operations.
-/

namespace AbstractBits

namespace Built

/-- Whatever a sequence of operations builds is valid: each operation makes valid descriptions of
valid ones. -/
theorem valid {a : AbstractValue} (h : Built a) : a.Valid := by
  induction h with
  | ofBounds h => exact Interval.valid_of_ofBounds h
  | point h =>
    obtain ⟨width, rfl⟩ := requireWidth_eq_ok.1 h
    exact Interval.valid_constant width _
  | top h =>
    obtain ⟨width, rfl⟩ := requireWidth_eq_ok.1 h
    exact Interval.valid_whole width
  | bottom h =>
    obtain ⟨width, rfl⟩ := requireWidth_eq_ok.1 h
    exact Interval.valid_empty width
  | word w => exact Interval.valid_constant w.valid w.value
  | withName _ name hx => exact Interval.valid_withName hx name
  | union _ _ h hx hy | setUnion _ _ h hx hy | valueSetUnion _ _ h hx hy =>
    exact (AbstractValue.combines_union.retains hx hy (map_eq_ok.2 ⟨_, h, rfl⟩)).valid
  | intersection _ _ h hx hy | setIntersection _ _ h hx hy | valueSetIntersection _ _ h hx hy =>
    exact (AbstractValue.combines_intersection.retains hx hy (map_eq_ok.2 ⟨_, h, rfl⟩)).valid
  | widen _ _ h hx hy | setWiden _ _ h hx hy | valueSetWiden _ _ h hx hy =>
    exact (AbstractValue.combines_widen.retains hx hy (map_eq_ok.2 ⟨_, h, rfl⟩)).valid
  | extract _ h hx | setExtract _ h hx | valueSetExtract _ h hx =>
    exact (AbstractValue.imagesOf_extract hx (map_eq_ok.2 ⟨_, h, rfl⟩)).valid
  | concat _ _ h hx hy | setConcat _ _ h hx hy =>
    exact (AbstractValue.denotes_concat hx hy (map_eq_ok.2 ⟨_, h, rfl⟩)).1
  | zeroExtend _ h hx | setZeroExtend _ h hx =>
    exact (AbstractValue.imagesOf_zeroExtend hx (map_eq_ok.2 ⟨_, h, rfl⟩)).valid
  | signExtend _ h hx | setSignExtend _ h hx =>
    exact (AbstractValue.imagesOf_signExtend hx (map_eq_ok.2 ⟨_, h, rfl⟩)).valid
  | reverse _ h hx | setReverse _ h hx | valueSetReverse _ h hx =>
    exact (AbstractValue.imagesOf_reverse hx (map_eq_ok.2 ⟨_, h, rfl⟩)).valid
  | shiftRight _ _ hx hy => exact Interval.valid_shiftRight hx hy
  | setShiftRight _ _ hs hy => exact IntervalSet.valid_shiftRight hs hy
  | valueSetShiftRight _ _ hv hy => exact ValueSet.valid_shiftRight hv hy
  | stored _ hx => exact Interval.valid_stored hx
  | setStored _ hs => exact IntervalSet.valid_stored hs
  | valueSetStored _ hv => exact ValueSet.valid_stored hv
  | setOfMembers _ h hmembers => exact IntervalSet.valid_of_new hmembers h
  | setOfInterval _ hx => exact IntervalSet.valid_ofInterval hx
  | setHull _ hs => exact IntervalSet.valid_hull hs
  | valueSetNew h => exact ValueSet.valid_of_new h
  | valueSetOfInterval _ hx => exact ValueSet.valid_ofInterval hx
  | insert _ _ h hv hx => exact ValueSet.valid_insert hv hx h
  | offsets _ h hv => exact (ValueSet.Valid.uniform hv _ _ h).1
  | hull _ h ha => exact (AbstractValue.covers_of_hull? ha h).1

end Built

end AbstractBits
