import AbstractBits.Proofs.Interval.Lattice
/-!
# Names of intervals

An operation on intervals reads the width, the stored members and whether a byte swap is pending,
and builds its result from these alone. So the result is the same with and without the names of the
operands, and has no name of its own. The one exception is the cover of an interval: without a
pending byte swap it is the interval, name and all.

Results:
  * `cover_unnamed` — the cover keeps the name or there is none to keep.
  * `append_unnamed`, `shiftRight_unnamed`, `reverse_unnamed` and so on — the operations read no
    names.
  * `unnamed_join`, `unnamed_meet`, `unnamed_stretch` — nor do they introduce any.
-/

namespace AbstractBits

namespace Interval

theorem cover_unnamed (x : Interval) : x.unnamed.cover = x.cover.unnamed := by
  cases hrev : x.reversed <;> simp [cover, unnamed, hrev, whole, ofRange]

/-! ## Bit operations -/

theorem image_unnamed (bits : Nat) (f : Progression → Progression) (x : Interval) :
    image bits f x.unnamed = image bits f x := by
  rw [image, range_cover_unnamed, image]

theorem slice_unnamed (high low : Nat) (x : Interval) :
    x.unnamed.slice high low = x.slice high low :=
  image_unnamed _ _ x

theorem extract_unnamed (high low : Nat) (x : Interval) :
    x.unnamed.extract high low = x.extract high low := by
  rw [extract, slice_unnamed]
  rfl

theorem append_unnamed (x y : Interval) : x.unnamed.append y.unnamed = x.append y := by
  rw [append, range_cover_unnamed, range_cover_unnamed]
  rfl

theorem concat_unnamed (x y : Interval) : x.unnamed.concat y.unnamed = x.concat y := by
  rw [concat, append_unnamed]
  rfl

theorem zeroExtend_unnamed (total : Nat) (x : Interval) :
    x.unnamed.zeroExtend total = x.zeroExtend total := by
  rw [zeroExtend, image_unnamed]
  rfl

theorem signExtend_unnamed (total : Nat) (x : Interval) :
    x.unnamed.signExtend total = x.signExtend total := by
  rw [signExtend, image_unnamed]
  rfl

theorem shiftRight_unnamed (x y : Interval) : x.unnamed.shiftRight y.unnamed = x.shiftRight y := by
  rw [shiftRight, range_cover_unnamed, range_cover_unnamed]
  rfl

theorem reverse_unnamed (x : Interval) : x.unnamed.reverse = x.reverse := rfl

theorem stored_unnamed (x : Interval) : x.unnamed.stored = x.stored := rfl

/-! ## Lattice operations -/

theorem combine_unnamed (op : Option Progression → Option Progression → Option Progression)
    (x y : Interval) : combine op x.unnamed y.unnamed = combine op x y := by
  rw [combine, range_cover_unnamed, range_cover_unnamed]
  rfl

theorem unnamed_combine (op : Option Progression → Option Progression → Option Progression)
    (x y : Interval) : (combine op x y).unnamed = combine op x y := by
  unfold combine
  split
  · exact unnamed_reverseOrWhole _
  · rfl

theorem join_unnamed_both (x y : Interval) : x.unnamed.join y.unnamed = x.join y :=
  combine_unnamed _ x y

theorem meet_unnamed (x y : Interval) : x.unnamed.meet y.unnamed = x.meet y := combine_unnamed _ x y

theorem stretch_unnamed (x y : Interval) : x.unnamed.stretch y.unnamed = x.stretch y :=
  combine_unnamed _ x y

theorem unnamed_join (x y : Interval) : (x.join y).unnamed = x.join y := unnamed_combine _ x y

theorem unnamed_meet (x y : Interval) : (x.meet y).unnamed = x.meet y := unnamed_combine _ x y

theorem unnamed_stretch (x y : Interval) : (x.stretch y).unnamed = x.stretch y :=
  unnamed_combine _ x y

theorem union_unnamed (x y : Interval) : x.unnamed.union y.unnamed = x.union y := by
  rw [union, join_unnamed_both]
  rfl

theorem intersection_unnamed (x y : Interval) :
    x.unnamed.intersection y.unnamed = x.intersection y := by
  rw [intersection, meet_unnamed]
  rfl

theorem widen_unnamed (x y : Interval) : x.unnamed.widen y.unnamed = x.widen y := by
  rw [widen, stretch_unnamed]
  rfl

/-! ## Questions -/

theorem verdict_unnamed (c : Comparison) (x y : Interval) :
    x.unnamed.verdict c y.unnamed = x.verdict c y := by
  unfold verdict
  rw [range_cover_unnamed, range_cover_unnamed]
  rfl

theorem sample_unnamed (x : Interval) (n : Nat) : x.unnamed.sample n = x.sample n := rfl

end Interval

end AbstractBits
