import AbstractBits.Proofs.Construction
/-!
# The normal form of intervals

What the stored numbers of an interval satisfy, whichever operations it came out of, and how wide
the result of each operation is. The operations divide by strides and subtract lower bounds from
upper ones, and rely on every part of this.

Results:
  * `normalForm_iff` — the normal form is validity, in terms of what is stored.
  * `Valid.built` — every interval in normal form can be built.
  * `Promised` — the results of all operations that make intervals, by the width that each is said
    to have.
  * `built_iff_normal_form` — intervals come out of these operations, in normal form and of that
    width.
-/

namespace AbstractBits

namespace Interval

variable {x : Interval} {bits : Nat}

/-- The form in which the numbers of an interval are stored. -/
structure NormalForm (x : Interval) : Prop where
  width : 1 ≤ x.bits ∧ x.bits ≤ 128
  /-- Without numbers nothing is stored, and no byte swap is pending. -/
  nothing : x.isEmpty = true → x.stride = 0 ∧ x.lower = 0 ∧ x.upper = 0 ∧ x.reversed = false
  bounds : x.isEmpty = false → x.lower ≤ x.upper ∧ x.upper ≤ Nat.pow 2 x.bits - 1
  single : x.isEmpty = false → (x.stride = 0 ↔ x.lower = x.upper)
  aligned : x.isEmpty = false → 0 < x.stride → x.stride ∣ x.upper - x.lower
  /-- A single number, or a single byte, is swapped at once. -/
  pending : x.reversed = true → x.isEmpty = false ∧ x.lower ≠ x.upper ∧ x.bits % 8 = 0 ∧ x.bits ≠ 8

theorem allOnes_of_valid (width : ValidWidth bits) : allOnes bits = Nat.pow 2 bits - 1 := by
  rw [allOnes, modulus_of_valid width]
  rfl

theorem Valid.normalForm (hx : x.Valid) : x.NormalForm := by
  have hall := allOnes_of_valid hx.width
  cases hrange : x.range with
  | none =>
    have hnone : x.isEmpty = true := by simp [isEmpty, hrange]
    have hrev := hx.reversed_of_isEmpty hnone
    refine ⟨hx.width, fun _ => ?_, ?_, ?_, ?_, ?_⟩
    · simp [stride, lower, upper, hrange, hrev]
    all_goals simp [hnone, hrev]
  | some p =>
    obtain ⟨⟨hle, hzero, hdvd⟩, hfits⟩ := hx.fits hrange
    have hlower : x.lower = p.lower := by simp [lower, hrange]
    have hupper : x.upper = p.upper := by simp [upper, hrange]
    have hstride : x.stride = p.stride := by simp [stride, hrange]
    have hsome : x.isEmpty = false := by simp [isEmpty, hrange]
    rw [← hlower, ← hupper] at hle hdvd hzero
    rw [← hupper, hall] at hfits
    rw [← hstride] at hdvd hzero
    refine ⟨hx.width, by simp [hsome], fun _ => ⟨hle, hfits⟩, fun _ => hzero, fun _ _ => hdvd, ?_⟩
    intro hrev
    obtain ⟨bytes, several, -⟩ := hx.pending hrev
    exact ⟨hsome, hlower ▸ hupper ▸ hx.ends_ne hrev hrange, bytes, several⟩

theorem NormalForm.valid (h : x.NormalForm) : x.Valid where
  width := h.width
  normal := by
    intro p hp
    rw [Option.mem_def] at hp
    have hsome : x.isEmpty = false := by simp [isEmpty, hp]
    have hbounds := h.bounds hsome
    have hsingle := h.single hsome
    have haligned := h.aligned hsome
    simp only [lower, upper, stride, hp, Option.elim_some] at hbounds hsingle haligned
    refine ⟨⟨hbounds.1, hsingle, ?_⟩, by rw [allOnes_of_valid h.width]; exact hbounds.2⟩
    rcases Nat.eq_zero_or_pos p.stride with hzero | hpos
    · rw [hsingle.1 hzero, Nat.sub_self]
      exact Nat.dvd_zero _
    · exact haligned hpos
  pending := by
    intro hrev
    obtain ⟨hsome, hne, bytes, several⟩ := h.pending hrev
    obtain ⟨p, hrange⟩ := exists_range_of_nonempty hsome
    exact ⟨bytes, several, p, hrange, by simpa [lower, upper, hrange] using hne⟩

/-- The normal form is validity, in terms of what is stored. -/
theorem normalForm_iff : x.NormalForm ↔ x.Valid := ⟨NormalForm.valid, Valid.normalForm⟩

/-! ## Building any valid interval -/

/-- A progression in normal form is what its bounds and its stride build. -/
theorem built_ofRange {p : Progression} (width : ValidWidth bits) (hp : p.Fits bits) :
    Built (.interval (ofRange bits (some p))) := by
  obtain ⟨hnormal, hupper⟩ := hp
  have htruncate {n : Nat} (h : n ≤ p.upper) : truncate bits n = n :=
    Nat.mod_eq_of_lt
      (by rw [modulus_of_valid width]; exact (le_allOnes_iff width).1 (Nat.le_trans h hupper))
  have hbounds : ofBounds bits p.stride p.lower p.upper = .ok (ofRange bits (some p)) := by
    refine ofBounds_eq_ok.2 ⟨width, ?_⟩
    rw [htruncate hnormal.1, htruncate (Nat.le_refl _), Progression.between_eq_self hnormal]
    exact ⟨hnormal.1, rfl⟩
  exact .ofBounds hbounds

/-- Every valid interval can be built from its bounds, its byte order and its name. -/
theorem Valid.built (hx : x.Valid) : Built (.interval x) := by
  have hunnamed : Built (.interval x.unnamed) := by
    obtain ⟨bits, range, reversed, name⟩ := x
    cases hrev : reversed with
    | false =>
      cases hrange : range with
      | none => exact .bottom (requireWidth_eq_ok.2 ⟨hx.width, rfl⟩)
      | some p => exact built_ofRange hx.width (hx.fits hrange)
    | true =>
      obtain ⟨bytes, several, p, hp, hne⟩ := hx.pending hrev
      obtain rfl : range = some p := hp
      have hreverse : (ofRange bits (some p)).reverse = .ok ⟨bits, some p, true, none⟩ := by
        simp only at bytes several
        simp [reverse, ofRange, unnamed, Progression.isSingle, bytes, several, hne]
      exact .reverse (built_ofRange hx.width (hx.fits rfl)) hreverse
  obtain ⟨bits, range, reversed, name⟩ := x
  cases name with
  | none => exact hunnamed
  | some name => exact .withName hunnamed name

/-! ## The results of the operations -/

/-- The intervals that come out of the operations, each with the width that the operation promises.
They are made of numbers, names and words, of intervals, and of descriptions in other shapes. -/
inductive Promised : Nat → Interval → Prop where
  | ofBounds {bits stride lower upper : Nat} {x : Interval}
      (h : ofBounds bits stride lower upper = .ok x) :
      Promised bits x
  | point {bits value : Nat} {x : Interval} (h : point bits value = .ok x) : Promised bits x
  | top {bits : Nat} {x : Interval} (h : top bits = .ok x) : Promised bits x
  | bottom {bits : Nat} {x : Interval} (h : bottom bits = .ok x) : Promised bits x
  | named {name : String} {bits lower upper stride : Nat} {x : Interval}
      (h : named name bits lower upper stride = .ok x) : Promised bits x
  | withName {x : Interval} (hx : Built (.interval x)) (name : String) :
      Promised x.bits (x.withName name)
  | word (w : Word) : Promised w.bits (.constant w.bits w.value)
  | union {x y z : Interval} (hx : Built (.interval x)) (hy : Built (.interval y))
      (h : x.union y = .ok z) :
      Promised x.bits z
  | intersection {x y z : Interval} (hx : Built (.interval x)) (hy : Built (.interval y))
      (h : x.intersection y = .ok z) : Promised x.bits z
  | widen {x y z : Interval} (hx : Built (.interval x)) (hy : Built (.interval y))
      (h : x.widen y = .ok z) :
      Promised x.bits z
  | extract {x z : Interval} {high low : Nat} (hx : Built (.interval x))
      (h : x.extract high low = .ok z) :
      Promised (high - low + 1) z
  | concat {x y z : Interval} (hx : Built (.interval x)) (hy : Built (.interval y))
      (h : x.concat y = .ok z) :
      Promised (x.bits + y.bits) z
  | zeroExtend {x z : Interval} {total : Nat} (hx : Built (.interval x))
      (h : x.zeroExtend total = .ok z) :
      Promised total z
  | signExtend {x z : Interval} {total : Nat} (hx : Built (.interval x))
      (h : x.signExtend total = .ok z) :
      Promised total z
  | shiftRight {x y : Interval} (hx : Built (.interval x)) (hy : Built (.interval y)) :
      Promised x.bits (x.shiftRight y)
  | reverse {x z : Interval} (hx : Built (.interval x)) (h : x.reverse = .ok z) : Promised x.bits z
  | stored {x : Interval} (hx : Built (.interval x)) : Promised x.bits x.stored
  | setHull {s : IntervalSet} (hs : Built (.set s)) : Promised s.bits s.hull
  | setWiden {s t : IntervalSet} {x : Interval} (hs : Built (.set s)) (ht : Built (.set t))
      (h : s.widen t = .ok x) : Promised s.bits x
  | setMember {s : IntervalSet} {x : Interval} (hs : Built (.set s)) (hx : x ∈ s.members) :
      Promised s.bits x
  | offsets {v : ValueSet} {region : String} {x : Interval} (hv : Built (.valueSet v))
      (h : v.get? region = some x) : Promised v.bits x
  | hull {a : AbstractValue} {x : Interval} (ha : Built a) (h : a.hull? = some x) :
      Promised a.bits x

/-- Operations add nothing to what is built. -/
theorem Promised.built (h : Promised bits x) : Built (.interval x) := by
  cases h with
  | ofBounds h => exact .ofBounds h
  | point h => exact .point h
  | top h => exact .top h
  | bottom h => exact .bottom h
  | named h =>
    obtain ⟨y, hy, rfl⟩ := map_eq_ok.1 h
    exact .withName (.ofBounds hy) _
  | withName hx name => exact .withName hx name
  | word w => exact .word w
  | union hx hy h => exact .union hx hy h
  | intersection hx hy h => exact .intersection hx hy h
  | widen hx hy h => exact .widen hx hy h
  | extract hx h => exact .extract hx h
  | concat hx hy h => exact .concat hx hy h
  | zeroExtend hx h => exact .zeroExtend hx h
  | signExtend hx h => exact .signExtend hx h
  | shiftRight hx hy => exact .shiftRight hx hy
  | reverse hx h => exact .reverse hx h
  | stored hx => exact .stored hx
  | setHull hs => exact .setHull hs
  | setWiden hs ht h => exact .setWiden hs ht h
  | setMember hs hx => exact (IntervalSet.Valid.uniform hs.valid _ hx).1.built
  | offsets hv h => exact .offsets hv h
  | hull ha h => exact .hull ha h

/-- Every operation keeps its promise. -/
theorem Promised.width (h : Promised bits x) : x.bits = bits := by
  cases h with
  | ofBounds h =>
    obtain ⟨-, -, rfl⟩ := ofBounds_eq_ok.1 h
    rfl
  | point h | top h | bottom h =>
    obtain ⟨-, rfl⟩ := requireWidth_eq_ok.1 h
    rfl
  | named h =>
    obtain ⟨y, hy, rfl⟩ := map_eq_ok.1 h
    obtain ⟨-, -, rfl⟩ := ofBounds_eq_ok.1 hy
    rfl
  | union hx hy h =>
    obtain ⟨hbits, rfl⟩ := requireSameWidth_eq_ok.1 h
    exact (retains_join hx.valid hy.valid hbits).width
  | intersection hx hy h =>
    obtain ⟨hbits, rfl⟩ := requireSameWidth_eq_ok.1 h
    exact (retains_meet hx.valid hy.valid hbits).width
  | widen hx hy h =>
    obtain ⟨hbits, rfl⟩ := requireSameWidth_eq_ok.1 h
    exact (retains_stretch hx.valid hy.valid hbits).width
  | extract hx h => exact (AbstractValue.imagesOf_extract hx.valid (map_eq_ok.2 ⟨_, h, rfl⟩)).width
  | concat _ _ h =>
    obtain ⟨-, rfl⟩ := requireWidth_eq_ok.1 h
    rfl
  | zeroExtend hx h => exact (images_of_zeroExtend hx.valid h).width
  | signExtend hx h => exact (images_of_signExtend hx.valid h).width
  | reverse _ h => exact bits_reverse h
  | setHull hs => exact IntervalSet.bits_hull hs.valid
  | setWiden hs ht h =>
    exact (AbstractValue.combines_widen.retains hs.valid ht.valid (map_eq_ok.2 ⟨_, h, rfl⟩)).width
  | setMember hs hx => exact (IntervalSet.Valid.uniform hs.valid _ hx).2
  | offsets hv h => exact (ValueSet.Valid.uniform hv.valid _ _ h).2
  | hull ha h => exact (AbstractValue.covers_of_hull? ha.valid h).2.1
  | withName | word | shiftRight | stored => rfl

/-- Whatever builds an interval ends in one of the operations. -/
theorem exists_promised (h : Built (.interval x)) : ∃ bits, Promised bits x := by
  cases h with
  | ofBounds h => exact ⟨_, .ofBounds h⟩
  | point h => exact ⟨_, .point h⟩
  | top h => exact ⟨_, .top h⟩
  | bottom h => exact ⟨_, .bottom h⟩
  | word w => exact ⟨_, .word w⟩
  | withName hx name => exact ⟨_, .withName hx name⟩
  | union hx hy h => exact ⟨_, .union hx hy h⟩
  | intersection hx hy h => exact ⟨_, .intersection hx hy h⟩
  | widen hx hy h => exact ⟨_, .widen hx hy h⟩
  | extract hx h => exact ⟨_, .extract hx h⟩
  | concat hx hy h => exact ⟨_, .concat hx hy h⟩
  | zeroExtend hx h => exact ⟨_, .zeroExtend hx h⟩
  | signExtend hx h => exact ⟨_, .signExtend hx h⟩
  | shiftRight hx hy => exact ⟨_, .shiftRight hx hy⟩
  | reverse hx h => exact ⟨_, .reverse hx h⟩
  | stored hx => exact ⟨_, .stored hx⟩
  | setWiden hs ht h => exact ⟨_, .setWiden hs ht h⟩
  | setHull hs => exact ⟨_, .setHull hs⟩
  | offsets hv h => exact ⟨_, .offsets hv h⟩
  | hull ha h => exact ⟨_, .hull ha h⟩

/-- The intervals that can be built are those in normal form. They all come out of the operations,
which keep the widths that they promise. -/
theorem built_iff_normal_form (x : Interval) :
    (Built (.interval x) ↔ x.NormalForm) ∧ (Built (.interval x) ↔ ∃ bits, Promised bits x) ∧
      ∀ bits, Promised bits x → x.bits = bits := by
  refine ⟨?_, ⟨exists_promised, ?_⟩, ?_⟩
  · rw [normalForm_iff]
    exact ⟨Built.valid, Valid.built⟩
  · rintro ⟨bits, h⟩
    exact h.built
  · intro bits h
    exact h.width

/-- Two numbers with a byte swap pending: the stored bounds are those before the swap. -/
theorem swapped_pair_in_normal_form :
    NormalForm ⟨16, some ⟨256, 512, 256⟩, true, none⟩ ∧
      Promised 16 ⟨16, some ⟨256, 512, 256⟩, true, none⟩ := by
  have hpair : Built (.interval ⟨16, some ⟨256, 512, 256⟩, false, none⟩) :=
    .ofBounds (rfl : ofBounds 16 256 256 512 = .ok ⟨16, some ⟨256, 512, 256⟩, false, none⟩)
  have hswapped : Promised 16 ⟨16, some ⟨256, 512, 256⟩, true, none⟩ := .reverse hpair rfl
  obtain ⟨hnormal, hpromised, -⟩ := built_iff_normal_form ⟨16, some ⟨256, 512, 256⟩, true, none⟩
  exact ⟨hnormal.1 (hpromised.2 ⟨16, hswapped⟩), hswapped⟩

end Interval

end AbstractBits
