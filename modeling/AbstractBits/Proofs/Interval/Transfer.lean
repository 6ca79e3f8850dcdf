import AbstractBits.Interval.Operations
import AbstractBits.Proofs.Interval.ByteOrder
import AbstractBits.Proofs.Progression.Image
/-!
# Images of intervals under bit operations

A bit operation on an interval stands for its results on all members. The intervals that it is
applied to may have a byte swap pending; their covers have all their numbers as members.

Results:
  * `images_slice`, `images_of_zeroExtend`, `images_of_signExtend`, `images_of_reverse`,
    `images_shiftRight` — what each operation makes of an interval stands for the images.
  * `denotes_append` — so does an interval put in front of another one.
-/

namespace AbstractBits

namespace Interval

variable {x y z : Interval} {u v : Nat}

/-- A valid interval of a width that stands for the images of what another one stands for. -/
structure Images (bits : Nat) (f : Nat → Nat) (x z : Interval) : Prop where
  valid : z.Valid
  width : z.bits = bits
  denotes : ∀ v, x.Denotes v → z.Denotes (f v)

/-- An operation on members gives the images if it does so on each progression of the width. -/
theorem images_image {bits : Nat} {f : Nat → Nat} {g : Progression → Progression} (hx : x.Valid)
    (width : ValidWidth bits) (fits : ∀ p : Progression, p.Fits x.bits → (g p).Fits bits)
    (mem : ∀ (p : Progression) (v : Nat), p.Fits x.bits → v ∈ p → f v ∈ g p) :
    Images bits f x (x.image bits g) := by
  refine ⟨valid_ofRange_of width ?_, rfl, fun v hv => ?_⟩
  · intro q hq
    obtain ⟨p, hp, rfl⟩ := Option.map_eq_some_iff.1 hq
    exact fits p (fits_cover hx p hp)
  · obtain ⟨p, hp, hmem⟩ := mem_cover hx hv
    exact denotes_ofRange.2 ⟨g p, Option.map_eq_some_iff.2 ⟨p, hp, rfl⟩,
      mem p v (fits_cover hx p hp) hmem⟩

/-! ## Bit fields -/

theorem validWidth_field {bits high low : Nat} (width : ValidWidth bits)
    (field : FieldOf bits high low) : ValidWidth (high - low + 1) := by
  obtain ⟨hle, hlt⟩ := field
  obtain ⟨-, hmax⟩ := width
  exact ⟨by omega, by omega⟩

theorem images_slice {high low : Nat} (hx : x.Valid) (field : FieldOf x.bits high low) :
    Images (high - low + 1) (fun v => v / twoPow low % twoPow (high - low + 1)) x
      (x.slice high low) := by
  have width := validWidth_field hx.width field
  refine images_image hx width ?_ ?_
  · intro p hp
    exact Progression.fits_field low width hp.1
  · intro p v _ hv
    exact Progression.mem_field low width hv

theorem images_of_extract {high low : Nat} (hx : x.Valid) (h : x.extract high low = .ok z) :
    Images (high - low + 1) (fun v => v / twoPow low % twoPow (high - low + 1)) x z := by
  unfold extract at h
  split at h <;> cases h
  rename_i field
  exact images_slice hx field

theorem valid_append (hx : x.Valid) (hy : y.Valid) (width : ValidWidth (x.bits + y.bits)) :
    (x.append y).Valid := by
  refine valid_ofRange_of width ?_
  intro r hr
  simp only [Option.mem_def, Option.bind_eq_some_iff, Option.map_eq_some_iff] at hr
  obtain ⟨p, hp, q, hq, rfl⟩ := hr
  exact Progression.fits_append hx.width hy.width width (fits_cover hx p hp) (fits_cover hy q hq)

theorem denotes_append (hx : x.Valid) (hy : y.Valid) (hu : x.Denotes u) (hv : y.Denotes v) :
    (x.append y).Denotes (u * twoPow y.bits + v) := by
  obtain ⟨p, hp, hup⟩ := mem_cover hx hu
  obtain ⟨q, hq, hvq⟩ := mem_cover hy hv
  rw [Option.mem_def] at hp hq
  exact denotes_ofRange.2 ⟨p.append y.bits q,
    by simp [hp, hq], Progression.mem_append y.bits hup hvq⟩

/-! ## Extension and shift -/

theorem images_of_zeroExtend {total : Nat} (hx : x.Valid) (h : x.zeroExtend total = .ok z) :
    Images total id x z := by
  unfold zeroExtend at h
  split at h <;> cases h
  rename_i hext
  refine images_image hx hext.1 ?_ ?_
  · intro p hp
    exact hp.mono hx.width hext.2 hext.1
  · intro p v _ hv
    exact hv

theorem images_of_signExtend {total : Nat} (hx : x.Valid) (h : x.signExtend total = .ok z) :
    Images total (fun v => truncateInt total (signedValue x.bits v)) x z := by
  unfold signExtend at h
  split at h <;> cases h
  rename_i hext
  refine images_image hx hext.1 ?_ ?_
  · intro p hp
    exact Progression.fits_signExtend hx.width hext.2 hext.1 hp
  · intro p v hp hv
    rw [Progression.truncateInt_signedValue hx.width hext.2 hext.1 (hp.lt_twoPow hx.width hv)]
    exact Progression.mem_signExtend hv

theorem valid_shiftRight (hx : x.Valid) (hy : y.Valid) : (x.shiftRight y).Valid := by
  refine valid_ofRange_of hx.width ?_
  intro r hr
  simp only [Option.mem_def, Option.bind_eq_some_iff, Option.map_eq_some_iff] at hr
  obtain ⟨p, hp, q, hq, rfl⟩ := hr
  exact Progression.fits_shiftRight (fits_cover hy q hq).1 (fits_cover hx p hp)

theorem denotes_shiftRight (hx : x.Valid) (hy : y.Valid) (hu : x.Denotes u) (hv : y.Denotes v) :
    (x.shiftRight y).Denotes (u / twoPow v) := by
  obtain ⟨p, hp, hup⟩ := mem_cover hx hu
  obtain ⟨q, hq, hvq⟩ := mem_cover hy hv
  have hmem := Progression.mem_shiftRight (fits_cover hy q hq).1 (hx.lt_twoPow hu) hup hvq
  rw [Option.mem_def] at hp hq
  exact denotes_ofRange.2 ⟨p.shiftRight x.bits q, by simp [hp, hq], hmem⟩

/-- The shift by any member of the amount is among the results. -/
theorem images_shiftRight (hx : x.Valid) (hy : y.Valid) (hv : y.Denotes v) :
    Images x.bits (· / twoPow v) x (x.shiftRight y) :=
  ⟨valid_shiftRight hx hy, rfl, fun _ hu => denotes_shiftRight hx hy hu hv⟩

/-! ## Byte swap -/

theorem images_of_reverse (hx : x.Valid) (h : x.reverse = .ok z) :
    Images x.bits (byteReversed x.bits) x z :=
  ⟨valid_reverse hx h, bits_reverse h, fun u hu => (denotes_reverse hx h).2 ⟨u, hu, rfl⟩⟩

end Interval

end AbstractBits
