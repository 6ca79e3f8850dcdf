import AbstractBits.Proofs.Interval.Transfer
import AbstractBits.Proofs.ValueSet.Lattice
/-!
# Images of value sets under bit operations

Bit operations act on the offsets inside their regions. A byte swap of a value set is never carried
out, so that it is undone by a second one.

Results:
  * `imagesOf_extract`, `imagesOf_shiftRight` — the operations on the offsets of every region.
  * `denotes_reverse` — a reversed value set stands for exactly the byte-swapped offsets.
-/

namespace AbstractBits

namespace Place

/-- The place with the bytes of its offset in the opposite order. -/
def swapped (bits : Nat) (place : Place) : Place := ⟨place.region, byteReversed bits place.offset⟩

theorem swapped_swapped {bits : Nat} (bytes : bits % 8 = 0) {place : Place}
    (h : place.offset < twoPow bits) : (place.swapped bits).swapped bits = place := by
  obtain ⟨region, offset⟩ := place
  simp only [swapped, byteReversed_byteReversed bytes h]

end Place

namespace ValueSet

open AbstractBits.Interval (Images)

variable {s u : ValueSet} {place : Place} {bits v : Nat} {f : Nat → Nat}

/-- A valid value set of a width that stands for the images of the offsets of another one. -/
structure ImagesOf (bits : Nat) (f : Nat → Nat) (s u : ValueSet) : Prop where
  valid : u.Valid
  width : u.bits = bits
  denotes : ∀ place, s.Denotes place → u.Denotes ⟨place.region, f place.offset⟩

theorem valid_image (hs : s.Valid) (width : ValidWidth bits) {g : Interval → Interval}
    (h : ∀ x : Interval, x.Valid → x.bits = s.bits → (g x).Valid ∧ (g x).bits = bits) :
    (s.image bits g).Valid :=
  valid_of_uniform width (RegionMap.uniform_map (uniform_cover hs) h)

theorem imagesOf_image (hs : s.Valid) (width : ValidWidth bits) {g : Interval → Interval}
    (h : ∀ x : Interval, x.Valid → x.bits = s.bits → Images bits f x (g x)) :
    ImagesOf bits f s (s.image bits g) := by
  refine ⟨valid_image hs width fun x hx hbits => ⟨(h x hx hbits).valid, (h x hx hbits).width⟩, rfl,
    fun place hv => ?_⟩
  refine (denotes_of_not_reversed rfl).2 ?_
  exact RegionMap.denotes_map (uniform_cover hs) (fun x hx hbits => (h x hx hbits).denotes)
    (denotes_cover hs hv)

theorem imagesOf_extract {high low : Nat} (hs : s.Valid) (h : s.extract high low = .ok u) :
    ImagesOf (high - low + 1) (fun v => v / twoPow low % twoPow (high - low + 1)) s u := by
  unfold extract at h
  split at h <;> cases h
  rename_i field
  exact imagesOf_image hs (Interval.validWidth_field hs.width field) fun x hx hbits =>
    Interval.images_slice hx (hbits ▸ field)

theorem valid_shiftRight {y : Interval} (hs : s.Valid) (hy : y.Valid) : (s.shiftRight y).Valid :=
  valid_image hs hs.width fun _ hx hbits => ⟨Interval.valid_shiftRight hx hy, hbits⟩

theorem imagesOf_shiftRight {y : Interval} (hs : s.Valid) (hy : y.Valid) (hv : y.Denotes v) :
    ImagesOf s.bits (· / twoPow v) s (s.shiftRight y) :=
  imagesOf_image hs hs.width fun _ hx hbits => hbits ▸ Interval.images_shiftRight hx hy hv

/-! ## Byte swap -/

theorem exists_reverse (bytes : s.bits % 8 = 0) : ∃ u, s.reverse = .ok u := by
  unfold reverse
  split
  · exact ⟨_, rfl⟩
  · rw [if_neg (not_not_intro bytes)]
    exact ⟨_, rfl⟩

/-- What reversal makes of a value set. -/
inductive Reversal (s : ValueSet) : ValueSet → Prop
  | byte (h : s.bits = 8) : Reversal s s
  | pending (bytes : s.bits % 8 = 0) (several : s.bits ≠ 8) :
      Reversal s { s with reversed := !s.reversed }

theorem reversal_of_reverse (h : s.reverse = .ok u) : Reversal s u := by
  unfold reverse at h
  split at h
  · rename_i hbyte
    cases h
    exact .byte hbyte
  rename_i several
  split at h <;> cases h
  rename_i bytes
  exact .pending (by simpa using bytes) several

theorem bits_reverse (h : s.reverse = .ok u) : u.bits = s.bits := by
  cases reversal_of_reverse h <;> rfl

theorem valid_reverse (hs : s.Valid) (h : s.reverse = .ok u) : u.Valid := by
  cases reversal_of_reverse h with
  | byte => exact hs
  | pending bytes several => exact ⟨hs.width, hs.offsets, fun _ => ⟨bytes, several⟩⟩

theorem swapped_of_byte {q : Place} (hs : s.Valid) (hbyte : s.bits = 8) (hq : s.Denotes q) :
    q.swapped s.bits = q := by
  have hlt := hs.lt_twoPow hq
  obtain ⟨region, offset⟩ := q
  rw [hbyte] at hlt ⊢
  simp only [Place.swapped, byteReversed_eight hlt]

/-- A byte swap that becomes pending swaps all offsets. -/
theorem denotes_pending (hs : s.Valid) (bytes : s.bits % 8 = 0) (hrev : s.reversed = false)
    (hpending : Valid { s with reversed := true }) :
    Denotes { s with reversed := true } place ↔ ∃ q, s.Denotes q ∧ place = q.swapped s.bits := by
  rw [hpending.denotes_reversed rfl]
  simp only [denotes_of_not_reversed hrev]
  constructor
  · rintro ⟨hlt, hv⟩
    exact ⟨place.swapped s.bits, hv, (Place.swapped_swapped bytes hlt).symm⟩
  · rintro ⟨q, hq, rfl⟩
    have hlt := hs.lt_twoPow ((denotes_of_not_reversed hrev).2 hq)
    refine ⟨byteReversed_lt bytes _, ?_⟩
    rwa [Place.swapped, byteReversed_byteReversed bytes hlt]

/-- A byte swap that cancels a pending one swaps all offsets. -/
theorem denotes_cancelled (hs : s.Valid) (bytes : s.bits % 8 = 0) (hrev : s.reversed = true) :
    Denotes { s with reversed := false } place ↔ ∃ q, s.Denotes q ∧ place = q.swapped s.bits := by
  rw [denotes_of_not_reversed (s := { s with reversed := false }) rfl]
  simp only [hs.denotes_reversed hrev]
  constructor
  · intro hv
    obtain ⟨x, hx, hxv⟩ := hv
    obtain ⟨hxvalid, hxbits⟩ := hs.uniform _ x hx
    have hlt : place.offset < twoPow s.bits := hxbits ▸ hxvalid.lt_twoPow hxv
    refine ⟨place.swapped s.bits, ⟨byteReversed_lt bytes _, x, hx, ?_⟩,
      (Place.swapped_swapped bytes hlt).symm⟩
    rwa [Place.swapped, byteReversed_byteReversed bytes hlt]
  · rintro ⟨q, ⟨hlt, hv⟩, rfl⟩
    exact hv

/-- A reversed value set stands for exactly the byte-swapped offsets. -/
theorem denotes_reverse (hs : s.Valid) (h : s.reverse = .ok u) :
    u.Denotes place ↔ ∃ q, s.Denotes q ∧ place = q.swapped s.bits := by
  have hvalid := valid_reverse hs h
  cases reversal_of_reverse h with
  | byte hbyte =>
    constructor
    · intro hv
      exact ⟨place, hv, (swapped_of_byte hs hbyte hv).symm⟩
    · rintro ⟨q, hq, rfl⟩
      rwa [swapped_of_byte hs hbyte hq]
  | pending bytes =>
    cases hrev : s.reversed with
    | false =>
      rw [hrev] at hvalid
      exact denotes_pending hs bytes hrev hvalid
    | true => exact denotes_cancelled hs bytes hrev

end ValueSet

end AbstractBits
