import AbstractBits.Interval.Operations
import AbstractBits.Proofs.Interval.ByteOrder
import AbstractBits.Proofs.Progression.Image
/-!
# What combined intervals stand for

A union and a widening stand for what either operand stands for, an intersection for what both stand
for, whichever of the operands have a byte swap pending. The three share one proof, in which the
operation on stored members is a parameter.

Results:
  * `retains_join`, `retains_meet`, `retains_stretch` — the three operations on valid intervals of
    one width.
  * `join_comm`, `meet_comm` — the order of the operands makes no difference.
  * `mem_outcomes_verdict` — a comparison admits what it says about any two members.
-/

namespace AbstractBits

/-- What the result of an operation on two values has to stand for: what either of them stands for,
or what both do. -/
inductive Kept where
  | either
  | common
  deriving DecidableEq, Repr

namespace Kept

def Holds : Kept → Prop → Prop → Prop
  | either, a, b => a ∨ b
  | common, a, b => a ∧ b

theorem Holds.imp {k : Kept} {a b c d : Prop} (h : k.Holds a b) (hac : a → c) (hbd : b → d) :
    k.Holds c d := by
  cases k with
  | either => exact Or.imp hac hbd h
  | common => exact And.imp hac hbd h

theorem Holds.or {k : Kept} {a b : Prop} (h : k.Holds a b) : a ∨ b := by
  cases k with
  | either => exact h
  | common => exact .inl h.1

end Kept

namespace Interval

/-- A valid interval of the width of the first of two operands, for what is kept of both. -/
structure Retains (k : Kept) (x y z : Interval) : Prop where
  valid : z.Valid
  width : z.bits = x.bits
  denotes : ∀ v, k.Holds (x.Denotes v) (y.Denotes v) → z.Denotes v

/-! ## Operations on stored members -/

/-- An operation on stored members of a width that keeps what `k` says. -/
structure Keeps (k : Kept) (bits : Nat)
    (op : Option Progression → Option Progression → Option Progression) : Prop where
  fits : ∀ P Q : Option Progression, (∀ p ∈ P, p.Fits bits) → (∀ q ∈ Q, q.Fits bits) →
    ∀ r ∈ op P Q, r.Fits bits
  mem : ∀ P Q : Option Progression, (∀ p ∈ P, p.Fits bits) → (∀ q ∈ Q, q.Fits bits) →
    ∀ v, k.Holds (∃ p ∈ P, v ∈ p) (∃ q ∈ Q, v ∈ q) → ∃ r ∈ op P Q, v ∈ r

theorem keeps_merge {bits : Nat} {f : Progression → Progression → Progression}
    (h : Progression.Extends bits f) : Keeps .either bits (Option.merge f) where
  fits := by
    intro P Q hP hQ r hr
    cases P with
    | none => exact hQ r (by simpa using hr)
    | some p =>
      cases Q with
      | none => exact hP r (by simpa using hr)
      | some q =>
        cases hr
        exact (h p q (hP p rfl) (hQ q rfl)).1
  mem := by
    intro P Q hP hQ v hv
    cases P with
    | none =>
      rcases hv with ⟨p, hp, -⟩ | ⟨q, hq, hmem⟩
      · cases hp
      · exact ⟨q, by simpa using hq, hmem⟩
    | some p =>
      cases Q with
      | none =>
        rcases hv with ⟨p', hp, hmem⟩ | ⟨q, hq, -⟩
        · exact ⟨p', by simpa using hp, hmem⟩
        · cases hq
      | some q =>
        refine ⟨f p q, rfl, (h p q (hP p rfl) (hQ q rfl)).2 v ?_⟩
        simpa [Kept.Holds] using hv

theorem keeps_meet (bits : Nat) :
    Keeps .common bits fun P Q => P.bind fun p => Q.bind fun q => p.meet q where
  fits := by
    intro P Q hP hQ r hr
    simp only [Option.mem_def, Option.bind_eq_some_iff] at hr
    obtain ⟨p, hp, q, hq, hmeet⟩ := hr
    exact Progression.fits_meet (hP p hp) (hQ q hq) hmeet
  mem := by
    rintro P Q hP hQ v ⟨⟨p, hp, hvp⟩, q, hq, hvq⟩
    obtain ⟨r, hr, hv⟩ := Progression.mem_meet (hP p hp) (hQ q hq) hvp hvq
    rw [Option.mem_def] at hp hq hr
    exact ⟨r, by simp [hp, hq, hr], hv⟩

/-! ## Combined intervals -/

/-- A combination keeps what the operation on stored members keeps. Behind two pending byte swaps
both operands stand for a number by its byte-swapped image among their stored members. -/
theorem retains_combine {k : Kept}
    {op : Option Progression → Option Progression → Option Progression} {x y : Interval}
    (hx : x.Valid) (hy : y.Valid) (hbits : x.bits = y.bits) (keeps : Keeps k x.bits op) :
    Retains k x y (combine op x y) := by
  have hxfits := fits_cover hx
  have hyfits := hbits ▸ fits_cover hy
  unfold combine
  cases hboth : x.reversed && y.reversed with
  | false =>
    refine ⟨valid_ofRange_of hx.width (keeps.fits _ _ hxfits hyfits), rfl, ?_⟩
    intro v hv
    exact denotes_ofRange.2 (keeps.mem _ _ hxfits hyfits v (hv.imp (mem_cover hx) (mem_cover hy)))
  | true =>
    obtain ⟨hxrev, hyrev⟩ := Bool.and_eq_true_iff.1 hboth
    have bytes := (hx.pending hxrev).1
    have hstored : ∀ q ∈ y.range, q.Fits x.bits := hbits ▸ hy.normal
    have hvalid : (ofRange x.bits (op x.range y.range)).Valid :=
      valid_ofRange_of hx.width (keeps.fits _ _ hx.normal hstored)
    refine ⟨valid_reverseOrWhole hvalid, bits_reverseOrWhole _, ?_⟩
    intro v hv
    have hlt : v < twoPow x.bits :=
      hv.or.elim hx.lt_twoPow fun h => hbits ▸ hy.lt_twoPow h
    have hswap : k.Holds (∃ p ∈ x.range, byteReversed x.bits v ∈ p)
        (∃ q ∈ y.range, byteReversed x.bits v ∈ q) :=
      hv.imp (fun h => denotes_stored.1 ((hx.denotes_reversed hxrev).1 h).2)
        (fun h => denotes_stored.1 (hbits ▸ ((hy.denotes_reversed hyrev).1 h).2))
    refine (denotes_reverseOrWhole hvalid bytes).2 ⟨byteReversed x.bits v, ?_, ?_⟩
    · exact denotes_ofRange.2 (keeps.mem _ _ hx.normal hstored _ hswap)
    · exact (byteReversed_byteReversed bytes hlt).symm

theorem retains_join {x y : Interval} (hx : x.Valid) (hy : y.Valid) (hbits : x.bits = y.bits) :
    Retains .either x y (x.join y) :=
  retains_combine hx hy hbits (keeps_merge (Progression.extends_join _))

theorem retains_meet {x y : Interval} (hx : x.Valid) (hy : y.Valid) (hbits : x.bits = y.bits) :
    Retains .common x y (x.meet y) :=
  retains_combine hx hy hbits (keeps_meet _)

theorem retains_stretch {x y : Interval} (hx : x.Valid) (hy : y.Valid) (hbits : x.bits = y.bits) :
    Retains .either x y (x.stretch y) :=
  retains_combine hx hy hbits (keeps_merge (Progression.extends_widen _))

/-- Two pending byte swaps are carried over to what extends the stored members. Both bounds of the
first operand are members of the result, which therefore is no single number. -/
theorem combine_of_reversed {f : Progression → Progression → Progression} {x y : Interval}
    {p q : Progression} (hf : Progression.Extends x.bits f) (hx : x.Valid) (hy : y.Valid)
    (hbits : x.bits = y.bits) (hxrev : x.reversed = true) (hyrev : y.reversed = true)
    (hxrange : x.range = some p) (hyrange : y.range = some q) :
    combine (Option.merge f) x y = ⟨x.bits, some (f p q), true, none⟩ := by
  have hp := hx.fits hxrange
  have hq := hbits ▸ hy.fits hyrange
  obtain ⟨bytes, several, -⟩ := hx.pending hxrev
  obtain ⟨-, hkeeps⟩ := hf p q hp hq
  have hresult : (f p q).isSingle = false := by
    have hlower := (hkeeps p.lower (.inl hp.1.lower_mem)).1
    have hupper := (hkeeps p.upper (.inl hp.1.upper_mem)).2.1
    have hlt : p.lower < p.upper := Nat.lt_of_le_of_ne hp.1.1 (hx.ends_ne hxrev hxrange)
    exact beq_false_of_ne (Nat.ne_of_lt (Nat.lt_of_le_of_lt hlower (Nat.lt_of_lt_of_le hlt hupper)))
  have hreverse :
      (ofRange x.bits (some (f p q))).reverse = .ok ⟨x.bits, some (f p q), true, none⟩ := by
    simp [reverse, ofRange, several, bytes, hresult, unnamed]
  rw [combine, hxrev, hyrev, hxrange, hyrange]
  simp only [Bool.and_self, if_true, Option.merge_some_some, reverseOrWhole, hreverse]

/-- Without two pending byte swaps an operation sees the covers of its operands. -/
theorem combine_of_not_both {op : Option Progression → Option Progression → Option Progression}
    {x y : Interval} (h : (x.reversed && y.reversed) = false) :
    combine op x y = ofRange x.bits (op x.cover.range y.cover.range) := by
  rw [combine, if_neg (by simp [h])]

/-- Without pending byte swaps an operation sees what is stored. -/
theorem combine_of_not_reversed {op : Option Progression → Option Progression → Option Progression}
    {x y : Interval} (hxrev : x.reversed = false) (hyrev : y.reversed = false) :
    combine op x y = ofRange x.bits (op x.range y.range) := by
  rw [combine_of_not_both (by simp [hxrev]), cover_of_not_reversed hxrev,
    cover_of_not_reversed hyrev]

/-! ## Order of operands -/

/-- Intervals of one width are combined to the same in either order, if their stored members are. -/
theorem combine_comm {op : Option Progression → Option Progression → Option Progression}
    {x y : Interval} (hx : x.Valid) (hy : y.Valid) (hbits : x.bits = y.bits)
    (hop : ∀ P Q : Option Progression, (∀ p ∈ P, p.Fits x.bits) → (∀ q ∈ Q, q.Fits x.bits) →
      op P Q = op Q P) : combine op x y = combine op y x := by
  have hstored : ∀ q ∈ y.range, q.Fits x.bits := hbits ▸ hy.normal
  have hcover : ∀ q ∈ y.cover.range, q.Fits x.bits := hbits ▸ fits_cover hy
  unfold combine
  rw [Bool.and_comm, hop _ _ hx.normal hstored, hop _ _ (fits_cover hx) hcover, hbits]

theorem join_comm {x y : Interval} (hx : x.Valid) (hy : y.Valid) (hbits : x.bits = y.bits) :
    x.join y = y.join x := by
  refine combine_comm hx hy hbits fun P Q _ _ => ?_
  cases P <;> cases Q <;> simp [Option.merge, Progression.join_comm]

theorem meet_comm {x y : Interval} (hx : x.Valid) (hy : y.Valid) (hbits : x.bits = y.bits) :
    x.meet y = y.meet x := by
  refine combine_comm hx hy hbits fun P Q hP hQ => ?_
  cases P with
  | none => cases Q <;> rfl
  | some p =>
    cases Q with
    | none => rfl
    | some q => exact Progression.meet_comm (hP p rfl).1 (hQ q rfl).1

/-! ## Names -/

theorem range_cover_unnamed (x : Interval) : x.unnamed.cover.range = x.cover.range := by
  cases hrev : x.reversed <;> simp [cover, unnamed, hrev]

theorem join_unnamed (x y : Interval) : x.join y.unnamed = x.join y := by
  simp only [join, combine, range_cover_unnamed]
  rfl

/-! ## Comparison -/

/-- A verdict on two ranges admits what the relation says about any numbers from them. -/
theorem mem_outcomes_decide (r : Relation) {a b : Int × Int} {m n : Int} (ham : a.1 ≤ m)
    (hma : m ≤ a.2) (hbn : b.1 ≤ n) (hnb : n ≤ b.2) :
    decide (r.Holds m n) ∈ (r.decide a b).outcomes := by
  have halways : r.decide a b = .always → r.Holds m n := by
    cases r <;> simp only [Relation.decide, Relation.Holds] <;> split <;> grind
  have hnever : r.decide a b = .never → ¬r.Holds m n := by
    cases r <;> simp only [Relation.decide, Relation.Holds] <;> split <;> grind
  cases hverdict : r.decide a b with
  | always => simp [Verdict.outcomes, halways hverdict]
  | never => simp [Verdict.outcomes, hnever hverdict]
  | maybe => simp [Verdict.outcomes, Classical.em]

/-- A comparison admits what it says about any two members. -/
theorem mem_outcomes_verdict {c : Comparison} {x y : Interval} {u v : Nat} (hx : x.Valid)
    (hy : y.Valid) (hbits : x.bits = y.bits) (hu : x.Denotes u) (hv : y.Denotes v) :
    decide (c.Holds x.bits u v) ∈ (verdict c x y).outcomes := by
  obtain ⟨p, hp, hup⟩ := mem_cover hx hu
  obtain ⟨q, hq, hvq⟩ := mem_cover hy hv
  have hpb := Progression.bounds_le c hx.width (fits_cover hx p hp) hup
  have hqb := Progression.bounds_le c hy.width (fits_cover hy q hq) hvq
  rw [Option.mem_def] at hp hq
  simp only [verdict, hp, hq]
  rw [← hbits] at hqb ⊢
  exact mem_outcomes_decide c.relation hpb.1 hpb.2 hqb.1 hqb.2

end Interval

end AbstractBits
