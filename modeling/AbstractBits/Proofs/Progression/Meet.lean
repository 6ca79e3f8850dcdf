import AbstractBits.Proofs.Progression.Lattice
/-!
# Which members a meet keeps

The meet of two progressions of several members takes the members of the coarser one between the
bounds of both. These are all the common members, and others too unless the steps of the coarser one
are steps of the finer one. A single member of an operand is looked up in the other one, which
leaves the common members and nothing else.

Results:
  * `mem_meet_iff_of_single`, `mem_meet_iff_of_several` — the members of a meet.
  * `mem_meet`, `fits_meet` — common members are members of the meet, which is in normal form.
  * `mem_left_of_mem_meet`, `mem_right_of_mem_meet` — when the members of a meet are members of an
    operand.
  * `mem_meet_iff` — when they are the common members.
  * `meet_comm` — the order of the operands makes no difference.
-/

namespace AbstractBits

namespace Progression

/-! ## Neighbours in a class -/

theorem allOnes_lt (bits : Nat) : allOnes bits < twoPow maxBits := by
  have hle : modulus bits ≤ twoPow maxBits :=
    Nat.pow_le_pow_right (by decide) (Nat.min_le_right _ _)
  have hpos := modulus_pos bits
  unfold allOnes
  omega

/-- The neighbour above exists and is not past any member of the class from `floor` on. Otherwise
the class would have a member less than a stride above another one. -/
theorem exists_firstFrom {base stride floor v : Nat} (hbase : base ≤ floor) (hfloor : floor ≤ v)
    (hdvd : stride ∣ v - base) (hv : v < twoPow maxBits) :
    ∃ next ∈ firstFrom base stride floor, next ≤ v := by
  unfold firstFrom
  split
  · rename_i hzero
    subst hzero
    have hvb := Nat.eq_zero_of_zero_dvd hdvd
    have heq : floor = base := by omega
    exact ⟨base, by simp [heq], by omega⟩
  · rename_i hne
    have hpos := Nat.pos_of_ne_zero hne
    have hrem := Nat.mod_lt (floor - base) hpos
    have hnext : floor + (stride - (floor - base) % stride) % stride ≤ v := by
      rcases Nat.eq_zero_or_pos ((floor - base) % stride) with hzero | hrpos
      · rw [hzero, Nat.sub_zero, Nat.mod_self]
        omega
      · rw [Nat.mod_eq_of_lt (by omega)]
        have hrest : stride ∣ (floor - base) % stride + (v - floor) := by
          have hsum : v - base = stride * ((floor - base) / stride)
              + ((floor - base) % stride + (v - floor)) := by
            have := Nat.div_add_mod (floor - base) stride
            omega
          rw [hsum] at hdvd
          exact (Nat.dvd_add_right (Nat.dvd_mul_right _ _)).1 hdvd
        have := Nat.le_of_dvd (by omega) hrest
        omega
    refine ⟨_, ?_, hnext⟩
    simp only [Option.mem_def]
    rw [if_pos (Nat.lt_of_le_of_lt hnext hv)]

/-- The members of the class of `base` between two bounds. -/
def within (low high base stride : Nat) : Option Progression :=
  match firstFrom base stride low with
  | none => none
  | some first =>
    if first ≤ high then some (between first (lastUpTo base stride high) stride) else none

theorem mem_within_iff {low high base stride v : Nat} (hstride : 0 < stride) (hbase : base ≤ low)
    (hhigh : high < twoPow maxBits) :
    (∃ r ∈ within low high base stride, v ∈ r) ↔ low ≤ v ∧ v ≤ high ∧ stride ∣ v - base := by
  constructor
  · rintro ⟨r, hr, hv⟩
    unfold within at hr
    split at hr
    · cases hr
    · rename_i first hfirst
      split at hr <;> cases hr
      rename_i hle
      obtain ⟨hfloor, hclass⟩ := mem_firstFrom hbase hfirst
      have hfirstBase := Nat.le_trans hbase hfloor
      have hceil := Nat.le_trans hfirstBase hle
      have hlast := (le_lastUpTo_iff hstride hfirstBase hclass hceil).2 hle
      obtain ⟨hlow, hupp, hdvd⟩ := (mem_between hstride hlast).1 hv
      exact ⟨Nat.le_trans hfloor hlow, Nat.le_trans hupp (lastUpTo_le hceil),
        dvd_sub_trans hfirstBase hlow hclass hdvd⟩
  · rintro ⟨hlow, hupp, hdvd⟩
    obtain ⟨first, hfirst, hle⟩ := exists_firstFrom hbase hlow hdvd (Nat.lt_of_le_of_lt hupp hhigh)
    obtain ⟨hfloor, hclass⟩ := mem_firstFrom hbase hfirst
    have hbasev := Nat.le_trans hbase hlow
    rw [Option.mem_def] at hfirst
    refine ⟨between first (lastUpTo base stride high) stride, ?_, ?_⟩
    · simp only [within, hfirst, Nat.le_trans hle hupp, if_true, Option.mem_def]
    · refine mem_between_of hle ?_ (dvd_sub_of_dvd_sub (Nat.le_trans hbase hfloor) hclass hdvd)
      exact (le_lastUpTo_iff hstride hbasev hdvd (Nat.le_trans hbasev hupp)).2 hupp

theorem fits_within {bits low high base stride : Nat} {r : Progression} (hstride : 0 < stride)
    (hbase : base ≤ low) (hhigh : high ≤ allOnes bits) (h : r ∈ within low high base stride) :
    r.Fits bits := by
  unfold within at h
  split at h
  · cases h
  · rename_i first hfirst
    split at h <;> cases h
    rename_i hle
    obtain ⟨hfloor, hclass⟩ := mem_firstFrom hbase hfirst
    have hfirstBase := Nat.le_trans hbase hfloor
    have hceil := Nat.le_trans hfirstBase hle
    refine fits_between _ ?_ (Nat.le_trans (lastUpTo_le hceil) hhigh)
    exact (le_lastUpTo_iff hstride hfirstBase hclass hceil).2 hle

/-! ## Members of the meet -/

/-- The lower bounds of progressions with a common member agree modulo both strides. -/
theorem distance_mod_gcd {p q : Progression} {v : Nat} (hp : v ∈ p) (hq : v ∈ q) :
    distance p.lower q.lower % Nat.gcd p.stride q.stride = 0 := by
  have hdp := Nat.dvd_trans (Nat.gcd_dvd_left p.stride q.stride) hp.2.2
  have hdq := Nat.dvd_trans (Nat.gcd_dvd_right p.stride q.stride) hq.2.2
  have hpv := hp.1
  have hqv := hq.1
  refine Nat.mod_eq_zero_of_dvd ?_
  rcases Nat.le_total p.lower q.lower with hle | hle
  · have hdist : distance p.lower q.lower = (v - p.lower) - (v - q.lower) := by
      unfold distance
      omega
    rw [hdist]
    exact Nat.dvd_sub hdp hdq
  · have hdist : distance p.lower q.lower = (v - q.lower) - (v - p.lower) := by
      unfold distance
      omega
    rw [hdist]
    exact Nat.dvd_sub hdq hdp

/-- The operand from which the meet takes its members. -/
def coarser (p q : Progression) : Progression := if q.stride ≤ p.stride then p else q

theorem mem_coarser {p q : Progression} {v : Nat} (hp : v ∈ p) (hq : v ∈ q) : v ∈ coarser p q := by
  unfold coarser
  split
  · exact hp
  · exact hq

theorem coarser_lower_le (p q : Progression) : (coarser p q).lower ≤ max p.lower q.lower := by
  unfold coarser
  split
  · exact Nat.le_max_left _ _
  · exact Nat.le_max_right _ _

theorem coarser_stride_pos {p q : Progression} (hp : p.Normal) (hq : q.Normal)
    (hps : p.isSingle = false) (hqs : q.isSingle = false) : 0 < (coarser p q).stride := by
  unfold coarser
  split
  · exact hp.stride_pos hps
  · exact hq.stride_pos hqs

theorem Normal.mem_iff_of_single {p : Progression} {v : Nat} (h : p.Normal)
    (hsingle : p.isSingle = true) : v ∈ p ↔ v = p.lower := by
  rw [h.eq_single hsingle, mem_single, single]

/-- A single member of one operand is looked up in the other one. -/
theorem mem_meet_iff_of_single {p q : Progression} {v : Nat} (hp : p.Normal) (hq : q.Normal)
    (h : p.isSingle = true ∨ q.isSingle = true) : (∃ r ∈ p.meet q, v ∈ r) ↔ v ∈ p ∧ v ∈ q := by
  unfold meet
  split
  · rename_i hsingle
    have hfound : (∃ r ∈ (if p.lower ∈ q then some p else none), v ∈ r) ↔ v ∈ p ∧ p.lower ∈ q := by
      split <;> simp [*]
    rw [hfound]
    exact and_congr_right fun hv => by rw [(hp.mem_iff_of_single hsingle).1 hv]
  · rename_i hps
    have hsingle := h.resolve_left hps
    have hfound : (∃ r ∈ (if q.lower ∈ p then some q else none), v ∈ r) ↔ q.lower ∈ p ∧ v ∈ q := by
      split <;> simp [*]
    rw [if_pos hsingle, hfound]
    exact and_congr_left fun hv => by rw [(hq.mem_iff_of_single hsingle).1 hv]

/-- The meet of two progressions of several members. -/
theorem meet_of_several {p q : Progression} (hp : p.isSingle = false) (hq : q.isSingle = false) :
    p.meet q =
      if min p.upper q.upper < max p.lower q.lower
          ∨ distance p.lower q.lower % Nat.gcd p.stride q.stride ≠ 0 then none
      else within (max p.lower q.lower) (min p.upper q.upper) (coarser p q).lower
        (coarser p q).stride := by
  simp only [meet, hp, hq, Bool.false_eq_true, if_false]
  rfl

/-- The meet of two progressions of several members has the members of the coarser one between the
bounds of both, if the lower bounds agree modulo both strides. -/
theorem mem_meet_iff_of_several {bits : Nat} {p q : Progression} {v : Nat} (hpf : p.Fits bits)
    (hqf : q.Fits bits) (hp : p.isSingle = false) (hq : q.isSingle = false) :
    (∃ r ∈ p.meet q, v ∈ r) ↔ Nat.gcd p.stride q.stride ∣ distance p.lower q.lower ∧
      max p.lower q.lower ≤ v ∧ v ≤ min p.upper q.upper ∧
      (coarser p q).stride ∣ v - (coarser p q).lower := by
  have hhigh : min p.upper q.upper < twoPow maxBits :=
    Nat.lt_of_le_of_lt (Nat.le_trans (Nat.min_le_left _ _) hpf.2) (allOnes_lt bits)
  have hwithin :=
    mem_within_iff (v := v) (coarser_stride_pos hpf.1 hqf.1 hp hq) (coarser_lower_le p q) hhigh
  rw [meet_of_several hp hq]
  split
  · rename_i hguard
    refine iff_of_false (fun ⟨_, hr, _⟩ => nomatch hr) ?_
    rintro ⟨hclass, hlow, hupp, -⟩
    rcases hguard with hlt | hne
    · exact Nat.not_le.2 hlt (Nat.le_trans hlow hupp)
    · exact hne (Nat.mod_eq_zero_of_dvd hclass)
  · rename_i hguard
    have hclass := Decidable.not_not.1 (not_or.1 hguard).2
    rw [hwithin, and_iff_right (Nat.dvd_of_mod_eq_zero hclass)]

/-- Common members are members of the meet. -/
theorem mem_meet {bits : Nat} {p q : Progression} {v : Nat} (hpf : p.Fits bits) (hqf : q.Fits bits)
    (hp : v ∈ p) (hq : v ∈ q) : ∃ r ∈ p.meet q, v ∈ r := by
  by_cases hsingle : p.isSingle = true ∨ q.isSingle = true
  · exact (mem_meet_iff_of_single hpf.1 hqf.1 hsingle).2 ⟨hp, hq⟩
  · obtain ⟨hps, hqs⟩ := not_or.1 hsingle
    refine (mem_meet_iff_of_several hpf hqf (by simpa using hps) (by simpa using hqs)).2
      ⟨?_, ?_, ?_, ?_⟩
    · exact Nat.dvd_of_mod_eq_zero (distance_mod_gcd hp hq)
    · exact Nat.max_le.2 ⟨hp.1, hq.1⟩
    · exact Nat.le_min.2 ⟨hp.2.1, hq.2.1⟩
    · exact (mem_coarser hp hq).2.2

theorem fits_meet {bits : Nat} {p q r : Progression} (hpf : p.Fits bits) (hqf : q.Fits bits)
    (h : r ∈ p.meet q) : r.Fits bits := by
  cases hp : p.isSingle with
  | true =>
    simp only [meet, hp, if_true] at h
    split at h <;> cases h
    exact hpf
  | false =>
    cases hq : q.isSingle with
    | true =>
      simp only [meet, hp, hq, Bool.false_eq_true, if_false, if_true] at h
      split at h <;> cases h
      exact hqf
    | false =>
      rw [meet_of_several hp hq] at h
      split at h
      · cases h
      · exact fits_within (coarser_stride_pos hpf.1 hqf.1 hp hq) (coarser_lower_le p q)
          (Nat.le_trans (Nat.min_le_left _ _) hpf.2) h

/-! ## Order of operands -/

/-- Two bases of one class are equally far from a number behind them, up to strides. -/
theorem mod_sub_congr {base other stride bound : Nat} (hle : base ≤ other) (hbound : other ≤ bound)
    (hdvd : stride ∣ other - base) : (bound - base) % stride = (bound - other) % stride := by
  refine mod_eq_of_dvd_sub (Nat.sub_le_sub_left hle bound) ?_
  have hsub : bound - base - (bound - other) = other - base := by omega
  rwa [hsub]

/-- The neighbour above depends on the class of the base only. -/
theorem firstFrom_congr {base other stride floor : Nat} (hstride : 0 < stride) (hle : base ≤ other)
    (hfloor : other ≤ floor) (hdvd : stride ∣ other - base) :
    firstFrom base stride floor = firstFrom other stride floor := by
  simp only [firstFrom, if_neg (Nat.ne_of_gt hstride), mod_sub_congr hle hfloor hdvd]

/-- The neighbour below depends on the class of the base only. -/
theorem lastUpTo_congr {base other stride ceiling : Nat} (hstride : 0 < stride) (hle : base ≤ other)
    (hceil : other ≤ ceiling) (hdvd : stride ∣ other - base) :
    lastUpTo base stride ceiling = lastUpTo other stride ceiling := by
  simp only [lastUpTo, if_neg (Nat.ne_of_gt hstride), mod_sub_congr hle hceil hdvd]

/-- Between the same bounds, two bases of one class have the same members. -/
theorem within_congr {low high base other stride : Nat} (hstride : 0 < stride) (hbase : base ≤ low)
    (hother : other ≤ low) (hlow : low ≤ high) (hdvd : stride ∣ distance base other) :
    within low high base stride = within low high other stride := by
  rcases Nat.le_total base other with hle | hle
  · rw [distance, Nat.max_eq_right hle, Nat.min_eq_left hle] at hdvd
    rw [within, within, firstFrom_congr hstride hle hother hdvd,
      lastUpTo_congr hstride hle (Nat.le_trans hother hlow) hdvd]
  · rw [distance, Nat.max_eq_left hle, Nat.min_eq_right hle] at hdvd
    rw [within, within, firstFrom_congr hstride hle hbase hdvd,
      lastUpTo_congr hstride hle (Nat.le_trans hbase hlow) hdvd]

/-- Of operands with different strides the coarser one is the same in either order. -/
theorem coarser_comm {p q : Progression} (h : p.stride ≠ q.stride) : coarser p q = coarser q p := by
  unfold coarser
  split
  · rw [if_neg (by omega)]
  · rw [if_pos (by omega)]

theorem lower_single (value : Nat) : (single value).lower = value := rfl

theorem upper_single (value : Nat) : (single value).upper = value := rfl

/-- The order of the operands makes no difference. With one stride, the lower bounds are in one
class, whichever of them is taken for the base. -/
theorem meet_comm {p q : Progression} (hp : p.Normal) (hq : q.Normal) : p.meet q = q.meet p := by
  cases hps : p.isSingle with
  | true =>
    cases hqs : q.isSingle with
    | true =>
      rw [hp.eq_single hps, hq.eq_single hqs]
      by_cases heq : p.lower = q.lower
      · rw [heq]
      · simp [meet, isSingle, lower_single, upper_single, heq, Ne.symm heq]
    | false => simp [meet, hps, hqs]
  | false =>
    cases hqs : q.isSingle with
    | true => simp [meet, hps, hqs]
    | false =>
      rw [meet_of_several hps hqs, meet_of_several hqs hps, Nat.max_comm q.lower,
        Nat.min_comm q.upper, distance_comm q.lower, Nat.gcd_comm q.stride]
      by_cases hstrides : p.stride = q.stride
      · split
        · rfl
        · rename_i hguard
          obtain ⟨hlow, hmod⟩ := not_or.1 hguard
          have hdvd : p.stride ∣ distance p.lower q.lower := by
            rw [← hstrides, Nat.gcd_self] at hmod
            exact Nat.dvd_of_mod_eq_zero (Decidable.not_not.1 hmod)
          simp only [coarser, hstrides, Nat.le_refl, if_true]
          exact within_congr (hq.stride_pos hqs) (Nat.le_max_left _ _) (Nat.le_max_right _ _)
            (Nat.not_lt.1 hlow) (hstrides ▸ hdvd)
      · rw [coarser_comm hstrides]

/-! ## Members of the operands -/

section

variable {bits : Nat} {p q r : Progression} {v : Nat}

theorem coarser_stride (p q : Progression) : (coarser p q).stride = max p.stride q.stride := by
  unfold coarser
  split
  · rename_i hle
    exact (Nat.max_eq_left hle).symm
  · rename_i hlt
    exact (Nat.max_eq_right (Nat.le_of_not_le hlt)).symm

/-- The members of a meet lie between the bounds of both operands. -/
theorem le_of_mem_meet (hp : p.Fits bits) (hq : q.Fits bits) (hr : r ∈ p.meet q) (hv : v ∈ r) :
    max p.lower q.lower ≤ v ∧ v ≤ min p.upper q.upper := by
  by_cases hsingle : p.isSingle = true ∨ q.isSingle = true
  · obtain ⟨hvp, hvq⟩ := (mem_meet_iff_of_single hp.1 hq.1 hsingle).1 ⟨r, hr, hv⟩
    exact ⟨Nat.max_le.2 ⟨hvp.1, hvq.1⟩, Nat.le_min.2 ⟨hvp.2.1, hvq.2.1⟩⟩
  · obtain ⟨hps, hqs⟩ := not_or.1 hsingle
    obtain ⟨-, hlow, hupp, -⟩ :=
      (mem_meet_iff_of_several hp hq (by simpa using hps) (by simpa using hqs)).1 ⟨r, hr, hv⟩
    exact ⟨hlow, hupp⟩

/-- A meet has members only if the lower bounds agree modulo both strides. -/
theorem gcd_dvd_of_mem_meet (hp : p.Fits bits) (hq : q.Fits bits) (hr : r ∈ p.meet q) (hv : v ∈ r) :
    Nat.gcd p.stride q.stride ∣ distance p.lower q.lower := by
  by_cases hsingle : p.isSingle = true ∨ q.isSingle = true
  · obtain ⟨hvp, hvq⟩ := (mem_meet_iff_of_single hp.1 hq.1 hsingle).1 ⟨r, hr, hv⟩
    exact Nat.dvd_of_mod_eq_zero (distance_mod_gcd hvp hvq)
  · obtain ⟨hps, hqs⟩ := not_or.1 hsingle
    exact ((mem_meet_iff_of_several hp hq (by simpa using hps) (by simpa using hqs)).1
      ⟨r, hr, hv⟩).1

/-- Of two bases in one class, either one tells the members of the class. -/
theorem dvd_sub_of_dvd_distance {s a b : Nat} (hb : b ≤ v) (hab : s ∣ distance a b)
    (hdvd : s ∣ v - b) : s ∣ v - a := by
  rcases Nat.le_total a b with hle | hle
  · rw [distance, Nat.max_eq_right hle, Nat.min_eq_left hle] at hab
    exact dvd_sub_trans hle hb hab hdvd
  · rw [distance, Nat.max_eq_left hle, Nat.min_eq_right hle] at hab
    exact dvd_sub_of_dvd_sub hle hab hdvd

/-- The members of a meet are members of an operand whose steps are no finer than those of the other
one, or divide them. If the meet is made of members of the other operand, the steps of that are
steps of this one, which is in the class of the other lower bound. -/
theorem mem_left_of_mem_meet (hp : p.Fits bits) (hq : q.Fits bits)
    (hdvd : p.stride ∣ max p.stride q.stride) (hr : r ∈ p.meet q) (hv : v ∈ r) : v ∈ p := by
  by_cases hsingle : p.isSingle = true ∨ q.isSingle = true
  · exact ((mem_meet_iff_of_single hp.1 hq.1 hsingle).1 ⟨r, hr, hv⟩).1
  obtain ⟨hps, hqs⟩ := not_or.1 hsingle
  obtain ⟨hclass, hlow, hupp, hstep⟩ :=
    (mem_meet_iff_of_several hp hq (by simpa using hps) (by simpa using hqs)).1 ⟨r, hr, hv⟩
  obtain ⟨hplow, hqlow⟩ := Nat.max_le.1 hlow
  refine ⟨hplow, (Nat.le_min.1 hupp).1, ?_⟩
  rw [← coarser_stride] at hdvd
  have hown := Nat.dvd_trans hdvd hstep
  unfold coarser at hdvd hown
  split at hown
  · exact hown
  · rename_i hcoarse
    rw [if_neg hcoarse] at hdvd
    rw [Nat.gcd_eq_left hdvd] at hclass
    exact dvd_sub_of_dvd_distance hqlow hclass hown

theorem mem_right_of_mem_meet (hp : p.Fits bits) (hq : q.Fits bits)
    (hdvd : q.stride ∣ max p.stride q.stride) (hr : r ∈ p.meet q) (hv : v ∈ r) : v ∈ q := by
  rw [meet_comm hp.1 hq.1] at hr
  rw [Nat.max_comm] at hdvd
  exact mem_left_of_mem_meet hq hp hdvd hr hv

theorem dvd_max_of_min_dvd {s t : Nat} (h : min s t ∣ max s t) : s ∣ max s t ∧ t ∣ max s t := by
  rcases Nat.le_total s t with hle | hle
  · rw [Nat.min_eq_left hle, Nat.max_eq_right hle] at h
    rw [Nat.max_eq_right hle]
    exact ⟨h, Nat.dvd_refl t⟩
  · rw [Nat.min_eq_right hle, Nat.max_eq_left hle] at h
    rw [Nat.max_eq_left hle]
    exact ⟨Nat.dvd_refl s, h⟩

/-- A meet has the common members and no others if an operand has a single member or if the finer
steps divide the coarser ones. -/
theorem mem_meet_iff (hp : p.Fits bits) (hq : q.Fits bits)
    (h : p.isSingle = true ∨ q.isSingle = true ∨ min p.stride q.stride ∣ max p.stride q.stride) :
    (∃ r ∈ p.meet q, v ∈ r) ↔ v ∈ p ∧ v ∈ q := by
  rcases or_assoc.2 h with hsingle | hdvd
  · exact mem_meet_iff_of_single hp.1 hq.1 hsingle
  · obtain ⟨hleft, hright⟩ := dvd_max_of_min_dvd hdvd
    constructor
    · rintro ⟨r, hr, hv⟩
      exact ⟨mem_left_of_mem_meet hp hq hleft hr hv, mem_right_of_mem_meet hp hq hright hr hv⟩
    · rintro ⟨hvp, hvq⟩
      exact mem_meet hp hq hvp hvq

end

end Progression

end AbstractBits
