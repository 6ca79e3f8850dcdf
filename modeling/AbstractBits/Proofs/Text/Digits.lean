import AbstractBits.Text.Grammar
/-!
# Digits of numbers

The digits in which numbers are written are read back as these numbers, in either case of the
letters. So numbers that are written alike are equal.

Results:
  * `digit?_toLower` — the case of a letter makes no difference.
  * `digits_toDigits` — the digits of a number stand for it.
  * `toDigits_inj`, `hexadecimal_inj` — the written forms of numbers tell them apart.
  * `Written.of_mem`, `not_mem_toDigits` — which characters there are in a number, and which are
    not.
-/

namespace AbstractBits

namespace Numeral

variable {radix m n d : Nat} {c : Char} {cs : List Char}

/-! ## Single digits -/

/-- The digits of all numbers below 16 are digits in every radix above them. -/
theorem digit?_digitChar (hradix : radix ≤ 16) (hd : d < radix) :
    digit? radix d.digitChar = some d := by
  have hall : ∀ e : Fin 16, ∀ r : Fin 17, e.val < r.val →
      digit? r.val e.val.digitChar = some e.val := by
    decide
  exact hall ⟨d, Nat.lt_of_lt_of_le hd hradix⟩ ⟨radix, Nat.lt_succ_of_le hradix⟩ hd

theorem toNat_toLower (h : 'A' ≤ c ∧ c ≤ 'Z') : c.toLower.toNat = c.toNat + 32 := by
  have hval : c.val ≥ 'A'.val ∧ c.val ≤ 'Z'.val := h
  have hle : c.val.toNat ≤ 90 := h.2
  have hroom : c.val.toNat + 32 < 2 ^ 32 := by omega
  unfold Char.toLower
  rw [dif_pos hval]
  change (c.val + 32).toNat = c.val.toNat + 32
  rw [UInt32.toNat_add]
  exact Nat.mod_eq_of_lt hroom

theorem toLower_of_not_upper (h : ¬('A' ≤ c ∧ c ≤ 'Z')) : c.toLower = c := dif_neg h

/-- The case of a letter makes no difference. -/
theorem digit?_toLower (radix : Nat) (c : Char) : digit? radix c.toLower = digit? radix c := by
  by_cases h : 'A' ≤ c ∧ c ≤ 'Z'
  · have hlower := toNat_toLower h
    have hfirst : 65 ≤ c.toNat := h.1
    have hlast : c.toNat ≤ 90 := h.2
    have hnumeric : ¬('0' ≤ c ∧ c ≤ '9') := fun hc => by
      have : c.toNat ≤ 57 := hc.2
      omega
    have hsmall : ¬('a' ≤ c ∧ c ≤ 'z') := fun hc => by
      have : 97 ≤ c.toNat := hc.1
      omega
    have hnumeric' : ¬('0' ≤ c.toLower ∧ c.toLower ≤ '9') := fun hc => by
      have : c.toLower.toNat ≤ 57 := hc.2
      omega
    have hsmall' : 'a' ≤ c.toLower ∧ c.toLower ≤ 'z' := by
      change 97 ≤ c.toLower.toNat ∧ c.toLower.toNat ≤ 122
      omega
    have hvalue : c.toLower.toNat - 'a'.toNat + 10 = c.toNat - 'A'.toNat + 10 := by
      change c.toLower.toNat - 97 + 10 = c.toNat - 65 + 10
      omega
    unfold digit?
    rw [if_neg hnumeric', if_pos hsmall', if_neg hnumeric, if_neg hsmall, if_pos h, hvalue]
  · rw [toLower_of_not_upper h]

/-! ## Numbers -/

theorem digits_toDigits (hone : 1 < radix) (hradix : radix ≤ 16) (n : Nat) :
    Digits radix (Nat.toDigits radix n) n := by
  induction n using Nat.strongRecOn with
  | ind n ih =>
    rcases Nat.lt_or_ge n radix with hlt | hge
    · rw [Nat.toDigits_of_lt_base hlt]
      exact .one (digit?_digitChar hradix hlt)
    · have hpos : 0 < n := Nat.lt_of_lt_of_le (Nat.lt_trans Nat.one_pos hone) hge
      have hlast := digit?_digitChar hradix (Nat.mod_lt n (Nat.lt_trans Nat.one_pos hone))
      have hsnoc := (ih (n / radix) (Nat.div_lt_self hpos hone)).snoc hlast
      rw [Nat.toDigits_of_base_le hone hge]
      rwa [Nat.mul_comm, Nat.div_add_mod] at hsnoc

/-- Texts of the same digits stand for the same numbers. -/
theorem Digits.congr {ds : List Char} (h : Digits radix ds n)
    (heq : cs.map (digit? radix) = ds.map (digit? radix)) : Digits radix cs n := by
  obtain ⟨hne, values, hvalues, hn⟩ := digits_iff.1 h
  have hcs : cs ≠ [] := by
    rintro rfl
    exact hne (List.map_eq_nil_iff.1 heq.symm)
  exact digits_iff.2 ⟨hcs, values, heq.trans hvalues, hn⟩

/-- Digits in any case of the letters. -/
theorem digits_of_toLower (hone : 1 < radix) (hradix : radix ≤ 16)
    (h : cs.map Char.toLower = Nat.toDigits radix n) : Digits radix cs n := by
  refine (digits_toDigits hone hradix n).congr ?_
  rw [← h, List.map_map]
  exact List.map_congr_left fun c _ => (digit?_toLower radix c).symm

/-- Digits stand for one number only. -/
theorem Digits.unique (h : Digits radix cs m) (h' : Digits radix cs n) : m = n := by
  obtain ⟨-, ds, hds, rfl⟩ := digits_iff.1 h
  obtain ⟨-, es, hes, rfl⟩ := digits_iff.1 h'
  have hsome : ds.map some = es.map some := hds.symm.trans hes
  rw [(List.map_inj_right fun _ _ => Option.some.inj).1 hsome]

theorem toDigits_inj (hone : 1 < radix) (hradix : radix ≤ 16) :
    Nat.toDigits radix m = Nat.toDigits radix n ↔ m = n := by
  constructor
  · intro h
    have hdigits := digits_toDigits hone hradix m
    rw [h] at hdigits
    exact hdigits.unique (digits_toDigits hone hradix n)
  · rintro rfl
    rfl

/-! ## Characters -/

theorem Digits.of_mem (h : Digits radix cs n) (hc : c ∈ cs) : ∃ d, digit? radix c = some d := by
  obtain ⟨-, ds, hds, -⟩ := digits_iff.1 h
  have hmem : digit? radix c ∈ ds.map some := hds ▸ List.mem_map_of_mem hc
  obtain ⟨d, -, hd⟩ := List.mem_map.1 hmem
  exact ⟨d, hd.symm⟩

/-- A number has digits and plus signs only. -/
theorem Written.of_mem (h : Written radix cs n) (hc : c ∈ cs) :
    c = '+' ∨ ∃ d, digit? radix c = some d := by
  rcases h with h | ⟨digits, rfl, h⟩
  · exact .inr (h.of_mem hc)
  · rcases List.mem_cons.1 hc with heq | hmem
    · exact .inl heq
    · exact .inr (h.of_mem hmem)

theorem not_mem_toDigits (hone : 1 < radix) (hradix : radix ≤ 16) (hc : digit? radix c = none)
    (n : Nat) : c ∉ Nat.toDigits radix n := by
  intro hmem
  obtain ⟨d, hd⟩ := (digits_toDigits hone hradix n).of_mem hmem
  exact nomatch hc.symm.trans hd

end Numeral

/-! ## Hexadecimal numbers behind their prefix -/

theorem toList_hexadecimal (n : Nat) :
    (hexadecimal n).toList = '0' :: 'x' :: Nat.toDigits 16 n := by
  simp [hexadecimal]

theorem hexadecimal_inj {m n : Nat} : (hexadecimal m).toList = (hexadecimal n).toList ↔ m = n := by
  simp [toList_hexadecimal, Numeral.toDigits_inj]

end AbstractBits
