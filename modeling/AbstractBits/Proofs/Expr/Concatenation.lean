import AbstractBits.Proofs.Expr.Dispatch
import AbstractBits.Proofs.Interval.Concatenation
/-!
# Concatenations in groups

A concatenation takes any number of operands, and an operand can be a concatenation itself. How the
operands are grouped makes no difference for the value, apart from names.

Results:
  * `concatAll_groups` — operands with the values of groups, one after the other.
  * `Grouped.evaluate` — the value of a tree depends on its operands and their order only.
  * `concat_least` — a concatenation is the least interval, however it is grouped, and its parts can
    be cut out again.
-/

open AbstractBits.Interval (Concatenates IsPart joined totalBits)

namespace AbstractBits

namespace Expr

variable {xs ws : List Interval} {x first : Interval} {d : Expr}
  {groups : List (List Interval × Expr)} {bits : Nat}

/-! ## Trees -/

/-- A tree of concatenations of intervals: the intervals from left to right, however they are put
into nodes. -/
inductive Grouped : List Interval → Expr → Prop where
  | operand {x : Interval} {d : Expr} (value : d.evaluate = .ok (.abstract (.interval x))) :
      Grouped [x] d
  | node {groups : List (List Interval × Expr)} (bits : Nat) (several : groups ≠ [])
      (operands : ∀ g ∈ groups, Grouped g.1 g.2) :
      Grouped (groups.flatMap Prod.fst) (.node .concat (groups.map Prod.snd) bits)

/-- The value of an operand is that of intervals put end to end, apart from its name. -/
def HasParts (xs : List Interval) (d : Expr) : Prop :=
  ∃ z, d.evaluate = .ok (.abstract (.interval z)) ∧ z.unnamed = joined xs

theorem concat_of_unnamed {y z : Interval} {ys : List Interval} (hy : y.unnamed = joined xs)
    (hz : z.unnamed = joined ys) (hxs : ∀ x ∈ xs, IsPart x) (hys : ∀ y ∈ ys, IsPart y)
    (width : ValidWidth (totalBits (xs ++ ys))) :
    (AbstractValue.interval y).concat (.interval z) = .ok (.interval (joined (xs ++ ys))) := by
  have happend : y.append z = joined (xs ++ ys) := by
    rw [← Interval.append_unnamed, hy, hz, Interval.joined_append hxs hys]
  have hbits : y.bits + z.bits = totalBits (xs ++ ys) := congrArg Interval.bits happend
  show (requireWidth (y.bits + z.bits) (y.append z)).map AbstractValue.interval = _
  rw [happend, hbits, requireWidth, if_pos width]
  rfl

/-- Operands with the values of groups, put behind what has the value of the intervals before
them. -/
theorem concatAll_groups (hfirst : first.unnamed = joined ws) (hpos : 1 ≤ totalBits ws)
    (hws : ∀ x ∈ ws, IsPart x) (hgroups : ∀ g ∈ groups, HasParts g.1 g.2 ∧ ∀ x ∈ g.1, IsPart x)
    (hmax : totalBits (ws ++ groups.flatMap Prod.fst) ≤ maxBits) :
    ∃ vs z, evaluateAll (groups.map Prod.snd) = .ok vs ∧
      Operator.concatAll (.interval first) vs = .ok (.interval z) ∧
        z.unnamed = joined (ws ++ groups.flatMap Prod.fst) := by
  induction groups generalizing first ws with
  | nil =>
    exact ⟨[], first,
      by rw [List.map_nil, evaluateAll], rfl, by rwa [List.flatMap_nil, List.append_nil]⟩
  | cons g gs ih =>
    obtain ⟨⟨⟨y, hy, hyparts⟩, hg⟩, hrest⟩ := List.forall_mem_cons.1 hgroups
    rw [List.flatMap_cons, ← List.append_assoc] at hmax ⊢
    have hstep : totalBits (ws ++ g.1) ≤ maxBits := by
      rw [Interval.totalBits_append] at hmax
      omega
    have hpos' : 1 ≤ totalBits (ws ++ g.1) := by
      rw [Interval.totalBits_append]
      omega
    have hconcat := concat_of_unnamed hfirst hyparts hws hg ⟨hpos', hstep⟩
    have hwsg : ∀ x ∈ ws ++ g.1, IsPart x := List.forall_mem_append.2 ⟨hws, hg⟩
    have hjoined : (joined (ws ++ g.1)).unnamed = joined (ws ++ g.1) := rfl
    obtain ⟨vs, z, hvs, hz, hzparts⟩ := ih hjoined hpos' hwsg hrest hmax
    refine ⟨.abstract (.interval y) :: vs, z, ?_, ?_, hzparts⟩
    · rw [List.map_cons, evaluateAll_cons, hy, hvs]
      rfl
    · show (do
        let joined ← ofOperation ((AbstractValue.interval first).concat (.interval y))
        Operator.concatAll joined vs) = _
      rw [hconcat]
      exact hz

theorem Grouped.ne_nil (h : Grouped xs d) : xs ≠ [] := by
  induction h with
  | operand => exact List.cons_ne_nil _ _
  | @node groups bits several operands ih =>
    obtain ⟨g, gs, rfl⟩ := List.exists_cons_of_ne_nil several
    rw [List.flatMap_cons]
    exact List.append_ne_nil_of_left_ne_nil (ih g List.mem_cons_self) _

theorem totalBits_le_flatMap {g : List Interval × Expr} (hg : g ∈ groups) :
    totalBits g.1 ≤ totalBits (groups.flatMap Prod.fst) := by
  obtain ⟨before, after, rfl⟩ := List.append_of_mem hg
  rw [List.flatMap_append, List.flatMap_cons, Interval.totalBits_append, Interval.totalBits_append]
  omega

/-- The value of a tree of concatenations depends on the intervals and their order only. The first
group of a node has a value of its own, and the others are put behind it. -/
theorem Grouped.evaluate (h : Grouped xs d) (hxs : ∀ x ∈ xs, IsPart x)
    (hmax : totalBits xs ≤ maxBits) : HasParts xs d := by
  induction h with
  | operand value => exact ⟨_, value, (Interval.joined_singleton (hxs _ List.mem_cons_self)).symm⟩
  | @node groups bits several operands ih =>
    have hmem {g} (hg : g ∈ groups) : ∀ x ∈ g.1, IsPart x := fun x hx =>
      hxs x (List.mem_flatMap.2 ⟨g, hg, hx⟩)
    have hgroups : ∀ g ∈ groups, HasParts g.1 g.2 ∧ ∀ x ∈ g.1, IsPart x := fun g hg =>
      ⟨ih g hg (hmem hg) (Nat.le_trans (totalBits_le_flatMap hg) hmax), hmem hg⟩
    obtain ⟨g, gs, rfl⟩ := List.exists_cons_of_ne_nil several
    obtain ⟨⟨⟨first, hfirst, hfirstParts⟩, hg⟩, hrest⟩ := List.forall_mem_cons.1 hgroups
    rw [List.flatMap_cons] at hmax ⊢
    have hpos := Interval.totalBits_pos hg (operands g List.mem_cons_self).ne_nil
    obtain ⟨vs, z, hvs, hz, hzparts⟩ := concatAll_groups hfirstParts hpos hg hrest hmax
    refine ⟨z, ?_, hzparts⟩
    have hvalues :
        evaluateAll ((g :: gs).map Prod.snd) = .ok (.abstract (.interval first) :: vs) := by
      rw [List.map_cons, evaluateAll_cons, hfirst, hvs]
      rfl
    refine (Operator.call_of_not_lattice rfl _ bits).trans ?_
    rw [hvalues]
    show (Operator.concatAll (.interval first) vs).map Value.abstract = _
    rw [hz]
    rfl

/-- Operands one by one, in a single node. -/
theorem grouped_flat (hxs : xs ≠ []) (bits : Nat) :
    Grouped xs (.node .concat (xs.map fun x => .abstract (.interval x)) bits) := by
  have hoperands : ∀ g ∈ xs.map fun x => ([x], Expr.abstract (.interval x)), Grouped g.1 g.2 := by
    intro g hg
    obtain ⟨x, -, rfl⟩ := List.mem_map.1 hg
    exact .operand (by rw [Expr.evaluate])
  have hflat := Grouped.node bits (fun h => hxs (List.map_eq_nil_iff.1 h)) hoperands
  simpa only [List.flatMap_map, List.map_map, Function.comp_def, List.flatMap_singleton']
    using hflat

end Expr

namespace Operator

variable {xs : List Interval} {z h : Interval} {high low : Nat}

/-! ## Calls -/

/-- A width, and a position in a bit-vector, is a count of bits. -/
theorem toBitCount_of_le {op : Operator} {n : Nat} (hn : n ≤ maxBits) :
    (Value.int n).toBitCount op = .ok n := by
  have hlt : n < twoPow 32 := Nat.lt_of_le_of_lt hn (by decide)
  have hcount : (0 : Int) ≤ n ∧ (n : Int) < (twoPow 32 : Int) :=
    ⟨Int.natCast_nonneg n, Int.ofNat_lt.2 hlt⟩
  refine bind_eq_ok.2 ⟨n, rfl, ?_⟩
  rw [if_pos hcount, Int.toNat_natCast]

theorem call_extract {a e : AbstractValue} (ha : a.Valid) (h : a.extract high low = .ok e)
    (bits : Nat) : extract.call [.int high, .int low, .abstract a] bits = .ok (.abstract e) := by
  obtain ⟨hle, hlt⟩ := AbstractValue.fieldOf_of_extract h
  have hmax : high ≤ maxBits := Nat.le_trans (Nat.le_of_lt hlt) (AbstractValue.width ha).2
  have hargs := Expr.evaluateAll_map_ofValue [.int high, .int low, .abstract a]
  refine (call_of_not_lattice rfl _ bits).trans
    (bind_eq_ok.2 ⟨_, hargs, bind_eq_ok.2 ⟨(), rfl, ?_⟩⟩)
  refine bind_eq_ok.2 ⟨_, rfl, bind_eq_ok.2 ⟨_, toBitCount_of_le hmax, ?_⟩⟩
  refine bind_eq_ok.2 ⟨_, toBitCount_of_le (Nat.le_trans hle hmax), ?_⟩
  exact map_eq_ok.2 ⟨_, ofOperation_eq_ok.2 h, rfl⟩

theorem call_extract_interval (hz : z.Valid) (hextract : z.extract high low = .ok h) (bits : Nat) :
    extract.call [.int high, .int low, .abstract (.interval z)] bits =
      .ok (.abstract (.interval h)) :=
  call_extract (a := .interval z) hz (map_eq_ok.2 ⟨_, hextract, rfl⟩) bits

/-- A concatenation of intervals is the least interval over all numbers made of a number of each,
and stays the same if operands are put together in nodes of their own. The two parts of a
concatenation of two can be cut out again. -/
theorem concat_least (hne : xs ≠ []) (hxs : ∀ x ∈ xs, IsPart x) (hmax : totalBits xs ≤ maxBits)
    (bits : Nat) :
    ∃ z,
      concat.call (xs.map fun x => .abstract (.interval x)) bits =
        .ok (.abstract (.interval z)) ∧
      z.Plain (totalBits xs) ∧ z.LeastOf (Concatenates xs) ∧
      (∀ d, Expr.Grouped xs d → ∃ v, d.evaluate = .ok v ∧ v.same (.abstract (.interval z)) = true) ∧
      ∀ x y, xs = [x, y] → ∃ h l,
        extract.call [.int (x.bits + y.bits - 1 : Nat), .int y.bits, .abstract (.interval z)] bits =
            .ok (.abstract (.interval h)) ∧
          extract.call [.int (y.bits - 1 : Nat), .int (0 : Nat), .abstract (.interval z)] bits =
            .ok (.abstract (.interval l)) ∧
          Interval.CutOut x y h l := by
  have width : ValidWidth (totalBits xs) := ⟨Interval.totalBits_pos hxs hne, hmax⟩
  obtain ⟨z, hz, hparts⟩ := (Expr.grouped_flat hne bits).evaluate hxs hmax
  have hplain : z.Plain (totalBits xs) :=
    Interval.plain_of_unnamed (hparts ▸ Interval.plain_joined hxs width)
  have hleast : z.unnamed.LeastOf (Concatenates xs) := hparts ▸ Interval.least_joined hxs
  refine ⟨z, hz, hplain, ⟨hleast.covers, hleast.least⟩, ?grouped, ?parts⟩
  case grouped =>
    intro d hd
    obtain ⟨z', hz', hparts'⟩ := hd.evaluate hxs hmax
    refine ⟨_, hz', ?_⟩
    simp only [Value.same, AbstractValue.unnamed, hparts, hparts', beq_self_eq_true]
  case parts =>
    rintro x y rfl
    obtain ⟨hx, hrest⟩ := List.forall_mem_cons.1 hxs
    have hy := List.forall_mem_singleton.1 hrest
    rw [Interval.joined_pair hx hy] at hparts
    obtain ⟨h, l, hhigh, hlow, hcut⟩ := Interval.extract_parts hx hy width
    rw [← hparts, Interval.extract_unnamed] at hhigh hlow
    exact ⟨h, l, call_extract_interval hplain.valid hhigh bits,
      call_extract_interval hplain.valid hlow bits, hcut⟩

/-- The even numbers from 2 to 6 of 8 bits with the number 9 of 4 bits behind them, which may be in
a node of its own. -/
theorem concat_of_pair :
    ∃ z h v,
      concat.call [.abstract (.interval (.ofRange 8 (some ⟨2, 6, 2⟩))),
        .abstract (.interval (.constant 4 9))] 12 = .ok (.abstract (.interval z)) ∧
      extract.call [.int (11 : Nat), .int (4 : Nat), .abstract (.interval z)] 12 =
        .ok (.abstract (.interval h)) ∧
      h.unnamed = .ofRange 8 (some ⟨2, 6, 2⟩) ∧
      (Expr.node .concat [.abstract (.interval (.ofRange 8 (some ⟨2, 6, 2⟩))),
        .node .concat [.abstract (.interval (.constant 4 9))] 4] 12).evaluate = .ok v ∧
      v.same (.abstract (.interval z)) = true := by
  have hx : IsPart (.ofRange 8 (some ⟨2, 6, 2⟩)) :=
    ⟨Interval.plain_ofRange (by decide) ⟨by decide, by decide⟩, rfl⟩
  have hy : IsPart (.constant 4 9) := ⟨Interval.plain_constant (by decide) 9, rfl⟩
  have hparts : ∀ x ∈ [.ofRange 8 (some ⟨2, 6, 2⟩), .constant 4 9], IsPart x :=
    List.forall_mem_cons.2 ⟨hx, List.forall_mem_singleton.2 hy⟩
  obtain ⟨z, hz, -, -, hgrouped, hcut⟩ := concat_least (List.cons_ne_nil _ _) hparts (by decide) 12
  obtain ⟨h, l, hhigh, -, hcut⟩ := hcut _ _ rfl
  have hnode :
      Expr.Grouped [.constant 4 9] (.node .concat [.abstract (.interval (.constant 4 9))] 4) :=
    Expr.grouped_flat (List.cons_ne_nil _ _) 4
  have htree := @Expr.Grouped.node
    [([.ofRange 8 (some ⟨2, 6, 2⟩)], .abstract (.interval (.ofRange 8 (some ⟨2, 6, 2⟩)))),
      ([.constant 4 9], .node .concat [.abstract (.interval (.constant 4 9))] 4)] 12
        (List.cons_ne_nil _ _)
    (List.forall_mem_cons.2 ⟨.operand (by rw [Expr.evaluate]), List.forall_mem_singleton.2 hnode⟩)
  obtain ⟨v, hv, hsame⟩ := hgrouped _ htree
  exact ⟨z, h, v, hz, hhigh, hcut.high_of_single rfl, hv, hsame⟩

end Operator

end AbstractBits
