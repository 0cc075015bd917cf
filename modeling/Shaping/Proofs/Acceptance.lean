import Mathlib.Data.List.Nodup
import Mathlib.Data.List.Perm.Subperm
import Mathlib.Data.Option.Basic
import Shaping.Table.ClassDef
import Shaping.Table.Coverage

/-!
Which coverage tables and class definitions are accepted. The checks compare each range with the one
in front of it, and stop at the first fault. What they ask is that the table ascends from its first
entry to its last, when the entries are written out as numbers of any size. Main statement:
`accepted_iff_ascending`.
-/

namespace Shaping

/-! ### Tables written out -/

/-- The coverage indices and glyphs of a range, as numbers of any size. -/
def CoverageRange.expansion (r : CoverageRange) : List (Nat × Nat) :=
  (List.range r.glyphCount).map fun k => (r.firstIndex.toNat + k, r.min.toNat + k)

/-- The coverage indices and glyphs of a table, as numbers of any size. -/
def CoverageFormat.expansion : CoverageFormat → List (Nat × Nat)
  | .list glyphs => glyphs.toList.zipIdx.map fun (g, i) => (i, g.toNat)
  | .ranges rs => rs.toList.flatMap (·.expansion)

/-- The glyphs of a range, as numbers of any size, with their class. -/
def ClassRange.expansion (r : ClassRange) : List (Nat × UInt16) :=
  (List.range (r.max.toNat + 1 - r.min.toNat)).map fun k => (r.min.toNat + k, r.cls)

/-- The glyphs that a definition mentions, as numbers of any size, with their classes. -/
def ClassDefFormat.expansion : ClassDefFormat → List (Nat × UInt16)
  | .list first classes => classes.toList.zipIdx.map fun (c, i) => (first.toNat + i, c)
  | .ranges rs => rs.toList.flatMap (·.expansion)

lemma add_le_iff_forall_lt {a b m n : Nat} (hm : 0 < m) (hn : 0 < n) :
    a + m ≤ b ↔ ∀ i < m, ∀ j < n, a + i < b + j := by
  constructor
  · intro h i hi j _
    omega
  · intro h
    -- the last number of the one and the first number of the other
    have hends := h (m - 1) (by omega) 0 hn
    omega

namespace CoverageRange

variable {r s : CoverageRange} {rs : List CoverageRange} {front : Option CoverageRange}

lemma glyphCount_pos (hr : r.min ≤ r.max) : 0 < r.glyphCount := by
  rw [UInt16.le_iff_toNat_le] at hr
  rw [glyphCount]
  omega

lemma pairwise_expansion (r : CoverageRange) :
    r.expansion.Pairwise fun a b => a.1 < b.1 ∧ a.2 < b.2 :=
  List.pairwise_map.2 <| List.pairwise_lt_range.imp fun {_ _} h =>
    ⟨Nat.add_lt_add_left h _, Nat.add_lt_add_left h _⟩

/-! ### Coverage ranges -/

/-- The range `r` comes before `s`, in glyphs and in indices. -/
structure Precedes (r s : CoverageRange) : Prop where
  glyphs : r.max < s.min
  indices : r.indexEnd ≤ s.firstIndex.toNat

lemma Precedes.trans {t : CoverageRange} (h : r.Precedes s) (hs : s.min ≤ s.max)
    (h' : s.Precedes t) : r.Precedes t := by
  refine ⟨UInt16.lt_of_lt_of_le h.glyphs (UInt16.le_trans hs (UInt16.le_of_lt h'.glyphs)), ?_⟩
  have hle := h.indices
  have hle' := h'.indices
  simp only [indexEnd, glyphCount] at hle hle' ⊢
  omega

theorem precedes_iff (hr : r.min ≤ r.max) (hs : s.min ≤ s.max) : r.Precedes s ↔
    ∀ a ∈ r.expansion, ∀ b ∈ s.expansion, a.1 < b.1 ∧ a.2 < b.2 := by
  have hglyphs : r.max < s.min ↔ r.min.toNat + r.glyphCount ≤ s.min.toNat := by
    rw [UInt16.le_iff_toNat_le] at hr
    rw [UInt16.lt_iff_toNat_lt, glyphCount]
    omega
  have hprecedes : r.Precedes s ↔
      r.indexEnd ≤ s.firstIndex.toNat ∧ r.min.toNat + r.glyphCount ≤ s.min.toNat := by
    rw [← hglyphs]
    exact ⟨fun h => ⟨h.indices, h.glyphs⟩, fun h => ⟨h.2, h.1⟩⟩
  have hpos := glyphCount_pos hr
  have hpos' := glyphCount_pos hs
  rw [hprecedes, indexEnd, add_le_iff_forall_lt hpos hpos', add_le_iff_forall_lt hpos hpos']
  simp only [expansion, List.forall_mem_map, List.mem_range, forall_and]

lemma indexEnd_le_iff (hr : r.min ≤ r.max) :
    r.indexEnd ≤ 65536 ↔ ∀ a ∈ r.expansion, a.1 ≤ 65535 := by
  have hends := add_le_iff_forall_lt (a := r.firstIndex.toNat) (b := 65536) (glyphCount_pos hr)
    Nat.one_pos
  rw [indexEnd, hends]
  simp [expansion, Nat.lt_succ_iff]

lemma fault?_eq_none_iff : r.fault? = none ↔ r.min ≤ r.max ∧ r.indexEnd ≤ 65536 := by
  rw [fault?, ← UInt16.not_lt, ← Nat.not_lt]
  split_ifs with hmin hend <;> simp [*]

lemma orderFault?_eq_none_iff : orderFault? r s = none ↔ r.Precedes s := by
  rw [orderFault?]
  split_ifs with hglyphs hindices
  · simp only [false_iff]
    exact fun h => absurd h.glyphs (UInt16.not_lt.2 hglyphs)
  · simp only [false_iff]
    exact fun h => absurd h.indices (by omega)
  · exact ⟨fun _ => ⟨UInt16.not_le.1 hglyphs, by omega⟩, fun _ => rfl⟩

theorem listFault?_eq_none_iff : listFault? front rs = none ↔
    (∀ r ∈ rs, r.min ≤ r.max ∧ r.indexEnd ≤ 65536) ∧ rs.Pairwise Precedes ∧
      ∀ f ∈ front, ∀ r ∈ rs, f.Precedes r := by
  induction rs generalizing front with
  | nil => simp [listFault?]
  | cons r rest ih =>
    rw [listFault?, Option.orElse_eq_none, Option.orElse_eq_none, ih, fault?_eq_none_iff,
      Option.bind_eq_none_iff, List.forall_mem_cons, List.pairwise_cons]
    simp only [orderFault?_eq_none_iff, List.forall_mem_cons, Option.mem_some_iff,
      forall_eq']
    constructor
    · rintro ⟨hr, hfront, hrest, hpairs, hbehind⟩
      refine ⟨⟨hr, hrest⟩, ⟨hbehind, hpairs⟩, fun f hf => ⟨hfront f hf, fun s hs => ?_⟩⟩
      exact (hfront f hf).trans hr.1 (hbehind s hs)
    · rintro ⟨⟨hr, hrest⟩, ⟨hbehind, hpairs⟩, hfront⟩
      exact ⟨hr, fun f hf => (hfront f hf).1, hrest, hpairs, hbehind⟩

end CoverageRange

/-! ### Glyph lists -/

/-- A list of glyphs that ascends is no longer than there are glyphs. -/
lemma length_le_of_pairwise {l : List GlyphId} (h : l.Pairwise (· < ·)) : l.length ≤ 65536 := by
  have hnodup : (l.map UInt16.toNat).Nodup :=
    List.Nodup.map (fun a b hab => UInt16.toNat_inj.1 hab) (h.imp UInt16.ne_of_lt)
  have hsubset : l.map UInt16.toNat ⊆ List.range 65536 := by
    intro n hn
    obtain ⟨a, -, rfl⟩ := List.mem_map.1 hn
    exact List.mem_range.2 a.toNat_lt
  have hle := (hnodup.subperm hsubset).length_le
  rwa [List.length_map, List.length_range] at hle

theorem unsortedGlyph?_eq_none_iff {l : List GlyphId} :
    unsortedGlyph? l = none ↔ l.Pairwise (· < ·) := by
  rw [← List.isChain_iff_pairwise]
  induction l with
  | nil => exact iff_of_true rfl .nil
  | cons a rest ih =>
    cases rest with
    | nil => exact iff_of_true rfl (.singleton a)
    | cons b rest =>
      rw [unsortedGlyph?, List.isChain_cons_cons]
      split_ifs with hab
      · rw [ih, and_iff_right hab]
      · simp [hab]

namespace CoverageFormat

/-- **A glyph list passes the check** if it ascends. It then has no more glyphs than there are
coverage indices, so the check of its length finds nothing. -/
theorem fault?_list_eq_none_iff {glyphs : Array GlyphId} :
    fault? (.list glyphs) = none ↔ glyphs.toList.Pairwise (· < ·) := by
  rw [fault?, Option.orElse_eq_none, unsortedGlyph?_eq_none_iff]
  refine and_iff_left_of_imp fun h => if_neg (Nat.not_lt.2 ?_)
  exact length_le_of_pairwise h

theorem fault?_ranges_eq_none_iff {rs : Array CoverageRange} : fault? (.ranges rs) = none ↔
    (∀ r ∈ rs.toList, r.min ≤ r.max ∧ r.indexEnd ≤ 65536) ∧
      rs.toList.Pairwise CoverageRange.Precedes := by
  rw [fault?, CoverageRange.listFault?_eq_none_iff]
  simp

/-- **Ranges pass the check** if none is reversed and what they stand for ascends, within the
indices that there are. -/
theorem fault?_ranges_eq_none_iff_expansion {rs : Array CoverageRange} :
    fault? (.ranges rs) = none ↔ (∀ r ∈ rs, r.min ≤ r.max) ∧
      (expansion (.ranges rs)).Pairwise (fun a b => a.1 < b.1 ∧ a.2 < b.2) ∧
        ∀ e ∈ expansion (.ranges rs), e.1 ≤ 65535 := by
  rw [fault?_ranges_eq_none_iff, expansion, List.pairwise_flatMap, List.forall_mem_flatMap,
    forall₂_and, and_assoc]
  simp only [← Array.mem_toList_iff]
  refine and_congr_right fun hmins => ?_
  have hpairs : rs.toList.Pairwise CoverageRange.Precedes ↔ rs.toList.Pairwise fun r s =>
      ∀ a ∈ r.expansion, ∀ b ∈ s.expansion, a.1 < b.1 ∧ a.2 < b.2 :=
    List.Pairwise.iff_of_mem fun {r s} hr hs => CoverageRange.precedes_iff (hmins r hr) (hmins s hs)
  have hends : (∀ r ∈ rs.toList, r.indexEnd ≤ 65536) ↔
      ∀ r ∈ rs.toList, ∀ e ∈ r.expansion, e.1 ≤ 65535 :=
    forall₂_congr fun r hr => CoverageRange.indexEnd_le_iff (hmins r hr)
  have hinside : ∀ r ∈ rs.toList, r.expansion.Pairwise fun a b => a.1 < b.1 ∧ a.2 < b.2 :=
    fun r _ => r.pairwise_expansion
  rw [hpairs, hends, and_iff_right hinside, and_comm]

end CoverageFormat

/-! ### Class ranges -/

namespace ClassRange

variable {r s : ClassRange} {rs : List ClassRange}

lemma pairwise_expansion (r : ClassRange) : r.expansion.Pairwise fun a b => a.1 < b.1 :=
  List.pairwise_map.2 <| List.pairwise_lt_range.imp fun {_ _} h => Nat.add_lt_add_left h _

theorem max_lt_min_iff (hr : r.min ≤ r.max) (hs : s.min ≤ s.max) : r.max < s.min ↔
    ∀ a ∈ r.expansion, ∀ b ∈ s.expansion, a.1 < b.1 := by
  rw [UInt16.le_iff_toNat_le] at hr hs
  have hglyphs : r.max < s.min ↔
      r.min.toNat + (r.max.toNat + 1 - r.min.toNat) ≤ s.min.toNat := by
    rw [UInt16.lt_iff_toNat_lt]
    omega
  have hpos : 0 < r.max.toNat + 1 - r.min.toNat := by omega
  have hpos' : 0 < s.max.toNat + 1 - s.min.toNat := by omega
  rw [hglyphs, add_le_iff_forall_lt hpos hpos']
  simp only [expansion, List.forall_mem_map, List.mem_range]

lemma reversed?_eq_none_iff : reversed? rs = none ↔ ∀ r ∈ rs, r.min ≤ r.max := by
  simp [reversed?]

theorem unordered?_eq_none_iff (hmins : ∀ r ∈ rs, r.min ≤ r.max) :
    unordered? rs = none ↔ rs.Pairwise fun r s => r.max < s.min := by
  induction rs with
  | nil => exact iff_of_true rfl .nil
  | cons a rest ih =>
    cases rest with
    | nil => exact iff_of_true rfl (List.pairwise_singleton _ a)
    | cons b rest =>
      have hb := hmins b (by simp)
      have ih := ih (List.forall_mem_cons.1 hmins).2
      rw [unordered?, List.pairwise_cons]
      split_ifs with hab
      · simp only [false_iff]
        exact fun h => absurd (h.1 b List.mem_cons_self) (UInt16.not_lt.2 hab)
      · rw [ih]
        refine (and_iff_right_of_imp fun h c hc => ?_).symm
        have hab := UInt16.not_le.1 hab
        obtain rfl | hc := List.mem_cons.1 hc
        · exact hab
        · have hbc := (List.pairwise_cons.1 h).1 c hc
          exact UInt16.lt_trans (UInt16.lt_of_lt_of_le hab hb) hbc

end ClassRange

namespace ClassDefFormat

theorem fault?_ranges_eq_none_iff {rs : Array ClassRange} : fault? (.ranges rs) = none ↔
    (∀ r ∈ rs.toList, r.min ≤ r.max) ∧ rs.toList.Pairwise fun r s => r.max < s.min := by
  rw [fault?, Option.orElse_eq_none, ClassRange.reversed?_eq_none_iff]
  exact and_congr_right ClassRange.unordered?_eq_none_iff

/-- **Class ranges pass the check** if none is reversed and the glyphs they stand for ascend. -/
theorem fault?_ranges_eq_none_iff_expansion {rs : Array ClassRange} :
    fault? (.ranges rs) = none ↔ (∀ r ∈ rs, r.min ≤ r.max) ∧
      (expansion (.ranges rs)).Pairwise fun a b => a.1 < b.1 := by
  rw [fault?_ranges_eq_none_iff, expansion, List.pairwise_flatMap]
  simp only [← Array.mem_toList_iff]
  refine and_congr_right fun hmins => ?_
  rw [and_iff_right fun r _ => r.pairwise_expansion]
  exact List.Pairwise.iff_of_mem fun {r s} hr hs =>
    ClassRange.max_lt_min_iff (hmins r hr) (hmins s hs)

/-- **A class list passes the check** if the last glyph that it reaches is one. -/
theorem fault?_list_eq_none_iff {first : GlyphId} {classes : Array UInt16} :
    fault? (.list first classes) = none ↔
      ∀ e ∈ expansion (.list first classes), e.1 ≤ 65535 := by
  have hmem : (∀ e ∈ expansion (.list first classes), e.1 ≤ 65535) ↔
      ∀ i < classes.size, first.toNat + i ≤ 65535 := by
    rw [expansion, List.forall_mem_map]
    constructor
    · intro h i hi
      exact h (classes[i], i) (List.mem_zipIdx_iff_getElem?.2 (by simp [hi]))
    · intro h ⟨c, i⟩ hmem
      obtain ⟨hi, -⟩ := List.getElem?_eq_some_iff.1 (List.mem_zipIdx_iff_getElem?.1 hmem)
      exact h i (by simpa using hi)
  rw [hmem, fault?]
  simp only [ite_eq_right_iff, reduceCtorEq, imp_false, Bool.and_eq_true, decide_eq_true_eq,
    bne_iff_ne]
  constructor
  · intro h i hi
    omega
  · rintro h ⟨hend, hne⟩
    have hlast := h (classes.size - 1) (by omega)
    omega

end ClassDefFormat

/-! ### Acceptance -/

lemma TableError.exists_checked_iff {α : Type} {fault? : Option TableError}
    {build : fault? = none → α} : (∃ a, checked fault? build = .ok a) ↔ fault? = none := by
  simp [checked_eq_ok_iff]

/-- **The tables that are accepted are those that ascend.** A glyph list is accepted if it ascends.
Coverage ranges are accepted if none is reversed and the coverage indices and glyphs that they stand
for, written out one range behind the other in numbers of any size, ascend in both from the first to
the last, with no index above 65535. Class ranges are accepted if none is reversed and the glyphs
that they stand for ascend, and a class list if it reaches no glyph above 65535. -/
theorem accepted_iff_ascending :
    (∀ glyphs : Array GlyphId, (∃ c, Coverage.ofFormat (.list glyphs) = .ok c) ↔
      glyphs.toList.Pairwise (· < ·)) ∧
    (∀ rs : Array CoverageRange, (∃ c, Coverage.ofFormat (.ranges rs) = .ok c) ↔
      (∀ r ∈ rs, r.min ≤ r.max) ∧
        (CoverageFormat.ranges rs).expansion.Pairwise (fun a b => a.1 < b.1 ∧ a.2 < b.2) ∧
          ∀ e ∈ (CoverageFormat.ranges rs).expansion, e.1 ≤ 65535) ∧
    (∀ rs : Array ClassRange, (∃ d, ClassDef.ofFormat (.ranges rs) = .ok d) ↔
      (∀ r ∈ rs, r.min ≤ r.max) ∧
        (ClassDefFormat.ranges rs).expansion.Pairwise fun a b => a.1 < b.1) ∧
    ∀ (first : GlyphId) (classes : Array UInt16),
      (∃ d, ClassDef.ofFormat (.list first classes) = .ok d) ↔
        ∀ e ∈ (ClassDefFormat.list first classes).expansion, e.1 ≤ 65535 :=
  ⟨fun _ => TableError.exists_checked_iff.trans CoverageFormat.fault?_list_eq_none_iff,
    fun _ => TableError.exists_checked_iff.trans CoverageFormat.fault?_ranges_eq_none_iff_expansion,
    fun _ => TableError.exists_checked_iff.trans ClassDefFormat.fault?_ranges_eq_none_iff_expansion,
    fun _ _ => TableError.exists_checked_iff.trans ClassDefFormat.fault?_list_eq_none_iff⟩

end Shaping
