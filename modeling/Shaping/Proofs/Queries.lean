import Mathlib.Data.List.Nodup
import Shaping.Proofs.Classes

/-!
The queries of coverage tables and class definitions agree. A table may be listed entry by entry,
searched by halving, or measured by its last range alone, whether it is written as a list or as
ranges; each of these answers what the entries say, and so does the set matcher that is made from a
coverage. Main statements: `Coverage.indices_agree`, `Coverage.matchers_agree`,
`ClassDef.classes_agree`.
-/

namespace Shaping

/-! ### Coverages -/

/-- What is asked of a coverage is answered by its entries. -/
structure Coverage.Agrees (c : Coverage) : Prop where
  /-- The entries are those that the format stands for, in numbers of any size. -/
  entries_eq : c.entries.map (fun e => (e.1, e.2.toNat)) = c.format.expansion
  ascending : c.entries.Pairwise fun a b => a.1 < b.1 ∧ a.2 < b.2
  index_lt : ∀ e ∈ c.entries, e.1 < 65536
  index?_eq_some_iff : ∀ g i, c.index? g = some i ↔ (i, g) ∈ c.entries
  glyphCount_eq : c.glyphCount = c.entries.length
  isEmpty_iff : c.isEmpty ↔ c.entries = []
  indexBound_of_isEmpty : c.isEmpty → c.indexBound = 0
  indexBound_of_not_isEmpty : ¬ c.isEmpty →
    ∃ last ∈ c.entries, c.indexBound = last.1 + 1 ∧ ∀ e ∈ c.entries, e.1 ≤ last.1
  indexMap_eq : c.indexMap.map (fun e => (e.1.toNat, e.2)) = c.entries

namespace Coverage

variable {c : Coverage} {g : GlyphId} {i : Nat}

lemma index_lt_indexBound {e : Nat × GlyphId} (he : e ∈ c.entries) : e.1 < c.indexBound :=
  index?_lt_indexBound (mem_entries_iff.1 he)

theorem map_indexMap (c : Coverage) : c.indexMap.map (fun e => (e.1.toNat, e.2)) = c.entries := by
  have hword : ∀ e ∈ c.entries, (UInt16.ofNat e.1).toNat = e.1 := fun e he =>
    toNat_ofNat_word ((index_lt_indexBound he).trans_le c.indexBound_le)
  have hkeys :
      ((c.entries.map fun e => (UInt16.ofNat e.1, e.2)).map Prod.fst).Pairwise (· < ·) := by
    rw [List.map_map, List.pairwise_map]
    refine c.pairwise_entries.imp_of_mem fun {a b} ha hb hab => UInt16.lt_iff_toNat_lt.2 ?_
    show (UInt16.ofNat a.1).toNat < (UInt16.ofNat b.1).toNat
    rw [hword a ha, hword b hb]
    exact hab.1
  rw [indexMap, Sorted.latest_eq_self hkeys, List.map_map]
  conv_rhs => rw [← List.map_id c.entries]
  exact List.map_congr_left fun e he => Prod.ext (hword e he) rfl

/-- **All queries of a coverage agree with its entries.** Whether it is written as a list or as
ranges, the entries ascend in index and in glyph and nothing of them is cut off; the index of a
glyph is that of its entry; the count counts them; the bound is one past the index of the last of
them, or 0 if there is none; and the map from indices to glyphs has no others. -/
theorem indices_agree (c : Coverage) : c.Agrees where
  entries_eq := c.map_entries
  ascending := c.pairwise_entries
  index_lt _ he := (index_lt_indexBound he).trans_le c.indexBound_le
  index?_eq_some_iff _ _ := mem_entries_iff.symm
  glyphCount_eq := c.length_entries.symm
  isEmpty_iff := isEmpty_iff
  indexBound_of_isEmpty hempty := by
    obtain hzero | ⟨g, i, hi, -⟩ := c.indexBound_eq_zero_or
    · exact hzero
    · have hmem := mem_entries_iff.2 hi
      rw [isEmpty_iff.1 hempty] at hmem
      exact absurd hmem List.not_mem_nil
  indexBound_of_not_isEmpty hne := by
    obtain ⟨e, he⟩ := List.exists_mem_of_ne_nil _ (mt isEmpty_iff.2 hne)
    obtain hzero | ⟨g, i, hi, hbound⟩ := c.indexBound_eq_zero_or
    · have hlt := index_lt_indexBound he
      omega
    · refine ⟨(i, g), mem_entries_iff.2 hi, hbound, fun e he => ?_⟩
      have hlt := index_lt_indexBound he
      omega
  indexMap_eq := c.map_indexMap

/-! ### Set matchers -/

/-- **Set matchers agree with the tables they come from.** A set made from any list of glyphs
ascends strictly and contains the glyphs of the list, and two sets are equal exactly if their lists
have the same members. So the matcher of a coverage, whether it is written as a list or as ranges,
accepts the glyphs that have an index, and two coverages have one matcher exactly if they cover the
same glyphs. -/
theorem matchers_agree :
    (∀ l : List GlyphId, (GlyphSet.ofList l).glyphs.toList.Pairwise (· < ·) ∧
      ∀ g, (GlyphSet.ofList l).contains g ↔ g ∈ l) ∧
    (∀ l l' : List GlyphId, GlyphSet.ofList l = GlyphSet.ofList l' ↔ ∀ g, g ∈ l ↔ g ∈ l') ∧
    (∀ (c : Coverage) g, c.matcher.accepts g ↔ (c.index? g).isSome) ∧
    ∀ c c' : Coverage, c.matcher = c'.matcher ↔ ∀ g, c.contains g = c'.contains g := by
  refine ⟨fun l => ⟨(GlyphSet.ofList l).ascending, fun _ => GlyphSet.contains_ofList⟩,
    fun _ _ => GlyphSet.ofList_eq_ofList_iff, fun c g => ?_, fun c c' => ?_⟩
  · rw [accepts_matcher, contains]
  · rw [matcher, matcher, Matcher.set.injEq, GlyphSet.ofList_eq_ofList_iff]
    refine forall_congr' fun g => ?_
    rw [mem_glyphs_iff, mem_glyphs_iff]
    exact Bool.eq_iff_iff.symm

end Coverage

/-! ### Class definitions -/

/-- What is asked of a class definition is answered by its entries. -/
structure ClassDef.Agrees (d : ClassDef) : Prop where
  /-- The entries are those that the format stands for, in numbers of any size. -/
  entries_eq : d.entries.map (fun e => (e.1.toNat, e.2)) = d.format.expansion
  ascending : d.entries.Pairwise fun a b => a.1 < b.1
  classOf_eq : ∀ e ∈ d.entries, d.classOf e.1 = e.2
  classOf_eq_zero : ∀ g, (∀ cls, (g, cls) ∉ d.entries) → d.classOf g = 0
  mem_assignments_iff : ∀ cls gs, (cls, gs) ∈ d.assignments ↔
    gs ≠ [] ∧ gs = (d.entries.filter (·.2 = cls)).map (·.1)
  classes_ascending : (d.assignments.map (·.1)).Pairwise (· < ·)
  groups_ascending : ∀ group ∈ d.assignments, group.2.Pairwise (· < ·)
  groups_disjoint : d.assignments.Pairwise fun a b => List.Disjoint a.2 b.2
  groups_perm : (d.assignments.flatMap (·.2)).Perm (d.entries.map (·.1))
  classOf_le_maxClass : ∀ g, d.classOf g ≤ d.maxClass
  maxClass_attained : d.maxClass = 0 ∨ ∃ g, (g, d.maxClass) ∈ d.entries

namespace ClassDef

variable {d : ClassDef} {g : GlyphId} {cls : UInt16} {gs : List GlyphId}

theorem mem_assignments_iff : (cls, gs) ∈ d.assignments ↔
    gs ≠ [] ∧ gs = (d.entries.filter (·.2 = cls)).map (·.1) := by
  rw [assignments, Sorted.mem_group_iff, List.filter_map, List.map_map]
  rfl

lemma mem_group_iff (hgroup : (cls, gs) ∈ d.assignments) :
    g ∈ gs ↔ (g, cls) ∈ d.entries := by
  obtain ⟨-, rfl⟩ := mem_assignments_iff.1 hgroup
  simp

theorem pairwise_group (hgroup : (cls, gs) ∈ d.assignments) : gs.Pairwise (· < ·) := by
  obtain ⟨-, rfl⟩ := mem_assignments_iff.1 hgroup
  exact List.pairwise_map.2 (d.pairwise_entries.filter _)

theorem pairwise_disjoint_assignments (d : ClassDef) :
    d.assignments.Pairwise fun a b => List.Disjoint a.2 b.2 := by
  have hclasses : d.assignments.Pairwise fun a b => a.1 < b.1 :=
    List.pairwise_map.1 (Sorted.pairwise_group _)
  refine hclasses.imp_of_mem fun {a b} ha hb hab g hga hgb => ?_
  have heq := classOf_of_mem_entries ((mem_group_iff ha).1 hga)
  rw [classOf_of_mem_entries ((mem_group_iff hb).1 hgb)] at heq
  exact UInt16.ne_of_lt hab heq.symm

/-- **Together the groups have every glyph that is listed, once.** -/
theorem perm_flatMap_assignments (d : ClassDef) :
    (d.assignments.flatMap (·.2)).Perm (d.entries.map (·.1)) := by
  have hlisted : (d.entries.map (·.1)).Nodup :=
    List.pairwise_map.2 (d.pairwise_entries.imp UInt16.ne_of_lt)
  have hgrouped : (d.assignments.flatMap (·.2)).Nodup := by
    refine List.nodup_flatMap.2 ⟨fun group hgroup => ?_, d.pairwise_disjoint_assignments⟩
    exact (pairwise_group hgroup).imp UInt16.ne_of_lt
  refine (List.perm_ext_iff_of_nodup hgrouped hlisted).2 fun g => ?_
  rw [List.mem_flatMap, List.mem_map]
  constructor
  · rintro ⟨group, hgroup, hg⟩
    exact ⟨(g, group.1), (mem_group_iff hgroup).1 hg, rfl⟩
  · rintro ⟨⟨g, cls⟩, hentry, rfl⟩
    have hg : g ∈ (d.entries.filter (·.2 = cls)).map (·.1) :=
      List.mem_map.2 ⟨(g, cls), List.mem_filter.2 ⟨hentry, by simp⟩, rfl⟩
    exact ⟨(cls, _), mem_assignments_iff.2 ⟨List.ne_nil_of_mem hg, rfl⟩, hg⟩

/-- **All queries of a class definition agree with its entries.** Whether it is written as a list or
as ranges, the entries ascend in glyph and nothing of them is cut off; the class of a glyph is that
of its entry, or 0 if it has none; the classes that occur have the glyphs of their entries for their
groups, which share no glyph and together have each one once; and the largest class is above no
glyph's, and is that of an entry unless it is 0. -/
theorem classes_agree (d : ClassDef) : d.Agrees where
  entries_eq := d.map_entries
  ascending := d.pairwise_entries
  classOf_eq _ he := classOf_of_mem_entries he
  classOf_eq_zero g hg := by
    by_contra hne
    exact hg _ (mem_entries_of_classOf_ne_zero hne)
  mem_assignments_iff _ _ := mem_assignments_iff
  classes_ascending := Sorted.pairwise_group _
  groups_ascending _ hgroup := pairwise_group hgroup
  groups_disjoint := d.pairwise_disjoint_assignments
  groups_perm := d.perm_flatMap_assignments
  classOf_le_maxClass := d.classOf_le_maxClass
  maxClass_attained := d.maxClass_eq_zero_or

end ClassDef

end Shaping
