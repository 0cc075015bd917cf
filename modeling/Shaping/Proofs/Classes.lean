import Shaping.Proofs.Coverages

/-! What class definitions answer. The entries of a definition ascend, whether it is written as a
list or as ranges. The class of a glyph is the one that is assigned to it, or 0, and the largest
class is one that is assigned, or 0. Main statements: `ClassDef.classOf_of_mem_entries`,
`ClassDef.mem_entries_of_classOf_ne_zero`, `ClassDef.classOf_le_maxClass`.
-/

namespace Shaping

variable {g : GlyphId}

/-! ### Entries -/

namespace ClassRange

variable {r : ClassRange}

theorem mem_entries_iff {cls : UInt16} :
    (g, cls) ∈ r.entries ↔ r.min ≤ g ∧ g ≤ r.max ∧ cls = r.cls := by
  rw [entries, List.mem_map]
  constructor
  · rintro ⟨k, hk, heq⟩
    obtain ⟨hg, rfl⟩ := Prod.mk.inj heq
    obtain ⟨hmin, hmax, -⟩ := exists_ofNat_iff.1 ⟨List.mem_range.1 hk, hg⟩
    exact ⟨hmin, hmax, rfl⟩
  · rintro ⟨hmin, hmax, rfl⟩
    obtain ⟨hk, hg⟩ := exists_ofNat_iff.2 ⟨hmin, hmax, rfl⟩
    exact ⟨_, List.mem_range.2 hk, Prod.ext hg rfl⟩

lemma map_entries (r : ClassRange) : r.entries.map (fun e => (e.1.toNat, e.2)) = r.expansion := by
  rw [entries, expansion, List.map_map]
  refine List.map_congr_left fun k hk => Prod.ext (toNat_ofNat_word ?_) rfl
  have hmax := r.max.toNat_lt
  rw [List.mem_range] at hk
  omega

end ClassRange

namespace ClassDef

variable {d : ClassDef} {cls : UInt16}

lemma lt_of_mem_zipIdx {first : GlyphId} {classes : Array UInt16} {e : UInt16 × Nat}
    (valid : ClassDefFormat.fault? (.list first classes) = none) (he : e ∈ classes.toList.zipIdx) :
    first.toNat + e.2 < 65536 := by
  rw [ClassDefFormat.fault?_list_eq_none_iff] at valid
  exact Nat.lt_succ_of_le (valid _ (List.mem_map_of_mem he))

theorem map_entries (d : ClassDef) :
    d.entries.map (fun e => (e.1.toNat, e.2)) = d.format.expansion := by
  obtain ⟨format, valid⟩ := d
  cases format with
  | list first classes =>
    rw [entries, List.map_map]
    exact List.map_congr_left fun e he =>
      Prod.ext (toNat_ofNat_word (lt_of_mem_zipIdx valid he)) rfl
  | ranges rs =>
    rw [entries, List.map_flatMap]
    exact List.flatMap_congr fun r _ => r.map_entries

theorem pairwise_expansion (d : ClassDef) : d.format.expansion.Pairwise fun a b => a.1 < b.1 := by
  obtain ⟨format, valid⟩ := d
  cases format with
  | list first classes =>
    refine List.pairwise_map.2 (List.pairwise_iff_getElem.2 fun i j hi hj hij => ?_)
    simp only [List.getElem_zipIdx, Nat.zero_add]
    exact Nat.add_lt_add_left hij _
  | ranges rs => exact (ClassDefFormat.fault?_ranges_eq_none_iff_expansion.1 valid).2

/-- **The entries of a class definition ascend.** -/
theorem pairwise_entries (d : ClassDef) : d.entries.Pairwise fun a b => a.1 < b.1 := by
  have hpairs := d.pairwise_expansion
  rw [← d.map_entries, List.pairwise_map] at hpairs
  exact hpairs.imp UInt16.lt_iff_toNat_lt.2

/-! ### Classes of glyphs -/

lemma getElem?_partitionPoint_ranges {rs : Array ClassRange}
    (valid : ClassDefFormat.fault? (.ranges rs) = none) (g : GlyphId) :
    rs[Sorted.partitionPoint (·.max < g) rs]? = rs.toList.find? (g ≤ ·.max) := by
  obtain ⟨hmins, hpairs⟩ := ClassDefFormat.fault?_ranges_eq_none_iff.1 valid
  refine Sorted.getElem?_partitionPoint (List.pairwise_map.2 ?_) g
  exact hpairs.imp_of_mem fun {r s} _ hs hrs => UInt16.lt_of_lt_of_le hrs (hmins s hs)

/-- **The class that is assigned to a glyph** is the class of the glyph. -/
theorem classOf_of_mem_entries (h : (g, cls) ∈ d.entries) : d.classOf g = cls := by
  obtain ⟨format, valid⟩ := d
  cases format with
  | list first classes =>
    obtain ⟨⟨c, i⟩, hmem, heq⟩ := List.mem_map.1 h
    obtain ⟨rfl, rfl⟩ := Prod.mk.inj heq
    have hword : (UInt16.ofNat (first.toNat + i)).toNat = first.toNat + i :=
      toNat_ofNat_word (lt_of_mem_zipIdx valid hmem)
    have hc : classes[i]? = some c := by simpa using List.mem_zipIdx_iff_getElem?.1 hmem
    have hfirst : first ≤ UInt16.ofNat (first.toNat + i) := by
      rw [UInt16.le_iff_toNat_le, hword]
      exact Nat.le_add_right _ _
    rw [classOf]
    dsimp only
    rw [if_pos hfirst, hword, Nat.add_sub_cancel_left, Array.getD_eq_getD_getElem?, hc,
      Option.getD_some]
  | ranges rs =>
    obtain ⟨r, hr, hentry⟩ := List.mem_flatMap.1 h
    obtain ⟨hmin, hmax, rfl⟩ := ClassRange.mem_entries_iff.1 hentry
    obtain ⟨-, hpairs⟩ := ClassDefFormat.fault?_ranges_eq_none_iff.1 valid
    have hfind : rs.toList.find? (g ≤ ·.max) = some r := by
      refine find?_eq_some_of_pairwise hpairs hr (by simpa using hmax) fun s _ hs => ?_
      simpa using UInt16.lt_of_lt_of_le hs hmin
    simp only [classOf, getElem?_partitionPoint_ranges valid, hfind, if_pos hmin]

/-- **The class of a glyph is assigned to it**, unless it is 0. -/
theorem mem_entries_of_classOf_ne_zero (h : d.classOf g ≠ 0) : (g, d.classOf g) ∈ d.entries := by
  obtain ⟨format, valid⟩ := d
  cases format with
  | list first classes =>
    simp only [classOf, Array.getD_eq_getD_getElem?] at h ⊢
    split_ifs at h ⊢ with hfirst
    · cases hc : classes[g.toNat - first.toNat]? with
      | none => simp [hc] at h
      | some cls =>
        refine List.mem_map.2 ⟨(cls, g.toNat - first.toNat), ?_, Prod.ext ?_ rfl⟩
        · simpa [List.mem_zipIdx_iff_getElem?] using hc
        · rw [UInt16.le_iff_toNat_le] at hfirst
          show UInt16.ofNat (first.toNat + (g.toNat - first.toNat)) = g
          rw [Nat.add_sub_cancel' hfirst, UInt16.ofNat_toNat]
    · exact absurd rfl h
  | ranges rs =>
    simp only [classOf, getElem?_partitionPoint_ranges valid] at h ⊢
    cases hfind : rs.toList.find? (g ≤ ·.max) with
    | none => simp [hfind] at h
    | some r =>
      rw [hfind] at h
      dsimp only at h ⊢
      split_ifs at h ⊢ with hmin
      · refine List.mem_flatMap.2 ⟨r, List.mem_of_find?_eq_some hfind, ?_⟩
        exact ClassRange.mem_entries_iff.2 ⟨hmin, by simpa using List.find?_some hfind, rfl⟩
      · exact absurd rfl h

/-! ### The largest class -/

/-- The greatest of some classes and `m` is above none of them, and it is `m` or one of them. -/
lemma foldl_max_spec (l : List (GlyphId × UInt16)) (m : UInt16) :
    m ≤ l.foldl (fun m e => max m e.2) m ∧ (∀ e ∈ l, e.2 ≤ l.foldl (fun m e => max m e.2) m) ∧
      (l.foldl (fun m e => max m e.2) m = m ∨ ∃ e ∈ l, e.2 = l.foldl (fun m e => max m e.2) m) := by
  induction l generalizing m with
  | nil => simp
  | cons e rest ih =>
    have hmax : max m e.2 = if m ≤ e.2 then e.2 else m := rfl
    obtain ⟨hstart, hrest, hattained⟩ := ih (max m e.2)
    rw [List.foldl_cons]
    generalize rest.foldl (fun m e => max m e.2) (max m e.2) = top at hstart hrest hattained ⊢
    rw [hmax] at hstart hattained
    split_ifs at hstart hattained with hle
    · refine ⟨UInt16.le_trans hle hstart, List.forall_mem_cons.2 ⟨hstart, hrest⟩, .inr ?_⟩
      obtain rfl | ⟨b, hb, rfl⟩ := hattained
      · exact ⟨e, List.mem_cons_self, rfl⟩
      · exact ⟨b, List.mem_cons_of_mem e hb, rfl⟩
    · have hlt := UInt16.le_of_lt (UInt16.not_le.1 hle)
      refine ⟨hstart, List.forall_mem_cons.2 ⟨UInt16.le_trans hlt hstart, hrest⟩, ?_⟩
      exact hattained.imp_right fun ⟨b, hb, heq⟩ => ⟨b, List.mem_cons_of_mem e hb, heq⟩

/-- **No glyph is in a class above the largest.** -/
theorem classOf_le_maxClass (d : ClassDef) (g : GlyphId) : d.classOf g ≤ d.maxClass := by
  by_cases h : d.classOf g = 0
  · rw [h]
    exact UInt16.zero_le
  · exact (foldl_max_spec d.entries 0).2.1 _ (mem_entries_of_classOf_ne_zero h)

theorem maxClass_eq_zero_or (d : ClassDef) :
    d.maxClass = 0 ∨ ∃ g, (g, d.maxClass) ∈ d.entries := by
  obtain hzero | ⟨⟨g, cls⟩, hmem, hcls⟩ := (foldl_max_spec d.entries 0).2.2
  · exact .inl hzero
  · obtain rfl : cls = d.maxClass := hcls
    exact .inr ⟨g, hmem⟩

end ClassDef

end Shaping
