import Shaping.Lookup.Substitution
import Shaping.Proofs.Acceptance
import Shaping.Proofs.Ordered
import Shaping.Rule.Expansion

/-! What coverage tables answer. The entries of a coverage ascend in index and in glyph, and halving
finds the entry of a glyph; so a payload that lists one item for each index is a table of the
covered glyphs. Main statements: `Coverage.mem_entries_iff`, `Coverage.mem_zip_iff`.
-/

namespace Shaping

variable {g : GlyphId} {i : Nat}

/-! ### Entries of a stretch of glyphs -/

lemma toNat_ofNat_word (h : i < 65536) : (UInt16.ofNat i).toNat = i := UInt16.toNat_ofNat_of_lt h

lemma exists_ofNat_iff {low high : GlyphId} {k : Nat} :
    (k < high.toNat + 1 - low.toNat ∧ UInt16.ofNat (low.toNat + k) = g) ↔
      low ≤ g ∧ g ≤ high ∧ k = g.toNat - low.toNat := by
  have hhigh := high.toNat_lt
  rw [UInt16.le_iff_toNat_le, UInt16.le_iff_toNat_le]
  constructor
  · rintro ⟨hk, rfl⟩
    rw [toNat_ofNat_word (by omega)]
    omega
  · rintro ⟨hlow, hhigh, rfl⟩
    refine ⟨by omega, UInt16.toNat_inj.1 ?_⟩
    rw [toNat_ofNat_word (by omega)]
    omega

namespace CoverageRange

variable {r : CoverageRange}

theorem mem_entries_iff : (i, g) ∈ r.entries ↔
    r.min ≤ g ∧ g ≤ r.max ∧ i = r.firstIndex.toNat + (g.toNat - r.min.toNat) := by
  rw [entries, List.mem_map]
  constructor
  · rintro ⟨k, hk, heq⟩
    obtain ⟨rfl, hg⟩ := Prod.mk.inj heq
    obtain ⟨hmin, hmax, rfl⟩ := exists_ofNat_iff.1 ⟨List.mem_range.1 hk, hg⟩
    exact ⟨hmin, hmax, rfl⟩
  · rintro ⟨hmin, hmax, rfl⟩
    obtain ⟨hk, hg⟩ := exists_ofNat_iff.2 ⟨hmin, hmax, rfl⟩
    exact ⟨_, List.mem_range.2 hk, Prod.ext rfl hg⟩

lemma map_entries (r : CoverageRange) :
    r.entries.map (fun e => (e.1, e.2.toNat)) = r.expansion := by
  rw [entries, expansion, List.map_map]
  refine List.map_congr_left fun k hk => Prod.ext rfl (toNat_ofNat_word ?_)
  have hmax := r.max.toNat_lt
  rw [List.mem_range, glyphCount] at hk
  omega

end CoverageRange

namespace Coverage

variable {c : Coverage}

/-! ### Entries -/

theorem map_entries (c : Coverage) :
    c.entries.map (fun e => (e.1, e.2.toNat)) = c.format.expansion := by
  obtain ⟨format, valid⟩ := c
  cases format with
  | list glyphs => rw [entries, List.map_map]; rfl
  | ranges rs =>
    rw [entries, List.map_flatMap]
    exact List.flatMap_congr fun r _ => r.map_entries

theorem pairwise_expansion (c : Coverage) :
    c.format.expansion.Pairwise fun a b => a.1 < b.1 ∧ a.2 < b.2 := by
  obtain ⟨format, valid⟩ := c
  cases format with
  | list glyphs =>
    have hglyphs := CoverageFormat.fault?_list_eq_none_iff.1 valid
    refine List.pairwise_map.2 (List.pairwise_iff_getElem.2 fun i j hi hj hij => ?_)
    simp only [List.getElem_zipIdx, Nat.zero_add]
    exact ⟨hij, UInt16.lt_iff_toNat_lt.1 (List.pairwise_iff_getElem.1 hglyphs i j _ _ hij)⟩
  | ranges rs => exact (CoverageFormat.fault?_ranges_eq_none_iff_expansion.1 valid).2.1

/-- **The entries of a coverage ascend**, in index and in glyph. -/
theorem pairwise_entries (c : Coverage) : c.entries.Pairwise fun a b => a.1 < b.1 ∧ a.2 < b.2 := by
  have hpairs := c.pairwise_expansion
  rw [← c.map_entries, List.pairwise_map] at hpairs
  exact hpairs.imp fun h => ⟨h.1, UInt16.lt_iff_toNat_lt.2 h.2⟩

lemma mem_entries_list_iff {glyphs : Array GlyphId}
    (valid : CoverageFormat.fault? (.list glyphs) = none) :
    (i, g) ∈ entries ⟨.list glyphs, valid⟩ ↔ index? ⟨.list glyphs, valid⟩ g = some i := by
  have hglyphs := CoverageFormat.fault?_list_eq_none_iff.1 valid
  have hpoint : glyphs[Sorted.partitionPoint (· < g) glyphs]? = glyphs.toList.find? (g ≤ ·) :=
    Sorted.getElem?_partitionPoint (by simpa using hglyphs) g
  have hentry : (i, g) ∈ entries ⟨.list glyphs, valid⟩ ↔ glyphs[i]? = some g := by
    simp only [entries, List.mem_map, Prod.exists, Prod.mk.injEq, List.mem_zipIdx_iff_getElem?,
      Array.getElem?_toList]
    constructor
    · rintro ⟨_, _, h, rfl, rfl⟩
      exact h
    · exact fun h => ⟨g, i, h, rfl, rfl⟩
  rw [hentry, index?]
  dsimp only
  constructor
  · intro hi
    have hfind : glyphs.toList.find? (g ≤ ·) = some g := by
      refine find?_eq_some_of_pairwise hglyphs ?_ (by simp) fun b _ hb => by simpa using hb
      exact List.mem_of_getElem? (by simpa using hi)
    rw [hfind] at hpoint
    rw [if_pos hpoint]
    -- a glyph stands at one place only
    obtain ⟨hlt, -⟩ := Array.getElem?_eq_some_iff.1 hi
    have hnodup : glyphs.toList.Nodup := hglyphs.imp fun {a b} hab => UInt16.ne_of_lt hab
    have heq : i = Sorted.partitionPoint (· < g) glyphs :=
      (List.getElem?_inj (by simpa using hlt) hnodup).1 (by simp [hi, hpoint])
    rw [← heq]
  · intro h
    split_ifs at h with hat
    rwa [← Option.some.inj h]

lemma mem_entries_ranges_iff {rs : Array CoverageRange}
    (valid : CoverageFormat.fault? (.ranges rs) = none) :
    (i, g) ∈ entries ⟨.ranges rs, valid⟩ ↔ index? ⟨.ranges rs, valid⟩ g = some i := by
  obtain ⟨hmins, hpairs⟩ := CoverageFormat.fault?_ranges_eq_none_iff.1 valid
  have hsorted : (rs.toList.map (·.max)).Pairwise (· < ·) := by
    refine List.pairwise_map.2 (hpairs.imp_of_mem fun {r s} _ hs hrs => ?_)
    exact UInt16.lt_of_lt_of_le hrs.glyphs (hmins s hs).1
  have hpoint := Sorted.getElem?_partitionPoint hsorted g
  simp only [entries, List.mem_flatMap, CoverageRange.mem_entries_iff, index?, hpoint]
  constructor
  · rintro ⟨r, hr, hmin, hmax, rfl⟩
    have hfind : rs.toList.find? (g ≤ ·.max) = some r := by
      refine find?_eq_some_of_pairwise hpairs hr (by simpa using hmax) fun s _ hs => ?_
      simpa using UInt16.lt_of_lt_of_le hs.glyphs hmin
    simp only [hfind, if_pos hmin]
  · intro h
    cases hfind : rs.toList.find? (g ≤ ·.max) with
    | none => simp [hfind] at h
    | some r =>
      rw [hfind] at h
      dsimp only at h
      split_ifs at h with hmin
      exact ⟨r, List.mem_of_find?_eq_some hfind, hmin, by simpa using List.find?_some hfind,
        (Option.some.inj h).symm⟩

/-- **The index of a glyph** is that of its entry. -/
theorem mem_entries_iff : (i, g) ∈ c.entries ↔ c.index? g = some i := by
  obtain ⟨format, valid⟩ := c
  cases format with
  | list glyphs => exact mem_entries_list_iff valid
  | ranges rs => exact mem_entries_ranges_iff valid

theorem mem_glyphs_iff : g ∈ c.glyphs ↔ c.contains g := by
  rw [contains, Option.isSome_iff_exists, glyphs, List.mem_map]
  constructor
  · rintro ⟨⟨i, g⟩, hmem, rfl⟩
    exact ⟨i, mem_entries_iff.1 hmem⟩
  · rintro ⟨i, hi⟩
    exact ⟨(i, g), mem_entries_iff.2 hi, rfl⟩

lemma length_entries (c : Coverage) : c.entries.length = c.glyphCount := by
  obtain ⟨format, valid⟩ := c
  cases format with
  | list glyphs => simp [entries, glyphCount]
  | ranges rs =>
    have hfold : ∀ (l : List CoverageRange) (n : Nat),
        n + (l.flatMap (·.entries)).length = l.foldl (fun n r => n + r.glyphCount) n := by
      intro l
      induction l with
      | nil => simp
      | cons r rest ih =>
        intro n
        rw [List.foldl_cons, ← ih, List.flatMap_cons, List.length_append, ← Nat.add_assoc]
        simp [CoverageRange.entries]
    simpa [entries, glyphCount] using hfold rs.toList 0

lemma isEmpty_iff : c.isEmpty ↔ c.entries = [] := by
  rw [isEmpty, beq_iff_eq, ← length_entries, List.length_eq_zero_iff]

lemma contains_eq_false_of_isEmpty (h : c.isEmpty) (g : GlyphId) : c.contains g = false := by
  rw [← Bool.not_eq_true, ← mem_glyphs_iff, glyphs, isEmpty_iff.1 h]
  exact List.not_mem_nil

theorem index?_lt_indexBound (h : c.index? g = some i) : i < c.indexBound := by
  have hmem := mem_entries_iff.2 h
  obtain ⟨format, valid⟩ := c
  cases format with
  | list glyphs =>
    obtain ⟨⟨g', j⟩, hzip, heq⟩ := List.mem_map.1 hmem
    obtain ⟨rfl, -⟩ := Prod.mk.inj heq
    obtain ⟨hj, -⟩ := List.getElem?_eq_some_iff.1 (List.mem_zipIdx_iff_getElem?.1 hzip)
    simpa [indexBound] using hj
  | ranges rs =>
    obtain ⟨r, hr, hentry⟩ := List.mem_flatMap.1 hmem
    obtain ⟨-, hpairs⟩ := CoverageFormat.fault?_ranges_eq_none_iff.1 valid
    obtain ⟨hmin, hmax, rfl⟩ := CoverageRange.mem_entries_iff.1 hentry
    rw [UInt16.le_iff_toNat_le] at hmin hmax
    have hend : r.firstIndex.toNat + (g.toNat - r.min.toNat) < r.indexEnd := by
      rw [CoverageRange.indexEnd, CoverageRange.glyphCount]
      omega
    rw [indexBound]
    dsimp only
    rw [← Array.getLast?_toList]
    -- the ranges ascend in indices, so the last one ends last
    cases hsplit : rs.toList using List.reverseRecOn with
    | nil =>
      rw [hsplit] at hr
      exact absurd hr List.not_mem_nil
    | append_singleton front last =>
      rw [hsplit] at hr hpairs
      rw [List.getLast?_concat, Option.map_some, Option.getD_some]
      obtain hr | hr := List.mem_append.1 hr
      · have hle := ((List.pairwise_append.1 hpairs).2.2 r hr last (by simp)).indices
        rw [CoverageRange.indexEnd] at hend hle ⊢
        omega
      · rw [← List.mem_singleton.1 hr]
        exact hend

/-- **A coverage has no more indices than a word has values**, so none of them is cut off. -/
theorem indexBound_le (c : Coverage) : c.indexBound ≤ 65536 := by
  obtain ⟨format, valid⟩ := c
  cases format with
  | list glyphs => exact length_le_of_pairwise (CoverageFormat.fault?_list_eq_none_iff.1 valid)
  | ranges rs =>
    obtain ⟨hranges, -⟩ := CoverageFormat.fault?_ranges_eq_none_iff.1 valid
    show (rs.back?.map (·.indexEnd)).getD 0 ≤ 65536
    cases hback : rs.back? with
    | none => exact Nat.zero_le _
    | some r => exact (hranges r (Array.mem_toList_iff.2 (Array.mem_of_back? hback))).2

theorem indexBound_eq_zero_or (c : Coverage) :
    c.indexBound = 0 ∨ ∃ g i, c.index? g = some i ∧ c.indexBound = i + 1 := by
  simp only [← mem_entries_iff]
  obtain ⟨format, valid⟩ := c
  cases format with
  | list glyphs =>
    refine glyphs.size.eq_zero_or_pos.imp_right fun hpos => ?_
    refine ⟨glyphs[glyphs.size - 1], glyphs.size - 1, List.mem_map.2 ⟨(_, _), ?_, rfl⟩, ?_⟩
    · exact List.mem_zipIdx_iff_getElem?.2 (by simp)
    · exact (Nat.sub_add_cancel hpos).symm
  | ranges rs =>
    obtain ⟨hranges, -⟩ := CoverageFormat.fault?_ranges_eq_none_iff.1 valid
    cases hback : rs.back? with
    | none => exact .inl (by rw [indexBound]; simp only [hback, Option.map_none, Option.getD_none])
    | some r =>
      have hr := Array.mem_toList_iff.2 (Array.mem_of_back? hback)
      have hmin := (hranges r hr).1
      have hentry := CoverageRange.mem_entries_iff.2 ⟨hmin, UInt16.le_refl r.max, rfl⟩
      refine .inr ⟨r.max, _, List.mem_flatMap.2 ⟨r, hr, hentry⟩, ?_⟩
      rw [UInt16.le_iff_toNat_le] at hmin
      rw [indexBound]
      simp only [hback, Option.map_some, Option.getD_some, CoverageRange.indexEnd,
        CoverageRange.glyphCount]
      omega

/-- The coverage of one glyph. -/
def ofGlyph (g : GlyphId) : Coverage := ⟨.list #[g], rfl⟩

/-! ### Payloads -/

section Payloads

variable {β : Type} {payload : Array β} {b : β}

/-- **The covered glyphs with their entries** are those that have an entry. -/
theorem mem_zip_iff : (g, b) ∈ c.zip payload ↔ c.entry? payload g = some b := by
  rw [zip, List.mem_filterMap, entry?, Option.bind_eq_some_iff]
  constructor
  · rintro ⟨⟨i, g'⟩, hmem, heq⟩
    obtain ⟨b', hb', heq⟩ := Option.map_eq_some_iff.1 heq
    obtain ⟨rfl, rfl⟩ := Prod.mk.inj heq
    exact ⟨i, mem_entries_iff.1 hmem, hb'⟩
  · rintro ⟨i, hi, hb⟩
    exact ⟨(i, g), mem_entries_iff.2 hi, Option.map_eq_some_iff.2 ⟨b, hb, rfl⟩⟩

theorem pairwise_zip (c : Coverage) (payload : Array β) :
    (c.zip payload).Pairwise fun a b => a.1 < b.1 := by
  refine c.pairwise_entries.filterMap _ fun a b hab x hx y hy => ?_
  obtain ⟨-, -, rfl⟩ := Option.map_eq_some_iff.1 hx
  obtain ⟨-, -, rfl⟩ := Option.map_eq_some_iff.1 hy
  exact hab.2

theorem findSome?_zip {γ : Type} {f : GlyphId × β → Option γ}
    (h : ∀ g' b, g' ≠ g → f (g', b) = none) :
    (c.zip payload).findSome? f = (c.entry? payload g).bind fun b => f (g, b) := by
  cases hentry : c.entry? payload g with
  | none =>
    refine List.findSome?_eq_none_iff.2 fun ⟨g', b⟩ hmem => h g' b ?_
    rintro rfl
    rw [mem_zip_iff.1 hmem] at hentry
    cases hentry
  | some b =>
    have hmem := mem_zip_iff.2 hentry
    have hpairs := c.pairwise_zip payload
    rw [Option.bind_some]
    generalize c.zip payload = l at hmem hpairs ⊢
    induction l with
    | nil => exact absurd hmem List.not_mem_nil
    | cons e rest ih =>
      obtain ⟨he, hrest⟩ := List.pairwise_cons.1 hpairs
      rw [List.findSome?_cons]
      obtain rfl | hmem := List.mem_cons.1 hmem
      · cases hf : f (g, b) with
        | some => rfl
        | none =>
          refine List.findSome?_eq_none_iff.2 fun ⟨g', b'⟩ hmem' => h g' b' ?_
          exact (UInt16.ne_of_lt (he _ hmem')).symm
      · rw [h e.1 e.2 (UInt16.ne_of_lt (he _ hmem)), ih hmem hrest]

theorem isSome_entry_eq (h : payload.size = c.indexBound) :
    (c.entry? payload g).isSome = c.contains g := by
  rw [contains, entry?]
  cases hi : c.index? g with
  | none => rfl
  | some i =>
    have hlt := index?_lt_indexBound hi
    rw [Option.bind_some, Array.getElem?_eq_getElem (by omega)]
    rfl

lemma size_eq_of_lengthFault? {kind : LookupKind} {n : Nat} (h : c.lengthFault? kind n = none) :
    n = c.indexBound := by
  rw [lengthFault?] at h
  split_ifs at h with hsize
  exact hsize

end Payloads

theorem find?_ofList_zip (c : Coverage) (payload : Array GlyphId) (g : GlyphId) :
    (GlyphMap.ofList (c.zip payload)).find? g = c.entry? payload g := by
  rw [GlyphMap.find?_ofList]
  cases hlast : ((c.zip payload).filter (·.1 = g)).getLast? with
  | some e =>
    obtain ⟨hmem, hkey⟩ := List.mem_filter.1 (List.mem_of_getLast? hlast)
    obtain rfl : e.1 = g := by simpa using hkey
    exact (mem_zip_iff.1 hmem).symm
  | none =>
    rw [List.getLast?_eq_none_iff, List.filter_eq_nil_iff] at hlast
    rw [Option.map_none, eq_comm, Option.eq_none_iff_forall_ne_some]
    intro b hb
    exact hlast (g, b) (mem_zip_iff.2 hb) (by simp)

end Coverage

/-! ### Set matchers -/

lemma Matcher.accepts_set_iff {l : List GlyphId} :
    (Matcher.set (GlyphSet.ofList l)).accepts g ↔ g ∈ l := GlyphSet.contains_ofList

lemma Coverage.accepts_matcher {c : Coverage} : c.matcher.accepts g = c.contains g := by
  rw [Bool.eq_iff_iff, ← mem_glyphs_iff]
  exact Matcher.accepts_set_iff

end Shaping
