import Shaping.Proofs.ClassPairs

/-! The payloads of lookups fit their coverages. What reads a payload does so without a check: it
trusts that the coverage index of a covered glyph is that of an item, that two glyphs have a cell in
a class matrix, and that a base has a place for the class of a mark. All of this is settled when a
payload is made, whether by a constructor or from a file. Main statement: `Payload.adequate`.
-/

namespace Shaping

variable {g : GlyphId}

namespace Coverage

/-! ### Payloads by coverage index -/

section Payloads

variable {β : Type} {c : Coverage} {payload : Array β}

/-- The coverage can index the payload without a check: each index is a word and that of an item,
and the listing of the covered glyphs with their items has, for each entry of the coverage and in
order, the glyph of the entry and the item at its index. -/
structure Indexes (c : Coverage) (payload : Array β) (listed : List (GlyphId × β)) : Prop where
  inRange : ∀ g i, c.index? g = some i → i < payload.size ∧ i < 65536
  listed : List.Forall₂ (fun e x => e.2 = x.1 ∧ payload[e.1]? = some x.2) c.entries listed

lemma forall₂_filterMap {α γ : Type} {f : α → Option γ} {R : α → γ → Prop} {l : List α}
    (h : ∀ a ∈ l, ∃ b, f a = some b ∧ R a b) : List.Forall₂ R l (l.filterMap f) := by
  induction l with
  | nil => exact .nil
  | cons a l ih =>
    obtain ⟨⟨b, hb, hab⟩, hl⟩ := List.forall_mem_cons.1 h
    rw [List.filterMap_cons_some hb]
    exact .cons hab (ih hl)

theorem indexes_zip (h : payload.size = c.indexBound) : c.Indexes payload (c.zip payload) := by
  have hrange : ∀ g i, c.index? g = some i → i < payload.size := by
    intro g i hi
    rw [h]
    exact index?_lt_indexBound hi
  refine ⟨fun g i hi => ⟨hrange g i hi, ?_⟩, forall₂_filterMap fun e he => ?_⟩
  · exact (index?_lt_indexBound hi).trans_le c.indexBound_le
  · have hitem := Array.getElem?_eq_getElem (hrange e.2 e.1 (mem_entries_iff.1 he))
    exact ⟨(e.2, _), congrArg (Option.map (e.2, ·)) hitem, rfl, hitem⟩

/-- A payload whose length passes the check is one that its coverage indexes. -/
lemma indexes_of_lengthFault? {kind : LookupKind}
    (h : c.lengthFault? kind payload.size = none) : c.Indexes payload (c.zip payload) :=
  indexes_zip (size_eq_of_lengthFault? h)

lemma Indexes.map_fst {listed : List (GlyphId × β)} (h : c.Indexes payload listed) :
    listed.map Prod.fst = c.glyphs := by
  obtain ⟨-, hlisted⟩ := h
  rw [glyphs]
  generalize c.entries = entries at hlisted
  induction hlisted with
  | nil => rfl
  | cons hex _ ih => rw [List.map_cons, List.map_cons, ih, hex.1]

lemma map_fst_filter_listed {entries : List (Nat × GlyphId)} {listed : List (GlyphId × β)}
    (h : List.Forall₂ (fun e x => e.2 = x.1 ∧ payload[e.1]? = some x.2) entries listed)
    (hindex : ∀ e ∈ entries, c.index? e.2 = some e.1) (p : β → Bool) :
    (listed.filter (p ·.2)).map Prod.fst =
      (entries.map Prod.snd).filter fun g => (c.entry? payload g).any p := by
  induction h with
  | nil => rfl
  | @cons e x _ _ hex _ ih =>
    obtain ⟨he, hindex⟩ := List.forall_mem_cons.1 hindex
    have hentry : c.entry? payload x.1 = some x.2 := by
      rw [← hex.1, entry?, he, Option.bind_some, hex.2]
    rw [List.map_cons, List.filter_cons, List.filter_cons, hex.1, hentry, Option.any_some]
    split_ifs
    · rw [List.map_cons, ih hindex]
    · exact ih hindex

theorem map_fst_filter_zip (h : payload.size = c.indexBound) (p : β → Bool) :
    ((c.zip payload).filter (p ·.2)).map Prod.fst =
      c.glyphs.filter fun g => (c.entry? payload g).any p :=
  map_fst_filter_listed (indexes_zip h).listed (fun _ he => mem_entries_iff.1 he) p

lemma exists_entry (h : payload.size = c.indexBound) (hg : c.contains g) :
    ∃ b ∈ payload, c.entry? payload g = some b := by
  obtain ⟨b, hb⟩ := Option.isSome_iff_exists.1 ((isSome_entry_eq h).trans hg)
  obtain ⟨i, -, hi⟩ := Option.bind_eq_some_iff.1 hb
  exact ⟨b, Array.mem_of_getElem? hi, hb⟩

end Payloads

end Coverage

/-! ### Tables whose accessors do more than list their items -/

/-- The pairs of a single substitution say the same as its accessor, and cover the same glyphs. -/
structure SingleReplace.Adequate (t : SingleReplace) : Prop where
  indexes : t.coverage.Indexes t.substitutes t.pairs
  mem_pairs_iff : ∀ g s, (g, s) ∈ t.pairs ↔ t.substitute? g = some s
  isSome_substitute? : ∀ g, (t.substitute? g).isSome = t.coverage.contains g

theorem SingleReplace.isAdequate (t : SingleReplace) : t.Adequate where
  indexes := Coverage.indexes_of_lengthFault? t.valid
  mem_pairs_iff _ _ := Coverage.mem_zip_iff
  isSome_substitute? _ := Coverage.isSome_entry_eq (Coverage.size_eq_of_lengthFault? t.valid)

/-- Records for each glyph are indexed by the coverage, and there is a record for each covered
glyph, also where all share one. -/
structure SinglePosition.Adequate (t : SinglePosition) : Prop where
  indexes : ∀ records, t.values = .perGlyph records → t.coverage.Indexes records t.pairs
  map_fst_pairs : t.pairs.map Prod.fst = t.coverage.glyphs

theorem SinglePosition.isAdequate (t : SinglePosition) : t.Adequate := by
  obtain ⟨coverage, values, valid⟩ := t
  cases values with
  | shared record =>
    refine ⟨fun records h => (by cases h), ?_⟩
    rw [pairs, List.map_map]
    exact List.map_id _
  | perGlyph records =>
    have hindexes : coverage.Indexes records (coverage.zip records) :=
      Coverage.indexes_of_lengthFault? valid
    refine ⟨fun records' h => ?_, hindexes.map_fst⟩
    cases h
    exact hindexes

/-- A matrix with rows has a cell for the classes of any two glyphs, listed or not. -/
def ClassPairPosition.Adequate (t : ClassPairPosition) : Prop :=
  0 < t.rowCount → ∀ a b,
    (t.record? (t.firstClasses.classOf a) (t.secondClasses.classOf b)).isSome

theorem ClassPairPosition.isAdequate (t : ClassPairPosition) : t.Adequate := by
  intro hrows a b
  obtain ⟨-, v, hv⟩ := exists_record? hrows a b
  rw [hv]
  rfl

/-- The filters on the anchors of a cursive attachment select the covered glyphs by what the
accessor answers. -/
structure CursiveAttachment.Adequate (t : CursiveAttachment) : Prop where
  indexes : t.coverage.Indexes t.entryExits (t.coverage.zip t.entryExits)
  glyphsWhere_eq : ∀ p, t.glyphsWhere p = t.coverage.glyphs.filter fun g => (t.entryExit? g).any p
  isSome_entryExit? : ∀ g, (t.entryExit? g).isSome = t.coverage.contains g

theorem CursiveAttachment.isAdequate (t : CursiveAttachment) : t.Adequate where
  indexes := Coverage.indexes_of_lengthFault? t.valid
  glyphsWhere_eq p := Coverage.map_fst_filter_zip (Coverage.size_eq_of_lengthFault? t.valid) p
  isSome_entryExit? _ := Coverage.isSome_entry_eq (Coverage.size_eq_of_lengthFault? t.valid)

/-- Both payloads are indexed by their coverages, and the row of a covered base has a place for the
class of each covered mark, which the accessor reads. -/
structure MarkToBase.Adequate (t : MarkToBase) : Prop where
  marks : t.markCoverage.Indexes t.marks (t.markCoverage.zip t.marks)
  bases : t.baseCoverage.Indexes t.bases (t.baseCoverage.zip t.bases)
  exists_anchor : ∀ m b, t.markCoverage.contains m → t.baseCoverage.contains b →
    ∃ mark row, t.mark? m = some mark ∧ t.baseCoverage.entry? t.bases b = some row ∧
      ∃ h : mark.cls.toNat < row.size, t.baseAnchor? b mark.cls = row[mark.cls.toNat]

lemma MarkToBase.of_valid (t : MarkToBase) :
    t.marks.size = t.markCoverage.indexBound ∧ t.bases.size = t.baseCoverage.indexBound ∧
      (∀ mark ∈ t.marks, mark.cls < t.classCount) ∧
        ∀ row ∈ t.bases, row.size = t.classCount.toNat := by
  have hvalid := t.valid
  simp only [MarkToBaseParts.fault?, Option.orElse_eq_orElse, Option.orElse_eq_or,
    Option.or_eq_none_iff, Option.map_eq_none_iff] at hvalid
  obtain ⟨hmarks, hbases, hclasses, hrows⟩ := hvalid
  refine ⟨Coverage.size_eq_of_lengthFault? hmarks, Coverage.size_eq_of_lengthFault? hbases,
    fun mark hmark => ?_, fun row hrow => ?_⟩
  · simpa using Array.find?_eq_none.1 hclasses mark hmark
  · simpa using Array.findIdx?_eq_none_iff.1 hrows row hrow

theorem MarkToBase.isAdequate (t : MarkToBase) : t.Adequate := by
  obtain ⟨hmarks, hbases, hclasses, hrows⟩ := t.of_valid
  refine ⟨Coverage.indexes_zip hmarks, Coverage.indexes_zip hbases, fun m b hm hb => ?_⟩
  obtain ⟨mark, hmark, hmarkEntry⟩ := Coverage.exists_entry hmarks hm
  obtain ⟨row, hrow, hrowEntry⟩ := Coverage.exists_entry hbases hb
  have hlt : mark.cls.toNat < row.size := by
    rw [hrows row hrow]
    exact UInt16.lt_iff_toNat_lt.1 (hclasses mark hmark)
  refine ⟨mark, row, hmarkEntry, hrowEntry, hlt, ?_⟩
  rw [baseAnchor?, hrowEntry, Option.bind_some, Array.getElem?_eq_getElem hlt, Option.join_some]

/-! ### All kinds -/

/-- What reads a payload finds what it looks for. -/
def Payload.Adequate : Payload → Prop
  | .singleDelta _ => True
  | .singleReplace t => t.Adequate
  | .multiple t => t.coverage.Indexes t.sequences t.pairs
  | .ligature t => t.coverage.Indexes t.sets t.pairs
  | .reverseChain t => t.coverage.Indexes t.substitutes t.pairs
  | .singlePosition t => t.Adequate
  | .pairPosition t => t.coverage.Indexes t.sets t.pairs
  | .classPairPosition t => t.Adequate
  | .cursive t => t.Adequate
  | .markToBase t => t.Adequate

/-- **Every payload is adequate.** A payload exists only if the check of its kind accepted its
parts, in a constructor or in a reader. So what it has for its covered glyphs is read without
leaving it: every coverage index of a covered glyph is that of an item, and each listing goes
through all entries of the coverage. The pairs of a single substitution agree with its accessor on
every glyph, a class matrix with rows has a cell for every two glyphs, and a covered base has a
place for the class of every covered mark. -/
theorem Payload.adequate (p : Payload) : p.Adequate := by
  cases p with
  | singleDelta t => trivial
  | singleReplace t => exact t.isAdequate
  | multiple t => exact Coverage.indexes_of_lengthFault? t.valid
  | ligature t =>
    have hvalid := t.valid
    simp only [Option.orElse_eq_orElse, Option.orElse_eq_or, Option.or_eq_none_iff] at hvalid
    exact Coverage.indexes_of_lengthFault? hvalid.1
  | reverseChain t =>
    have hvalid := t.valid
    simp only [Option.orElse_eq_orElse, Option.orElse_eq_or, Option.or_eq_none_iff] at hvalid
    exact Coverage.indexes_of_lengthFault? hvalid.1
  | singlePosition t => exact t.isAdequate
  | pairPosition t => exact Coverage.indexes_of_lengthFault? t.valid
  | classPairPosition t => exact t.isAdequate
  | cursive t => exact t.isAdequate
  | markToBase t => exact t.isAdequate

end Shaping
