import Shaping.Proofs.Classes
import Shaping.Rule.Expansion

/-!
The rules of pair positioning by class. The covered glyphs are grouped by class and each group has a
rule for each column, so of the rules that take a pair of glyphs there is one, and it carries the
records of the pair's cell. Columns are counted in 16-bit words: a matrix that is wider than such a
word loses the columns from the remainder on. Main statement:
`ClassPairPosition.filter_expand_takes`.
-/

namespace Shaping

/-- The rule consumes two glyphs to begin with, and its matchers accept these two. -/
def Rule.takes (a b : GlyphId) : Rule → Bool
  | ⟨.consume first _, _⟩ :: ⟨.consume second _, _⟩ :: _ => first.accepts a && second.accepts b
  | _ => false

@[simp] lemma Rule.takes_pair {a b : GlyphId} {first second : Matcher} {flags : LookupFlags}
    {action : Action} :
    (pair first second flags action).takes a b = (first.accepts a && second.accepts b) := rfl

theorem flatMap_eq_of_forall_ne {α β : Type} {f : α → List β} {l : List α} {a : α} (hl : l.Nodup)
    (ha : a ∈ l) (h : ∀ b ∈ l, b ≠ a → f b = []) : l.flatMap f = f a := by
  induction l with
  | nil => exact absurd ha List.not_mem_nil
  | cons b rest ih =>
    obtain ⟨hb, hrest⟩ := List.nodup_cons.1 hl
    have htail : ∀ c ∈ rest, c ≠ a → f c = [] := fun c hc => h c (List.mem_cons_of_mem b hc)
    rw [List.flatMap_cons]
    obtain rfl | ha := List.mem_cons.1 ha
    · have hnil : rest.flatMap f = [] := List.flatMap_eq_nil_iff.2 fun c hc =>
        htail c hc fun heq => hb (heq ▸ hc)
      rw [hnil, List.append_nil]
    · have hne : b ≠ a := fun heq => hb (heq ▸ ha)
      rw [h b List.mem_cons_self hne, ih hrest ha htail, List.nil_append]

namespace ClassPairPosition

variable {t : ClassPairPosition} {flags : LookupFlags} {a b : GlyphId}

/-! ### Cells -/

theorem exists_record? (hrows : 0 < t.rowCount) (a b : GlyphId) :
    (t.secondClasses.classOf b).toNat < t.columnCount ∧
      ∃ v, t.record? (t.firstClasses.classOf a) (t.secondClasses.classOf b) = some v := by
  have hvalid := t.valid
  rw [ClassMatrix.fault?] at hvalid
  split at hvalid
  · cases hvalid
  · rename_i hragged
    have hrows : t.records.size ≠ 0 := Nat.ne_of_gt hrows
    rw [if_neg hrows] at hvalid
    split_ifs at hvalid with hmissingRow hmissingColumn
    have hrow := UInt16.le_iff_toNat_le.1 (t.firstClasses.classOf_le_maxClass a)
    have hcolumn := UInt16.le_iff_toNat_le.1 (t.secondClasses.classOf_le_maxClass b)
    have hlt : (t.firstClasses.classOf a).toNat < t.records.size := by omega
    have hlt' : (t.secondClasses.classOf b).toNat < t.columnCount := by
      rw [columnCount]
      omega
    have hsize : t.records[(t.firstClasses.classOf a).toNat].size = t.columnCount := by
      simpa [columnCount] using Array.findIdx?_eq_none_iff.1 hragged _ (Array.getElem_mem hlt)
    have hcell : (t.secondClasses.classOf b).toNat <
        t.records[(t.firstClasses.classOf a).toNat].size := by rwa [hsize]
    have hrecord := Array.getElem?_eq_getElem hcell
    rw [← Option.bind_some (f := (·[(t.secondClasses.classOf b).toNat]?)),
      ← Array.getElem?_eq_getElem hlt, ← record?] at hrecord
    exact ⟨hlt', _, hrecord⟩

/-! ### Rules -/

/-- The rule of a group of first glyphs and a column. -/
def rule (t : ClassPairPosition) (flags : LookupFlags) (glyphs : List GlyphId) (column : UInt16)
    (v : ClassPairValue) : Rule :=
  .pair (.set (GlyphSet.ofList glyphs)) (.inClass t.secondClasses column) flags
    (.adjustPair v.firstRecord v.secondRecord)

lemma takes_rule {glyphs : List GlyphId} {column : UInt16} {v : ClassPairValue} :
    (t.rule flags glyphs column v).takes a b ↔ a ∈ glyphs ∧ t.secondClasses.classOf b = column := by
  simp [rule, Matcher.accepts]

/-- The covered glyphs of a class. -/
def glyphsOf (t : ClassPairPosition) (cls : UInt16) : List GlyphId :=
  t.coverage.glyphs.filter (t.firstClasses.classOf · = cls)

lemma mem_group_glyphs_iff {cls : UInt16} {glyphs : List GlyphId} :
    (cls, glyphs) ∈ Sorted.group (t.coverage.glyphs.map fun g => (t.firstClasses.classOf g, g)) ↔
      glyphs ≠ [] ∧ glyphs = t.glyphsOf cls := by
  rw [Sorted.mem_group_iff, glyphsOf, List.filter_map, List.map_map]
  simp [Function.comp_def]

lemma toNat_ofNat_columnCount : (UInt16.ofNat t.columnCount).toNat = t.columnCount % 65536 :=
  UInt16.toNat_ofNat'

theorem filter_columns_takes (flags : LookupFlags) (b : GlyphId) (hrows : 0 < t.rowCount)
    (ha : a ∈ t.glyphsOf (t.firstClasses.classOf a)) :
    ∃ v, t.record? (t.firstClasses.classOf a) (t.secondClasses.classOf b) = some v ∧
      ((List.range (UInt16.ofNat t.columnCount).toNat).filterMap fun column =>
        (t.record? (t.firstClasses.classOf a) (UInt16.ofNat column)).map
          (t.rule flags (t.glyphsOf (t.firstClasses.classOf a)) (UInt16.ofNat column))).filter
        (Rule.takes a b) =
      if (t.secondClasses.classOf b).toNat < t.columnCount % 65536 then
        [t.rule flags (t.glyphsOf (t.firstClasses.classOf a)) (t.secondClasses.classOf b) v]
      else [] := by
  obtain ⟨-, v, hv⟩ := exists_record? hrows a b
  refine ⟨v, hv, ?_⟩
  rw [toNat_ofNat_columnCount, List.filter_filterMap, List.filterMap_eq_flatMap_toList]
  -- a rule of another column does not take the pair
  have hother : ∀ column < t.columnCount % 65536, column ≠ (t.secondClasses.classOf b).toNat →
      (((t.record? (t.firstClasses.classOf a) (UInt16.ofNat column)).map
        (t.rule flags (t.glyphsOf (t.firstClasses.classOf a)) (UInt16.ofNat column))).filter
          (Rule.takes a b)).toList = [] := by
    intro column hcolumn hne
    have hclass : t.secondClasses.classOf b ≠ UInt16.ofNat column := by
      intro heq
      refine hne ?_
      rw [heq, toNat_ofNat_word (by omega)]
    rw [Option.toList_eq_nil_iff, Option.filter_eq_none_iff]
    intro rule hrule
    obtain ⟨w, -, rfl⟩ := Option.map_eq_some_iff.1 hrule
    rw [takes_rule]
    exact fun h => hclass h.2
  split_ifs with hlt
  · rw [flatMap_eq_of_forall_ne List.nodup_range (List.mem_range.2 hlt)
      fun column hcolumn => hother column (List.mem_range.1 hcolumn)]
    have htakes : (t.rule flags (t.glyphsOf (t.firstClasses.classOf a))
        (t.secondClasses.classOf b) v).takes a b := takes_rule.2 ⟨ha, rfl⟩
    rw [UInt16.ofNat_toNat, hv, Option.map_some, Option.filter_some, if_pos htakes]
    rfl
  · refine List.flatMap_eq_nil_iff.2 fun column hcolumn => ?_
    have hcolumn := List.mem_range.1 hcolumn
    exact hother column hcolumn (by omega)

theorem filter_rules_takes (flags : LookupFlags) (b : GlyphId) (hrows : 0 < t.rowCount)
    (ha : t.coverage.contains a) :
    ∃ v, t.record? (t.firstClasses.classOf a) (t.secondClasses.classOf b) = some v ∧
      (t.rules flags).filter (Rule.takes a b) =
        if (t.secondClasses.classOf b).toNat < t.columnCount % 65536 then
          [t.rule flags (t.glyphsOf (t.firstClasses.classOf a)) (t.secondClasses.classOf b) v]
        else [] := by
  have hmem : a ∈ t.glyphsOf (t.firstClasses.classOf a) :=
    List.mem_filter.2 ⟨Coverage.mem_glyphs_iff.2 ha, by simp⟩
  have hgroup := mem_group_glyphs_iff.2 ⟨List.ne_nil_of_mem hmem, rfl⟩
  have hnodup : (Sorted.group (t.coverage.glyphs.map fun g =>
      (t.firstClasses.classOf g, g))).Nodup := by
    refine List.Pairwise.imp (fun hlt heq => ?_)
      (List.pairwise_map.1 (Sorted.pairwise_group (t.coverage.glyphs.map fun g =>
        (t.firstClasses.classOf g, g))))
    exact UInt16.ne_of_lt hlt (congrArg Prod.fst heq)
  obtain ⟨v, hv, hcolumns⟩ := filter_columns_takes flags b hrows hmem
  refine ⟨v, hv, ?_⟩
  rw [rules, List.filter_flatMap, flatMap_eq_of_forall_ne hnodup hgroup]
  · exact hcolumns
  · -- a group of another class does not contain the first glyph
    rintro ⟨cls, glyphs⟩ hother hne
    obtain ⟨-, rfl⟩ := mem_group_glyphs_iff.1 hother
    refine List.filter_eq_nil_iff.2 fun rule hrule htakes => ?_
    obtain ⟨column, -, hcell⟩ := List.mem_filterMap.1 hrule
    obtain ⟨w, -, rfl⟩ := Option.map_eq_some_iff.1 hcell
    have hmem' := (takes_rule.1 htakes).1
    obtain rfl : t.firstClasses.classOf a = cls := by simpa using (List.mem_filter.1 hmem').2
    exact hne rfl

/-- **A class matrix keeps every cell**, if its columns can be counted. Of the rules that a class
matrix with rows expands to, exactly one takes a pair of glyphs of which the first is covered, and
its action carries the two records of the pair's cell, as long as the class of the second glyph is
among the columns that are counted. These are all columns of a matrix of at most 65535 columns; of a
wider one only the remainder of their number by 65536 is counted, and the pairs of all other columns
are taken by no rule. -/
theorem filter_expand_takes (t : ClassPairPosition) (flags : LookupFlags) (hrows : 0 < t.rowCount)
    (a b : GlyphId) (ha : t.coverage.contains a) : ∃ rules first second v,
      Lookup.expand ⟨flags, .classPairPosition t⟩ .forward = .ok rules ∧
      t.record? (t.firstClasses.classOf a) (t.secondClasses.classOf b) = some v ∧
      first.accepts a ∧ second.accepts b ∧
      rules.filter (Rule.takes a b) =
        (if (t.secondClasses.classOf b).toNat < t.columnCount % 65536 then
          [.pair first second flags (.adjustPair v.firstRecord v.secondRecord)] else []) ∧
      (t.columnCount ≤ 65535 → rules.filter (Rule.takes a b) =
        [.pair first second flags (.adjustPair v.firstRecord v.secondRecord)]) := by
  obtain ⟨v, hv, hfilter⟩ := filter_rules_takes flags b hrows ha
  obtain ⟨hcolumn, -⟩ := exists_record? hrows a b
  have hmem : a ∈ t.glyphsOf (t.firstClasses.classOf a) :=
    List.mem_filter.2 ⟨Coverage.mem_glyphs_iff.2 ha, by simp⟩
  refine ⟨t.rules flags, .set (GlyphSet.ofList (t.glyphsOf (t.firstClasses.classOf a))),
    .inClass t.secondClasses (t.secondClasses.classOf b), v, if_pos rfl, hv, ?_, ?_, hfilter, ?_⟩
  · exact GlyphSet.contains_ofList.2 hmem
  · exact decide_eq_true rfl
  · intro hwidth
    rw [hfilter, if_pos (by rwa [Nat.mod_eq_of_lt (by omega)])]
    rfl

lemma fault?_square : ClassMatrix.fault? ⟨.list 2 #[1], rfl⟩ ⟨.list 3 #[1], rfl⟩
    #[#[{}, {}], #[{}, { firstRecord := .advance (-30) }]] = none := by
  decide +kernel

/-- A matrix of two by two cells, of which one moves the first glyph. -/
def square : ClassPairPosition where
  coverage := ⟨.list #[1, 2], rfl⟩
  firstClasses := ⟨.list 2 #[1], rfl⟩
  secondClasses := ⟨.list 3 #[1], rfl⟩
  records := #[#[{}, {}], #[{}, { firstRecord := .advance (-30) }]]
  valid := fault?_square

theorem filter_expand_takes_square : 0 < square.rowCount ∧ square.coverage.contains 2 ∧
    square.columnCount ≤ 65535 ∧
    ∃ rules first second, Lookup.expand ⟨.none, .classPairPosition square⟩ .forward = .ok rules ∧
      rules.filter (Rule.takes 2 3) =
        [.pair first second .none (.adjustPair (.advance (-30)) {})] := by
  have hrows : 0 < square.rowCount := by decide
  have hcovered : square.coverage.contains 2 := by decide
  have hwidth : square.columnCount ≤ 65535 := by decide
  obtain ⟨rules, first, second, v, hrules, hv, -, -, -, hfilter⟩ :=
    filter_expand_takes square .none hrows 2 3 hcovered
  have hcell : square.record? (square.firstClasses.classOf 2) (square.secondClasses.classOf 3) =
      some { firstRecord := .advance (-30) } := by
    decide
  obtain rfl := Option.some.inj (hcell.symm.trans hv)
  exact ⟨hrows, hcovered, hwidth, rules, first, second, hrules, hfilter hwidth⟩

lemma columns_replicate (v : ClassPairValue) :
    ClassMatrix.columns #[Array.replicate 65536 v] = 65536 := by
  simp [ClassMatrix.columns]

lemma fault?_replicate (v : ClassPairValue) :
    ClassMatrix.fault? .empty .empty #[Array.replicate 65536 v] = none := by
  have hcolumns := columns_replicate v
  have hragged : (#[Array.replicate 65536 v].findIdx? (·.size ≠ 65536)) = none := by
    simp
  have hrows : #[Array.replicate 65536 v].size = 1 := rfl
  have hclass : ClassDef.empty.maxClass.toNat = 0 := rfl
  rw [ClassMatrix.fault?, hcolumns, hragged, hrows, hclass]
  simp

/-- A matrix of one row whose columns are one more than a 16-bit word counts. -/
def wide : ClassPairPosition where
  coverage := .ofGlyph 1
  firstClasses := .empty
  secondClasses := .empty
  records := #[Array.replicate 65536 { firstRecord := .advance (-50) }]
  valid := fault?_replicate _

/-- A matrix that is too wide loses its cells: the pair of glyphs 1 and 2 has a cell, and there is
no rule for it. -/
theorem expand_wide : 0 < wide.rowCount ∧ wide.coverage.contains 1 ∧
    wide.record? (wide.firstClasses.classOf 1) (wide.secondClasses.classOf 2) =
      some { firstRecord := .advance (-50) } ∧
    Lookup.expand ⟨.none, .classPairPosition wide⟩ .forward = .ok [] := by
  have hcolumns : wide.columnCount = 65536 := columns_replicate _
  have hfirst : wide.firstClasses.classOf 1 = 0 := rfl
  have hsecond : wide.secondClasses.classOf 2 = 0 := rfl
  have hcell : wide.record? 0 0 = some { firstRecord := .advance (-50) } := by
    have hrow : wide.records[(0 : UInt16).toNat]? =
        some (Array.replicate 65536 { firstRecord := .advance (-50) }) := rfl
    rw [record?, hrow, Option.bind_some, Array.getElem?_replicate, if_pos (by decide)]
  refine ⟨by decide, by decide, by rw [hfirst, hsecond, hcell], ?_⟩
  have hrules : wide.rules .none = [] := by
    rw [rules]
    refine List.flatMap_eq_nil_iff.2 fun group _ => ?_
    rw [toNat_ofNat_columnCount, hcolumns]
    rfl
  exact congrArg Except.ok hrules

end ClassPairPosition

end Shaping
