import Mathlib
import Shaping.Proofs.Numbering
import Shaping.Proofs.Reading
import Shaping.Text.Run

/-! Lines of text tell runs apart. The words of a line are the texts of the glyphs, since none of
these is empty or has a blank in it, and the text of a glyph is cut at its separators into the
numbers that it was put together from. So two runs with the same line look the same, and a run whose
glyphs are all at their natural positions is read back from its line. Main statement:
`GlyphRun.unambiguous_format`.
-/

namespace Shaping

/-! ### Numbers -/

namespace Text

variable {c : Char}

lemma isBlank_of_isDigit (h : c.isDigit) : isBlank c = false := by
  simp only [Char.isDigit, Bool.and_eq_true, decide_eq_true_eq, ge_iff_le,
    UInt32.le_iff_toNat_le] at h
  have hrange : 48 ≤ c.toNat ∧ c.toNat ≤ 57 := h
  simp only [isBlank, Bool.or_eq_false_iff, Bool.and_eq_false_iff, decide_eq_false_iff_not]
  omega

lemma isDigit_of_mem_repr {n : Nat} (h : c ∈ n.repr.toList) : c.isDigit := by
  rw [Nat.toList_repr] at h
  exact Nat.isDigit_of_mem_toDigits (by omega) (by omega) h

lemma isDigit_or_of_mem_repr {n : Int} (h : c ∈ n.repr.toList) : c.isDigit ∨ c = '-' := by
  cases n with
  | ofNat n => exact .inl (isDigit_of_mem_repr h)
  | negSucc n =>
    rw [Int.repr, String.toList_append] at h
    obtain h | h := List.mem_append.1 h
    · exact .inr (List.mem_singleton.1 h)
    · exact .inl (isDigit_of_mem_repr h)

/-! ### Words -/

/-- **The words of a line are those that it was joined from**, if none of them is empty or has a
blank in it. -/
theorem words_intercalate {ws : List (List Char)}
    (h : ∀ w ∈ ws, w ≠ [] ∧ ∀ c ∈ w, isBlank c = false) : words ([' '].intercalate ws) = ws := by
  induction ws with
  | nil => rfl
  | cons w ws ih =>
    obtain ⟨⟨hne, hblank⟩, hrest⟩ := List.forall_mem_cons.1 h
    have hkeep : ∀ rest, (w :: rest).filter (!·.isEmpty) = w :: rest.filter (!·.isEmpty) :=
      fun rest => List.filter_cons_of_pos (by simpa using hne)
    cases ws with
    | nil =>
      rw [List.intercalate_singleton, words, List.splitOnP_eq_singleton hblank, hkeep]
      rfl
    | cons w' ws =>
      rw [List.intercalate_cons_cons, List.append_assoc, List.singleton_append, words,
        List.splitOnP_append_cons_of_forall_mem hblank ' ' (by decide), hkeep]
      exact congrArg (w :: ·) (ih hrest)

end Text

/-! ### Glyphs -/

namespace ShapedGlyph

variable {g h : ShapedGlyph} {c : Char}

/-- The two glyphs look the same in a line: nothing but their vertical advances may differ, and that
only if both have been adjusted. -/
structure LooksLike (g h : ShapedGlyph) : Prop where
  id : g.id = h.id
  xOffset : g.position.xOffset = h.position.xOffset
  yOffset : g.position.yOffset = h.position.yOffset
  xAdvance : g.position.xAdvance = h.position.xAdvance
  adjusted : g.position.isZero = h.position.isZero

/-- The text of an adjustment, between its separators. -/
def adjustment (p : Position) : List Char :=
  '@' :: (p.xOffset.repr.toList ++ ',' :: (p.yOffset.repr.toList ++ '+' :: p.xAdvance.repr.toList))

lemma toList_format (g : ShapedGlyph) : g.format.toList =
    g.id.toNat.repr.toList ++ if g.position.isZero then [] else adjustment g.position := by
  rw [format]
  split_ifs
  · exact (List.append_nil _).symm
  · simp [adjustment]

lemma isDigit_or_of_mem_adjustment {p : Position} (hc : c ∈ adjustment p) :
    c.isDigit ∨ c ∈ ['@', ',', '+', '-'] := by
  have hnumber : ∀ n : Int, c ∈ n.repr.toList → c.isDigit ∨ c ∈ ['@', ',', '+', '-'] := by
    intro n hn
    exact (Text.isDigit_or_of_mem_repr hn).imp_right fun hminus => by simp [hminus]
  simp only [adjustment, List.mem_cons, List.mem_append] at hc
  rcases hc with rfl | hc | rfl | hc | rfl | hc
  · exact .inr (by simp)
  · exact hnumber _ hc
  · exact .inr (by simp)
  · exact hnumber _ hc
  · exact .inr (by simp)
  · exact hnumber _ hc

lemma isWord_format (g : ShapedGlyph) :
    g.format.toList ≠ [] ∧ ∀ c ∈ g.format.toList, Text.isBlank c = false := by
  constructor
  · obtain ⟨d, -, cs, hdigits, -⟩ := Json.exists_first_digit g.id.toNat
    rw [toList_format, Nat.toList_repr, hdigits]
    exact List.cons_ne_nil _ _
  · intro c hc
    rw [toList_format] at hc
    obtain hc | hc := List.mem_append.1 hc
    · exact Text.isBlank_of_isDigit (Text.isDigit_of_mem_repr hc)
    · obtain ⟨-, hc⟩ : g.position.isZero = false ∧ c ∈ adjustment g.position := by simpa using hc
      obtain hc | hc := isDigit_or_of_mem_adjustment hc
      · exact Text.isBlank_of_isDigit hc
      · fin_cases hc <;> rfl

lemma separator_notMem_repr (n : Int) (hc : c ∈ ['@', ',', '+']) : c ∉ n.repr.toList := by
  refine mt Text.isDigit_or_of_mem_repr ?_
  fin_cases hc <;> decide

theorem adjustment_eq_iff {p q : Position} : adjustment p = adjustment q ↔
    p.xOffset = q.xOffset ∧ p.yOffset = q.yOffset ∧ p.xAdvance = q.xAdvance := by
  have hcomma := fun n : Int => separator_notMem_repr n (c := ',') (by decide)
  have hplus := fun n : Int => separator_notMem_repr n (c := '+') (by decide)
  have hbehind : ',' ∉ p.yOffset.repr.toList ++ '+' :: p.xAdvance.repr.toList := by
    simp [hcomma]
  rw [adjustment, adjustment, List.cons_inj_right,
    List.append_cons_inj_of_notMem (hcomma _) hbehind,
    List.append_cons_inj_of_notMem (hplus _) (hplus _), String.toList_inj, String.toList_inj,
    String.toList_inj, Int.repr_inj, Int.repr_inj, Int.repr_inj]
  simp only [true_and]

/-- The text of a glyph that has been adjusted is not that of one that has not. -/
lemma repr_append_adjustment_ne (m n : Nat) (p : Position) :
    m.repr.toList ++ adjustment p ≠ n.repr.toList := by
  intro heq
  have hmem : '@' ∈ n.repr.toList := heq ▸ List.mem_append_right _ List.mem_cons_self
  exact absurd (Text.isDigit_of_mem_repr hmem) (by decide)

/-- The id of a glyph is cut from its adjustment. -/
lemma repr_append_adjustment_eq_iff {m n : Nat} {p q : Position} :
    m.repr.toList ++ adjustment p = n.repr.toList ++ adjustment q ↔
      m = n ∧ adjustment p = adjustment q := by
  have hid : '@' ∉ m.repr.toList := mt Text.isDigit_of_mem_repr (by decide)
  have hnumber := fun n : Int => separator_notMem_repr n (c := '@') (by decide)
  rw [adjustment, adjustment, List.append_cons_inj_of_notMem hid (by simp [hnumber]),
    String.toList_inj, Nat.repr_inj, List.cons_inj_right]
  simp only [true_and]

/-- **Glyphs have the same text if they look the same**, and only then. -/
theorem format_eq_iff : g.format = h.format ↔ g.LooksLike h := by
  constructor
  · intro heq
    rw [← String.toList_inj, toList_format, toList_format] at heq
    split_ifs at heq with hg hh hh
    · rw [List.append_nil, List.append_nil, String.toList_inj, Nat.repr_inj,
        UInt16.toNat_inj] at heq
      have hposition : g.position = h.position :=
        (of_decide_eq_true hg).trans (of_decide_eq_true hh).symm
      constructor <;> simp only [heq, hposition]
    · rw [List.append_nil] at heq
      exact absurd heq.symm (repr_append_adjustment_ne _ _ _)
    · rw [List.append_nil] at heq
      exact absurd heq (repr_append_adjustment_ne _ _ _)
    · obtain ⟨hid, hadjustment⟩ := repr_append_adjustment_eq_iff.1 heq
      obtain ⟨hx, hy, hadvance⟩ := adjustment_eq_iff.1 hadjustment
      exact ⟨UInt16.toNat_inj.1 hid, hx, hy, hadvance, by rw [Bool.eq_false_of_not_eq_true hg,
        Bool.eq_false_of_not_eq_true hh]⟩
  · rintro ⟨hid, hx, hy, hadvance, hadjusted⟩
    rw [← String.toList_inj, toList_format, toList_format, hid, hadjusted,
      adjustment_eq_iff.2 ⟨hx, hy, hadvance⟩]

end ShapedGlyph

/-! ### Runs -/

namespace GlyphRun

theorem words_format (run : GlyphRun) :
    Text.words run.format.toList = run.toList.map fun g => g.format.toList := by
  have hwords : ∀ w ∈ run.toList.map fun g => g.format.toList,
      w ≠ [] ∧ ∀ c ∈ w, Text.isBlank c = false := by
    intro w hw
    obtain ⟨g, -, rfl⟩ := List.mem_map.1 hw
    exact g.isWord_format
  rw [format, String.toList_intercalate, List.map_map]
  exact Text.words_intercalate hwords

end GlyphRun

/-! ### Reading -/

namespace GlyphId

lemma ofDigits_toDigits {n : Nat} (hn : n ≤ 65535) (rest : List Char) :
    ofDigits 0 (Nat.toDigits 10 n ++ rest) = ofDigits n rest := by
  induction n using Nat.strongRecOn generalizing rest with
  | ind n ih =>
    have hdigit : ∀ d < 10,
        (Nat.digitChar d).isDigit ∧ (Nat.digitChar d).toNat - '0'.toNat = d := by
      decide
    rw [Nat.toDigits_eq_if (by omega)]
    split_ifs with hsmall
    · obtain ⟨hisDigit, hvalue⟩ := hdigit n hsmall
      rw [List.singleton_append, ofDigits, if_pos hisDigit, hvalue, Nat.mul_zero, Nat.zero_add]
      exact if_neg (by omega)
    · obtain ⟨hisDigit, hvalue⟩ := hdigit (n % 10) (Nat.mod_lt n (by omega))
      rw [List.append_assoc, ih (n / 10) (by omega) (by omega), List.singleton_append, ofDigits,
        if_pos hisDigit, hvalue, Nat.div_add_mod]
      exact if_neg (by omega)

theorem ofChars_repr (id : GlyphId) : ofChars id.toNat.repr.toList = .ok id := by
  have hread : ofDigits 0 id.toNat.repr.toList = .ok id := by
    have hdigits := ofDigits_toDigits (Nat.le_of_lt_succ id.toNat_lt) []
    rwa [List.append_nil, ← Nat.toList_repr, ofDigits, UInt16.ofNat_toNat] at hdigits
  obtain ⟨d, hd, cs, hdigits, -⟩ := Json.exists_first_digit id.toNat
  have hplus : ∀ d < 10, Nat.digitChar d ≠ '+' := by decide
  rw [Nat.toList_repr, hdigits] at hread ⊢
  rw [ofChars]
  · exact hread
  -- the first character is no plus sign, which the other equations of the reader ask for
  · exact List.cons_ne_nil _ _
  · exact fun heq => hplus d hd (List.cons.inj heq).1
  · exact fun digits heq => hplus d hd (List.cons.inj heq).1

/-- **The ids of a run are read back from its line**, if no glyph has been adjusted. -/
theorem ofLine_format {run : GlyphRun} (h : ∀ g ∈ run, g.position.isZero) :
    ofLine run.format = .ok run.ids := by
  rw [ofLine, GlyphRun.words_format, GlyphRun.ids]
  refine Numbered.mapM_eq_pure_of_forall₂ ?_
  rw [List.forall₂_map_left_iff, List.forall₂_map_right_iff, List.forall₂_same]
  intro g hg
  rw [ShapedGlyph.toList_format, if_pos (h g (Array.mem_toList_iff.1 hg)), List.append_nil,
    ofChars_repr]
  rfl

end GlyphId

/-! ### Lines -/

namespace GlyphRun

/-- **Runs have the same line if they look the same**, and only then. -/
theorem format_eq_iff {s t : GlyphRun} : s.format = t.format ↔
    List.Forall₂ ShapedGlyph.LooksLike s.toList t.toList := by
  have hglyphs : (s.toList.map fun g => g.format.toList) = (t.toList.map fun g => g.format.toList) ↔
      List.Forall₂ ShapedGlyph.LooksLike s.toList t.toList := by
    rw [← List.forall₂_eq_eq_eq, List.forall₂_map_left_iff, List.forall₂_map_right_iff]
    simp only [String.toList_inj, ShapedGlyph.format_eq_iff]
  rw [← hglyphs]
  constructor
  · intro h
    rw [← words_format, ← words_format, h]
  · intro h
    rw [← String.toList_inj, format, format, String.toList_intercalate, String.toList_intercalate,
      List.map_map, List.map_map]
    exact congrArg (" ".toList.intercalate ·) h

/-- **Lines tell runs apart.** Two runs have the same line exactly if they have as many glyphs as
each other and those at each index look the same: they agree on the id, the two offsets and the
horizontal advance. Only the vertical advance is not shown, apart from whether a glyph has been
adjusted at all. And the line of a run whose glyphs are all at their natural positions is read back
as the ids of the run. -/
theorem unambiguous_format :
    (∀ s t : GlyphRun, s.format = t.format ↔ s.size = t.size ∧
      ∀ (i : Nat) g h, s[i]? = some g → t[i]? = some h → g.LooksLike h) ∧
    ∀ run : GlyphRun, (∀ g ∈ run, g.position.isZero) →
      GlyphId.ofLine run.format = .ok run.ids := by
  refine ⟨fun s t => ?_, fun run h => GlyphId.ofLine_format h⟩
  rw [format_eq_iff, List.forall₂_iff_get]
  refine and_congr Iff.rfl ⟨fun h i g g' hg hg' => ?_, fun h i hi hi' => ?_⟩
  · obtain ⟨hi, rfl⟩ := Array.getElem?_eq_some_iff.1 hg
    obtain ⟨hi', rfl⟩ := Array.getElem?_eq_some_iff.1 hg'
    exact h i hi hi'
  · exact h i _ _ (Array.getElem?_eq_getElem hi) (Array.getElem?_eq_getElem hi')

theorem unambiguous_format_ids : (∀ g ∈ ofIds [0, 65535], g.position.isZero) ∧
    GlyphId.ofLine (ofIds [0, 65535]).format = .ok [0, 65535] := by
  have h : ∀ g ∈ ofIds [0, 65535], g.position.isZero := by decide
  exact ⟨h, (unambiguous_format.2 _ h).trans (by rw [ids_ofIds])⟩

/-- A line shows that a glyph has been adjusted even where only its vertical advance has been. -/
example : format #[⟨7, { yAdvance := 3 }⟩, ⟨7, {}⟩] = "7@0,0+0 7" := by
  cbv

end GlyphRun

end Shaping
