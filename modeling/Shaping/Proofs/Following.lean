import Mathlib.Data.List.Basic
import Shaping.Proofs.Evaluation

/-!
The glyphs behind an index that are not skipped. A step that consumes tests the first of them, so
what a rule finds is read off that list: its steps must accept the first glyphs of it, one after
the other. Main statement: `View.foldlM_glyphStep`.
-/

namespace Shaping

namespace GlyphRun

variable {run : GlyphRun} {skip : ShapedGlyph → Bool} {i j k count : Nat} {g : ShapedGlyph}
  {glyphs : List ShapedGlyph} {rest : List (ShapedGlyph × Nat)}

/-- The glyphs of a list that are not skipped, each with its index. The first index is `k`. -/
def unskipped (skip : ShapedGlyph → Bool) (k : Nat) (glyphs : List ShapedGlyph) :
    List (ShapedGlyph × Nat) :=
  (glyphs.zipIdx k).filter fun p => !skip p.1

@[simp] lemma unskipped_nil : unskipped skip k [] = [] := rfl

lemma unskipped_cons : unskipped skip k (g :: glyphs) =
    if skip g then unskipped skip (k + 1) glyphs else (g, k) :: unskipped skip (k + 1) glyphs := by
  rw [unskipped, List.zipIdx_cons, List.filter_cons, ← unskipped]
  cases skip g <;> rfl

lemma map_fst_unskipped : (unskipped skip k glyphs).map (·.1) = glyphs.filter (!skip ·) := by
  induction glyphs generalizing k with
  | nil => rfl
  | cons g glyphs ih =>
    rw [unskipped_cons, List.filter_cons]
    cases skip g with
    | true => exact ih
    | false => exact congrArg (g :: ·) ih

/-- The glyphs behind an index that are not skipped, in order, each with its index. -/
def following (run : GlyphRun) (skip : ShapedGlyph → Bool) (i : Nat) : List (ShapedGlyph × Nat) :=
  unskipped skip (i + 1) (run.toList.drop (i + 1))

theorem following_eq_nil (h : run.size ≤ i + 1) : run.following skip i = [] := by
  rw [following, List.drop_eq_nil_of_le (by simpa using h), unskipped_nil]

theorem following_eq (h : i + 1 < run.size) : run.following skip i =
    if skip run[i + 1] then run.following skip (i + 1)
    else (run[i + 1], i + 1) :: run.following skip (i + 1) := by
  have hlen : i + 1 < run.toList.length := by simpa using h
  rw [following, List.drop_eq_getElem_cons hlen, unskipped_cons, ← following, Array.getElem_toList]

lemma map_id_following : (run.following skip i).map (·.1.id) =
    ((run.toList.drop (i + 1)).filter (!skip ·)).map (·.id) := by
  rw [← map_fst_unskipped (k := i + 1), List.map_map]
  rfl

lemma following_append {front : List ShapedGlyph} :
    following (front ++ g :: glyphs).toArray skip front.length =
      unskipped skip (front.length + 1) glyphs := by
  have hdrop : (front ++ g :: glyphs).drop (front.length + 1) = glyphs := by
    rw [List.drop_append, List.drop_eq_nil_of_le (Nat.le_succ _), Nat.add_sub_cancel_left]
    rfl
  rw [following, hdrop]

lemma following_congr {run' : GlyphRun} (h : ∀ k, i < k → run[k]? = run'[k]?) :
    run.following skip i = run'.following skip i := by
  have hdrop : run.toList.drop (i + 1) = run'.toList.drop (i + 1) := by
    refine List.ext_getElem? fun k => ?_
    rw [List.getElem?_drop, List.getElem?_drop, Array.getElem?_toList, Array.getElem?_toList,
      h _ (by omega)]
  rw [following, hdrop, following]

theorem of_following_eq_cons (h : run.following skip i = (g, j) :: rest) :
    i < j ∧ run[j]? = some g ∧ skip g = false ∧ run.following skip j = rest := by
  induction hroom : run.size - i generalizing i with
  | zero =>
    rw [following_eq_nil (by omega)] at h
    cases h
  | succ room ih =>
    by_cases hi : i + 1 < run.size
    · rw [following_eq hi] at h
      split_ifs at h with hskip
      · obtain ⟨hlt, hrest⟩ := ih h (by omega)
        exact ⟨by omega, hrest⟩
      · obtain ⟨hhead, rfl⟩ := List.cons.inj h
        obtain ⟨rfl, rfl⟩ := Prod.mk.inj hhead
        exact ⟨Nat.lt_succ_self i, Array.getElem?_eq_getElem hi, by simpa using hskip, rfl⟩
    · rw [following_eq_nil (Nat.le_of_not_lt hi)] at h
      cases h

theorem walk_forward {fuel : Nat} (h : run.size = i + 1 + fuel) :
    run.walk skip .forward fuel (count + 1) i = (run.following skip i)[count]?.map (·.2) := by
  induction fuel generalizing i count with
  | zero => rw [following_eq_nil (by omega), walk, List.getElem?_nil, Option.map_none]
  | succ fuel ih =>
    have hnext : i + 1 < run.size := by omega
    rw [walk, neighbour, following_eq hnext, Array.getElem?_eq_getElem hnext, Option.any_some]
    split_ifs with hskip
    · exact ih (by omega)
    · cases count with
      | zero =>
        rw [walk]
        rfl
      | succ count =>
        rw [List.getElem?_cons_succ]
        exact ih (by omega)

/-- **To count glyphs forward** is to look them up among those that follow. -/
theorem stepFiltered_forward (hi : i < run.size) :
    run.stepFiltered skip .forward (count + 1) i = (run.following skip i)[count]?.map (·.2) := by
  rw [stepFiltered, if_pos hi]
  refine walk_forward ?_
  rw [room]
  omega

end GlyphRun

namespace View

variable {v : View} {f : Finding} {matcher : Matcher} {flags : LookupFlags}
  {action? : Option Action} {i : Nat}

lemma lt_size_of_accepts (h : v.accepts i matcher flags) : i < v.run.size := by
  by_contra hi
  rw [accepts, Array.getElem?_eq_none (Nat.le_of_not_lt hi)] at h
  cases h

theorem find?_consume_first (hplan : f.plan = []) : v.find? f ⟨.consume matcher flags, action?⟩ =
    if v.accepts v.cursor matcher flags then some { f with plan := [(v.cursor, action?)] }
    else none := by
  have hnext : v.nextIndex? f.consumed flags = some v.cursor := by
    rw [Finding.consumed, hplan]
    rfl
  rw [find?, test, hnext, Option.filter_some]
  split_ifs
  · rw [Option.map_some, Option.map_some, Finding.record, hplan]
    rfl
  · rfl

theorem find?_consume (hlast : f.plan.getLast?.map (·.1) = some i) (hi : i < v.run.size) :
    v.find? f ⟨.consume matcher flags, action?⟩ =
      ((v.run.following (skips v.categories flags) i).head?.filter fun p =>
        matcher.accepts p.1.id).map fun p => { f with plan := f.plan ++ [(p.2, action?)] } := by
  have hnext : v.nextIndex? f.consumed flags =
      (v.run.following (skips v.categories flags) i).head?.map (·.2) := by
    have hback : f.consumed.back? = some i := by
      rw [Finding.consumed, List.back?_toArray, List.getLast?_map, hlast]
    rw [nextIndex?, hback]
    dsimp only
    rw [GlyphRun.stepFiltered_forward hi, List.head?_eq_getElem?]
  rw [find?, test, hnext]
  cases hrest : v.run.following (skips v.categories flags) i with
  | nil => rfl
  | cons p rest =>
    obtain ⟨g, j⟩ := p
    obtain ⟨-, hg, hskip, -⟩ := GlyphRun.of_following_eq_cons hrest
    have haccepts : v.accepts j matcher flags = matcher.accepts g.id := by
      rw [accepts, hg, Option.any_some, hskip]
      rfl
    rw [List.head?_cons, Option.map_some, Option.filter_some, Option.filter_some, haccepts]
    split_ifs <;> rfl

/-- The step that consumes this glyph, with this action if there is one. -/
def glyphStep (flags : LookupFlags) (s : GlyphId × Option Action) : Step :=
  ⟨.consume (.glyph s.1) flags, s.2⟩

/-- **Steps for glyphs in a row** hold if the ids of the glyphs that follow begin with them. -/
theorem foldlM_glyphStep {steps : List (GlyphId × Option Action)}
    (hlast : f.plan.getLast?.map (·.1) = some i) (hi : i < v.run.size) :
    (steps.map (glyphStep flags)).foldlM v.find? f =
      if (steps.map (·.1)).isPrefixOf
          ((v.run.following (skips v.categories flags) i).map (·.1.id)) then
        some { f with plan := f.plan ++
          ((v.run.following (skips v.categories flags) i).map (·.2)).zip (steps.map (·.2)) }
      else none := by
  induction steps generalizing f i with
  | nil => simp
  | cons step steps ih =>
    obtain ⟨glyph, action?⟩ := step
    rw [List.map_cons, List.foldlM_cons, glyphStep, find?_consume hlast hi]
    cases hrest : v.run.following (skips v.categories flags) i with
    | nil => rfl
    | cons p rest =>
      obtain ⟨g, j⟩ := p
      obtain ⟨-, hg, -, hfollowing⟩ := GlyphRun.of_following_eq_cons hrest
      have hj : j < v.run.size := (Array.getElem?_eq_some_iff.1 hg).1
      rw [List.head?_cons, Option.filter_some]
      by_cases hglyph : glyph = g.id
      · have haccepts : (Matcher.glyph glyph).accepts g.id = true := decide_eq_true hglyph
        rw [if_pos haccepts, Option.map_some, Option.bind_eq_bind, Option.bind_some,
          ih (by simp) hj, hfollowing]
        simp [hglyph]
      · have haccepts : ¬ (Matcher.glyph glyph).accepts g.id = true := by
          simpa [Matcher.accepts] using hglyph
        rw [if_neg haccepts]
        simp [hglyph]

end View

end Shaping
