import Shaping.Proofs.Cursive
import Shaping.Proofs.Marks

/-!
How far glyphs are moved. A glyph behind the cursor is where it was at the start. When the cursor
comes to a glyph, a rule that ended there can have linked it, and then it stands off from the glyph
that it is linked to by two anchors. A rule that starts there can move it once more, by a record, or
attach it to a glyph in front of it, off from that by two anchors and the advances in between. So
from one glyph to the next the offsets grow by no more than three words of 16 bits, and no sum on
the way leaves the words of 32 bits before the run is longer than any text. Main statement:
`Simulator.sums_fit`.
-/

namespace Shaping

variable {x : Int} {i c c' : Nat} {run run' : GlyphRun}

/-! ### Positions -/

/-- The offsets of a position are at most `offset` away from zero, its advances at most
`advance`. -/
structure Position.Bounded (p : Position) (offset advance : Nat) : Prop where
  xOffset : p.xOffset.natAbs ≤ offset
  yOffset : p.yOffset.natAbs ≤ offset
  xAdvance : p.xAdvance.natAbs ≤ advance
  yAdvance : p.yAdvance.natAbs ≤ advance

section Positions

variable {p : Position} {o o' a a' : Nat}

lemma natAbs_toInt_le (x : Int16) : x.toInt.natAbs ≤ 32768 := by
  have hle := x.le_toInt
  have hlt := x.toInt_lt
  omega

lemma Position.bounded_zero : Position.Bounded {} o a :=
  ⟨Nat.zero_le _, Nat.zero_le _, Nat.zero_le _, Nat.zero_le _⟩

lemma Position.Bounded.mono (h : p.Bounded o a) (ho : o ≤ o') (ha : a ≤ a') : p.Bounded o' a' :=
  ⟨h.xOffset.trans ho, h.yOffset.trans ho, h.xAdvance.trans ha, h.yAdvance.trans ha⟩

lemma natAbs_add_word_le {n : Nat} (h : x.natAbs ≤ n) (w : Int16) :
    (x + w.toInt).natAbs ≤ n + 32768 := by
  have hw := natAbs_toInt_le w
  omega

lemma natAbs_sub_word_le {n : Nat} (h : x.natAbs ≤ n) (w : Int16) :
    (x - w.toInt).natAbs ≤ n + 32768 := by
  have hw := natAbs_toInt_le w
  omega

lemma Position.Bounded.added (h : p.Bounded o a) (r : ValueRecord) :
    (r.added p).Bounded (o + 32768) (a + 32768) :=
  ⟨natAbs_add_word_le h.xOffset _, natAbs_add_word_le h.yOffset _,
    natAbs_add_word_le h.xAdvance _, natAbs_add_word_le h.yAdvance _⟩

lemma ValueRecord.added_of_isZero {r : ValueRecord} (h : r.isZero) (p : Position) :
    r.added p = p := by
  obtain rfl : r = {} := of_decide_eq_true h
  show Position.mk (p.xOffset + 0) (p.yOffset + 0) (p.xAdvance + 0) (p.yAdvance + 0) = p
  simp only [Int.add_zero]

lemma Position.Bounded.natAbs_le_of_mem_sums (h : p.Bounded o a) (ha : a ≤ o) (r : ValueRecord)
    (hx : x ∈ r.sums p) : x.natAbs ≤ o + 32768 := by
  obtain ⟨hxOffset, hyOffset, hxAdvance, hyAdvance⟩ := h.added r
  rw [r.sums_eq] at hx
  simp only [List.mem_cons, List.not_mem_nil, or_false] at hx
  rcases hx with rfl | rfl | rfl | rfl <;> omega

end Positions

/-! ### The limits -/

/-- How far off the glyph at index `i` can be when the cursor is at `c`: two words more than three
for each glyph in front of it, one word less before a rule has started there, and not at all behind
the cursor. -/
def offsetLimit (c i : Nat) : Nat :=
  if i < c then 98304 * i + 65536 else if i = c then 98304 * i + 32768 else 0

/-- How far the advances of the glyph at index `i` can be from zero when the cursor is at `c`. -/
def advanceLimit (c i : Nat) : Nat := if i < c then 32768 else 0

lemma offsetLimit_of_lt (h : i < c) : offsetLimit c i = 98304 * i + 65536 := if_pos h

lemma advanceLimit_of_lt (h : i < c) : advanceLimit c i = 32768 := if_pos h

lemma offsetLimit_le_of_le (h : c ≤ i) : offsetLimit c i ≤ 98304 * i + 32768 := by
  unfold offsetLimit
  split_ifs <;> omega

lemma offsetLimit_of_gt (h : c < i) : offsetLimit c i = 0 := by
  rw [offsetLimit, if_neg (Nat.lt_asymm h), if_neg h.ne']

lemma advanceLimit_of_le (h : c ≤ i) : advanceLimit c i = 0 := if_neg (Nat.not_lt.2 h)

lemma offsetLimit_le : offsetLimit c i ≤ 98304 * i + 65536 := by
  unfold offsetLimit
  split_ifs <;> omega

lemma advanceLimit_le : advanceLimit c i ≤ 32768 := by
  unfold advanceLimit
  split_ifs <;> omega

lemma offsetLimit_mono (h : c ≤ c') : offsetLimit c i ≤ offsetLimit c' i := by
  unfold offsetLimit
  split_ifs <;> omega

lemma advanceLimit_mono (h : c ≤ c') : advanceLimit c i ≤ advanceLimit c' i := by
  unfold advanceLimit
  split_ifs <;> omega

namespace GlyphRun

/-- The glyphs of the run keep to the limits for a cursor at `c`. -/
def Bounded (c : Nat) (run : GlyphRun) : Prop :=
  ∀ i, (run.positionAt i).Bounded (offsetLimit c i) (advanceLimit c i)

lemma Bounded.mono (h : run.Bounded c) (hc : c ≤ c') : run.Bounded c' :=
  fun i => (h i).mono (offsetLimit_mono hc) (advanceLimit_mono hc)

lemma bounded_of_zero (h : ∀ g ∈ run, g.position = {}) : run.Bounded c := by
  intro i
  have hzero : run.positionAt i = {} := by
    unfold positionAt
    cases hg : run[i]? with
    | none => rfl
    | some g => exact h g (Array.mem_of_getElem? hg)
  rw [hzero]
  exact Position.bounded_zero

lemma Bounded.eq_zero (h : run.Bounded c) (hi : c < i) : run.positionAt i = {} := by
  obtain ⟨hxOffset, hyOffset, hxAdvance, hyAdvance⟩ := h i
  rw [offsetLimit_of_gt hi] at hxOffset hyOffset
  rw [advanceLimit_of_le hi.le] at hxAdvance hyAdvance
  generalize run.positionAt i = p at hxOffset hyOffset hxAdvance hyAdvance
  obtain ⟨xOffset, yOffset, xAdvance, yAdvance⟩ := p
  simp only [Position.mk.injEq]
  dsimp only at hxOffset hyOffset hxAdvance hyAdvance
  omega

/-! ### Glyphs that are moved -/

lemma Bounded.reposition {f : Position → Position} (h : run.Bounded c) (hi : i < run.size)
    (hf : (f (run.positionAt i)).Bounded (offsetLimit c i) (advanceLimit c i)) :
    (run.reposition i f).Bounded c := by
  intro k
  rw [positionAt_reposition hi]
  split_ifs with hk
  · rw [hk]
    exact hf
  · exact h k

theorem Bounded.adjust (h : run.Bounded c) (hi : i < run.size) (hc : c ≤ i) (hc' : i < c')
    (r : ValueRecord) : (run.reposition i r.added).Bounded c' := by
  refine (h.mono (hc.trans hc'.le)).reposition hi (((h i).added r).mono ?_ ?_)
  · have hle := offsetLimit_le_of_le hc
    rw [offsetLimit_of_lt hc']
    omega
  · rw [advanceLimit_of_le hc, advanceLimit_of_lt hc']

lemma Bounded.adjust_zero (h : run.Bounded c) (hi : i < run.size) {r : ValueRecord}
    (hr : r.isZero) : (run.reposition i r.added).Bounded c := by
  refine h.reposition hi ?_
  rw [ValueRecord.added_of_isZero hr]
  exact h i

/-- The offset of a glyph that is linked is that of the glyph in front, and two words more. -/
lemma Bounded.natAbs_link_le {front : Nat} (h : run.Bounded c) (hc : c ≤ front)
    (exit entry : Anchor) :
    ((run.positionAt front).yOffset + exit.y.toInt).natAbs ≤ 98304 * front + 65536 ∧
      ((run.positionAt front).yOffset + exit.y.toInt - entry.y.toInt).natAbs ≤
        98304 * front + 98304 := by
  have hy := (h front).yOffset.trans (offsetLimit_le_of_le hc)
  have hexit := natAbs_add_word_le hy exit.y
  have hentry := natAbs_sub_word_le hexit entry.y
  omega

theorem Bounded.join {front : Nat} (h : run.Bounded c) (hi : i < run.size) (hc : c ≤ front)
    (hlt : front < i) (exit entry : Anchor) : (run.join front i exit entry).Bounded i := by
  have hfront : (run.reposition front fun p => { p with xAdvance := exit.x.toInt }).Bounded
      (front + 1) := by
    refine (h.mono (Nat.le_succ_of_le hc)).reposition (hlt.trans hi) ?_
    obtain ⟨hxOffset, hyOffset, -, hyAdvance⟩ := h.mono (Nat.le_succ_of_le hc) front
    refine ⟨hxOffset, hyOffset, ?_, hyAdvance⟩
    rw [advanceLimit_of_lt (Nat.lt_succ_self front)]
    exact natAbs_toInt_le exit.x
  have hx := natAbs_toInt_le entry.x
  have hy := (h.natAbs_link_le hc exit entry).2
  have hlimit : offsetLimit i i = 98304 * i + 32768 := by
    unfold offsetLimit
    rw [if_neg (Nat.lt_irrefl i), if_pos rfl]
  have hx' : (-entry.x.toInt).natAbs ≤ offsetLimit i i := by omega
  have hy' : ((run.positionAt front).yOffset + exit.y.toInt - entry.y.toInt).natAbs ≤
      offsetLimit i i := by
    omega
  have hi' := hfront.mono hlt i
  exact (hfront.mono hlt).reposition (by rwa [size_reposition])
    ⟨hx', hy', hi'.xAdvance, hi'.yAdvance⟩

theorem Bounded.linked {front : Nat} (h : run.Bounded c) (hi : i < run.size) (hc : c ≤ front)
    (hlt : front < i) (table : CursiveAttachment) : (run.linked table front i).Bounded i := by
  rcases run.link_cases table front i with ⟨-, heq⟩ | ⟨exit, entry, -, heq⟩
  · rw [heq]
    exact h.mono (hc.trans hlt.le)
  · rw [heq]
    exact h.join hi hc hlt exit entry

theorem Bounded.natAbs_advanceBetween_le {base : Nat} (h : run.Bounded c) (hi : base ≤ i)
    (hsize : i ≤ run.size) : (run.advanceBetween base i).natAbs ≤ (i - base) * 32768 := by
  induction i, hi using Nat.le_induction with
  | base =>
    rw [advanceBetween_self]
    exact Nat.zero_le _
  | succ i hi ih =>
    have hsum := ih (Nat.le_of_succ_le hsize)
    have hadvance := (h i).xAdvance.trans advanceLimit_le
    rw [advanceBetween_succ hi hsize]
    omega

/-- The offsets of a mark are those of its base, two words more, and the advances in between. -/
lemma Bounded.natAbs_attach_le {base : Nat} (h : run.Bounded c) (hbase : base < i)
    (hi : i < run.size) (anchor mark : Anchor) :
    ((run.positionAt base).xOffset + anchor.x.toInt).natAbs ≤ 98304 * base + 98304 ∧
    ((run.positionAt base).xOffset + anchor.x.toInt - mark.x.toInt).natAbs ≤
      98304 * base + 131072 ∧
    ((run.positionAt base).xOffset + anchor.x.toInt - mark.x.toInt -
      run.advanceBetween base i).natAbs ≤ 98304 * i + 65536 ∧
    ((run.positionAt base).yOffset + anchor.y.toInt).natAbs ≤ 98304 * base + 98304 ∧
    ((run.positionAt base).yOffset + anchor.y.toInt - mark.y.toInt).natAbs ≤
      98304 * base + 131072 := by
  have hx := natAbs_add_word_le ((h base).xOffset.trans offsetLimit_le) anchor.x
  have hx' := natAbs_sub_word_le hx mark.x
  have hy := natAbs_add_word_le ((h base).yOffset.trans offsetLimit_le) anchor.y
  have hy' := natAbs_sub_word_le hy mark.y
  have hadvance := h.natAbs_advanceBetween_le hbase.le hi.le
  omega

theorem Bounded.layOn {base : Nat} (h : run.Bounded c) (hi : i < run.size) (hc : c ≤ i)
    (hbase : base < i) (anchor mark : Anchor) :
    (run.layOn base i anchor mark).Bounded (i + 1) := by
  have hc' := Nat.le_succ_of_le hc
  have hlimit : offsetLimit (i + 1) i = 98304 * i + 65536 := if_pos (Nat.lt_succ_self i)
  have hi' := h.mono hc' i
  obtain ⟨-, -, hx, -, hy⟩ := h.natAbs_attach_le hbase hi anchor mark
  refine (h.mono hc').reposition hi ⟨hlimit ▸ hx, ?_, hi'.xAdvance, hi'.yAdvance⟩
  rw [hlimit]
  exact hy.trans (by omega)

theorem Bounded.attached {base : Nat} (h : run.Bounded c) (hi : i < run.size) (hc : c ≤ i)
    (hbase : base < i) (table : MarkToBase) : (run.attached table base i).Bounded (i + 1) := by
  rcases run.attach_cases table base i with ⟨-, heq⟩ | ⟨anchor, mark, -, -, -, heq⟩
  · rw [heq]
    exact h.mono (Nat.le_succ_of_le hc)
  · rw [heq]
    exact h.layOn hi hc hbase anchor mark

/-! ### What is computed -/

lemma Bounded.natAbs_le_of_mem_adjustSums (h : run.Bounded c) (hi : c ≤ i) {record : ValueRecord}
    (hx : x ∈ run.adjustSums record i) : x.natAbs ≤ 98304 * i + 65536 := by
  unfold adjustSums at hx
  split_ifs at hx
  · have hposition := (h i).mono (offsetLimit_le_of_le hi) (advanceLimit_of_le hi).le
    exact (hposition.natAbs_le_of_mem_sums (Nat.zero_le _) record hx).trans_eq (Nat.add_assoc _ _ _)
  · exact absurd hx List.not_mem_nil

lemma Bounded.natAbs_le_of_mem_linkSums {table : CursiveAttachment} {front : Nat}
    (h : run.Bounded c) (hc : c ≤ front) (hx : x ∈ run.linkSums table front i) :
    x.natAbs ≤ 98304 * front + 98304 := by
  rcases run.link_cases table front i with ⟨hnil, -⟩ | ⟨exit, entry, heq, -⟩
  · rw [hnil] at hx
    exact absurd hx List.not_mem_nil
  · rw [heq] at hx
    simp only [List.mem_cons, List.not_mem_nil, or_false] at hx
    have hexit := natAbs_toInt_le exit.x
    have hentry := natAbs_toInt_le entry.x
    obtain ⟨hy, hy'⟩ := h.natAbs_link_le hc exit entry
    rcases hx with rfl | rfl | rfl | rfl <;> omega

lemma Bounded.natAbs_le_of_mem_attachSums {table : MarkToBase} {base : Nat} (h : run.Bounded c)
    (hbase : base < i) (hx : x ∈ run.attachSums table base i) :
    x.natAbs ≤ 98304 * i + 65536 := by
  rcases run.attach_cases table base i with ⟨hnil, -⟩ | ⟨anchor, mark, -, hi, heq, -⟩
  · rw [hnil] at hx
    exact absurd hx List.not_mem_nil
  · rw [heq] at hx
    rcases List.mem_append.1 hx with hx | hx
    · -- the advances up to some glyph on the way
      obtain ⟨k, hk, rfl⟩ := List.mem_map.1 hx
      have hk := List.mem_range.1 hk
      rcases Nat.lt_or_ge k base with hlt | hle
      · unfold advanceBetween
        rw [if_neg fun hle => absurd hle.1 (Nat.not_le.2 hlt)]
        exact Nat.zero_le _
      · have hadvance := h.natAbs_advanceBetween_le hle (by omega)
        omega
    · simp only [List.mem_cons, List.not_mem_nil, or_false] at hx
      have hoffsets := h.natAbs_attach_le hbase hi anchor mark
      rcases hx with rfl | rfl | rfl | rfl | rfl <;> omega

lemma positionAt_rename (run : GlyphRun) (i : Nat) (f : GlyphId → GlyphId) (k : Nat) :
    (run.rename i f).positionAt k = run.positionAt k := by
  unfold positionAt rename
  rw [Array.getElem?_modify]
  split_ifs with hk
  · subst hk
    cases run[i]? <;> rfl
  · rfl

/-! ### Glyphs that are replaced -/

/-- From an index on no glyph of the new run has been moved, and in front of it the new run is as
the old one. -/
structure Cleared (first : Nat) (run run' : GlyphRun) : Prop where
  front : ∀ k < first, run'.positionAt k = run.positionAt k
  behind : ∀ k, first ≤ k → run'.positionAt k = {}

variable {first : Nat}

lemma Cleared.bounded (h : Cleared first run run') (hrun : run.Bounded c) : run'.Bounded c := by
  intro k
  rcases Nat.lt_or_ge k first with hk | hk
  · rw [h.front k hk]
    exact hrun k
  · rw [h.behind k hk]
    exact Position.bounded_zero

theorem cleared_of_replaced {glyphs : List ShapedGlyph} (hi : i < run.size)
    (hnew : Replaced i glyphs run run') (hglyphs : ∀ g ∈ glyphs, g.position = {})
    (hbehind : ∀ k, i < k → run.positionAt k = {}) : Cleared i run run' := by
  have hlength : (run.toList.take i).length = i := by
    rw [List.length_take, Array.length_toList]
    omega
  unfold Replaced at hnew
  rw [List.append_assoc] at hnew
  constructor
  · intro k hk
    have hget : run'[k]? = run[k]? := by
      rw [← Array.getElem?_toList, hnew, List.getElem?_append_left (by omega),
        List.getElem?_take_of_lt hk, Array.getElem?_toList]
    unfold positionAt
    rw [hget]
  · intro k hk
    unfold positionAt
    cases hg : run'[k]? with
    | none => rfl
    | some g =>
      rw [← Array.getElem?_toList, hnew, List.getElem?_append_right (by omega)] at hg
      show g.position = {}
      rcases List.mem_append.1 (List.mem_of_getElem? hg) with hmem | hmem
      · exact hglyphs g hmem
      · obtain ⟨j, hj⟩ := List.mem_iff_getElem?.1 hmem
        rw [List.getElem?_drop, Array.getElem?_toList] at hj
        rw [← positionAt_of_getElem? hj]
        exact hbehind _ (by omega)

theorem Cleared.removeAll {indices : List Nat} {run'' : GlyphRun} (h : Cleared first run run')
    (hle : ∀ i ∈ indices, first ≤ i) (hremove : GlyphRun.removeAll run' indices = .ok run'') :
    Cleared first run run'' := by
  induction indices generalizing run' with
  | nil =>
    obtain rfl : run' = run'' := Except.ok.inj hremove
    exact h
  | cons i indices ih =>
    obtain ⟨hi, hindices⟩ := List.forall_mem_cons.1 hle
    unfold GlyphRun.removeAll at hremove
    split_ifs at hremove with hlt
    have hget : ∀ k, positionAt (run'.eraseIdx i) k =
        if k < i then run'.positionAt k else run'.positionAt (k + 1) := by
      intro k
      unfold positionAt
      rw [Array.getElem?_eraseIdx]
      split_ifs <;> rfl
    refine ih ⟨fun k hk => ?_, fun k hk => ?_⟩ hindices hremove
    · rw [hget, if_pos (hk.trans_le hi), h.front k hk]
    · rw [hget]
      split_ifs
      · exact h.behind k hk
      · exact h.behind (k + 1) (Nat.le_succ_of_le hk)

end GlyphRun

namespace Edit

open GlyphRun

variable {base? : Option Nat} {action : Action} {e : Edit} {last : Nat} {earlier : List Nat}

/-! ### Actions -/

/-- The glyphs that a rule has consumed when it acts, the newest one first: they are not in front of
the cursor, while the base that it has found is. -/
structure Reached (c : Nat) (run : GlyphRun) (base? : Option Nat) (last : Nat)
    (earlier : List Nat) : Prop where
  descending : (last :: earlier).Pairwise (· > ·)
  cursor_le : ∀ i ∈ last :: earlier, c ≤ i
  lt_size : last < run.size
  base_lt : ∀ base, base? = some base → base < c

lemma Reached.previous {previous : Nat} {older : List Nat}
    (h : Reached c run base? last (previous :: older)) :
    c ≤ previous ∧ previous < last ∧ previous < run.size := by
  have hlt : previous < last := (List.pairwise_cons.1 h.descending).1 previous List.mem_cons_self
  exact ⟨h.cursor_le previous (by simp), hlt, hlt.trans h.lt_size⟩

lemma Reached.bounded_expand (h : Reached c run base? last earlier) (hrun : run.Bounded c)
    {glyphs : List GlyphId}
    (hact : act .exact ⟨run, last :: earlier, 0⟩ base? (.expand glyphs) = .ok e) :
    e.run.Bounded c ∧ (c : Int) ≤ last + 1 + e.shift := by
  have hlast : c ≤ last := h.cursor_le last List.mem_cons_self
  unfold act at hact
  dsimp only at hact
  cases hsplice : run.splice? last (glyphs.map .ofId) with
  | none =>
    rw [hsplice] at hact
    cases hact
  | some run' =>
    rw [hsplice] at hact
    obtain rfl := Except.ok.inj hact
    have hglyphs : ∀ g ∈ glyphs.map ShapedGlyph.ofId, g.position = {} := by
      intro g hg
      obtain ⟨id, -, rfl⟩ := List.mem_map.1 hg
      rfl
    have hcleared := cleared_of_replaced h.lt_size (replaced_splice? hsplice) hglyphs
      fun k hk => hrun.eq_zero (hlast.trans_lt hk)
    refine ⟨hcleared.bounded hrun, ?_⟩
    dsimp only
    omega

lemma Reached.bounded_ligate (h : Reached c run base? last earlier) (hrun : run.Bounded c)
    {glyph : GlyphId} {components : Nat}
    (hact : ligate ⟨run, last :: earlier, 0⟩ glyph components = .ok e) :
    e.run.Bounded c ∧ (c : Int) ≤ last + 1 + e.shift := by
  have hlast : c ≤ last := h.cursor_le last List.mem_cons_self
  rcases ligate_cases hact with rfl | ⟨newer, first, older, run', hplaced, hremove, rfl⟩
  · refine ⟨hrun, ?_⟩
    dsimp only
    omega
  · have hle : ∀ i ∈ last :: earlier, i < last + 1 := by
      intro i hi
      rcases List.mem_cons.1 hi with rfl | hi
      · exact Nat.lt_succ_self i
      · exact Nat.lt_succ_of_lt ((List.pairwise_cons.1 h.descending).1 i hi)
    have hdescending := h.descending
    have hcursor := h.cursor_le
    dsimp only at hplaced
    rw [hplaced] at hle hdescending hcursor
    have hcfirst : c ≤ first := hcursor first (by simp)
    -- the merged glyphs stand between the first one and the last one
    have hbelow : first + newer.length < last + 1 := add_length_lt_of_descending hdescending hle
    have hsize : first < run.size := by
      have hlast' := h.lt_size
      omega
    have hcleared := cleared_of_replaced hsize (replaced_modify hsize fun _ => .ofId glyph)
      (by simp) fun k hk => hrun.eq_zero (hcfirst.trans_lt hk)
    have hbehind : ∀ i ∈ newer, first ≤ i := fun i hi =>
      Nat.le_of_lt ((List.pairwise_append.1 hdescending).2.2 i hi first List.mem_cons_self)
    refine ⟨(hcleared.removeAll hbehind hremove).bounded hrun, ?_⟩
    dsimp only
    omega

lemma Reached.bounded_adjustPair (h : Reached c run base? last earlier) (hrun : run.Bounded c)
    {first second : ValueRecord}
    (hact : act .exact ⟨run, last :: earlier, 0⟩ base? (.adjustPair first second) = .ok e) :
    e.shift = 0 ∧ e.run.Bounded (last + 1) ∧
      ((Action.adjustPair first second).retainsLast → e.run.Bounded last) := by
  have hlast : c ≤ last := h.cursor_le last List.mem_cons_self
  cases earlier with
  | nil =>
    simp only [act, adjust_exact, Fault.ok_bind] at hact
    obtain rfl := Except.ok.inj hact
    exact ⟨rfl, hrun.adjust h.lt_size hlast (Nat.lt_succ_self last) second,
      (hrun.mono hlast).adjust_zero h.lt_size⟩
  | cons previous older =>
    simp only [act, adjust_exact, Fault.ok_bind] at hact
    obtain rfl := Except.ok.inj hact
    obtain ⟨hprevious, hlt, hsize⟩ := h.previous
    have hfirst := hrun.adjust hsize hprevious (Nat.lt_succ_self previous) first
    have hlast' : last < (run.reposition previous first.added).size := by
      rw [size_reposition]
      exact h.lt_size
    exact ⟨rfl, hfirst.adjust hlast' hlt (Nat.lt_succ_self last) second,
      (hfirst.mono hlt).adjust_zero hlast'⟩

lemma Reached.bounded_linkCursive (h : Reached c run base? last earlier) (hrun : run.Bounded c)
    {table : CursiveAttachment}
    (hact : act .exact ⟨run, last :: earlier, 0⟩ base? (.linkCursive table) = .ok e) :
    e.shift = 0 ∧ e.run.Bounded last := by
  cases earlier with
  | nil =>
    obtain rfl := Except.ok.inj hact
    exact ⟨rfl, hrun.mono (h.cursor_le last List.mem_cons_self)⟩
  | cons previous older =>
    simp only [act, link_exact, Fault.ok_bind] at hact
    obtain rfl := Except.ok.inj hact
    obtain ⟨hprevious, hlt, -⟩ := h.previous
    exact ⟨rfl, hrun.linked h.lt_size hprevious hlt table⟩

/-- **An action keeps to the limits** of the cursor that the run goes on with: behind its glyph, or
on it if the action retains it. -/
theorem Reached.bounded (h : Reached c run base? last earlier) (hrun : run.Bounded c)
    (hact : act .exact ⟨run, last :: earlier, 0⟩ base? action = .ok e)
    (hnext : (c' : Int) = last + 1 + e.shift ∨
      action.retainsLast ∧ (c' : Int) = last + e.shift ∧ c < c') : e.run.Bounded c' := by
  have hlast : c ≤ last := h.cursor_le last List.mem_cons_self
  -- most actions leave the run as long as it is
  have hstays : e.shift = 0 → c' = last + 1 ∨ action.retainsLast ∧ c' = last := by
    intro hshift
    rcases hnext with hnext | ⟨hretains, hnext, -⟩
    · exact .inl (by omega)
    · exact .inr ⟨hretains, by omega⟩
  have hbehind : ¬ action.retainsLast → e.shift = 0 → c' = last + 1 := fun hne hshift =>
    (hstays hshift).resolve_right fun hretains => hne hretains.1
  cases action with
  | delta | replace =>
    obtain rfl := Except.ok.inj hact
    obtain rfl := hbehind Bool.false_ne_true rfl
    intro k
    rw [positionAt_rename]
    exact hrun.mono (Nat.le_succ_of_le hlast) k
  | expand glyphs =>
    obtain ⟨hbounded, hle⟩ := h.bounded_expand hrun hact
    rcases hnext with hnext | ⟨hretains, -⟩
    · exact hbounded.mono (by omega)
    · cases hretains
  | ligate glyph components =>
    obtain ⟨hbounded, hle⟩ := h.bounded_ligate hrun hact
    rcases hnext with hnext | ⟨hretains, -⟩
    · exact hbounded.mono (by omega)
    · cases hretains
  | adjust record =>
    simp only [act, adjust_exact, Fault.ok_bind] at hact
    obtain rfl := Except.ok.inj hact
    obtain rfl := hbehind Bool.false_ne_true rfl
    exact hrun.adjust h.lt_size hlast (Nat.lt_succ_self last) record
  | adjustPair first second =>
    obtain ⟨hshift, hbounded, hretained⟩ := h.bounded_adjustPair hrun hact
    rcases hstays hshift with rfl | ⟨hretains, rfl⟩
    · exact hbounded
    · exact hretained hretains
  | linkCursive table =>
    obtain ⟨hshift, hbounded⟩ := h.bounded_linkCursive hrun hact
    rcases hstays hshift with rfl | ⟨-, rfl⟩
    · exact hbounded.mono (Nat.le_succ last)
    · exact hbounded
  | attachMark table =>
    cases base? with
    | none =>
      obtain rfl := Except.ok.inj hact
      obtain rfl := hbehind Bool.false_ne_true rfl
      exact hrun.mono (Nat.le_succ_of_le hlast)
    | some base =>
      simp only [act, attach_exact, Fault.ok_bind] at hact
      obtain rfl := Except.ok.inj hact
      obtain rfl := hbehind Bool.false_ne_true rfl
      have hbase := (h.base_lt base rfl).trans_le hlast
      exact hrun.attached h.lt_size hlast hbase table

/-- **What an action computes** is at most three words for each glyph up to its own. -/
theorem Reached.natAbs_le_of_mem_sums (h : Reached c run base? last earlier) (hrun : run.Bounded c)
    (hx : x ∈ sums ⟨run, last :: earlier, 0⟩ base? action) : x.natAbs ≤ 98304 * last + 98304 := by
  have hlast : c ≤ last := h.cursor_le last List.mem_cons_self
  cases action with
  | delta | replace | expand | ligate => exact absurd hx List.not_mem_nil
  | adjust record =>
    have hle := hrun.natAbs_le_of_mem_adjustSums hlast hx
    omega
  | adjustPair first second =>
    cases earlier with
    | nil =>
      have hle := hrun.natAbs_le_of_mem_adjustSums hlast hx
      omega
    | cons previous older =>
      obtain ⟨hprevious, hlt, hsize⟩ := h.previous
      rcases List.mem_append.1 hx with hx | hx
      · have hle := hrun.natAbs_le_of_mem_adjustSums hprevious hx
        omega
      · have hfirst := hrun.adjust hsize hprevious (Nat.lt_succ_self previous) first
        have hle := hfirst.natAbs_le_of_mem_adjustSums hlt hx
        omega
  | linkCursive table =>
    cases earlier with
    | nil => exact absurd hx List.not_mem_nil
    | cons previous older =>
      obtain ⟨hprevious, hlt, -⟩ := h.previous
      have hle := hrun.natAbs_le_of_mem_linkSums hprevious hx
      omega
  | attachMark table =>
    cases base? with
    | none => exact absurd hx List.not_mem_nil
    | some base =>
      have hbase := (h.base_lt base rfl).trans_le hlast
      have hle := hrun.natAbs_le_of_mem_attachSums hbase hx
      omega

end Edit

/-! ### Rules -/

theorem View.base?_lt {v : View} {rule : Rule} {f : Finding} (h : v.evaluate? rule = some f) :
    ∀ base, f.base? = some base → base < v.cursor := by
  refine evaluate?_induction (P := fun f => ∀ base, f.base? = some base → base < v.cursor)
    (by simp) ?_ h
  intro f step _ g hf hg base hbase
  rw [find?, Option.map_eq_some_iff] at hg
  obtain ⟨hit, htest, rfl⟩ := hg
  cases hit with
  | accepted => exact hf base hbase
  | consumed => exact hf base hbase
  | probed offset index =>
    obtain ⟨matcher, flags, -, hindex, -⟩ := test_eq_probed_iff.1 htest
    rcases Option.or_eq_some_iff.1 hbase with hbase | ⟨-, hnew⟩
    · exact hf base hbase
    · split_ifs at hnew with hoffset
      subst hoffset
      obtain rfl := Option.some.inj hnew
      have hstep : v.run.stepFiltered (skips v.categories flags) .backward (0 + 1) v.cursor =
          some index := hindex
      have hcursor : v.cursor < v.run.size := by
        by_contra hout
        unfold GlyphRun.stepFiltered at hstep
        rw [if_neg hout] at hstep
        cases hstep
      rw [GlyphRun.stepFiltered_backward hcursor] at hstep
      obtain ⟨p, hp, rfl⟩ := Option.map_eq_some_iff.1 hstep
      exact (GlyphRun.of_mem_preceding (List.mem_of_getElem? hp)).1

namespace Simulator

variable {sim : Simulator} {rules : List Rule} {spots : List Places} {s s' : Simulation}
  {cursor : Nat}

/-- **What a match carries out** is an action on the glyph that it has consumed last, with all that
it has consumed behind the cursor and its base in front of it. -/
theorem exists_reached (hspells : sim.machine.Spells rules spots)
    (hregular : ∀ rule ∈ rules, rule.Regular) {path : Match}
    (hpath : Scene.search ⟨⟨sim.categories, run, cursor⟩, sim.machine⟩
      sim.options.maxMatchDepth.toNat = .matched path) :
    ∃ (found : List Nat) (last : Nat) (action : Action),
      Edit.plan sim.machine path = found.map (·, none) ++ [(last, some action)] ∧
        Edit.Reached cursor run path.base? last found.reverse := by
  obtain ⟨rule, hrule, f, heval, hplan, hbase⟩ := hspells.exists_finding hregular hpath
  obtain ⟨found, last, action, hshape⟩ := View.plan_of_regular (hregular rule hrule) heval
  obtain ⟨hsorted, hcursor, hlt⟩ := View.ascends_of_evaluate? heval
  have hindices : f.plan.map (·.1) = found ++ [last] := by simp [hshape, Function.comp_def]
  rw [hindices] at hsorted hcursor hlt
  refine ⟨found, last, action, hplan.trans hshape, Edit.pairwise_placed hsorted, ?_, ?_, ?_⟩
  · intro i hi
    exact hcursor i (by simpa [or_comm] using hi)
  · exact hlt last (by simp)
  · rw [hbase]
    exact View.base?_lt heval

theorem natAbs_le_of_mem_sumsAt (hspells : sim.machine.Spells rules spots)
    (hregular : ∀ rule ∈ rules, rule.Regular) (hrun : run.Bounded cursor)
    (hx : x ∈ sim.sumsAt run cursor) : x.natAbs ≤ 98304 * run.size := by
  unfold sumsAt at hx
  split at hx
  · rename_i path hpath
    obtain ⟨found, last, action, hplan, hreached⟩ := exists_reached hspells hregular hpath
    rw [hplan, Edit.planSums_last] at hx
    have hle := hreached.natAbs_le_of_mem_sums hrun hx
    have hlt := hreached.lt_size
    omega
  · exact absurd hx List.not_mem_nil
  · exact absurd hx List.not_mem_nil

theorem bounded_advance (hspells : sim.machine.Spells rules spots)
    (hregular : ∀ rule ∈ rules, rule.Regular) (hforward : sim.machine.direction = .forward)
    (hexact : sim.arithmetic = .exact) (hrun : s.run.Bounded cursor)
    (h : sim.advance s cursor = .ok s') {next : Nat}
    (hnext : s'.cursor = some next) : s'.run.Bounded next := by
  have honward : ∀ next, s.run.step sim.machine.direction 1 cursor = some next →
      s.run.Bounded next := by
    intro next hstep
    rw [hforward] at hstep
    have hless := (GlyphRun.remaining_step hstep).2
    simp only [GlyphRun.remaining] at hless
    exact hrun.mono (by omega)
  have hcases := advance_cases h
  cases hsearch : Scene.search ⟨⟨sim.categories, s.run, cursor⟩, sim.machine⟩
      sim.options.maxMatchDepth.toNat with
  | exhausted =>
    rw [hsearch] at hcases
    obtain rfl := hcases
    exact honward next hnext
  | limitReached =>
    rw [hsearch] at hcases
    obtain rfl := hcases
    exact honward next hnext
  | matched path =>
    rw [hsearch] at hcases
    obtain ⟨run, next?, happly, rfl⟩ := hcases
    obtain rfl : next? = some next := hnext
    obtain ⟨found, last, action, hplan, hreached⟩ := exists_reached hspells hregular hsearch
    rw [Match.apply, hplan, hforward, hexact, Edit.carryOut, Edit.perform_last] at happly
    cases hact : Edit.act .exact ⟨s.run, last :: found.reverse, 0⟩ path.base? action with
    | error fault =>
      rw [hact] at happly
      cases happly
    | ok e =>
      rw [hact] at happly
      obtain ⟨rfl, hnext⟩ := Prod.mk.inj (Except.ok.inj happly)
      refine hreached.bounded hrun hact ?_
      have hconsumed : Edit.lastConsumed cursor
          (found.map (·, none) ++ [(last, some action)]) = last := by
        simp [Edit.lastConsumed]
      have hretains : Edit.retains (found.map (·, none) ++ [(last, some action)]) =
          action.retainsLast := by
        simp [Edit.retains]
      have hgoes := (Edit.nextForward_cases hnext).2
      rwa [hconsumed, hretains] at hgoes

/-- **A forward run** keeps to the limits of its cursor. -/
theorem bounded_loop (hspells : sim.machine.Spells rules spots)
    (hregular : ∀ rule ∈ rules, rule.Regular) (hforward : sim.machine.direction = .forward)
    {fuel : Nat} (h : sim.loop fuel s = .ok s') (hexact : sim.arithmetic = .exact)
    (hs : ∀ cursor, s.cursor = some cursor → s.run.Bounded cursor) :
    ∀ cursor, s'.cursor = some cursor → s'.run.Bounded cursor := by
  refine loop_induction
    (P := fun s => ∀ cursor, s.cursor = some cursor → s.run.Bounded cursor) ?_ h hs
  intro s₁ cursor s₂ hs₁ hcursor hadvance next hnext
  exact bounded_advance hspells hregular hforward hexact (hs₁ cursor hcursor) hadvance hnext

end Simulator

/-! ### Compiled machines -/

namespace Simulator

section Compiled

variable {lookups : List Lookup} {options : CompileOptions} {compiled : Compiled}
  (h : compile lookups options = .ok compiled) (categories : Option ClassDef)
  (limits : SimulatorOptions) (arithmetic : Arithmetic) {n : Nat}

include h

/-- What a compiled machine computes is in range if the run of exact sums stays short. -/
lemma isWord_of_mem_sums (hrun : ∀ g ∈ run, g.position = {})
    (hsize : ∀ k < n, ∀ s, loop ⟨compiled.machine, categories, limits, .exact⟩ k
      { run, cursor := run.start compiled.machine.direction } = .ok s → s.run.size ≤ 16000) :
    ∀ x ∈ sums ⟨compiled.machine, categories, limits, arithmetic⟩ n
      { run, cursor := run.start compiled.machine.direction }, IsWord x := by
  intro x hx
  obtain ⟨m, spots, hequivalent, hspells, hdirection⟩ := exists_spells_compile h
  obtain ⟨k, hk, s, cursor, hloop, hcursor, hx⟩ := exists_loop_of_mem_sums hx
  have hsmall := hsize k hk s hloop
  rw [sumsAt_eq hequivalent] at hx
  rw [exactly, loop_eq hequivalent] at hloop
  cases hcommon : Lookup.commonDirection lookups with
  | forward =>
    have hbounded := bounded_loop hspells Lookup.regular_flatMap_rules (hdirection.trans hcommon)
      hloop rfl (fun _ _ => GlyphRun.bounded_of_zero hrun) cursor hcursor
    have hle := natAbs_le_of_mem_sumsAt hspells Lookup.regular_flatMap_rules hbounded hx
    unfold IsWord
    omega
  | backward =>
    have hsubstitutes : ∀ rule ∈ lookups.flatMap Lookup.rules, rule.Substitutes := by
      intro rule hrule
      obtain ⟨l, hl, hrule⟩ := List.mem_flatMap.1 hrule
      have hdirection := Lookup.direction_of_compile h hl (List.ne_nil_of_mem hrule)
      exact Lookup.substitutes_of_backward (hdirection.trans hcommon) hrule
    rw [sumsAt_eq_nil hspells Lookup.regular_flatMap_rules hsubstitutes] at hx
    exact absurd hx List.not_mem_nil

/-- **Positions fit words of 32 bits.** Whatever the lookups, the options, the categories and the
limits, if a run that has not been moved has no more than 16000 glyphs at any of the first `n`
positions that a compiled machine processes, all that its positioning actions compute there, the
sums in between included, is in the range of signed words of 32 bits. So up to there every build
computes the exact sums. -/
theorem sums_fit (hrun : ∀ g ∈ run, g.position = {})
    (hsize : ∀ k < n, ∀ s, loop ⟨compiled.machine, categories, limits, arithmetic⟩ k
      { run, cursor := run.start compiled.machine.direction } = .ok s → s.run.size ≤ 16000) :
    (∀ x ∈ sums ⟨compiled.machine, categories, limits, arithmetic⟩ n
      { run, cursor := run.start compiled.machine.direction }, -2 ^ 31 ≤ x ∧ x < 2 ^ 31) ∧
    ∀ k ≤ n, loop ⟨compiled.machine, categories, limits, arithmetic⟩ k
        { run, cursor := run.start compiled.machine.direction } =
      loop ⟨compiled.machine, categories, limits, .exact⟩ k
        { run, cursor := run.start compiled.machine.direction } := by
  -- as long as the two runs agree, the sizes of the one are those of the other
  induction n with
  | zero => exact ⟨nofun, fun k hk => by rw [Nat.le_zero.1 hk]; rfl⟩
  | succ n ih =>
    obtain ⟨-, hagree⟩ := ih fun k hk => hsize k (Nat.lt_succ_of_lt hk)
    have hwords := isWord_of_mem_sums h categories limits arithmetic hrun (n := n + 1)
      fun k hk s hs => hsize k hk s ((hagree k (Nat.le_of_lt_succ hk)).trans hs)
    refine ⟨fun x hx => hwords x hx, fun k hk => ?_⟩
    rcases Nat.le_succ_iff.1 hk with hk | rfl
    · exact hagree k hk
    · exact loop_eq_exactly (Arithmetic.keeps_of_forall_isWord hwords arithmetic)

end Compiled

end Simulator

/-- Links and marks. -/
def Lookup.joining : List Lookup :=
  [⟨.ignoreMarks, .cursive .chained⟩, ⟨.none, .markToBase .stacked⟩]

/-- The machine of the links and marks, which knows the glyphs 5 and 6 as marks. -/
def Simulator.joining : Simulator :=
  ⟨(Trie.addPaths {} (Lookup.joining.flatMap Lookup.rules)).machine,
    some ⟨.list 5 #[3, 3], rfl⟩, {}, .wrapping⟩

theorem Simulator.sums_fit_joining :
    compile Lookup.joining { optimize := false } = .ok ⟨joining.machine, 2, none⟩ ∧
    (∀ g ∈ GlyphRun.ofIds [1, 1, 5], g.position = {}) ∧
    (∀ k < 3, ∀ s, joining.loop k { run := .ofIds [1, 1, 5], cursor := some 0 } = .ok s →
      s.run.size ≤ 16000) ∧
    joining.sums 3 { run := .ofIds [1, 1, 5], cursor := some 0 } =
      [100, 0, 30, 25, 0, 0, 0, 250, 240, 240, 525, 525] ∧
    ∀ x ∈ joining.sums 3 { run := .ofIds [1, 1, 5], cursor := some 0 },
      -2 ^ 31 ≤ x ∧ x < 2 ^ 31 := by
  have hcompile : compile Lookup.joining { optimize := false } =
      .ok ⟨joining.machine, 2, none⟩ := rfl
  have hrun : ∀ g ∈ GlyphRun.ofIds [1, 1, 5], g.position = {} := by decide
  have hsizes : ∀ k < 3, (joining.loop k { run := .ofIds [1, 1, 5], cursor := some 0 }).map
      (·.run.size) = .ok 3 := by
    decide +kernel
  have hsize : ∀ k < 3, ∀ s, joining.loop k { run := .ofIds [1, 1, 5], cursor := some 0 } = .ok s →
      s.run.size ≤ 16000 := by
    intro k hk s hs
    have hthree := hsizes k hk
    rw [hs] at hthree
    have hthree : s.run.size = 3 := Except.ok.inj hthree
    omega
  have hsums : joining.sums 3 { run := .ofIds [1, 1, 5], cursor := some 0 } =
      [100, 0, 30, 25, 0, 0, 0, 250, 240, 240, 525, 525] := by
    decide +kernel
  exact ⟨hcompile, hrun, hsize, hsums,
    (sums_fit hcompile (some ⟨.list 5 #[3, 3], rfl⟩) {} .wrapping hrun hsize).1⟩

end Shaping
