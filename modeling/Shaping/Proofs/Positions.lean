import Mathlib.Algebra.Order.Ring.Int
import Shaping.Proofs.Endings
import Shaping.Simulation.Edit

/-!
The numbers that positioning computes. For each way in which glyphs are moved, the sums are listed
in the order in which they are formed, those in between included. An arithmetic that keeps all sums
of a list as they are makes of the run what exact sums make of it.
-/

namespace Shaping

/-! ### Sums that are kept -/

namespace Arithmetic

variable {a : Arithmetic} {x : Int} {sums sums' : List Int}

/-- The arithmetic keeps all these sums as they are. -/
def Keeps (a : Arithmetic) (sums : List Int) : Prop := ∀ x ∈ sums, a.keep x = .ok x

lemma keeps_exact (sums : List Int) : exact.Keeps sums := fun _ _ => rfl

lemma keeps_of_forall_isWord (h : ∀ x ∈ sums, IsWord x) (a : Arithmetic) : a.Keeps sums :=
  fun x hx => keep_of_isWord (h x hx) a

lemma keeps_cons : a.Keeps (x :: sums) ↔ a.keep x = .ok x ∧ a.Keeps sums := List.forall_mem_cons

lemma keeps_append : a.Keeps (sums ++ sums') ↔ a.Keeps sums ∧ a.Keeps sums' :=
  List.forall_mem_append

end Arithmetic

variable {a : Arithmetic}

/-! ### Records -/

namespace ValueRecord

/-- The sums that a record makes with a position. -/
def sums (r : ValueRecord) (p : Position) : List Int :=
  [p.xOffset + r.xPlacement.toInt, p.yOffset + r.yPlacement.toInt, p.xAdvance + r.xAdvance.toInt,
    p.yAdvance + r.yAdvance.toInt]

/-- The position that a record makes of another one in exact arithmetic. -/
def added (r : ValueRecord) (p : Position) : Position where
  xOffset := p.xOffset + r.xPlacement.toInt
  yOffset := p.yOffset + r.yPlacement.toInt
  xAdvance := p.xAdvance + r.xAdvance.toInt
  yAdvance := p.yAdvance + r.yAdvance.toInt

theorem sums_eq (r : ValueRecord) (p : Position) :
    r.sums p = [(r.added p).xOffset, (r.added p).yOffset, (r.added p).xAdvance,
      (r.added p).yAdvance] := rfl

theorem applyTo_eq {r : ValueRecord} {p : Position} (h : a.Keeps (r.sums p)) :
    r.applyTo a p = .ok (r.added p) := by
  simp only [sums, Arithmetic.keeps_cons] at h
  obtain ⟨hxOffset, hyOffset, hxAdvance, hyAdvance, -⟩ := h
  rw [applyTo, hxOffset, hyOffset, hxAdvance, hyAdvance]
  rfl

end ValueRecord

namespace GlyphRun

variable {run : GlyphRun} {base front index i k : Nat}

/-! ### Positions of a run -/

/-- The position of the glyph at an index. -/
def positionAt (run : GlyphRun) (i : Nat) : Position := (run[i]?.map (·.position)).getD {}

lemma positionAt_of_getElem? {g : ShapedGlyph} (h : run[i]? = some g) :
    run.positionAt i = g.position := by
  rw [positionAt, h]
  rfl

lemma positionAt_reposition (hi : i < run.size) (f : Position → Position) (k : Nat) :
    (run.reposition i f).positionAt k =
      if k = i then f (run.positionAt k) else run.positionAt k := by
  rw [positionAt, positionAt, reposition, Array.getElem?_modify]
  by_cases hk : k = i
  · subst hk
    rw [if_pos rfl, if_pos rfl, Array.getElem?_eq_getElem hi]
    rfl
  · rw [if_neg (Ne.symm hk), if_neg hk]

@[simp] lemma size_reposition (run : GlyphRun) (i : Nat) (f : Position → Position) :
    (run.reposition i f).size = run.size := Array.size_modify

lemma reposition_of_le (h : run.size ≤ i) (f : Position → Position) : run.reposition i f = run := by
  refine Array.ext_getElem? fun k => ?_
  rw [reposition, Array.getElem?_modify]
  split_ifs with hk
  · rw [← hk, Array.getElem?_eq_none h]
    rfl
  · rfl

/-! ### Records of a run -/

/-- The sums that a record makes with the position of the glyph at an index, if there is one. -/
def adjustSums (run : GlyphRun) (record : ValueRecord) (index : Nat) : List Int :=
  if index < run.size then record.sums (run.positionAt index) else []

theorem adjust_eq {record : ValueRecord} (h : a.Keeps (run.adjustSums record index)) :
    run.adjust a record index = .ok (run.reposition index record.added) := by
  rw [adjust]
  cases hg : run[index]? with
  | none => rw [reposition_of_le (Array.getElem?_eq_none_iff.1 hg)]
  | some g =>
    obtain ⟨hindex, hget⟩ := Array.getElem?_eq_some_iff.1 hg
    rw [adjustSums, if_pos hindex, positionAt_of_getElem? hg] at h
    dsimp only
    rw [ValueRecord.applyTo_eq h]
    refine congrArg Except.ok (Array.ext_getElem? fun k => ?_)
    rw [reposition, reposition, Array.getElem?_modify, Array.getElem?_modify]
    split_ifs with hk
    · rw [← hk, hg]
      rfl
    · rfl

@[simp] lemma adjust_exact (run : GlyphRun) (record : ValueRecord) (index : Nat) :
    run.adjust .exact record index = .ok (run.reposition index record.added) :=
  adjust_eq (Arithmetic.keeps_exact _)

/-! ### Links -/

/-- Lays the entry of the glyph at `j` on the exit of the glyph at `i`. -/
def join (run : GlyphRun) (i j : Nat) (exit entry : Anchor) : GlyphRun :=
  (run.reposition i fun p => { p with xAdvance := exit.x.toInt }).reposition j fun p =>
    { p with
      xOffset := -entry.x.toInt
      yOffset := (run.positionAt i).yOffset + exit.y.toInt - entry.y.toInt }

/-- The numbers that a link computes: the advance of the front glyph, and the two offsets of the
other one, the second in two steps. -/
def linkSums (run : GlyphRun) (table : CursiveAttachment) (front index : Nat) : List Int :=
  let anchors (i : Nat) := run[i]?.bind fun g => table.entryExit? g.id
  match (anchors front).bind (·.exit), (anchors index).bind (·.entry) with
  | some exit, some entry =>
    let y := (run.positionAt front).yOffset
    [exit.x.toInt, -entry.x.toInt, y + exit.y.toInt, y + exit.y.toInt - entry.y.toInt]
  | _, _ => []

/-- What a link makes of a run in exact arithmetic. -/
def linked (run : GlyphRun) (table : CursiveAttachment) (front index : Nat) : GlyphRun :=
  let anchors (i : Nat) := run[i]?.bind fun g => table.entryExit? g.id
  match (anchors front).bind (·.exit), (anchors index).bind (·.entry) with
  | some exit, some entry => run.join front index exit entry
  | _, _ => run

theorem link_cases (run : GlyphRun) (table : CursiveAttachment) (front index : Nat) :
    (run.linkSums table front index = [] ∧ run.linked table front index = run) ∨
    ∃ exit entry : Anchor,
      run.linkSums table front index = [exit.x.toInt, -entry.x.toInt,
        (run.positionAt front).yOffset + exit.y.toInt,
        (run.positionAt front).yOffset + exit.y.toInt - entry.y.toInt] ∧
      run.linked table front index = run.join front index exit entry := by
  unfold linkSums linked
  dsimp only
  cases (run[front]?.bind fun g => table.entryExit? g.id).bind (·.exit) with
  | none => exact .inl ⟨rfl, rfl⟩
  | some exit =>
    cases (run[index]?.bind fun g => table.entryExit? g.id).bind (·.entry) with
    | none => exact .inl ⟨rfl, rfl⟩
    | some entry => exact .inr ⟨exit, entry, rfl, rfl⟩

lemma size_linked (run : GlyphRun) (table : CursiveAttachment) (front index : Nat) :
    (run.linked table front index).size = run.size := by
  rcases run.link_cases table front index with ⟨-, heq⟩ | ⟨exit, entry, -, heq⟩
  · rw [heq]
  · rw [heq, join, size_reposition, size_reposition]

theorem link_eq {table : CursiveAttachment} (h : a.Keeps (run.linkSums table front index)) :
    run.link a table front index = .ok (run.linked table front index) := by
  have hy : (run[front]?.map (·.position.yOffset)).getD 0 = (run.positionAt front).yOffset := by
    cases hfront : run[front]? <;> simp [positionAt, hfront]
  unfold linkSums at h
  unfold link linked
  dsimp only at h ⊢
  rw [hy]
  cases hexit : (run[front]?.bind fun g => table.entryExit? g.id).bind (·.exit) with
  | none => rfl
  | some exit =>
    cases hentry : (run[index]?.bind fun g => table.entryExit? g.id).bind (·.entry) with
    | none => rfl
    | some entry =>
      simp only [hexit, hentry, Arithmetic.keeps_cons] at h
      obtain ⟨-, -, hup, hdown, -⟩ := h
      simp only [hup, hdown, Fault.ok_bind]
      rfl

@[simp] lemma link_exact (run : GlyphRun) (table : CursiveAttachment) (front index : Nat) :
    run.link .exact table front index = .ok (run.linked table front index) :=
  link_eq (Arithmetic.keeps_exact _)

/-! ### Attachments -/

/-- The sum of the advances of the glyphs from `first` up to `last`. -/
def advanceBetween (run : GlyphRun) (first last : Nat) : Int :=
  if first ≤ last ∧ last ≤ run.size then
    (run.extract first last).foldl (fun sum g => sum + g.position.xAdvance) 0
  else 0

lemma advanceBetween_self (run : GlyphRun) (i : Nat) : run.advanceBetween i i = 0 := by
  rw [advanceBetween, Array.extract_eq_empty_of_le (Nat.min_le_left i run.size)]
  split_ifs <;> rfl

lemma advanceBetween_succ (hbase : base ≤ i) (hi : i < run.size) :
    run.advanceBetween base (i + 1) = run.advanceBetween base i + (run.positionAt i).xAdvance := by
  have hget : run[i]? = some run[i] := Array.getElem?_eq_getElem hi
  rw [advanceBetween, advanceBetween, if_pos ⟨Nat.le_succ_of_le hbase, hi⟩, if_pos ⟨hbase, hi.le⟩,
    Array.extract_succ_right (Nat.lt_succ_of_le hbase) hi, Array.foldl_push,
    positionAt_of_getElem? hget]

theorem sumAdvances_eq (h : a.Keeps ((List.range (index + 1)).map (run.advanceBetween base))) :
    run.sumAdvances a base index = .ok (run.advanceBetween base index) := by
  have hkeep : ∀ i ≤ index,
      a.keep (run.advanceBetween base i) = .ok (run.advanceBetween base i) := fun i hi =>
    h _ (List.mem_map.2 ⟨i, List.mem_range.2 (Nat.lt_succ_of_le hi), rfl⟩)
  clear h
  rw [sumAdvances]
  split_ifs with hrange
  · obtain ⟨hbase, hindex⟩ := hrange
    -- by induction on the glyphs that have been added
    induction index, hbase using Nat.le_induction with
    | base =>
      rw [advanceBetween_self, Array.extract_eq_empty_of_le (Nat.min_le_left base run.size)]
      rfl
    | succ index hbase ih =>
      have hget : run[index]? = some run[index] := Array.getElem?_eq_getElem hindex
      rw [Array.extract_succ_right (Nat.lt_succ_of_le hbase) hindex, Array.foldlM_push,
        ih (fun i hi => hkeep i (Nat.le_succ_of_le hi)) (Nat.le_of_lt hindex)]
      rw [← hkeep (index + 1) (Nat.le_refl _), advanceBetween_succ hbase hindex,
        positionAt_of_getElem? hget]
      rfl
  · rw [advanceBetween, if_neg hrange]

/-- Moves the glyph at `j` so that the point `mark` of it lies on the point `anchor` of the glyph at
`i`. -/
def layOn (run : GlyphRun) (i j : Nat) (anchor mark : Anchor) : GlyphRun :=
  run.reposition j fun p =>
    { p with
      xOffset := (run.positionAt i).xOffset + anchor.x.toInt - mark.x.toInt -
        run.advanceBetween i j
      yOffset := (run.positionAt i).yOffset + anchor.y.toInt - mark.y.toInt }

/-- The numbers that an attachment computes: the advances from the base on, one added to the other,
and the two offsets of the mark, step by step. -/
def attachSums (run : GlyphRun) (table : MarkToBase) (base index : Nat) : List Int :=
  match run[base]?, run[index]? with
  | some baseGlyph, some markGlyph =>
    match table.mark? markGlyph.id with
    | none => []
    | some mark =>
      match table.baseAnchor? baseGlyph.id mark.cls with
      | none => []
      | some anchor =>
        let x := baseGlyph.position.xOffset + anchor.x.toInt
        let y := baseGlyph.position.yOffset + anchor.y.toInt
        (List.range (index + 1)).map (run.advanceBetween base) ++
          [x, x - mark.anchor.x.toInt, x - mark.anchor.x.toInt - run.advanceBetween base index,
            y, y - mark.anchor.y.toInt]
  | _, _ => []

/-- What an attachment makes of a run in exact arithmetic. -/
def attached (run : GlyphRun) (table : MarkToBase) (base index : Nat) : GlyphRun :=
  match run[base]?, run[index]? with
  | some baseGlyph, some markGlyph =>
    match table.mark? markGlyph.id with
    | none => run
    | some mark =>
      match table.baseAnchor? baseGlyph.id mark.cls with
      | none => run
      | some anchor => run.layOn base index anchor mark.anchor
  | _, _ => run

theorem attach_cases (run : GlyphRun) (table : MarkToBase) (base index : Nat) :
    (run.attachSums table base index = [] ∧ run.attached table base index = run) ∨
    ∃ anchor mark : Anchor, base < run.size ∧ index < run.size ∧
      run.attachSums table base index =
        (List.range (index + 1)).map (run.advanceBetween base) ++
          [(run.positionAt base).xOffset + anchor.x.toInt,
            (run.positionAt base).xOffset + anchor.x.toInt - mark.x.toInt,
            (run.positionAt base).xOffset + anchor.x.toInt - mark.x.toInt -
              run.advanceBetween base index,
            (run.positionAt base).yOffset + anchor.y.toInt,
            (run.positionAt base).yOffset + anchor.y.toInt - mark.y.toInt] ∧
      run.attached table base index = run.layOn base index anchor mark := by
  unfold attachSums attached
  cases hbase : run[base]? with
  | none => exact .inl ⟨rfl, rfl⟩
  | some baseGlyph =>
    cases hindex : run[index]? with
    | none => exact .inl ⟨rfl, rfl⟩
    | some markGlyph =>
      dsimp only
      cases table.mark? markGlyph.id with
      | none => exact .inl ⟨rfl, rfl⟩
      | some mark =>
        dsimp only
        cases table.baseAnchor? baseGlyph.id mark.cls with
        | none => exact .inl ⟨rfl, rfl⟩
        | some anchor =>
          refine .inr ⟨anchor, mark.anchor, (Array.getElem?_eq_some_iff.1 hbase).1,
            (Array.getElem?_eq_some_iff.1 hindex).1, ?_, rfl⟩
          rw [positionAt_of_getElem? hbase]

lemma size_attached (run : GlyphRun) (table : MarkToBase) (base index : Nat) :
    (run.attached table base index).size = run.size := by
  rcases run.attach_cases table base index with ⟨-, heq⟩ | ⟨anchor, mark, -, -, -, heq⟩
  · rw [heq]
  · rw [heq, layOn, size_reposition]

theorem attach_eq {table : MarkToBase} (h : a.Keeps (run.attachSums table base index)) :
    run.attach a table base index = .ok (run.attached table base index) := by
  unfold attachSums at h
  unfold attach attached
  cases hbase : run[base]? with
  | none => rfl
  | some baseGlyph =>
    cases hindex : run[index]? with
    | none => rfl
    | some markGlyph =>
      rw [hbase, hindex] at h
      dsimp only at h ⊢
      cases hmark : table.mark? markGlyph.id with
      | none => rfl
      | some mark =>
        rw [hmark] at h
        dsimp only at h ⊢
        cases hanchor : table.baseAnchor? baseGlyph.id mark.cls with
        | none => rfl
        | some anchor =>
          rw [hanchor] at h
          dsimp only at h ⊢
          rw [Arithmetic.keeps_append] at h
          simp only [Arithmetic.keeps_cons] at h
          obtain ⟨hadvances, hx, hx', hx'', hy, hy', -⟩ := h
          simp only [sumAdvances_eq hadvances, hx, hx', hx'', hy, hy', Fault.ok_bind]
          rw [layOn, positionAt_of_getElem? hbase]
          rfl

@[simp] lemma attach_exact (run : GlyphRun) (table : MarkToBase) (base index : Nat) :
    run.attach .exact table base index = .ok (run.attached table base index) :=
  attach_eq (Arithmetic.keeps_exact _)

end GlyphRun

end Shaping
