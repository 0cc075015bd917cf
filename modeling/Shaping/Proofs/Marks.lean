import Mathlib.Algebra.BigOperators.Intervals
import Shaping.Proofs.Sweeps

/-!
Mark-to-base attachment, compiled alone. A mark is moved from the end of its base, which is as far
away as the advances in between say, to the base's anchor. A base may be a mark that has been moved
itself, so what is said of the positions at the end needs that no glyph is moved once the cursor has
passed it. Main statement: `MarkToBase.simulate_attaches`.
-/

namespace Shaping

/-! ### Advances -/

namespace GlyphRun

variable {run run' : GlyphRun} {i j n : Nat} {anchor mark : Anchor}

lemma advanceBetween_eq_sum (hij : i ≤ j) (hj : j ≤ run.size) :
    run.advanceBetween i j = ∑ k ∈ Finset.Ico i j, (run.positionAt k).xAdvance := by
  induction j, hij using Nat.le_induction with
  | base => rw [advanceBetween_self, Finset.Ico_self, Finset.sum_empty]
  | succ j hij ih =>
    rw [Finset.sum_Ico_succ_top hij, ← ih (Nat.le_of_lt hj), advanceBetween_succ hij hj]

end GlyphRun

lemma Coverage.contains_of_entry_eq_some {β : Type} {c : Coverage} {payload : Array β} {g : GlyphId}
    {b : β} (h : c.entry? payload g = some b) : c.contains g := by
  obtain ⟨i, hi, -⟩ := Option.bind_eq_some_iff.1 h
  rw [contains, hi]
  rfl

namespace MarkToBase

variable {t : MarkToBase} {skip skipBase : ShapedGlyph → Bool} {run run' before after : GlyphRun}
  {categories : Option ClassDef} {flags : LookupFlags} {i j k n : Nat} {g b : ShapedGlyph}
  {anchor mark : Anchor}

/-! ### Attachments -/

/-- How the glyph at an index is attached, as the index of its base, the base's anchor and the
mark's own: the glyph, which is not skipped, is a mark, and the nearest glyph in front of it that is
not skipped as a base has an anchor for marks of its class. -/
def attachAt? (t : MarkToBase) (skip skipBase : ShapedGlyph → Bool) (run : GlyphRun) (j : Nat) :
    Option (Nat × Anchor × Anchor) :=
  ((run[j]?.filter (!skip ·)).map (·.id)).bind fun g =>
    ((run.preceding skipBase j).map fun p => (p.1.id, p.2)).head?.bind fun (b, i) =>
      (t.mark? g).bind fun mark =>
        (t.baseAnchor? b mark.cls).map fun anchor => (i, anchor, mark.anchor)

/-- Whether the glyph at an index is a mark that has a base, with or without an anchor for it. -/
def marksAt (t : MarkToBase) (skip skipBase : ShapedGlyph → Bool) (run : GlyphRun) (j : Nat) :
    Bool :=
  ((run[j]?.filter (!skip ·)).map (·.id)).any (t.markCoverage.contains ·) &&
    (((run.preceding skipBase j).map fun p => (p.1.id, p.2)).head?.any fun p =>
      t.baseCoverage.contains p.1)

lemma attachAt?_congr {flags' : LookupFlags} (h : run.ids = run'.ids) (j : Nat) :
    t.attachAt? (skips categories flags) (skips categories flags') run j =
      t.attachAt? (skips categories flags) (skips categories flags') run' j := by
  rw [attachAt?, attachAt?, GlyphRun.map_filter_skips_congr h, GlyphRun.map_preceding_congr h]

lemma marksAt_congr {flags' : LookupFlags} (h : run.ids = run'.ids) (j : Nat) :
    t.marksAt (skips categories flags) (skips categories flags') run j =
      t.marksAt (skips categories flags) (skips categories flags') run' j := by
  rw [marksAt, marksAt, GlyphRun.map_filter_skips_congr h, GlyphRun.map_preceding_congr h]

lemma attachAt?_eq_none (h : t.marksAt skip skipBase run j = false) :
    t.attachAt? skip skipBase run j = none := by
  by_contra hne
  obtain ⟨attachment, hattach⟩ := Option.ne_none_iff_exists'.1 hne
  obtain ⟨g, hg, hattach⟩ := Option.bind_eq_some_iff.1 hattach
  obtain ⟨⟨b, i⟩, hb, hattach⟩ := Option.bind_eq_some_iff.1 hattach
  obtain ⟨mark, hmark, hattach⟩ := Option.bind_eq_some_iff.1 hattach
  obtain ⟨anchor, hanchor, -⟩ := Option.map_eq_some_iff.1 hattach
  obtain ⟨row, hrow, -⟩ := Option.bind_eq_some_iff.1 hanchor
  rw [marksAt, hg, hb, Option.any_some, Option.any_some, Coverage.contains_of_entry_eq_some hmark,
    Coverage.contains_of_entry_eq_some hrow] at h
  cases h

lemma lt_of_attachAt? (h : t.attachAt? skip skipBase run j = some (i, anchor, mark)) :
    i < j ∧ j < run.size := by
  obtain ⟨g, hg, h⟩ := Option.bind_eq_some_iff.1 h
  obtain ⟨⟨b, i'⟩, hb, h⟩ := Option.bind_eq_some_iff.1 h
  obtain ⟨record, -, h⟩ := Option.bind_eq_some_iff.1 h
  obtain ⟨anchor', -, heq⟩ := Option.map_eq_some_iff.1 h
  obtain ⟨rfl, -⟩ := Prod.mk.inj heq
  obtain ⟨g', hg', -⟩ := Option.map_eq_some_iff.1 hg
  obtain ⟨p, hp, heq⟩ := List.mem_map.1 (List.mem_of_mem_head? hb)
  obtain ⟨-, rfl⟩ := Prod.mk.inj heq
  exact ⟨(GlyphRun.of_mem_preceding hp).1,
    (Array.getElem?_eq_some_iff.1 (Option.filter_eq_some_iff.1 hg').1).1⟩

/-! ### The rule -/

theorem first?_rules (t : MarkToBase) (flags : LookupFlags) {v : View}
    (hcursor : v.cursor < v.run.size) : v.first? (t.rules flags) =
      if t.marksAt (skips v.categories flags) (skips v.categories (flags.union .ignoreMarks))
          v.run v.cursor then
        some { plan := [(v.cursor, some (.attachMark t))]
               base? := (v.run.preceding (skips v.categories (flags.union .ignoreMarks))
                 v.cursor).head?.map (·.2) }
      else none := by
  have hprobe : v.test #[] (.probe (-1) t.baseCoverage.matcher (flags.union .ignoreMarks)) = _ :=
    (v.test_probe hcursor).2 (show (-1 : Int16).toInt = -((0 : Nat) + 1) from rfl)
  have hfind : v.find? {} (.probe (-1) t.baseCoverage.matcher (flags.union .ignoreMarks)) =
      ((v.run.preceding (skips v.categories (flags.union .ignoreMarks)) v.cursor).head?.filter
        fun p => t.baseCoverage.contains p.1.id).map fun p => { base? := some p.2 } := by
    simp only [Coverage.accepts_matcher, ← List.head?_eq_getElem?] at hprobe
    show (v.test #[] _).map _ = _
    rw [Label.probe, hprobe, Option.map_map]
    rfl
  have haccepts : v.accepts v.cursor t.markCoverage.matcher flags =
      ((v.run[v.cursor]?.filter (!skips v.categories flags ·)).map (·.id)).any
        (t.markCoverage.contains ·) := by
    rw [View.accepts]
    cases v.run[v.cursor]? with
    | none => rfl
    | some g =>
      rw [Option.any_some, Option.filter_some, Coverage.accepts_matcher]
      cases skips v.categories flags g <;> rfl
  rw [rules]
  by_cases hempty : (t.markCoverage.isEmpty || t.baseCoverage.isEmpty) = true
  · have hnone : t.marksAt (skips v.categories flags)
        (skips v.categories (flags.union .ignoreMarks)) v.run v.cursor = false := by
      rw [Bool.or_eq_true] at hempty
      rcases hempty with hempty | hempty <;>
        simp [marksAt, Coverage.contains_eq_false_of_isEmpty hempty]
    rw [if_pos hempty, hnone]
    rfl
  · have hrule : (.probe (-1) t.baseCoverage.matcher (flags.union .ignoreMarks) ::
        Rule.single t.markCoverage.matcher flags (.attachMark t) : Rule) =
          [.probe (-1) t.baseCoverage.matcher (flags.union .ignoreMarks),
            ⟨.consume t.markCoverage.matcher flags, some (.attachMark t)⟩] ++ [.accept] := rfl
    rw [if_neg hempty, View.first?, List.findSome?_singleton, hrule,
      View.evaluate?_concat_accept rfl, View.evaluate?, List.foldlM_cons, hfind, marksAt,
      ← haccepts, List.head?_map]
    cases (v.run.preceding (skips v.categories (flags.union .ignoreMarks)) v.cursor).head? with
    | none => simp
    | some p =>
      rw [Option.filter_some, Option.map_some, Option.any_some]
      cases t.baseCoverage.contains p.1.id with
      | false => simp
      | true =>
        rw [if_pos rfl, Option.map_some, Option.map_some, Option.bind_eq_bind, Option.bind_some,
          List.foldlM_cons, View.find?_consume_first rfl]
        cases v.accepts v.cursor t.markCoverage.matcher flags <;> rfl

theorem carryOut_attachMark (hi : i < run.size) (base : Nat) :
    Edit.carryOut .exact (some base) .forward i run [(i, some (.attachMark t))] =
      .ok (run.attached t base i, if i + 1 < run.size then some (i + 1) else none) := by
  have hperform : Edit.perform .exact (some base) { run } [(i, some (.attachMark t))] =
      .ok (.done ⟨run.attached t base i, [i], 0⟩) := by
    refine (Edit.perform_last .exact (some base) [] i (.attachMark t)).trans ?_
    rw [Edit.act]
    dsimp only
    rw [GlyphRun.attach_exact]
    rfl
  have hsize : (run.attached t base i).size = (i + 1) + (run.size - (i + 1)) := by
    rw [GlyphRun.size_attached]
    omega
  rw [Edit.carryOut_forward_eq rfl hperform (by simp) hsize,
    if_neg fun h => Bool.false_ne_true h.1]
  by_cases hrest : i + 1 < run.size
  · rw [if_pos hrest, if_neg (by omega)]
  · rw [if_neg hrest, if_pos (by omega)]

/-- Attaches the mark at an index as the ids of another run say. -/
def attachFrom (t : MarkToBase) (skip skipBase : ShapedGlyph → Bool) (before run : GlyphRun)
    (j : Nat) : GlyphRun :=
  match t.attachAt? skip skipBase before j with
  | some (i, anchor, mark) => run.layOn i j anchor mark
  | none => run

/-- The anchors of an attachment are those that the action finds. -/
lemma attached_eq_attachFrom (hg : run[j]? = some g) (hskip : skip g = false)
    (hb : (run.preceding skipBase j).head? = some (b, i)) :
    run.attached t i j = t.attachFrom skip skipBase run run j := by
  obtain ⟨-, hbase, -⟩ := GlyphRun.of_mem_preceding (List.mem_of_mem_head? hb)
  have hattach : t.attachAt? skip skipBase run j = (t.mark? g.id).bind fun mark =>
      (t.baseAnchor? b.id mark.cls).map fun anchor => (i, anchor, mark.anchor) := by
    rw [attachAt?, hg, Option.filter_some, hskip, List.head?_map, hb]
    rfl
  rw [attachFrom, hattach, GlyphRun.attached, hg, hbase]
  dsimp only
  cases t.mark? g.id with
  | none => rfl
  | some mark =>
    dsimp only [Option.bind_some]
    cases t.baseAnchor? b.id mark.cls with
    | none => rfl
    | some anchor => rfl

/-! ### Runs -/

lemma ids_attachFrom (t : MarkToBase) (skip skipBase : ShapedGlyph → Bool) (before run : GlyphRun)
    (j : Nat) : (t.attachFrom skip skipBase before run j).ids = run.ids := by
  rw [attachFrom]
  split
  · exact GlyphRun.ids_reposition _ _ _
  · rfl

lemma attachFrom_congr {flags' : LookupFlags} (h : run.ids = run'.ids) (j : Nat) :
    t.attachFrom (skips categories flags) (skips categories flags') run after j =
      t.attachFrom (skips categories flags) (skips categories flags') run' after j := by
  rw [attachFrom, attachFrom, attachAt?_congr h]

theorem visits_rules {it : Interpreter} (hrules : it.rules = t.rules flags)
    (hdirection : it.direction = .forward) (hexact : it.arithmetic = .exact) (run : GlyphRun) :
    it.Visits run
      (t.marksAt (skips it.categories flags) (skips it.categories (flags.union .ignoreMarks)) run)
      (t.attachFrom (skips it.categories flags) (skips it.categories (flags.union .ignoreMarks))
        run) where
  ids := t.ids_attachFrom _ _ run
  idle run' j h := by
    rw [attachFrom, attachAt?_eq_none h]
  advance s j hids hj := by
    have hfirst := t.first?_rules flags (v := ⟨it.categories, s.run, j⟩) hj
    rw [← hrules] at hfirst
    refine ⟨j + 1, Nat.lt_succ_self j, hj, fun k hjk hk => by omega, ?_⟩
    rw [← marksAt_congr hids, ← attachFrom_congr hids]
    split_ifs at hfirst with hmarks
    · obtain ⟨hmark, hbase⟩ := Bool.and_eq_true_iff.1 hmarks
      obtain ⟨glyph, hglyph, -⟩ := (Option.any_eq_true _ _).1 hmark
      obtain ⟨g, hfilter, -⟩ := Option.map_eq_some_iff.1 hglyph
      obtain ⟨hg, hskip⟩ := Option.filter_eq_some_iff.1 hfilter
      obtain ⟨p, hp, -⟩ := (Option.any_eq_true _ _).1 hbase
      rw [List.head?_map, Option.map_eq_some_iff] at hp
      obtain ⟨⟨b, i⟩, hb, -⟩ := hp
      -- the base that the rule has recorded is the one that the attachment speaks of
      rw [hb] at hfirst
      have hcarry := carryOut_attachMark (t := t) hj i
      rw [← hdirection, ← hexact, attached_eq_attachFrom hg (by simpa using hskip) hb] at hcarry
      rw [Interpreter.advance_of_some hfirst hcarry, if_pos hmarks]
    · rw [Interpreter.advance_forward_of_none hdirection hfirst hj, if_neg hmarks, attachFrom,
        attachAt?_eq_none (Bool.eq_false_iff.2 hmarks)]
      rfl

/-- What the attachments at the first `n` indices have made of the positions. -/
structure Attached (t : MarkToBase) (skip skipBase : ShapedGlyph → Bool) (n : Nat)
    (before after : GlyphRun) : Prop where
  anchors : ∀ j < n, ∀ i anchor mark,
    t.attachAt? skip skipBase before j = some (i, anchor, mark) →
      (after.positionAt j).xOffset + ∑ k ∈ Finset.Ico i j, (after.positionAt k).xAdvance +
        mark.x.toInt = (after.positionAt i).xOffset + anchor.x.toInt ∧
      (after.positionAt j).yOffset + mark.y.toInt =
        (after.positionAt i).yOffset + anchor.y.toInt
  advances : ∀ k, (after.positionAt k).xAdvance = (before.positionAt k).xAdvance ∧
    (after.positionAt k).yAdvance = (before.positionAt k).yAdvance
  others : ∀ k, (k < n → t.attachAt? skip skipBase before k = none) →
    after.positionAt k = before.positionAt k

lemma attached_zero (t : MarkToBase) (skip skipBase : ShapedGlyph → Bool) (run : GlyphRun) :
    t.Attached skip skipBase 0 run run :=
  ⟨by simp, fun _ => ⟨rfl, rfl⟩, fun _ _ => rfl⟩

theorem Attached.succ (h : t.Attached skip skipBase n before after)
    (hsize : after.size = before.size) :
    t.Attached skip skipBase (n + 1) before (t.attachFrom skip skipBase before after n) := by
  obtain ⟨hanchors, hadvances, hothers⟩ := h
  rw [attachFrom]
  cases hattach : t.attachAt? skip skipBase before n with
  | none =>
    refine ⟨fun j hj i anchor mark hj' => ?_, hadvances, fun k hk =>
      hothers k fun hkn => hk (by omega)⟩
    rcases Nat.lt_succ_iff_lt_or_eq.1 hj with hj | rfl
    · exact hanchors j hj i anchor mark hj'
    · rw [hattach] at hj'
      cases hj'
  | some attachment =>
    obtain ⟨i, anchor, mark⟩ := attachment
    obtain ⟨hin, hn⟩ := lt_of_attachAt? hattach
    rw [← hsize] at hn
    have hposition : ∀ k, (after.layOn i n anchor mark).positionAt k = _ :=
      GlyphRun.positionAt_reposition hn _
    have hkept : ∀ k, k ≠ n →
        (after.layOn i n anchor mark).positionAt k = after.positionAt k := fun k hk => by
      rw [hposition k, if_neg hk]
    have hadvance : ∀ k, ((after.layOn i n anchor mark).positionAt k).xAdvance =
        (after.positionAt k).xAdvance := fun k => by
      rw [hposition k]
      split_ifs <;> rfl
    refine ⟨fun j hj i' anchor' mark' hj' => ?_, fun k => ?_, fun k hk => ?_⟩
    · simp only [hadvance]
      rcases Nat.lt_succ_iff_lt_or_eq.1 hj with hj | rfl
      · obtain ⟨hij, -⟩ := lt_of_attachAt? hj'
        rw [hkept j (by omega), hkept i' (by omega)]
        exact hanchors j hj i' anchor' mark' hj'
      · obtain ⟨rfl, rfl, rfl⟩ : i = i' ∧ anchor = anchor' ∧ mark = mark' := by
          simpa using hattach.symm.trans hj'
        rw [hkept i (by omega), hposition j, if_pos rfl,
          GlyphRun.advanceBetween_eq_sum (Nat.le_of_lt hin) (Nat.le_of_lt hn)]
        constructor <;> dsimp only <;> omega
    · rw [hadvance k, hposition k, ← (hadvances k).1, ← (hadvances k).2]
      split_ifs <;> exact ⟨rfl, rfl⟩
    · have hkn : k ≠ n := by
        rintro rfl
        rw [hk (Nat.lt_succ_self k)] at hattach
        cases hattach
      rw [hkept k hkn]
      exact hothers k fun hlt => hk (by omega)

theorem attached_sweep (t : MarkToBase) (skip skipBase : ShapedGlyph → Bool) (run : GlyphRun)
    (n : Nat) : t.Attached skip skipBase n run
      (run.sweep (t.attachFrom skip skipBase run) n) :=
  GlyphRun.sweep_induction (P := fun n after => t.Attached skip skipBase n run after)
    (t.ids_attachFrom skip skipBase run) (attached_zero t skip skipBase run)
    (fun _ _ hids h => h.succ (GlyphRun.size_eq_of_ids_eq hids)) n

/-- **Marks land on their anchors.** Whatever the flags, the options, the categories and the run,
whose glyphs may stand anywhere, a mark-to-base attachment compiles alone, and if matches may follow
three transitions no search gives up. For each attached mark, the sum of its offset, the advances
from its base up to it, and its own anchor is the base's offset and anchor. Nothing else changes,
and as many rules are carried out as there are marks with a base. That is so in exact arithmetic,
and in every build if no sum on the way overflows a word. -/
theorem simulate_attaches (t : MarkToBase) (flags : LookupFlags) (options : CompileOptions)
    (categories : Option ClassDef) (limits : SimulatorOptions) (hdepth : 3 ≤ limits.maxMatchDepth)
    (run : GlyphRun) :
    ∃ compiled s, compile [⟨flags, .markToBase t⟩] options = .ok compiled ∧
      Simulator.simulate ⟨compiled.machine, categories, limits, .exact⟩ run = .ok s ∧
      ((∀ x ∈ Simulator.runSums ⟨compiled.machine, categories, limits, .exact⟩ run, IsWord x) →
        ∀ arithmetic,
          Simulator.simulate ⟨compiled.machine, categories, limits, arithmetic⟩ run = .ok s) ∧
      s.limitHits = 0 ∧ s.run.ids = run.ids ∧
      (∀ j i anchor mark, t.attachAt? (skips categories flags)
          (skips categories (flags.union .ignoreMarks)) run j = some (i, anchor, mark) →
        (s.run.positionAt j).xOffset + ∑ k ∈ Finset.Ico i j, (s.run.positionAt k).xAdvance +
          mark.x.toInt = (s.run.positionAt i).xOffset + anchor.x.toInt ∧
        (s.run.positionAt j).yOffset + mark.y.toInt =
          (s.run.positionAt i).yOffset + anchor.y.toInt) ∧
      (∀ k, (s.run.positionAt k).xAdvance = (run.positionAt k).xAdvance ∧
        (s.run.positionAt k).yAdvance = (run.positionAt k).yAdvance ∧
        (t.attachAt? (skips categories flags) (skips categories (flags.union .ignoreMarks)) run k =
          none → s.run.positionAt k = run.positionAt k)) ∧
      s.applied = (List.range run.size).countP
        (t.marksAt (skips categories flags) (skips categories (flags.union .ignoreMarks)) run) := by
  have hvisits : Interpreter.Visits ⟨t.rules flags, .forward, categories, .exact⟩ run _ _ :=
    visits_rules rfl rfl rfl run
  have hone : (t.rules flags).length ≤ 1 ∧ ∀ rule ∈ t.rules flags, rule.length = 3 := by
    rw [rules]
    split_ifs <;> simp [Rule.single]
  obtain ⟨compiled, s, hcompile, hs, hwords, hlimit, hrun, happlied⟩ :=
    Lookup.exists_run_sweep ⟨flags, .markToBase t⟩ rfl hone.1 hone.2 hvisits options hdepth
  have hattached := t.attached_sweep (skips categories flags)
    (skips categories (flags.union .ignoreMarks)) run run.size
  rw [← hrun] at hattached
  obtain ⟨hanchors, hadvances, hothers⟩ := hattached
  refine ⟨compiled, s, hcompile, hs, hwords, hlimit, ?_, fun j i anchor mark hattach => ?_, fun k =>
    ⟨(hadvances k).1, (hadvances k).2, fun hk => hothers k fun _ => hk⟩, happlied⟩
  · rw [hrun]
    exact GlyphRun.ids_sweep (t.ids_attachFrom _ _ run) run run.size
  · exact hanchors j (lt_of_attachAt? hattach).2 i anchor mark hattach

/-- A table in which the mark 5 is laid on the base 1, and so is the mark 6, which is a base for the
mark 5 as well. -/
def stacked : MarkToBase :=
  ⟨⟨.list #[5, 6], rfl⟩, ⟨.list #[1, 6], rfl⟩, 1, #[⟨0, ⟨10, 0⟩⟩, ⟨0, ⟨20, 5⟩⟩],
    #[#[some ⟨250, 500⟩], #[some ⟨30, 90⟩]], by decide +kernel⟩

/-- The mark 6 is no mark by its category, so the mark 5 behind it is laid on it. -/
theorem simulate_attaches_stacked : (3 : UInt64) ≤ 3 ∧ ∃ compiled s,
    compile [⟨.none, .markToBase stacked⟩] { optimize := false } = .ok compiled ∧
    Simulator.simulate ⟨compiled.machine, some ⟨.list 5 #[3, 1], rfl⟩, { maxMatchDepth := 3 },
      .checked⟩
      #[⟨1, { xOffset := 7, xAdvance := 400 }⟩, ⟨5, { xAdvance := 1 }⟩, ⟨6, {}⟩, ⟨5, {}⟩] =
        .ok s ∧
    s.limitHits = 0 ∧ s.applied = 3 ∧
    s.run = #[⟨1, { xOffset := 7, xAdvance := 400 }⟩,
      ⟨5, { xOffset := -153, yOffset := 500, xAdvance := 1 }⟩,
      ⟨6, { xOffset := -164, yOffset := 495 }⟩, ⟨5, { xOffset := -144, yOffset := 585 }⟩] ∧
    (s.run.positionAt 2).xOffset + ∑ k ∈ Finset.Ico 0 2, (s.run.positionAt k).xAdvance + 20 =
      (s.run.positionAt 0).xOffset + 250 := by
  have hdepth : (3 : UInt64) ≤ 3 := by decide
  obtain ⟨compiled, s, hcompile, hs, hwords, hlimit, -, hanchors, -, happlied⟩ :=
    simulate_attaches stacked .none { optimize := false } (some ⟨.list 5 #[3, 1], rfl⟩)
      { maxMatchDepth := 3 } hdepth
      #[⟨1, { xOffset := 7, xAdvance := 400 }⟩, ⟨5, { xAdvance := 1 }⟩, ⟨6, {}⟩, ⟨5, {}⟩]
  have hcompile' : compile [⟨.none, .markToBase stacked⟩] { optimize := false } =
      .ok ⟨(Lookup.trie ⟨.none, .markToBase stacked⟩).machine, 1, none⟩ := by rfl
  obtain rfl := Except.ok.inj (hcompile.symm.trans hcompile')
  have hchecked := hwords (by decide +kernel) .checked
  have hrun : (Simulator.simulate ⟨(Lookup.trie ⟨.none, .markToBase stacked⟩).machine,
      some ⟨.list 5 #[3, 1], rfl⟩, { maxMatchDepth := 3 }, .checked⟩
      #[⟨1, { xOffset := 7, xAdvance := 400 }⟩, ⟨5, { xAdvance := 1 }⟩, ⟨6, {}⟩, ⟨5, {}⟩]).map
        (·.run) = .ok #[⟨1, { xOffset := 7, xAdvance := 400 }⟩,
          ⟨5, { xOffset := -153, yOffset := 500, xAdvance := 1 }⟩,
          ⟨6, { xOffset := -164, yOffset := 495 }⟩,
          ⟨5, { xOffset := -144, yOffset := 585 }⟩] := by
    decide +kernel
  rw [hchecked] at hrun
  have hcount : (List.range 4).countP (stacked.marksAt (skips (some ⟨.list 5 #[3, 1], rfl⟩) .none)
      (skips (some ⟨.list 5 #[3, 1], rfl⟩) (LookupFlags.none.union .ignoreMarks))
      #[⟨1, { xOffset := 7, xAdvance := 400 }⟩, ⟨5, { xAdvance := 1 }⟩, ⟨6, {}⟩, ⟨5, {}⟩]) = 3 := by
    decide +kernel
  have hattach : stacked.attachAt? (skips (some ⟨.list 5 #[3, 1], rfl⟩) .none)
      (skips (some ⟨.list 5 #[3, 1], rfl⟩) (LookupFlags.none.union .ignoreMarks))
      #[⟨1, { xOffset := 7, xAdvance := 400 }⟩, ⟨5, { xAdvance := 1 }⟩, ⟨6, {}⟩, ⟨5, {}⟩] 2 =
        some (0, ⟨250, 500⟩, ⟨20, 5⟩) := by
    decide +kernel
  exact ⟨hdepth, _, s, hcompile, hchecked, hlimit, happlied.trans hcount, Except.ok.inj hrun,
    (hanchors 2 0 _ _ hattach).1⟩

end MarkToBase

end Shaping
