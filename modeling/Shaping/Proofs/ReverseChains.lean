import Shaping.Proofs.Alone
import Shaping.Proofs.Preceding

/-!
Reverse chaining, compiled alone. The run is processed from its last glyph to its first, so when a
glyph is tested, those behind it have been rewritten, and those in front of it are as they were.
Only glyph ids change. Main statement: `ReverseChainSubst.simulate_rewrites`.
-/

namespace Shaping

namespace ReverseChainSubst

/-! ### Context -/

/-- The substitute of a glyph, if it is covered. -/
def substitute? (t : ReverseChainSubst) (glyph : GlyphId) : Option GlyphId :=
  t.coverage.entry? t.substitutes glyph

/-- Whether there is a glyph for each coverage, and is in it. -/
def inContext (coverages : List Coverage) (glyphs : List (ShapedGlyph × Nat)) : Bool :=
  coverages.zipIdx.all fun (c, k) => glyphs[k]?.any fun p => c.contains p.1.id

/-- Whether the glyph at an index is substituted: it is covered and not skipped, the glyphs that
follow it in `after` are in the lookahead, and those that precede it in `before` in the
backtrack. -/
def chains (t : ReverseChainSubst) (skip : ShapedGlyph → Bool) (before after : GlyphRun)
    (i : Nat) : Bool :=
  (before[i]?.any fun g => !skip g && t.coverage.contains g.id) &&
    inContext t.lookahead (after.following skip i) &&
    inContext t.backtrack (before.preceding skip i)

variable {t : ReverseChainSubst} {skip : ShapedGlyph → Bool} {run before after : GlyphRun}
  {i n count : Nat}

/-- The context of a glyph is that of the original run in front and of the result behind. -/
lemma chains_congr {before' after' : GlyphRun} (hbefore : ∀ k ≤ i, before[k]? = before'[k]?)
    (hafter : ∀ k, i < k → after[k]? = after'[k]?) :
    t.chains skip before after i = t.chains skip before' after' i := by
  have hpreceding : before.preceding skip i = before'.preceding skip i :=
    GlyphRun.preceding_congr fun k hk => hbefore k (Nat.le_of_lt hk)
  have hfollowing : after.following skip i = after'.following skip i :=
    GlyphRun.following_congr hafter
  rw [chains, chains, hbefore i (Nat.le_refl i), hpreceding, hfollowing]

/-! ### The rule -/

section Rule

variable {v : View} {flags : LookupFlags} {glyphs : List (ShapedGlyph × Nat)} {k : Nat}

lemma length_le (t : ReverseChainSubst) :
    t.lookahead.length ≤ 32767 ∧ t.backtrack.length ≤ 32767 := by
  have hvalid := t.valid
  simp only [Option.orElse_eq_orElse, Option.orElse_eq_or, Option.or_eq_none_iff] at hvalid
  obtain ⟨-, hcontext⟩ := hvalid
  split_ifs at hcontext with hlong
  simp only [Bool.or_eq_true, decide_eq_true_eq] at hlong
  omega

/-- The offsets of a context that is not too long do not wrap. -/
lemma toInt_offset (h : k < 32767) :
    (1 + Int16.ofNat k).toInt = k + 1 ∧ (-1 - Int16.ofNat k).toInt = -(k + 1) := by
  have hk : (Int16.ofNat k).toInt = k := Int16.toInt_ofNat_of_lt (by omega)
  constructor
  · rw [Int16.toInt_add, hk]
    have hone : (1 : Int16).toInt = 1 := rfl
    rw [hone, Int.bmod_def]
    omega
  · rw [Int16.toInt_sub, hk]
    have hone : (-1 : Int16).toInt = -1 := rfl
    rw [hone, Int.bmod_def]
    omega

lemma all_probes (flags : LookupFlags) (coverages : List Coverage) (offset : Nat → Int16)
    (htest : ∀ k < coverages.length, ∀ matcher, v.test #[] (.probe (offset k) matcher flags) =
      (glyphs[k]?.filter fun p => matcher.accepts p.1.id).map fun p => .probed (offset k) p.2) :
    ((coverages.zipIdx.map fun (c, k) => Label.probe (offset k) c.matcher flags).all
      fun step : Step => (v.test #[] step.predicate).isSome) = inContext coverages glyphs := by
  rw [List.all_map, inContext, Bool.eq_iff_iff, List.all_eq_true, List.all_eq_true]
  refine forall₂_congr fun ⟨c, k⟩ hmem => ?_
  obtain ⟨hk, -⟩ := List.getElem?_eq_some_iff.1 (List.mem_zipIdx_iff_getElem?.1 hmem)
  have hprobe := htest k hk c.matcher
  show (v.test #[] (.probe (offset k) c.matcher flags)).isSome = true ↔
    (glyphs[k]?.any fun p => c.contains p.1.id) = true
  rw [hprobe]
  cases glyphs[k]? with
  | none => rfl
  | some p =>
    rw [Option.filter_some, Option.any_some, Coverage.accepts_matcher]
    cases c.contains p.1.id <;> simp

theorem map_plan_first?_rules (t : ReverseChainSubst) (flags : LookupFlags)
    (hcursor : v.cursor < v.run.size) : (v.first? (t.rules flags)).map (·.plan) =
      if t.chains (skips v.categories flags) v.run v.run v.cursor then
        some [(v.cursor, some (.replace (GlyphMap.ofList t.pairs)))]
      else none := by
  obtain ⟨hahead, hback⟩ := t.length_le
  rw [rules]
  by_cases hempty : t.coverage.isEmpty
  · have hnone : t.chains (skips v.categories flags) v.run v.run v.cursor = false := by
      simp [chains, Coverage.contains_eq_false_of_isEmpty hempty, Array.getElem?_eq_getElem hcursor]
    rw [if_pos hempty, hnone]
    rfl
  · have hprobes : ∀ step ∈ (t.lookahead.zipIdx.map fun (c, k) =>
          (Label.probe (1 + Int16.ofNat k) c.matcher flags : Step)) ++
        t.backtrack.zipIdx.map fun (c, k) => Label.probe (-1 - Int16.ofNat k) c.matcher flags,
        step.IsProbe := by
      intro step hstep
      rcases List.mem_append.1 hstep with hstep | hstep <;>
        obtain ⟨p, -, rfl⟩ := List.mem_map.1 hstep <;> exact ⟨_, _, _, rfl⟩
    have hlookahead := all_probes flags t.lookahead (fun k => 1 + Int16.ofNat k)
      fun k hk matcher =>
        (v.test_probe hcursor).1 (toInt_offset (hk.trans_le hahead)).1
    have hbacktrack := all_probes flags t.backtrack (fun k => -1 - Int16.ofNat k)
      fun k hk matcher =>
        (v.test_probe hcursor).2 (toInt_offset (hk.trans_le hback)).2
    have haccepts : v.accepts v.cursor t.coverage.matcher flags =
        v.run[v.cursor]?.any fun g => !skips v.categories flags g && t.coverage.contains g.id := by
      simp only [View.accepts, Coverage.accepts_matcher]
    rw [if_neg hempty, View.first?, List.findSome?_singleton,
      View.map_plan_evaluate?_context hprobes, List.all_append, hlookahead, hbacktrack, haccepts,
      chains]
    congr 1
    simp only [Bool.and_eq_true, eq_iff_iff]
    tauto

end Rule

/-! ### One position -/

/-- The run with the glyph at an index substituted, if it is. -/
def substituteAt (t : ReverseChainSubst) (skip : ShapedGlyph → Bool) (run : GlyphRun) (i : Nat) :
    GlyphRun :=
  if t.chains skip run run i then run.rename i fun g => (t.substitute? g).getD g else run

lemma getElem?_substituteAt_of_ne {k : Nat} (h : k ≠ i) :
    (t.substituteAt skip run i)[k]? = run[k]? := by
  rw [substituteAt]
  split_ifs
  · rw [GlyphRun.rename, Array.getElem?_modify, if_neg (Ne.symm h)]
  · rfl

theorem advance_eq {it : Interpreter} {flags : LookupFlags} (hrules : it.rules = t.rules flags)
    (hdirection : it.direction = .backward) {s : Simulation} (hi : i < s.run.size) :
    it.advance s i = .ok { s with
      run := t.substituteAt (skips it.categories flags) s.run i
      cursor := if i = 0 then none else some (i - 1)
      applied := s.applied +
        if t.chains (skips it.categories flags) s.run s.run i then 1 else 0 } := by
  have hplan := map_plan_first?_rules (v := ⟨it.categories, s.run, i⟩) t flags hi
  rw [← hrules] at hplan
  dsimp only at hplan
  rw [substituteAt]
  by_cases hchains : t.chains (skips it.categories flags) s.run s.run i
  · rw [if_pos hchains] at hplan ⊢
    obtain ⟨f, hfirst, hplan⟩ := Option.map_eq_some_iff.1 hplan
    have hcarry : Edit.carryOut it.arithmetic f.base? it.direction i s.run f.plan =
        .ok (s.run.rename i fun g => (t.substitute? g).getD g,
          if i = 0 then none else some (i - 1)) := by
      rw [hdirection, hplan]
      have hmap : ∀ g, (GlyphMap.ofList t.pairs).find? g = t.substitute? g :=
        t.coverage.find?_ofList_zip t.substitutes
      have hindex : ¬ (i : Int) < 0 := by omega
      simp [Edit.carryOut, Edit.perform, Edit.act, hmap, hindex, bind, Except.bind, pure,
        Except.pure]
    rw [Interpreter.advance_of_some hfirst hcarry, if_pos hchains]
  · rw [if_neg hchains, Option.map_eq_none_iff] at hplan
    rw [Interpreter.advance_of_none hplan, hdirection, GlyphRun.step, if_pos hi, if_neg hchains,
      if_neg hchains]
    congr 2
    split_ifs <;> first | rfl | omega

/-! ### Runs -/

/-- What has become of the glyph at an index: its id is the substitute if it is substituted, and
else as it was, and so is its position. -/
def Rewrites (t : ReverseChainSubst) (skip : ShapedGlyph → Bool) (before after : GlyphRun)
    (i : Nat) : Prop :=
  ∃ g g', before[i]? = some g ∧ after[i]? = some g' ∧ g'.position = g.position ∧
    if t.chains skip before after i then t.substitute? g.id = some g'.id else g'.id = g.id

/-- The first `n` glyphs have been rewritten, from the last of them to the first, and no others. -/
structure Rewritten (t : ReverseChainSubst) (skip : ShapedGlyph → Bool) (n : Nat)
    (before after : GlyphRun) (count : Nat) : Prop where
  size : after.size = before.size
  glyphs : ∀ i < n, t.Rewrites skip before after i
  rest : ∀ i, n ≤ i → after[i]? = before[i]?
  count : count = (List.range n).countP (t.chains skip before after)

lemma rewritten_zero (t : ReverseChainSubst) (skip : ShapedGlyph → Bool) (run : GlyphRun) :
    t.Rewritten skip 0 run run 0 :=
  ⟨rfl, by simp, fun _ _ => rfl, rfl⟩

lemma isSome_substitute? (t : ReverseChainSubst) (g : GlyphId) :
    (t.substitute? g).isSome = t.coverage.contains g := by
  have hvalid := t.valid
  simp only [Option.orElse_eq_orElse, Option.orElse_eq_or, Option.or_eq_none_iff] at hvalid
  exact Coverage.isSome_entry_eq (Coverage.size_eq_of_lengthFault? hvalid.1)

theorem Rewritten.succ (hn : n < run.size)
    (h : t.Rewritten skip n (t.substituteAt skip run n) after count) :
    t.Rewritten skip (n + 1) run after
      (count + if t.chains skip run run n then 1 else 0) := by
  obtain ⟨hsize, hglyphs, hrest, hcount⟩ := h
  have hbehind : ∀ k, n < k → after[k]? = run[k]? := fun k hk => by
    rw [hrest k (Nat.le_of_lt hk), getElem?_substituteAt_of_ne (Nat.ne_of_gt hk)]
  have hfront : ∀ i < n, t.chains skip (t.substituteAt skip run n) after i =
      t.chains skip run after i := fun i hi =>
    chains_congr (fun k hk => getElem?_substituteAt_of_ne (by omega)) fun _ _ => rfl
  have hhere : t.chains skip run after n = t.chains skip run run n :=
    chains_congr (fun _ _ => rfl) hbehind
  refine ⟨?_, fun i hi => ?_, fun i hi => hbehind i hi, ?_⟩
  · rw [hsize, substituteAt]
    split_ifs
    · exact GlyphRun.size_rename _ _ _
    · rfl
  · rcases Nat.lt_succ_iff_lt_or_eq.1 hi with hi | rfl
    · obtain ⟨g, g', hg, hrewrites⟩ := hglyphs i hi
      rw [getElem?_substituteAt_of_ne (Nat.ne_of_lt hi)] at hg
      rw [hfront i hi] at hrewrites
      exact ⟨g, g', hg, hrewrites⟩
    · have hafter := hrest i (Nat.le_refl i)
      have hg := Array.getElem?_eq_getElem hn
      rw [substituteAt] at hafter
      rw [Rewrites, hhere]
      split_ifs at hafter ⊢ with hchains
      · have hcovered : t.coverage.contains run[i].id := by
          simp only [chains, hg, Option.any_some, Bool.and_eq_true] at hchains
          exact hchains.1.1.2
        rw [← isSome_substitute?, Option.isSome_iff_exists] at hcovered
        obtain ⟨b, hb⟩ := hcovered
        rw [GlyphRun.rename, Array.getElem?_modify, if_pos rfl, hg, Option.map_some, hb] at hafter
        exact ⟨_, _, hg, hafter, rfl, hb⟩
      · exact ⟨_, _, hg, hafter.trans hg, rfl, rfl⟩
  · have hrange : (List.range n).countP (t.chains skip (t.substituteAt skip run n) after) =
        (List.range n).countP (t.chains skip run after) :=
      List.countP_congr fun i hi => by rw [hfront i (List.mem_range.1 hi)]
    rw [List.range_succ, List.countP_append, hcount, hrange, List.countP_singleton, hhere]

/-- **The interpreter rewrites the glyphs from its cursor to the first.** -/
theorem exists_loop_rewritten {it : Interpreter} {flags : LookupFlags}
    (hrules : it.rules = t.rules flags) (hdirection : it.direction = .backward) {fuel : Nat}
    {s : Simulation} (hcursor : s.cursor = some i) (hi : i < s.run.size) (hfuel : i < fuel) :
    ∃ s' count, it.loop fuel s = .ok s' ∧ s'.applied = s.applied + count ∧
      t.Rewritten (skips it.categories flags) (i + 1) s.run s'.run count := by
  induction i generalizing s fuel with
  | zero =>
    obtain ⟨fuel, rfl⟩ := Nat.exists_eq_succ_of_ne_zero (Nat.ne_of_gt hfuel)
    rw [Interpreter.loop_of_some hcursor (advance_eq hrules hdirection hi), if_pos rfl,
      Interpreter.loop_of_none rfl]
    exact ⟨_, _, rfl, rfl, by simpa using (rewritten_zero t _ _).succ hi⟩
  | succ i ih =>
    obtain ⟨fuel, rfl⟩ := Nat.exists_eq_succ_of_ne_zero (Nat.ne_of_gt (Nat.zero_lt_of_lt hfuel))
    have hsize : (t.substituteAt (skips it.categories flags) s.run (i + 1)).size =
        s.run.size := by
      rw [substituteAt]
      split_ifs
      · exact GlyphRun.size_rename _ _ _
      · rfl
    rw [Interpreter.loop_of_some hcursor (advance_eq hrules hdirection hi),
      if_neg (Nat.succ_ne_zero i), Nat.add_sub_cancel]
    obtain ⟨s', count, hloop, happlied, hrewritten⟩ := ih (s := { s with
      run := t.substituteAt (skips it.categories flags) s.run (i + 1)
      cursor := some i
      applied := s.applied +
        if t.chains (skips it.categories flags) s.run s.run (i + 1) then 1 else 0 }) rfl
      (by dsimp only; omega) (Nat.lt_of_succ_lt_succ hfuel)
    refine ⟨s', _, hloop, ?_, hrewritten.succ hi⟩
    rw [happlied, Nat.add_comm count, Nat.add_assoc]

/-- **Reverse chaining does what the table says.** Whatever the flags, the options, the categories
and the run, a reverse chaining lookup compiles alone and processes the run. If no search gives up,
the run keeps its length and its positions, the id of each glyph is its substitute if it is covered
and not skipped and its context holds, in the result behind it and in the original run in front, and
else as it was, and as many rules are carried out as glyphs are substituted. -/
theorem simulate_rewrites (t : ReverseChainSubst) (flags : LookupFlags) (options : CompileOptions)
    (categories : Option ClassDef) (limits : SimulatorOptions) (arithmetic : Arithmetic)
    (run : GlyphRun) :
    ∃ compiled s, compile [⟨flags, .reverseChain t⟩] options = .ok compiled ∧
      Simulator.simulate ⟨compiled.machine, categories, limits, arithmetic⟩ run = .ok s ∧
      (s.limitHits = 0 →
        s.run.size = run.size ∧
        (∀ i < run.size, t.Rewrites (skips categories flags) run s.run i) ∧
        s.applied =
          (List.range run.size).countP (t.chains (skips categories flags) run s.run)) := by
  obtain ⟨compiled, s, hcompile, hs, hinterpreter⟩ :=
    Lookup.exists_run_substitutes ⟨flags, .reverseChain t⟩ options categories limits arithmetic run
      fun rule => Lookup.substitutes_of_backward rfl
  refine ⟨compiled, s, hcompile, hs, fun hlimit => ?_⟩
  have hloop := hinterpreter hlimit
  obtain ⟨s', count, hs', happlied, hrewritten⟩ : ∃ s' count,
      Interpreter.simulate ⟨t.rules flags, .backward, categories, arithmetic⟩ run = .ok s' ∧
        s'.applied = 0 + count ∧
        t.Rewritten (skips categories flags) run.size run s'.run count := by
    by_cases hempty : run.size = 0
    · have hstart : run.start .backward = none := by simp [GlyphRun.start, Array.isEmpty, hempty]
      refine ⟨_, 0, Interpreter.loop_of_none hstart, rfl, ?_⟩
      rw [hempty]
      exact rewritten_zero t _ run
    · have hstart : run.start .backward = some (run.size - 1) := by
        simp [GlyphRun.start, Array.isEmpty, hempty]
      have hlast : run.size - 1 < run.size := by omega
      have hrun := exists_loop_rewritten (t := t) (s := { run, cursor := run.start .backward })
        (show Interpreter.rules ⟨t.rules flags, .backward, categories, arithmetic⟩ =
          t.rules flags from rfl)
        rfl hstart hlast hlast
      rwa [Nat.sub_add_cancel (Nat.pos_of_ne_zero hempty)] at hrun
  obtain rfl := Except.ok.inj (hloop.symm.trans hs')
  obtain ⟨hsize, hglyphs, -, hcount⟩ := hrewritten
  exact ⟨hsize, hglyphs, by rw [happlied, Nat.zero_add, hcount]⟩

/-- A table that makes a 2 of a 1 between a 1 and a 2. -/
def between : ReverseChainSubst :=
  ⟨.ofGlyph 1, [.ofGlyph 1], [.ofGlyph 2], #[2], rfl⟩

/-- Of three glyphs 1 the last is rewritten because of the 2 behind it, the second because of what
has become of the last, and the first is not since nothing stands in front of it. -/
theorem simulate_rewrites_between : ∃ compiled s,
    compile [⟨.ignoreMarks, .reverseChain between⟩] { optimize := false } = .ok compiled ∧
    Simulator.simulate ⟨compiled.machine, some ⟨.list 5 #[3], rfl⟩, {}, .checked⟩
      (.ofIds [1, 1, 5, 1, 5, 2]) = .ok s ∧
    s.limitHits = 0 ∧ s.run = .ofIds [1, 2, 5, 2, 5, 2] ∧
    (∀ i < 6, between.Rewrites (skips (some ⟨.list 5 #[3], rfl⟩) .ignoreMarks)
      (.ofIds [1, 1, 5, 1, 5, 2]) s.run i) ∧ s.applied = 2 := by
  obtain ⟨compiled, s, hcompile, hs, hrewrites⟩ := simulate_rewrites between .ignoreMarks
    { optimize := false } (some ⟨.list 5 #[3], rfl⟩) {} .checked (.ofIds [1, 1, 5, 1, 5, 2])
  have hrun : (Simulator.simulate ⟨(Lookup.trie ⟨.ignoreMarks, .reverseChain between⟩).machine,
      some ⟨.list 5 #[3], rfl⟩, {}, .checked⟩ (.ofIds [1, 1, 5, 1, 5, 2])).map
        (fun s => (s.limitHits, s.run)) = .ok (0, .ofIds [1, 2, 5, 2, 5, 2]) := by
    decide +kernel
  rw [← Lookup.simulate_eq_trie _ _ _ _ hcompile, hs] at hrun
  obtain ⟨hlimit, hout⟩ := Prod.mk.inj (Except.ok.inj hrun)
  obtain ⟨-, hglyphs, happlied⟩ := hrewrites hlimit
  have hcount : (List.range 6).countP (between.chains
      (skips (some ⟨.list 5 #[3], rfl⟩) .ignoreMarks) (.ofIds [1, 1, 5, 1, 5, 2])
      (.ofIds [1, 2, 5, 2, 5, 2])) = 2 := by
    decide +kernel
  rw [hout] at happlied
  exact ⟨_, s, hcompile, hs, hlimit, hout, hglyphs, happlied.trans hcount⟩

end ReverseChainSubst

end Shaping
