import Shaping.Proofs.Sweeps

/-!
Cursive attachment, compiled alone. A glyph with an exit is linked to the next one that is not
skipped if that has an entry, which may itself be linked to the next one, and so on. What a link
says of the positions holds at the end, since behind a link nothing is moved that it speaks of.
Main statement: `CursiveAttachment.simulate_links`.
-/

namespace Shaping

/-! ### Links -/

namespace GlyphRun

variable {run : GlyphRun} {skip : ShapedGlyph → Bool} {i j k l : Nat} {a b a' b' : GlyphId}
  {exit entry : Anchor}

lemma le_of_pairAt? (h : run.pairAt? skip i = some (a, b, j))
    (h' : run.pairAt? skip k = some (a', b', l)) (hik : i < k) : j ≤ k := by
  rw [pairAt?, Option.bind_eq_some_iff] at h h'
  obtain ⟨g, -, h⟩ := h
  obtain ⟨⟨g', j'⟩, hhead, heq⟩ := Option.map_eq_some_iff.1 h
  obtain ⟨g'', hg'', -⟩ := h'
  rw [Option.filter_eq_some_iff, Bool.not_eq_true'] at hg''
  obtain rfl : j' = j := (Prod.mk.inj (Prod.mk.inj heq).2).2
  exact le_of_head?_following hhead hik hg''.1 hg''.2

lemma ids_join : (run.join i j exit entry).ids = run.ids := by
  rw [join, ids_reposition, ids_reposition]

lemma positionAt_join (hij : i < j) (hj : j < run.size) (k : Nat) :
    (run.join i j exit entry).positionAt k =
      if k = j then
        { run.positionAt j with
          xOffset := -entry.x.toInt
          yOffset := (run.positionAt i).yOffset + exit.y.toInt - entry.y.toInt }
      else if k = i then { run.positionAt i with xAdvance := exit.x.toInt }
      else run.positionAt k := by
  rw [join, positionAt_reposition (by rwa [size_reposition]),
    positionAt_reposition (hij.trans hj)]
  split_ifs with hkj hki hki
  · omega
  · rw [hkj]
  · rw [hki]
  · rfl

end GlyphRun

namespace CursiveAttachment

variable {t : CursiveAttachment} {skip : ShapedGlyph → Bool} {run run' before after : GlyphRun}
  {categories : Option ClassDef} {flags : LookupFlags} {i j k l n : Nat}
  {exit entry exit' entry' : Anchor}

/-- The link that begins at an index, as the index where it ends, the exit and the entry: the glyph
there, which is not skipped, has this exit, and the next glyph that is not skipped has this
entry. -/
def linkAt? (t : CursiveAttachment) (skip : ShapedGlyph → Bool) (run : GlyphRun) (i : Nat) :
    Option (Nat × Anchor × Anchor) :=
  (run.pairAt? skip i).bind fun (a, b, j) =>
    ((t.entryExit? a).bind (·.exit)).bind fun exit =>
      ((t.entryExit? b).bind (·.entry)).map fun entry => (j, exit, entry)

lemma linkAt?_congr (h : run.ids = run'.ids) (i : Nat) :
    t.linkAt? (skips categories flags) run i = t.linkAt? (skips categories flags) run' i := by
  rw [linkAt?, linkAt?, GlyphRun.pairAt?_congr h]

lemma exists_pairAt? (h : t.linkAt? skip run i = some (j, exit, entry)) :
    ∃ a b, run.pairAt? skip i = some (a, b, j) ∧ (t.entryExit? a).bind (·.exit) = some exit ∧
      (t.entryExit? b).bind (·.entry) = some entry := by
  rw [linkAt?, Option.bind_eq_some_iff] at h
  obtain ⟨⟨a, b, j'⟩, hpair, h⟩ := h
  obtain ⟨exit', hexit, h⟩ := Option.bind_eq_some_iff.1 h
  obtain ⟨entry', hentry, heq⟩ := Option.map_eq_some_iff.1 h
  simp only [Prod.mk.injEq] at heq
  obtain ⟨rfl, rfl, rfl⟩ := heq
  exact ⟨a, b, hpair, hexit, hentry⟩

lemma lt_of_linkAt? (h : t.linkAt? skip run i = some (j, exit, entry)) : i < j ∧ j < run.size := by
  obtain ⟨a, b, hpair, -⟩ := exists_pairAt? h
  exact GlyphRun.lt_of_pairAt? hpair

lemma le_of_linkAt? (h : t.linkAt? skip run i = some (j, exit, entry))
    (h' : t.linkAt? skip run k = some (l, exit', entry')) (hik : i < k) : j ≤ k := by
  obtain ⟨a, b, hpair, -⟩ := exists_pairAt? h
  obtain ⟨a', b', hpair', -⟩ := exists_pairAt? h'
  exact GlyphRun.le_of_pairAt? hpair hpair' hik

/-! ### The rule -/

lemma mem_glyphsWhere_iff {p : EntryExit → Bool} {g : GlyphId} :
    g ∈ t.glyphsWhere p ↔ (t.entryExit? g).any p := by
  rw [glyphsWhere, List.mem_map, Option.any_eq_true]
  constructor
  · rintro ⟨⟨g', b⟩, hmem, rfl⟩
    obtain ⟨hzip, hp⟩ := List.mem_filter.1 hmem
    exact ⟨b, Coverage.mem_zip_iff.1 hzip, hp⟩
  · rintro ⟨b, hb, hp⟩
    exact ⟨(g, b), List.mem_filter.2 ⟨Coverage.mem_zip_iff.2 hb, hp⟩, rfl⟩

lemma accepts_glyphsWhere (f : EntryExit → Option Anchor) (g : GlyphId) :
    (Matcher.set (GlyphSet.ofList (t.glyphsWhere fun e => (f e).isSome))).accepts g =
      ((t.entryExit? g).bind f).isSome := by
  rw [Bool.eq_iff_iff]
  refine Matcher.accepts_set_iff.trans (mem_glyphsWhere_iff.trans ?_)
  cases t.entryExit? g <;> rfl

theorem first?_rules (t : CursiveAttachment) (flags : LookupFlags) (v : View) :
    v.first? (t.rules flags) =
      (t.linkAt? (skips v.categories flags) v.run v.cursor).map fun link =>
        { plan := [(v.cursor, none), (link.1, some (.linkCursive t))] } := by
  have hrule : v.evaluate? (.pair (.set (GlyphSet.ofList t.glyphsWithExit))
      (.set (GlyphSet.ofList t.glyphsWithEntry)) flags (.linkCursive t)) =
        (t.linkAt? (skips v.categories flags) v.run v.cursor).map fun link =>
          { plan := [(v.cursor, none), (link.1, some (.linkCursive t))] } := by
    rw [View.evaluate?_pair, linkAt?]
    cases v.run.pairAt? (skips v.categories flags) v.cursor with
    | none => rfl
    | some pair =>
      obtain ⟨a, b, j⟩ := pair
      rw [Option.bind_some, Option.bind_some]
      dsimp only
      rw [glyphsWithExit, glyphsWithEntry, accepts_glyphsWhere, accepts_glyphsWhere]
      cases (t.entryExit? a).bind (·.exit) with
      | none => rfl
      | some exit => cases (t.entryExit? b).bind (·.entry) <;> rfl
  rw [rules]
  split_ifs with hempty
  · -- without exits or without entries the rule would not hold either
    rw [← hrule, View.evaluate?_pair, View.first?, List.findSome?_nil, eq_comm,
      Option.bind_eq_none_iff]
    rintro ⟨a, b, j⟩ -
    refine if_neg fun haccepts => ?_
    rw [Bool.and_eq_true, Matcher.accepts_set_iff, Matcher.accepts_set_iff] at haccepts
    rw [Bool.or_eq_true, List.isEmpty_iff, List.isEmpty_iff] at hempty
    rcases hempty with hempty | hempty
    · rw [hempty] at haccepts
      exact List.not_mem_nil haccepts.1
    · rw [hempty] at haccepts
      exact List.not_mem_nil haccepts.2
  · rw [View.first?, List.findSome?_singleton, hrule]

theorem carryOut_linkCursive (base? : Option Nat) (hij : i < j) (hj : j < run.size) :
    Edit.carryOut .exact base? .forward i run [(i, none), (j, some (.linkCursive t))] =
      .ok (run.linked t i j, some j) := by
  have hperform : Edit.perform .exact base? { run } [(i, none), (j, some (.linkCursive t))] =
      .ok (.done ⟨run.linked t i j, [j, i], 0⟩) := by
    refine (Edit.perform_last .exact base? [i] j (.linkCursive t)).trans ?_
    rw [Edit.act, List.reverse_singleton]
    dsimp only
    rw [GlyphRun.link_exact]
    rfl
  have hsize : (run.linked t i j).size = (j + 1) + (run.size - (j + 1)) := by
    rw [GlyphRun.size_linked]
    omega
  rw [Edit.carryOut_forward_eq rfl hperform (by simp) hsize, if_pos ⟨rfl, hij⟩]
  rfl

/-- The anchors of a link are those that the action finds. -/
lemma linked_eq_join (h : t.linkAt? skip run i = some (j, exit, entry)) :
    run.linked t i j = run.join i j exit entry := by
  obtain ⟨a, b, hpair, hexit, hentry⟩ := exists_pairAt? h
  rw [GlyphRun.pairAt?, Option.bind_eq_some_iff] at hpair
  obtain ⟨g, hg, hpair⟩ := hpair
  obtain ⟨⟨g', j'⟩, hhead, heq⟩ := Option.map_eq_some_iff.1 hpair
  simp only [Prod.mk.injEq] at heq
  obtain ⟨rfl, rfl, rfl⟩ := heq
  obtain ⟨-, hg', -⟩ := GlyphRun.mem_following_iff.1 (List.mem_of_mem_head? hhead)
  have hg := (Option.filter_eq_some_iff.1 hg).1
  simp only [GlyphRun.linked, hg, hg', Option.bind_some, hexit, hentry]

/-! ### Runs -/

/-- Links the glyphs of a run as the ids of another say. -/
def linkFrom (t : CursiveAttachment) (skip : ShapedGlyph → Bool) (before run : GlyphRun) (i : Nat) :
    GlyphRun :=
  match t.linkAt? skip before i with
  | some (j, exit, entry) => run.join i j exit entry
  | none => run

lemma ids_linkFrom (t : CursiveAttachment) (skip : ShapedGlyph → Bool)
    (before run : GlyphRun) (i : Nat) : (t.linkFrom skip before run i).ids = run.ids := by
  rw [linkFrom]
  split
  · exact GlyphRun.ids_join
  · rfl

theorem visits_rules {it : Interpreter} (hrules : it.rules = t.rules flags)
    (hdirection : it.direction = .forward) (hexact : it.arithmetic = .exact) (run : GlyphRun) :
    it.Visits run
      (fun i => (t.linkAt? (skips it.categories flags) run i).isSome)
      (t.linkFrom (skips it.categories flags) run) where
  ids := t.ids_linkFrom _ run
  idle run' i h := by
    rw [Option.isSome_eq_false_iff, Option.isNone_iff_eq_none] at h
    rw [linkFrom, h]
  advance s i hids hi := by
    have hfirst := t.first?_rules flags ⟨it.categories, s.run, i⟩
    rw [← hrules, linkAt?_congr hids] at hfirst
    rw [linkFrom]
    cases hlink : t.linkAt? (skips it.categories flags) run i with
    | none =>
      rw [hlink, Option.map_none] at hfirst
      refine ⟨i + 1, Nat.lt_succ_self i, hi, fun k hik hk => by omega, ?_⟩
      exact Interpreter.advance_forward_of_none hdirection hfirst hi
    | some link =>
      obtain ⟨j, exit, entry⟩ := link
      rw [hlink, Option.map_some] at hfirst
      obtain ⟨hij, hj⟩ := lt_of_linkAt? hlink
      rw [← GlyphRun.size_eq_of_ids_eq hids] at hj
      refine ⟨j, hij, Nat.le_of_lt hj, fun k hik hkj => ?_, ?_⟩
      · rw [Option.isSome_eq_false_iff, Option.isNone_iff_eq_none]
        by_contra hne
        obtain ⟨⟨l, exit', entry'⟩, hlink'⟩ := Option.ne_none_iff_exists'.1 hne
        exact Nat.not_le.2 hkj (le_of_linkAt? hlink hlink' hik)
      · have hcarry := carryOut_linkCursive (t := t) none hij hj
        rw [← hdirection, ← hexact, linked_eq_join ((linkAt?_congr hids i).trans hlink)] at hcarry
        rw [Interpreter.advance_of_some hfirst hcarry, if_pos hj]
        rfl

/-- What the links that begin at the first `n` indices have made of the positions. -/
structure Linked (t : CursiveAttachment) (skip : ShapedGlyph → Bool) (n : Nat)
    (before after : GlyphRun) : Prop where
  links : ∀ i < n, ∀ j exit entry, t.linkAt? skip before i = some (j, exit, entry) →
    (after.positionAt i).xAdvance = exit.x.toInt ∧
    (after.positionAt j).xOffset = -entry.x.toInt ∧
    (after.positionAt j).yOffset =
      (after.positionAt i).yOffset + exit.y.toInt - entry.y.toInt
  yAdvance : ∀ k, (after.positionAt k).yAdvance = (before.positionAt k).yAdvance
  xAdvance : ∀ k, (k < n → t.linkAt? skip before k = none) →
    (after.positionAt k).xAdvance = (before.positionAt k).xAdvance
  offsets : ∀ k, (∀ i < n, ∀ exit entry, t.linkAt? skip before i ≠ some (k, exit, entry)) →
    (after.positionAt k).xOffset = (before.positionAt k).xOffset ∧
    (after.positionAt k).yOffset = (before.positionAt k).yOffset

lemma linked_zero (t : CursiveAttachment) (skip : ShapedGlyph → Bool) (run : GlyphRun) :
    t.Linked skip 0 run run :=
  ⟨by simp, fun _ => rfl, fun _ _ => rfl, fun _ _ => ⟨rfl, rfl⟩⟩

theorem Linked.succ (h : t.Linked skip n before after) (hsize : after.size = before.size) :
    t.Linked skip (n + 1) before (t.linkFrom skip before after n) := by
  obtain ⟨hlinks, hy, hx, hoffsets⟩ := h
  rw [linkFrom]
  cases hlink : t.linkAt? skip before n with
  | none =>
    refine ⟨fun i hi j exit entry hi' => ?_, hy, fun k hk => hx k fun hkn => hk (by omega),
      fun k hk => hoffsets k fun i hi => hk i (by omega)⟩
    rcases Nat.lt_succ_iff_lt_or_eq.1 hi with hi | rfl
    · exact hlinks i hi j exit entry hi'
    · rw [hlink] at hi'
      cases hi'
  | some link =>
    obtain ⟨j, exit, entry⟩ := link
    obtain ⟨hnj, hj⟩ := lt_of_linkAt? hlink
    have hposition : ∀ k, (after.join n j exit entry).positionAt k = _ :=
      GlyphRun.positionAt_join hnj (by rwa [hsize])
    refine ⟨fun i hi j' exit' entry' hi' => ?_, fun k => ?_, fun k hk => ?_, fun k hk => ?_⟩
    · rcases Nat.lt_succ_iff_lt_or_eq.1 hi with hi | rfl
      · obtain ⟨hadvance, hxOffset, hyOffset⟩ := hlinks i hi j' exit' entry' hi'
        have hj'n : j' ≤ n := le_of_linkAt? hi' hlink hi
        rw [hposition i, if_neg (by omega), if_neg (by omega), hposition j', if_neg (by omega)]
        refine ⟨hadvance, ?_, ?_⟩
        · split_ifs with heq
          · rw [← hxOffset, heq]
          · exact hxOffset
        · split_ifs with heq
          · rw [← hyOffset, heq]
          · exact hyOffset
      · obtain ⟨rfl, rfl, rfl⟩ : j = j' ∧ exit = exit' ∧ entry = entry' := by
          simpa using hlink.symm.trans hi'
        rw [hposition i, if_neg (by omega), if_pos rfl, hposition j, if_pos rfl]
        exact ⟨rfl, rfl, rfl⟩
    · rw [hposition k, ← hy k]
      split_ifs with hkj hkn
      · rw [hkj]
      · rw [hkn]
      · rfl
    · have hkn : k ≠ n := by
        rintro rfl
        rw [hk (Nat.lt_succ_self k)] at hlink
        cases hlink
      rw [hposition k, if_neg hkn, ← hx k fun hlt => hk (by omega)]
      split_ifs with hkj
      · rw [hkj]
      · rfl
    · have hkj : k ≠ j := by
        rintro rfl
        exact hk n (Nat.lt_succ_self n) exit entry hlink
      obtain ⟨hxOffset, hyOffset⟩ := hoffsets k fun i hi => hk i (by omega)
      rw [hposition k, if_neg hkj, ← hxOffset, ← hyOffset]
      split_ifs with hkn
      · rw [hkn]
        exact ⟨rfl, rfl⟩
      · exact ⟨rfl, rfl⟩

theorem linked_sweep (t : CursiveAttachment) (skip : ShapedGlyph → Bool) (run : GlyphRun)
    (n : Nat) : t.Linked skip n run (run.sweep (t.linkFrom skip run) n) :=
  GlyphRun.sweep_induction (P := fun n after => t.Linked skip n run after)
    (t.ids_linkFrom skip run) (linked_zero t skip run)
    (fun _ _ hids h => h.succ (GlyphRun.size_eq_of_ids_eq hids)) n

/-- **Cursive attachment links every adjacent pair.** Whatever the flags, the options, the
categories and the run, a cursive attachment compiles alone, and if matches may follow three
transitions no search gives up. For each link, the advance of its first glyph is the exit, and its
second glyph is shifted so that its entry lies on that exit. Nothing else changes, and as many rules
are carried out as there are links. That is so in exact arithmetic, and in every build if no sum on
the way overflows a word. -/
theorem simulate_links (t : CursiveAttachment) (flags : LookupFlags) (options : CompileOptions)
    (categories : Option ClassDef) (limits : SimulatorOptions) (hdepth : 3 ≤ limits.maxMatchDepth)
    (run : GlyphRun) :
    ∃ compiled s, compile [⟨flags, .cursive t⟩] options = .ok compiled ∧
      Simulator.simulate ⟨compiled.machine, categories, limits, .exact⟩ run = .ok s ∧
      ((∀ x ∈ Simulator.runSums ⟨compiled.machine, categories, limits, .exact⟩ run, IsWord x) →
        ∀ arithmetic,
          Simulator.simulate ⟨compiled.machine, categories, limits, arithmetic⟩ run = .ok s) ∧
      s.limitHits = 0 ∧ s.run.ids = run.ids ∧
      (∀ i j exit entry, t.linkAt? (skips categories flags) run i = some (j, exit, entry) →
        (s.run.positionAt i).xAdvance = exit.x.toInt ∧
        (s.run.positionAt j).xOffset = -entry.x.toInt ∧
        (s.run.positionAt j).yOffset =
          (s.run.positionAt i).yOffset + exit.y.toInt - entry.y.toInt) ∧
      (∀ k, (s.run.positionAt k).yAdvance = (run.positionAt k).yAdvance ∧
        (t.linkAt? (skips categories flags) run k = none →
          (s.run.positionAt k).xAdvance = (run.positionAt k).xAdvance) ∧
        ((∀ i exit entry, t.linkAt? (skips categories flags) run i ≠ some (k, exit, entry)) →
          (s.run.positionAt k).xOffset = (run.positionAt k).xOffset ∧
          (s.run.positionAt k).yOffset = (run.positionAt k).yOffset)) ∧
      s.applied = (List.range run.size).countP
        fun i => (t.linkAt? (skips categories flags) run i).isSome := by
  have hvisits : Interpreter.Visits ⟨t.rules flags, .forward, categories, .exact⟩ run _ _ :=
    visits_rules rfl rfl rfl run
  have hone : (t.rules flags).length ≤ 1 ∧ ∀ rule ∈ t.rules flags, rule.length = 3 := by
    rw [rules]
    split_ifs <;> simp [Rule.pair]
  obtain ⟨compiled, s, hcompile, hs, hwords, hlimit, hrun, happlied⟩ :=
    Lookup.exists_run_sweep ⟨flags, .cursive t⟩ rfl hone.1 hone.2 hvisits options hdepth
  have hlinked := t.linked_sweep (skips categories flags) run run.size
  rw [← hrun] at hlinked
  obtain ⟨hlinks, hy, hx, hoffsets⟩ := hlinked
  refine ⟨compiled, s, hcompile, hs, hwords, hlimit, ?_, fun i j exit entry hlink => ?_, fun k =>
    ⟨hy k, fun hk => hx k fun _ => hk, fun hk => hoffsets k fun i _ => hk i⟩, happlied⟩
  · rw [hrun]
    exact GlyphRun.ids_sweep (t.ids_linkFrom _ run) run run.size
  · obtain ⟨hij, hj⟩ := lt_of_linkAt? hlink
    exact hlinks i (hij.trans hj) j exit entry hlink

/-- A table in which glyph 1 has an entry and an exit, and glyph 4 only an entry. -/
def chained : CursiveAttachment :=
  ⟨⟨.list #[1, 4], rfl⟩, #[⟨some ⟨0, 5⟩, some ⟨100, 30⟩⟩, ⟨some ⟨7, 0⟩, none⟩], rfl⟩

theorem simulate_links_chained : (3 : UInt64) ≤ 3 ∧ ∃ compiled s,
    compile [⟨.ignoreMarks, .cursive chained⟩] { optimize := false } = .ok compiled ∧
    Simulator.simulate ⟨compiled.machine, some ⟨.list 5 #[3], rfl⟩, { maxMatchDepth := 3 },
      .checked⟩ (.ofIds [1, 5, 1, 4, 1]) = .ok s ∧
    s.limitHits = 0 ∧ s.applied = 2 ∧
    s.run = #[⟨1, { xAdvance := 100 }⟩, ⟨5, {}⟩, ⟨1, { yOffset := 25, xAdvance := 100 }⟩,
      ⟨4, { xOffset := -7, yOffset := 55 }⟩, ⟨1, {}⟩] ∧
    (s.run.positionAt 3).yOffset = (s.run.positionAt 2).yOffset + 30 - 0 := by
  have hdepth : (3 : UInt64) ≤ 3 := by decide
  obtain ⟨compiled, s, hcompile, hs, hwords, hlimit, -, hlinks, -, happlied⟩ :=
    simulate_links chained .ignoreMarks { optimize := false } (some ⟨.list 5 #[3], rfl⟩)
      { maxMatchDepth := 3 } hdepth (.ofIds [1, 5, 1, 4, 1])
  have hcompile' : compile [⟨.ignoreMarks, .cursive chained⟩] { optimize := false } =
      .ok ⟨(Lookup.trie ⟨.ignoreMarks, .cursive chained⟩).machine, 1, none⟩ := by rfl
  obtain rfl := Except.ok.inj (hcompile.symm.trans hcompile')
  have hchecked := hwords (by decide +kernel) .checked
  have hrun : (Simulator.simulate ⟨(Lookup.trie ⟨.ignoreMarks, .cursive chained⟩).machine,
      some ⟨.list 5 #[3], rfl⟩, { maxMatchDepth := 3 }, .checked⟩ (.ofIds [1, 5, 1, 4, 1])).map
        (·.run) = .ok #[⟨1, { xAdvance := 100 }⟩, ⟨5, {}⟩,
          ⟨1, { yOffset := 25, xAdvance := 100 }⟩, ⟨4, { xOffset := -7, yOffset := 55 }⟩,
          ⟨1, {}⟩] := by
    decide +kernel
  rw [hchecked] at hrun
  have hcount : (List.range (GlyphRun.ofIds [1, 5, 1, 4, 1]).size).countP (fun i =>
      (chained.linkAt? (skips (some ⟨.list 5 #[3], rfl⟩) .ignoreMarks)
        (.ofIds [1, 5, 1, 4, 1]) i).isSome) = 2 := by
    decide +kernel
  have hlink : chained.linkAt? (skips (some ⟨.list 5 #[3], rfl⟩) .ignoreMarks)
      (.ofIds [1, 5, 1, 4, 1]) 2 = some (3, ⟨100, 30⟩, ⟨7, 0⟩) := by
    decide +kernel
  obtain ⟨-, -, hyOffset⟩ := hlinks 2 3 _ _ hlink
  exact ⟨hdepth, _, s, hcompile, hchecked, hlimit, happlied.trans hcount, Except.ok.inj hrun,
    hyOffset⟩

end CursiveAttachment

end Shaping
