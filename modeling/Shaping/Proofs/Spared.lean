import Shaping.Proofs.Edits

/-! Glyphs that every lookup passes over come through untouched. A rule consumes no glyph that its
lookup skips, and its action edits no glyph that it has not consumed, even where skipped glyphs
stand between consumed ones. So these glyphs keep their ids, their positions and their order,
however much longer or shorter the run becomes around them. Main statement:
`Simulator.simulate_spares`.
-/

namespace Shaping

variable {spared : ShapedGlyph → Bool} {run run' run'' : GlyphRun} {i j : Nat}

namespace GlyphRun

/-! ### Runs that keep some glyphs -/

/-- The spared glyphs of a run are still there, as they were and in order. -/
def Spares (spared : ShapedGlyph → Bool) (run run' : GlyphRun) : Prop :=
  (run.toList.filter spared).Sublist run'.toList

lemma Spares.refl : Spares spared run run := List.filter_sublist

theorem Spares.trans (h : Spares spared run run') (h' : Spares spared run' run'') :
    Spares spared run run'' := by
  have hagain := List.Sublist.filter spared h
  rw [List.filter_filter] at hagain
  simp only [Bool.and_self] at hagain
  exact hagain.trans h'

/-- There is a glyph at the index, and it is not spared. -/
def Free (spared : ShapedGlyph → Bool) (run : GlyphRun) (i : Nat) : Prop :=
  ∃ g, run[i]? = some g ∧ spared g = false

lemma Free.lt_size (h : Free spared run i) : i < run.size := by
  obtain ⟨g, hg, -⟩ := h
  exact (Array.getElem?_eq_some_iff.1 hg).1

lemma Free.modify (h : Free spared run j) (hne : i ≠ j) (f : ShapedGlyph → ShapedGlyph) :
    Free spared (run.modify i f) j := by
  obtain ⟨g, hg, hspared⟩ := h
  exact ⟨g, by rw [Array.getElem?_modify, if_neg hne, hg], hspared⟩

lemma Free.eraseIdx (h : Free spared run j) (hi : i < run.size) (hlt : j < i) :
    Free spared (run.eraseIdx i) j := by
  obtain ⟨g, hg, hspared⟩ := h
  exact ⟨g, by rw [Array.getElem?_eraseIdx, if_pos hlt, hg], hspared⟩

theorem spares_of_replaced {glyphs : List ShapedGlyph} (h : Free spared run i)
    (hnew : Replaced i glyphs run run') : Spares spared run run' := by
  have hlt : i < run.toList.length := by simpa using h.lt_size
  obtain ⟨g, hg, hspared⟩ := h
  have hget : run.toList[i] = g := by
    rw [← Array.getElem?_toList, List.getElem?_eq_getElem hlt] at hg
    exact Option.some.inj hg
  have hfilter : run.toList.filter spared =
      (run.toList.take i).filter spared ++ (run.toList.drop (i + 1)).filter spared := by
    conv_lhs => rw [← List.take_append_drop i run.toList, List.drop_eq_getElem_cons hlt, hget]
    rw [List.filter_append, List.filter_cons_of_neg (by simp [hspared])]
  rw [Spares, hfilter, hnew]
  exact (List.filter_sublist.trans (List.sublist_append_left _ glyphs)).append List.filter_sublist

lemma spares_modify (h : Free spared run i) (f : ShapedGlyph → ShapedGlyph) :
    Spares spared run (run.modify i f) :=
  spares_of_replaced h (replaced_modify h.lt_size f)

lemma spares_reposition (h : Free spared run i) (f : Position → Position) :
    Spares spared run (run.reposition i f) := spares_modify h _

lemma spares_reposition_reposition (hi : Free spared run i) (hj : Free spared run j) (hne : i ≠ j)
    (f g : Position → Position) : Spares spared run ((run.reposition i f).reposition j g) :=
  (spares_reposition hi f).trans (spares_reposition (hj.modify hne _) g)

theorem spares_removeAll {indices : List Nat} (hsorted : indices.Pairwise (· > ·))
    (hfree : ∀ i ∈ indices, Free spared run i)
    (hremove : GlyphRun.removeAll run indices = .ok run') : Spares spared run run' := by
  induction indices generalizing run with
  | nil =>
    obtain rfl : run = run' := Except.ok.inj hremove
    exact .refl
  | cons i indices ih =>
    obtain ⟨hbelow, hsorted⟩ := List.pairwise_cons.1 hsorted
    obtain ⟨hi, hfree⟩ := List.forall_mem_cons.1 hfree
    rw [GlyphRun.removeAll, dif_pos hi.lt_size] at hremove
    have herase := spares_of_replaced hi (replaced_eraseIdx hi.lt_size)
    exact herase.trans (ih hsorted (fun j hj => (hfree j hj).eraseIdx hi.lt_size (hbelow j hj))
      hremove)

end GlyphRun

namespace Edit

open GlyphRun

variable {a : Arithmetic} {e e' : Edit} {base? : Option Nat} {action : Action}

/-! ### Actions -/

/-- The placed glyphs, the newest of which stands last, are none of those that are spared. -/
structure Frees (spared : ShapedGlyph → Bool) (e : Edit) : Prop where
  descending : e.placed.Pairwise (· > ·)
  free : ∀ i ∈ e.placed, Free spared e.run i

theorem Frees.ligate (h : e.Frees spared) {glyph : GlyphId} {components : Nat}
    (hact : e.ligate glyph components = .ok e') : Spares spared e.run e'.run := by
  rcases ligate_cases hact with rfl | ⟨newer, first, earlier, run, hplaced, hremove, rfl⟩
  · exact .refl
  · have hdescending := h.descending
    have hfree := h.free
    rw [hplaced] at hdescending hfree
    obtain ⟨hnewer, -, habove⟩ := List.pairwise_append.1 hdescending
    have hfirst : Free spared e.run first := hfree first (by simp)
    refine (spares_modify hfirst _).trans (spares_removeAll hnewer (fun i hi => ?_) hremove)
    have hne : first ≠ i := Nat.ne_of_lt (habove i hi first List.mem_cons_self)
    exact (hfree i (List.mem_append_left _ hi)).modify hne _

/-- **An action spares** what is not placed. -/
theorem Frees.act (h : e.Frees spared) (hact : e.act a base? action = .ok e') :
    Spares spared e.run e'.run := by
  cases alters_act hact with
  | idle => exact .refl
  | newest f hplaced => exact spares_modify (h.free _ (hplaced ▸ List.mem_cons_self)) f
  | newestTwo f g hplaced =>
    have hindex := h.free _ (hplaced ▸ List.mem_cons_self)
    have hprevious := h.free _ (hplaced ▸ List.mem_cons_of_mem _ List.mem_cons_self)
    have hdescending := h.descending
    rw [hplaced] at hdescending
    have hlt := (List.pairwise_cons.1 hdescending).1 _ List.mem_cons_self
    exact spares_reposition_reposition hprevious hindex (Nat.ne_of_lt hlt) f g
  | expanded hplaced hsplice =>
    have hindex := h.free _ (hplaced ▸ List.mem_cons_self)
    exact spares_of_replaced hindex (replaced_splice? hsplice)
  | ligated hligate => exact h.ligate hligate

theorem spares_carryOut {found : List Nat} {last cursor : Nat} {d : Direction} {next : Option Nat}
    (hsorted : (found ++ [last]).Pairwise (· < ·))
    (hfree : ∀ i ∈ found ++ [last], Free spared run i)
    (h : carryOut a base? d cursor run (found.map (·, none) ++ [(last, some action)]) =
      .ok (run', next)) : Spares spared run run' := by
  have hfrees : Edit.Frees spared ⟨run, last :: found.reverse, 0⟩ :=
    ⟨pairwise_placed hsorted, fun i hi => hfree i (by simpa [or_comm] using hi)⟩
  rw [carryOut, perform_last] at h
  cases hact : act a ⟨run, last :: found.reverse, 0⟩ base? action with
  | error fault =>
    rw [hact] at h
    cases h
  | ok e =>
    rw [hact] at h
    have hspares : Spares spared run e.run := hfrees.act hact
    cases d <;> obtain ⟨rfl, -⟩ := Prod.mk.inj (Except.ok.inj h) <;> exact hspares

end Edit

/-! ### Rules -/

theorem View.free_of_evaluate? {v : View} {flags : LookupFlags} {rule : Rule} {f : Finding}
    (hrule : rule.RegularWith flags) (hspared : ∀ g, spared g → skips v.categories flags g)
    (h : v.evaluate? rule = some f) : ∀ i ∈ f.plan.map (·.1), v.run.Free spared i := by
  intro i hi
  obtain ⟨step, hstep, matcher, flags', hconsume, haccepts⟩ := exists_accepts_of_evaluate? h i hi
  obtain rfl := hrule.flags_eq hstep hconsume
  obtain ⟨g, hg, haccepts⟩ := (Option.any_eq_true _ _).1 haccepts
  refine ⟨g, hg, ?_⟩
  rw [Bool.and_eq_true, Bool.not_eq_true'] at haccepts
  by_contra hne
  rw [hspared g (by simpa using hne)] at haccepts
  exact absurd haccepts.1 (by simp)

namespace Simulator

open GlyphRun

variable {sim : Simulator} {rules : List Rule} {spots : List Places} {s s' : Simulation}
  {cursor : Nat}

/-- Each rule consumes under flags that tell it to skip the spared glyphs. -/
def Skipping (spared : ShapedGlyph → Bool) (categories : Option ClassDef) (rules : List Rule) :
    Prop :=
  ∀ rule ∈ rules, ∃ flags, rule.RegularWith flags ∧ ∀ g, spared g → skips categories flags g

lemma Skipping.regular {categories : Option ClassDef} (h : Skipping spared categories rules) :
    ∀ rule ∈ rules, rule.Regular := by
  intro rule hrule
  obtain ⟨flags, hregular, -⟩ := h rule hrule
  exact hregular.regular

theorem spares_advance (hspells : sim.machine.Spells rules spots)
    (hrules : Skipping spared sim.categories rules) (h : sim.advance s cursor = .ok s') :
    Spares spared s.run s'.run := by
  have hcases := advance_cases h
  cases hsearch : Scene.search ⟨⟨sim.categories, s.run, cursor⟩, sim.machine⟩
      sim.options.maxMatchDepth.toNat with
  | exhausted =>
    rw [hsearch] at hcases
    obtain rfl := hcases
    exact .refl
  | limitReached =>
    rw [hsearch] at hcases
    obtain rfl := hcases
    exact .refl
  | matched path =>
    rw [hsearch] at hcases
    obtain ⟨run, next, happly, rfl⟩ := hcases
    obtain ⟨rule, hrule, f, found, last, action, heval, hindices, hsorted, hplan⟩ :=
      hspells.exists_plan hrules.regular hsearch
    obtain ⟨flags, hregular, hspared⟩ := hrules rule hrule
    have hfree := View.free_of_evaluate? hregular hspared heval
    rw [hindices] at hfree
    rw [Match.apply, hplan] at happly
    exact Edit.spares_carryOut hsorted hfree happly

/-- **A whole run** is processed around the spared glyphs. -/
theorem spares_loop (hspells : sim.machine.Spells rules spots)
    (hrules : Skipping spared sim.categories rules) {fuel : Nat} (h : sim.loop fuel s = .ok s') :
    Spares spared s.run s'.run := by
  refine loop_induction (P := fun s' => Spares spared s.run s'.run) ?_ h .refl
  intro s₁ cursor s₂ hs₁ _ hadvance
  exact hs₁.trans (spares_advance hspells hrules hadvance)

end Simulator

/-! ### Compiled machines -/

namespace LookupFlags

variable {f g : LookupFlags}

/-- Flags with a named flag that makes them pass over a category do filter glyphs. -/
lemma filtersGlyphs_of_contains (hg : g.bits &&& 0x001F &&& 0x000E ≠ 0) (h : f.contains g) :
    f.filtersGlyphs := by
  rw [contains, decide_eq_true_eq] at h
  rw [filtersGlyphs, decide_eq_true_eq]
  intro hnone
  refine hg ?_
  calc g.bits &&& 0x001F &&& 0x000E
      = f.bits &&& (g.bits &&& 0x001F) &&& 0x000E := by rw [h]
    _ = f.bits &&& 0x000E &&& (g.bits &&& 0x001F) := by
        rw [UInt16.and_assoc, UInt16.and_comm (g.bits &&& 0x001F), ← UInt16.and_assoc]
    _ = 0 := by rw [hnone, UInt16.zero_and]

theorem filtersGlyphs_of_skips {category : GlyphCategory} (h : f.skips category) :
    f.filtersGlyphs := by
  cases category with
  | base => exact filtersGlyphs_of_contains (by decide) h
  | ligature => exact filtersGlyphs_of_contains (by decide) h
  | mark => exact filtersGlyphs_of_contains (by decide) h
  | unclassified | component => cases h

end LookupFlags

/-- The glyph has a category, and the flags of every lookup say to pass over it. -/
def Lookup.passOver (lookups : List Lookup) (categories : Option ClassDef) (g : ShapedGlyph) :
    Bool :=
  lookups.all fun l => categories.any fun d => l.flags.skips (d.categoryOf g.id)

lemma Lookup.skipping_rules (lookups : List Lookup) (categories : Option ClassDef) :
    Simulator.Skipping (passOver lookups categories) categories (lookups.flatMap rules) := by
  intro rule hrule
  obtain ⟨l, hl, hrule⟩ := List.mem_flatMap.1 hrule
  refine ⟨l.flags, regularWith_rules hrule, fun g hg => ?_⟩
  have hskips := List.all_eq_true.1 hg l hl
  rw [skips, hskips, Bool.and_true]
  obtain ⟨d, -, hskips⟩ := (Option.any_eq_true _ _).1 hskips
  exact LookupFlags.filtersGlyphs_of_skips hskips

/-- **Skipped glyphs survive untouched.** A compiled machine processes every run to its end, and the
glyphs of the run whose category the flags of every lookup pass over are still there afterwards,
with their ids and positions and in their order, whatever stands between them now. This does not
depend on the categories, on how deep a match may go, or on whether a search has given up. -/
theorem Simulator.simulate_spares {lookups : List Lookup} {options : CompileOptions}
    {compiled : Compiled} (h : compile lookups options = .ok compiled)
    (categories : Option ClassDef) (limits : SimulatorOptions) (arithmetic : Arithmetic)
    (run : GlyphRun) :
    arithmetic.Ends
      (fun s => (run.toList.filter (Lookup.passOver lookups categories)).Sublist s.run.toList)
      (simulate ⟨compiled.machine, categories, limits, arithmetic⟩ run) := by
  refine (ends_simulate_compile h categories limits run arithmetic).imp fun s hs _ => ?_
  obtain ⟨m, spots, hequivalent, hspells, -⟩ := exists_spells_compile h
  rw [simulate_eq hequivalent] at hs
  exact spares_loop hspells (Lookup.skipping_rules lookups categories) hs

/-- A ligature, an expansion and a pair, all over marks. -/
def Lookup.overMarks : List Lookup :=
  [⟨.ignoreMarks, .ligature ⟨⟨.list #[11], rfl⟩, #[[⟨19, [12]⟩]], rfl⟩⟩,
    ⟨.ignoreMarks, .multiple ⟨⟨.list #[13], rfl⟩, #[[14, 14]], rfl⟩⟩,
    ⟨.ignoreMarks, .pairPosition ⟨⟨.list #[16], rfl⟩, #[[⟨17, { xAdvance := 1 }, {}⟩]], rfl⟩⟩]

theorem Simulator.simulate_spares_overMarks : ∃ compiled s,
    compile Lookup.overMarks { optimize := false } = .ok compiled ∧
    simulate ⟨compiled.machine, some ⟨.list 5 #[3], rfl⟩, {}, .wrapping⟩
      (.ofIds [11, 5, 12, 5, 13, 5, 16, 5, 17]) = .ok s ∧
    s.run.ids = [19, 5, 5, 14, 14, 5, 16, 5, 17] ∧
    (List.replicate 4 (ShapedGlyph.ofId 5)).Sublist s.run.toList := by
  have hcompile : compile Lookup.overMarks { optimize := false } =
      .ok ⟨(Trie.addPaths {} (Lookup.overMarks.flatMap Lookup.rules)).machine, 3, none⟩ := rfl
  obtain ⟨s, hs, hspared⟩ := (simulate_spares hcompile (some ⟨.list 5 #[3], rfl⟩) {} .wrapping
    (.ofIds [11, 5, 12, 5, 13, 5, 16, 5, 17])).exists_ok (by decide)
  have hrun : (simulate ⟨(Trie.addPaths {} (Lookup.overMarks.flatMap Lookup.rules)).machine,
      some ⟨.list 5 #[3], rfl⟩, {}, .wrapping⟩ (.ofIds [11, 5, 12, 5, 13, 5, 16, 5, 17])).map
        (·.run.ids) = .ok [19, 5, 5, 14, 14, 5, 16, 5, 17] := by
    decide +kernel
  have hfilter : (GlyphRun.ofIds [11, 5, 12, 5, 13, 5, 16, 5, 17]).toList.filter
      (Lookup.passOver Lookup.overMarks (some ⟨.list 5 #[3], rfl⟩)) =
        List.replicate 4 (ShapedGlyph.ofId 5) := by
    decide +kernel
  rw [hs] at hrun
  rw [hfilter] at hspared
  exact ⟨_, s, hcompile, hs, Except.ok.inj hrun, hspared⟩

end Shaping
