import Shaping.Proofs.Kerning
import Shaping.Proofs.Preceding

/-!
Lookups that move glyphs and rename none. What their rules find depends on the ids of a run, and
these stay. So to process a run with such a lookup is to sweep it: its indices are visited in
order, and what is done at each of them is known from the beginning. Main statement:
`Lookup.exists_run_sweep`.
-/

namespace Shaping

namespace GlyphRun

variable {run run' : GlyphRun} {categories : Option ClassDef} {flags : LookupFlags} {i j k : Nat}
  {acts : Nat → Bool} {visit : GlyphRun → Nat → GlyphRun}

/-! ### What depends on the ids -/

lemma size_eq_of_ids_eq (h : run.ids = run'.ids) : run.size = run'.size := by
  simpa [ids] using congrArg List.length h

lemma map_id_eq_of_ids_eq (h : run.ids = run'.ids) (i : Nat) :
    run[i]?.map (·.id) = run'[i]?.map (·.id) := by
  have hget := congrArg (·[i]?) h
  simpa [ids] using hget

/-- Glyphs are skipped because of their ids. -/
lemma skips_congr {g g' : ShapedGlyph} (h : g.id = g'.id) :
    skips categories flags g = skips categories flags g' := by
  rw [skips, skips, h]

lemma map_unskipped_congr {glyphs glyphs' : List ShapedGlyph}
    (h : glyphs.map (·.id) = glyphs'.map (·.id)) :
    (unskipped (skips categories flags) k glyphs).map (fun p => (p.1.id, p.2)) =
      (unskipped (skips categories flags) k glyphs').map fun p => (p.1.id, p.2) := by
  induction glyphs generalizing glyphs' k with
  | nil =>
    rw [List.map_nil, eq_comm, List.map_eq_nil_iff] at h
    rw [h]
  | cons g glyphs ih =>
    cases glyphs' with
    | nil => simp at h
    | cons g' glyphs' =>
      obtain ⟨hid, hrest⟩ := List.cons.inj h
      rw [unskipped_cons, unskipped_cons, skips_congr hid]
      split_ifs
      · exact ih hrest
      · rw [List.map_cons, List.map_cons, ih hrest]
        exact congrArg (fun id => (id, k) :: _) hid

lemma map_following_congr (h : run.ids = run'.ids) (i : Nat) :
    (run.following (skips categories flags) i).map (fun p => (p.1.id, p.2)) =
      (run'.following (skips categories flags) i).map fun p => (p.1.id, p.2) := by
  refine map_unskipped_congr ?_
  rw [List.map_drop, List.map_drop]
  exact congrArg (List.drop (i + 1)) h

lemma map_preceding_congr (h : run.ids = run'.ids) (i : Nat) :
    (run.preceding (skips categories flags) i).map (fun p => (p.1.id, p.2)) =
      (run'.preceding (skips categories flags) i).map fun p => (p.1.id, p.2) := by
  rw [preceding, preceding, List.map_reverse, List.map_reverse]
  congr 1
  refine map_unskipped_congr ?_
  rw [List.map_take, List.map_take]
  exact congrArg (List.take i) h

lemma map_filter_skips_congr (h : run.ids = run'.ids) (i : Nat) :
    (run[i]?.filter (!skips categories flags ·)).map (·.id) =
      (run'[i]?.filter (!skips categories flags ·)).map (·.id) := by
  have hid := map_id_eq_of_ids_eq h i
  cases hg : run[i]? with
  | none =>
    rw [hg, Option.map_none, eq_comm, Option.map_eq_none_iff] at hid
    rw [hid]
  | some g =>
    rw [hg, Option.map_some, eq_comm, Option.map_eq_some_iff] at hid
    obtain ⟨g', hg', hid⟩ := hid
    rw [hg', Option.filter_some, Option.filter_some, skips_congr hid]
    split_ifs
    · rw [Option.map_some, Option.map_some, hid]
    · rfl

theorem pairAt?_congr (h : run.ids = run'.ids) (i : Nat) :
    run.pairAt? (skips categories flags) i = run'.pairAt? (skips categories flags) i := by
  have hpair : ∀ run : GlyphRun, run.pairAt? (skips categories flags) i =
      ((run[i]?.filter (!skips categories flags ·)).map (·.id)).bind fun a =>
        ((run.following (skips categories flags) i).map fun p => (p.1.id, p.2)).head?.map
          fun p => (a, p) := by
    intro run
    rw [pairAt?, List.head?_map, Option.bind_map]
    simp only [Option.map_map]
    rfl
  rw [hpair, hpair, map_following_congr h, map_filter_skips_congr h]

/-! ### Sweeps -/

/-- The run after the first `n` indices have been visited, one after the other. -/
def sweep (visit : GlyphRun → Nat → GlyphRun) (run : GlyphRun) (n : Nat) : GlyphRun :=
  (List.range n).foldl visit run

@[simp] lemma sweep_zero : run.sweep visit 0 = run := rfl

lemma sweep_succ {n : Nat} : run.sweep visit (n + 1) = visit (run.sweep visit n) n := by
  rw [sweep, List.range_succ, List.foldl_append]
  rfl

lemma ids_sweep (h : ∀ run i, (visit run i).ids = run.ids) (run : GlyphRun) (n : Nat) :
    (run.sweep visit n).ids = run.ids := by
  induction n with
  | zero => rfl
  | succ n ih => rw [sweep_succ, h, ih]

/-- **A sweep is an induction** over the indices, whose steps keep the ids. -/
theorem sweep_induction {P : Nat → GlyphRun → Prop} (hids : ∀ run i, (visit run i).ids = run.ids)
    (hzero : P 0 run) (hsucc : ∀ n after, after.ids = run.ids → P n after →
      P (n + 1) (visit after n)) (n : Nat) : P n (run.sweep visit n) := by
  induction n with
  | zero => exact hzero
  | succ n ih =>
    rw [sweep_succ]
    exact hsucc n _ (ids_sweep hids run n) ih

lemma sweep_idle (run : GlyphRun) (h : ∀ run k, acts k = false → visit run k = run) (hij : i ≤ j)
    (hidle : ∀ k, i ≤ k → k < j → acts k = false) :
    run.sweep visit j = run.sweep visit i ∧
      (List.range j).countP acts = (List.range i).countP acts := by
  induction j, hij using Nat.le_induction with
  | base => exact ⟨rfl, rfl⟩
  | succ j hij ih =>
    obtain ⟨hsweep, hcount⟩ := ih fun k hik hkj => hidle k hik (Nat.lt_succ_of_lt hkj)
    have hj := hidle j hij (Nat.lt_succ_self j)
    rw [sweep_succ, h _ _ hj, hsweep, List.range_succ, List.countP_append, hcount]
    simp [hj]

end GlyphRun

/-! ### Runs -/

/-- At each index of a run with these ids the interpreter does what `visit` does, and a rule is
carried out at the indices that satisfy `acts`. If it goes on by more than one index, nothing is
done at those in between. -/
structure Interpreter.Visits (it : Interpreter) (run : GlyphRun) (acts : Nat → Bool)
    (visit : GlyphRun → Nat → GlyphRun) : Prop where
  ids : ∀ run i, (visit run i).ids = run.ids
  idle : ∀ run i, acts i = false → visit run i = run
  advance : ∀ (s : Simulation) i, s.run.ids = run.ids → i < s.run.size →
    ∃ next, i < next ∧ next ≤ s.run.size ∧ (∀ k, i < k → k < next → acts k = false) ∧
      it.advance s i = .ok { s with
        run := visit s.run i
        cursor := if next < s.run.size then some next else none
        applied := s.applied + if acts i then 1 else 0 }

variable {run : GlyphRun} {acts : Nat → Bool} {visit : GlyphRun → Nat → GlyphRun}

/-- **The interpreter sweeps a run** from its cursor to the end. -/
theorem Interpreter.Visits.loop_eq_sweep {it : Interpreter} (h : it.Visits run acts visit)
    {fuel i : Nat} (limitHits : Nat) (hi : i ≤ run.size) (hfuel : run.size ≤ i + fuel) :
    it.loop fuel ⟨run.sweep visit i, if i < run.size then some i else none,
        (List.range i).countP acts, limitHits⟩ =
      .ok ⟨run.sweep visit run.size, none, (List.range run.size).countP acts, limitHits⟩ := by
  induction fuel generalizing i with
  | zero =>
    obtain rfl : i = run.size := by omega
    rw [if_neg (Nat.lt_irrefl _)]
    exact loop_of_none rfl
  | succ fuel ih =>
    by_cases hlt : i < run.size
    · have hids := GlyphRun.ids_sweep h.ids run i
      have hsize := GlyphRun.size_eq_of_ids_eq hids
      obtain ⟨next, hnext, hle, hidle, hadvance⟩ := h.advance
        ⟨run.sweep visit i, some i, (List.range i).countP acts, limitHits⟩ i hids
        (by rw [hsize]; exact hlt)
      rw [hsize] at hle hadvance
      -- the indices that are passed over are visited as well, to no effect
      obtain ⟨hsweep, hcount⟩ := GlyphRun.sweep_idle run h.idle hnext hidle
      have hrest := ih hle (by omega)
      rw [hsweep, hcount, GlyphRun.sweep_succ, List.range_succ, List.countP_append,
        List.countP_singleton] at hrest
      rw [if_pos hlt, loop_of_some rfl hadvance]
      exact hrest
    · obtain rfl : i = run.size := by omega
      rw [if_neg hlt]
      exact loop_of_none rfl

/-- **A lookup of one short rule that moves glyphs**, compiled alone, sweeps every run, and no
search gives up. That is so in exact arithmetic, and in every build if all sums are words. -/
theorem Lookup.exists_run_sweep (l : Lookup) (hdirection : l.direction = .forward)
    (hone : l.rules.length ≤ 1) (hlength : ∀ rule ∈ l.rules, rule.length = 3)
    {categories : Option ClassDef}
    (h : Interpreter.Visits ⟨l.rules, .forward, categories, .exact⟩ run acts visit)
    (options : CompileOptions) {limits : SimulatorOptions} (hdepth : 3 ≤ limits.maxMatchDepth) :
    ∃ compiled s, compile [l] options = .ok compiled ∧
      Simulator.simulate ⟨compiled.machine, categories, limits, .exact⟩ run = .ok s ∧
      ((∀ x ∈ Simulator.runSums ⟨compiled.machine, categories, limits, .exact⟩ run, IsWord x) →
        ∀ arithmetic,
          Simulator.simulate ⟨compiled.machine, categories, limits, arithmetic⟩ run = .ok s) ∧
      s.limitHits = 0 ∧ s.run = run.sweep visit run.size ∧
      s.applied = (List.range run.size).countP acts := by
  obtain ⟨⟨spots, hspells⟩, -⟩ := l.exists_spells_trie
  have hdepth : 3 ≤ limits.maxMatchDepth.toNat := UInt64.le_iff_toNat_le.1 hdepth
  have hsettled : ∀ v : View,
      Scene.search ⟨v, l.trie.machine⟩ limits.maxMatchDepth.toNat ≠ .limitReached := by
    intro v
    refine hspells.search_ne_limitReached (fun rule => endsIn_rules) (fun rule hrule => ?_) ?_ v
    · rw [hlength rule hrule]
      exact hdepth
    · have hsteps : l.rules.flatten.length ≤ 3 := by
        cases hrules : l.rules with
        | nil => simp
        | cons rule rest =>
          rw [hrules, List.length_cons] at hone
          obtain rfl : rest = [] := List.length_eq_zero_iff.1 (by omega)
          rw [List.flatten_singleton, hlength rule (by simp [hrules])]
      have hcount := l.rules.flatten.countP_le_length (p := fun step => step.predicate ≠ .accept)
      rw [searchLimit]
      omega
  obtain ⟨compiled, hcompile, hs⟩ :=
    l.exists_run_settled options categories limits .exact run hsettled
  rw [hdirection, Interpreter.simulate, GlyphRun.start_forward] at hs
  replace hs := hs.trans (h.loop_eq_sweep 0 (Nat.zero_le _) (Nat.le_of_eq (Nat.zero_add _).symm))
  exact ⟨compiled, _, hcompile, hs,
    fun hwords arithmetic => (Simulator.simulate_eq_exact hwords arithmetic).trans hs, rfl, rfl,
    rfl⟩

end Shaping
