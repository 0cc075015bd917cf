import Mathlib.Data.Finset.Card
import Shaping.Proofs.Safety

/-!
Searches that do not give up. A step of a search goes on to a walk that was ahead and is not any
more, or takes a transition back. So a search through `n` walks ends within `2 * n + 1` steps. The
walks that a search can take through a machine that spells rules are the beginnings of the rules up
to where they accept, so small sets of short rules never meet a limit. Main statement:
`limitHits_simulate_compile`.
-/

namespace Shaping

variable {sc : Scene} {ps qs : Places} {t : Trail} {depth k n : Nat} {nodes : Finset Places}

/-! ### Effort -/

namespace Places

open scoped Classical in
/-- How many steps a search can still take: two for each of the walks that are ahead, one down and
one back, and one back for each transition of its own walk. -/
noncomputable def effort (nodes : Finset Places) (ps : Places) (n : Nat) : Nat :=
  2 * (nodes.filter fun qs => Ahead ps n qs).card + ps.length

lemma effort_nil_le (nodes : Finset Places) (n : Nat) : effort nodes [] n ≤ 2 * nodes.card := by
  classical
  have hle := Finset.card_filter_le nodes fun qs => Ahead [] n qs
  rw [effort, List.length_nil]
  omega

lemma Ahead.of_concat (hk : n ≤ k) (h : Ahead (ps ++ [k]) 0 qs) : Ahead ps n qs := by
  obtain h | ⟨j, rest, -, rfl⟩ := h
  · obtain h | ⟨j, rest, hj, rfl⟩ := concat_before_iff.1 h
    · exact .inl h
    · exact .inr ⟨j, rest, by omega, rfl⟩
  · exact .inr ⟨k, j :: rest, hk, by simp⟩

lemma not_ahead_self : ¬ Ahead ps n ps := by
  rintro (h | ⟨j, rest, -, h⟩)
  · exact before_irrefl h
  · simp at h

/-- **Going on takes effort**: the walk that is taken is not ahead any more. -/
theorem effort_concat_lt (hk : n ≤ k) (hmem : ps ++ [k] ∈ nodes) :
    effort nodes (ps ++ [k]) 0 < effort nodes ps n := by
  classical
  have hless : (nodes.filter fun qs => Ahead (ps ++ [k]) 0 qs).card <
      (nodes.filter fun qs => Ahead ps n qs).card := by
    refine Finset.card_lt_card (Finset.ssubset_iff_of_subset ?_ |>.2 ⟨ps ++ [k], ?_, ?_⟩)
    · exact Finset.monotone_filter_right nodes fun qs _ h => h.of_concat hk
    · exact Finset.mem_filter.2 ⟨hmem, .inr ⟨k, [], hk, rfl⟩⟩
    · exact fun h => not_ahead_self (Finset.mem_filter.1 h).2
  rw [effort, effort, List.length_append, List.length_singleton]
  omega

theorem effort_lt_concat (nodes : Finset Places) (ps : Places) (i n : Nat) :
    effort nodes ps (i + 1) < effort nodes (ps ++ [i]) n := by
  classical
  have hle : (nodes.filter fun qs => Ahead ps (i + 1) qs).card ≤
      (nodes.filter fun qs => Ahead (ps ++ [i]) n qs).card :=
    Finset.card_le_card <| Finset.monotone_filter_right nodes fun qs _ h =>
      .inl (concat_before_iff.2 h)
  rw [effort, effort, List.length_append, List.length_singleton]
  omega

end Places

/-- **A search does not give up** if its steps suffice for the walks that it can take, and none of
them is as long as its depth. -/
theorem Trail.search_ne_limitReached (hnodes : ∀ ps t, sc.Takes ps t → ps ≠ [] → ps ∈ nodes)
    (hdepth : ∀ ps t, sc.Takes ps t → ps.length < depth) {fuel : Nat} (h : sc.Takes ps t)
    (hfuel : Places.effort nodes ps t.next < fuel) : search sc depth fuel t ≠ .limitReached := by
  induction fuel generalizing ps t with
  | zero => exact absurd hfuel (Nat.not_lt_zero _)
  | succ fuel ih =>
    have hmove := h.move depth
    rw [search]
    generalize t.step sc depth = next at hmove ⊢
    cases hmove with
    | accept | stop =>
      intro hgiven
      cases hgiven
    | full _ _ hle takes =>
      have hlt := hdepth _ _ takes
      rw [List.length_append, List.length_singleton] at hlt
      omega
    | @up qs i u _ hps hnext takes =>
      subst hps
      have hless := Places.effort_lt_concat nodes qs i t.next
      exact ih takes (by rw [hnext]; omega)
    | @down k target hit hmeets _ _ takes =>
      have hk := (Trail.firstHit_some hmeets).1
      have hless := Places.effort_concat_lt hk (hnodes _ _ takes (by simp))
      have hnext : (t.descend k target hit).next = 0 := by cases hit <;> rfl
      exact ih takes (by rw [hnext]; omega)

theorem Scene.search_ne_limitReached (nodes : Finset Places)
    (hnodes : ∀ ps t, sc.Takes ps t → ps ≠ [] → ps ∈ nodes)
    (hdepth : ∀ ps t, sc.Takes ps t → ps.length < max 1 (min depth searchLimit))
    (hcount : 2 * nodes.card < searchLimit) : sc.search depth ≠ .limitReached := by
  exact Trail.search_ne_limitReached hnodes hdepth (.entry 0)
    ((Places.effort_nil_le nodes 0).trans_lt hcount)

/-! ### Walks up to where rules accept -/

/-- The walks that begin one of these walks and are shorter, the empty one left out. -/
def Places.beginnings (spots : List Places) : List Places :=
  spots.flatMap fun p => (List.range (p.length - 1)).map fun k => p.take (k + 1)

theorem Scene.Takes.exists_walk (h : sc.Takes ps t) :
    ∃ rule, sc.machine.Walk ps rule t.state ∧ ∀ step ∈ rule, ¬ step.IsAccept := by
  induction h with
  | entry => exact ⟨[], .entry, by simp⟩
  | @step ps t i a hit n takes hi htest hne ih =>
    obtain ⟨rule, walk, hrule⟩ := ih
    refine ⟨_, .step walk hi, List.forall_mem_append.2 ⟨hrule, List.forall_mem_singleton.2 ?_⟩⟩
    intro ha
    rw [ha] at htest
    exact hne (Option.some.inj htest).symm

/-- One step of a rule accepts, the others do not. -/
lemma EndsIn.countP_add_one {rule : Rule} (h : EndsIn Label.IsAccept rule) :
    rule.countP (fun step => step.predicate ≠ .accept) + 1 = rule.length := by
  obtain ⟨body, last, rfl, hlast, hbody⟩ := h
  have hlast : last.predicate = .accept := hlast
  have hcount : body.countP (fun step => decide (step.predicate ≠ .accept)) = body.length :=
    List.countP_eq_length.2 fun step hstep => decide_eq_true (hbody step hstep)
  rw [List.countP_append, hcount]
  simp [hlast]

variable {m : Machine Step} {spots : List Places} {rules : List Rule}

theorem Machine.length_beginnings
    (hspelled : List.Forall₂ (fun p rule => ∃ s, m.Walk p rule s) spots rules)
    (hrules : ∀ rule ∈ rules, EndsIn Label.IsAccept rule) :
    (Places.beginnings spots).length =
      rules.flatten.countP (fun step => step.predicate ≠ .accept) := by
  induction hspelled with
  | nil => rfl
  | @cons p rule spots rules hp _ ih =>
    obtain ⟨s, walk⟩ := hp
    obtain ⟨hrule, hrules⟩ := List.forall_mem_cons.1 hrules
    have hcount := hrule.countP_add_one
    have hlen := walk.length_eq
    have hcons : (Places.beginnings (p :: spots)).length =
        p.length - 1 + (Places.beginnings spots).length := by simp [Places.beginnings]
    rw [hcons, ih hrules, List.flatten_cons, List.countP_append]
    omega

theorem Machine.Spells.begins_of_takes (h : m.Spells rules spots)
    (hrules : ∀ rule ∈ rules, EndsIn Label.IsAccept rule) {v : View}
    (htakes : Scene.Takes ⟨v, m⟩ ps t) (hne : ps ≠ []) :
    ∃ p ∈ spots, ∃ rule ∈ rules, p.length = rule.length ∧ ps <+: p ∧ ps.length < p.length := by
  obtain ⟨front, walk, hfront⟩ := htakes.exists_walk
  obtain ⟨p, hp, hbegins⟩ := (h.covered walk).resolve_left hne
  obtain ⟨rule, hrule, s, walk'⟩ := h.mem_spelled hp
  refine ⟨p, hp, rule, hrule, walk'.length_eq.symm, hbegins, hbegins.length_le.lt_of_ne ?_⟩
  intro hlen
  -- the walk of a whole rule ends in its step that accepts
  obtain rfl := hbegins.eq_of_length hlen
  obtain ⟨rfl, -⟩ := walk.det walk'
  obtain ⟨body, last, rfl, hlast, -⟩ := hrules front hrule
  exact hfront last (by simp) hlast

lemma Places.mem_beginnings {p : Places} (hp : p ∈ spots) (hbegins : ps <+: p)
    (hlt : ps.length < p.length) (hne : ps ≠ []) : ps ∈ beginnings spots := by
  have hpos := List.length_pos_iff.2 hne
  refine List.mem_flatMap.2 ⟨p, hp, List.mem_map.2 ⟨ps.length - 1, ?_, ?_⟩⟩
  · exact List.mem_range.2 (by omega)
  · rw [Nat.sub_add_cancel hpos]
    exact (List.prefix_iff_eq_take.1 hbegins).symm

/-- **Searches for few short rules do not give up.** Their steps suffice if twice the number of the
steps of the rules that do not accept is below the limit. -/
theorem Machine.Spells.search_ne_limitReached (h : m.Spells rules spots)
    (hrules : ∀ rule ∈ rules, EndsIn Label.IsAccept rule)
    (hdepth : ∀ rule ∈ rules, rule.length ≤ depth)
    (hcount : 2 * rules.flatten.countP (fun step => step.predicate ≠ .accept) < searchLimit)
    (v : View) : Scene.search ⟨v, m⟩ depth ≠ .limitReached := by
  classical
  refine Scene.search_ne_limitReached (Places.beginnings spots).toFinset ?_ ?_ ?_
  · intro ps t takes hne
    obtain ⟨p, hp, -, -, -, hpre, hlt⟩ := h.begins_of_takes hrules takes hne
    exact List.mem_toFinset.2 (Places.mem_beginnings hp hpre hlt hne)
  · intro ps t takes
    by_cases hne : ps = []
    · simp [hne]
    · obtain ⟨p, -, rule, hrule, hlen, -, hlt⟩ := h.begins_of_takes hrules takes hne
      have hle := hdepth rule hrule
      have hsteps := (hrules rule hrule).countP_add_one
      have hsub := (List.sublist_flatten_of_mem hrule).countP_le
        (p := fun step => decide (step.predicate ≠ .accept))
      omega
  · have hcard := (Places.beginnings spots).toFinset_card_le
    rw [length_beginnings h.spelled hrules] at hcard
    omega

/-! ### Runs -/

namespace Simulator

variable {sim : Simulator} {s s' : Simulation}

theorem limitHits_loop (hsearch : ∀ v : View,
    Scene.search ⟨v, sim.machine⟩ sim.options.maxMatchDepth.toNat ≠ .limitReached) {fuel : Nat}
    (h : sim.loop fuel s = .ok s') : s'.limitHits = s.limitHits := by
  refine loop_induction (P := fun u => u.limitHits = s.limitHits) ?_ h rfl
  intro u cursor u' hu _ hadvance
  obtain ⟨-, -, hhits⟩ | ⟨-, hhits⟩ | ⟨hlimit, -, -⟩ := counts_advance hadvance
  · rw [hhits, hu]
  · rw [hhits, hu]
  · exact absurd hlimit (hsearch _)

end Simulator

/-- **Few short rules never meet a limit.** If no rule that the lookups expand to has more steps
than the depth allows, and all rules together have at most 49999 steps that do not accept, then no
search gives up, whatever the options, the categories and the run. -/
theorem limitHits_simulate_compile {lookups : List Lookup} {options : CompileOptions}
    {compiled : Compiled} (h : compile lookups options = .ok compiled) {rules : List (List Rule)}
    (hexpand : (lookups.mapM fun l => l.expand l.direction) = .ok rules) (limits : SimulatorOptions)
    (hdepth : ∀ rule ∈ rules.flatten, rule.length ≤ limits.maxMatchDepth.toNat)
    (hcount : rules.flatten.flatten.countP (fun step => step.predicate ≠ .accept) ≤ 49999)
    (categories : Option ClassDef) (arithmetic : Arithmetic) (run : GlyphRun) :
    arithmetic.Ends (·.limitHits = 0)
      (Simulator.simulate ⟨compiled.machine, categories, limits, arithmetic⟩ run) := by
  refine (ends_simulate_compile h categories limits run arithmetic).imp fun s hs _ => ?_
  obtain ⟨m, spots, hequivalent, hspells, -⟩ := exists_spells_compile h
  rw [Lookup.mapM_expand] at hexpand
  obtain rfl := Except.ok.inj hexpand
  rw [← List.flatMap_def] at hdepth hcount
  rw [Simulator.simulate_eq hequivalent] at hs
  have hsearch := hspells.search_ne_limitReached
    (fun rule hrule => (Lookup.regular_flatMap_rules rule hrule).endsIn) hdepth
    (by rw [searchLimit]; omega)
  exact Simulator.limitHits_loop hsearch hs

theorem limitHits_simulate_compile_overlapping :
    compile Lookup.overlapping { optimize := false } =
      .ok ⟨Lookup.overlappingTrie.machine, 3, none⟩ ∧
    (Lookup.overlapping.mapM fun l => l.expand l.direction) =
      .ok (Lookup.overlapping.map Lookup.rules) ∧
    (∀ rule ∈ (Lookup.overlapping.map Lookup.rules).flatten, rule.length ≤ 4) ∧
    (Lookup.overlapping.map Lookup.rules).flatten.flatten.countP
      (fun step => step.predicate ≠ .accept) ≤ 49999 ∧
    ∃ s, Simulator.simulate
        ⟨Lookup.overlappingTrie.machine, none, { maxMatchDepth := 4 }, .wrapping⟩
        (.ofIds [1, 2, 2, 1]) = .ok s ∧ s.limitHits = 0 := by
  have hexpand := Lookup.mapM_expand Lookup.overlapping
  have hdepth : ∀ rule ∈ (Lookup.overlapping.map Lookup.rules).flatten, rule.length ≤ 4 := by
    decide
  have hcount : (Lookup.overlapping.map Lookup.rules).flatten.flatten.countP
      (fun step => step.predicate ≠ .accept) ≤ 49999 := by
    decide
  have hends := limitHits_simulate_compile Lookup.compile_overlapping hexpand
    { maxMatchDepth := 4 } hdepth hcount none .wrapping (.ofIds [1, 2, 2, 1])
  exact ⟨Lookup.compile_overlapping, hexpand, hdepth, hcount, hends.exists_ok (by decide)⟩

end Shaping
