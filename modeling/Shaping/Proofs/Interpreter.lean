import Shaping.Proofs.Progress
import Shaping.Proofs.Rules

/-!
The naive interpreter of a list of rules. At each position it evaluates the rules from scratch, one
after the other, carries out the first one that holds, and moves on by one glyph if none does. A
machine whose walks spell the rules in their order does the same as long as no search gives up.
Main statement: `Interpreter.simulate_eq`.
-/

namespace Shaping

/-- Rules, highest priority first, with what is needed to try them on a run. -/
structure Interpreter where
  rules : List Rule
  direction : Direction := .forward
  categories : Option ClassDef := none
  arithmetic : Arithmetic := .wrapping

namespace Interpreter

/-- Processes the glyph at the cursor. -/
def advance (it : Interpreter) (s : Simulation) (cursor : Nat) : Except Fault Simulation :=
  match View.first? ⟨it.categories, s.run, cursor⟩ it.rules with
  | some f => do
    let (run, next) ← Edit.carryOut it.arithmetic f.base? it.direction cursor s.run f.plan
    return { s with run, cursor := next, applied := s.applied + 1 }
  | none => .ok { s with cursor := s.run.step it.direction 1 cursor }

/-- Processes at most `fuel` glyphs. -/
def loop (it : Interpreter) : (fuel : Nat) → Simulation → Except Fault Simulation
  | 0, s => .ok s
  | fuel + 1, s =>
    match s.cursor with
    | none => .ok s
    | some cursor => do
      let s ← it.advance s cursor
      loop it fuel s

/-- Processes a run from its start. -/
def simulate (it : Interpreter) (run : GlyphRun) : Except Fault Simulation :=
  it.loop run.size { run, cursor := run.start it.direction }

end Interpreter

variable {m : Machine Step} {rules : List Rule} {spots : List Places}

/-! ### The first rule -/

theorem Machine.Walk.accepting {v : View} {rule : Rule} {p : Places} {s : StateId} {f : Finding}
    (hrule : EndsIn Label.IsAccept rule) (hwalk : m.Walk p rule s)
    (hf : v.evaluate? rule = some f) :
    ∃ ps t i, p = ps ++ [i] ∧ Scene.Accepting ⟨v, m⟩ ps t i ∧ f.Recorded m t.path := by
  obtain ⟨body, last, rfl, hlast, hbody⟩ := hrule
  cases p using List.reverseRecOn with
  | nil =>
    obtain ⟨h, -⟩ := Machine.walk_nil_iff.1 hwalk
    simp at h
  | append_singleton ps i =>
    obtain ⟨ks, u, a, walk, hi, heq, -⟩ := Machine.walk_concat_iff.1 hwalk
    obtain ⟨rfl, rfl⟩ := List.append_singleton_inj.1 heq
    rw [View.evaluate?_concat_accept hlast] at hf
    obtain ⟨t, takes, rfl, hrecorded⟩ := walk.exists_takes ⟨v, m⟩ hbody hf
    exact ⟨ps, t, i, rfl, ⟨takes, a, hi, hlast⟩, hrecorded⟩

theorem Scene.Accepting.exists_evaluate {sc : Scene} {ps : Places} {t : Trail} {i : Nat}
    (h : sc.Accepting ps t i) : ∃ body last s f, last.IsAccept ∧
      sc.machine.Walk (ps ++ [i]) (body ++ [last]) s ∧ sc.evaluate? (body ++ [last]) = some f ∧
        f.Recorded sc.machine t.path := by
  obtain ⟨takes, a, hi, haccept⟩ := h
  obtain ⟨body, f, walk, hf, hrecorded⟩ := takes.exists_evaluate
  refine ⟨body, a.label, a.target, f, haccept, .step walk hi, ?_, hrecorded⟩
  rw [View.evaluate?_concat_accept haccept, hf]

/-- Where the walks stand in the order of the rules, the first walk whose rule holds is that of the
first rule that holds. -/
theorem View.first?_of_before {v : View} {q : Places} {rule : Rule} {s : StateId} {f : Finding}
    (hspelled : List.Forall₂ (fun p rule => ∃ s, m.Walk p rule s) spots rules)
    (hordered : spots.Pairwise fun p q => p = q ∨ Places.Before p q) (hq : q ∈ spots)
    (hwalk : m.Walk q rule s) (hf : v.evaluate? rule = some f)
    (hfirst : ∀ p rule s, rule ∈ rules → m.Walk p rule s → (v.evaluate? rule).isSome →
      p = q ∨ Places.Before q p) : v.first? rules = some f := by
  induction hspelled with
  | nil => exact absurd hq List.not_mem_nil
  | @cons p rule' spots rules hp _ ih =>
    obtain ⟨t, hp⟩ := hp
    rw [first?, List.findSome?_cons, ← first?]
    by_cases hpq : p = q
    · subst hpq
      obtain ⟨rfl, -⟩ := hwalk.det hp
      rw [hf]
    · obtain ⟨hlater, hordered⟩ := List.pairwise_cons.1 hordered
      have hq : q ∈ spots := (List.mem_cons.1 hq).resolve_left (Ne.symm hpq)
      have hbefore : Places.Before p q := (hlater q hq).resolve_left hpq
      have hnone : v.evaluate? rule' = none := by
        by_contra hne
        obtain rfl | h := hfirst p rule' t (by simp) hp (Option.isSome_iff_ne_none.2 hne)
        · exact hpq rfl
        · exact hbefore.asymm h
      rw [hnone]
      exact ih hordered hq fun p rule s hrule => hfirst p rule s (by simp [hrule])

/-- **The search tries the rules in order.** A match is the first rule that holds, and a search is
exhausted only where none does. -/
theorem Machine.Spells.search (h : m.Spells rules spots)
    (hrules : ∀ rule ∈ rules, EndsIn Label.IsAccept rule) (v : View) (depth : Nat) :
    match Scene.search ⟨v, m⟩ depth with
    | .matched path => ∃ f, v.first? rules = some f ∧ Edit.plan m path = f.plan ∧
        path.base? = f.base?
    | .exhausted => v.first? rules = none
    | .limitReached => True := by
  have hspec := Scene.search_spec ⟨v, m⟩ depth
  cases hsearch : Scene.search ⟨v, m⟩ depth with
  | limitReached => trivial
  | exhausted =>
    rw [hsearch] at hspec
    refine List.findSome?_eq_none_iff.2 fun rule hrule => ?_
    obtain ⟨p, -, s, hwalk⟩ := h.mem_paths hrule
    by_contra hne
    obtain ⟨f, hf⟩ := Option.ne_none_iff_exists'.1 hne
    obtain ⟨ps, t, i, -, hacc, -⟩ := hwalk.accepting (hrules rule hrule) hf
    exact hspec ps t i hacc
  | matched path =>
    rw [hsearch] at hspec
    obtain ⟨ps, t, i, rfl, hacc, hfirst⟩ := hspec
    obtain ⟨body, last, s, f, hlast, hwalk, hf, hrecorded⟩ := hacc.exists_evaluate
    refine ⟨f, ?_, hrecorded.plan_eq, hrecorded.base⟩
    refine View.first?_of_before h.spelled h.ordered (h.mem_spots hrules hlast hwalk) hwalk hf ?_
    intro p rule s hrule hwalk hsome
    obtain ⟨g, hg⟩ := Option.isSome_iff_exists.1 hsome
    obtain ⟨qs, u, j, rfl, hacc', -⟩ := hwalk.accepting (hrules rule hrule) hg
    exact hfirst qs u j hacc'

/-! ### Runs -/

namespace Simulator

variable {sim : Simulator} {s s' : Simulation} {cursor : Nat}

lemma limitHits_le_advance (h : sim.advance s cursor = .ok s') : s.limitHits ≤ s'.limitHits := by
  obtain ⟨-, -, hhits⟩ | ⟨-, hhits⟩ | ⟨-, -, hhits⟩ := counts_advance h <;> omega

/-- A position that is not counted as given up is none where the search gave up. -/
lemma search_ne_limitReached_of_advance (h : sim.advance s cursor = .ok s')
    (hsettled : s'.limitHits = s.limitHits) :
    Scene.search ⟨⟨sim.categories, s.run, cursor⟩, sim.machine⟩
      sim.options.maxMatchDepth.toNat ≠ .limitReached := by
  intro hlimit
  have hcases := advance_cases h
  rw [hlimit] at hcases
  rw [hcases] at hsettled
  exact absurd hsettled (Nat.succ_ne_self _)

lemma limitHits_le_loop {fuel : Nat} (h : sim.loop fuel s = .ok s') :
    s.limitHits ≤ s'.limitHits :=
  loop_induction (P := fun u => s.limitHits ≤ u.limitHits)
    (fun _ _ _ hu _ hadvance => hu.trans (limitHits_le_advance hadvance)) h (Nat.le_refl _)

end Simulator

namespace Interpreter

variable {sim : Simulator} {s s' : Simulation} {cursor : Nat}

/-- The interpreter of rules that runs like a simulator. -/
def like (sim : Simulator) (rules : List Rule) : Interpreter :=
  ⟨rules, sim.machine.direction, sim.categories, sim.arithmetic⟩

theorem advance_eq (hspells : sim.machine.Spells rules spots)
    (hrules : ∀ rule ∈ rules, EndsIn Label.IsAccept rule)
    (hsettled : Scene.search ⟨⟨sim.categories, s.run, cursor⟩, sim.machine⟩
      sim.options.maxMatchDepth.toNat ≠ .limitReached) :
    (like sim rules).advance s cursor = sim.advance s cursor := by
  have hfirst := hspells.search hrules ⟨sim.categories, s.run, cursor⟩
    sim.options.maxMatchDepth.toNat
  rw [advance, like, Simulator.advance]
  dsimp only
  cases hsearch : Scene.search ⟨⟨sim.categories, s.run, cursor⟩, sim.machine⟩
      sim.options.maxMatchDepth.toNat with
  | matched path =>
    rw [hsearch] at hfirst
    obtain ⟨f, hf, hplan, hbase⟩ := hfirst
    simp only [hf, Match.apply, hplan, hbase]
  | exhausted =>
    rw [hsearch] at hfirst
    rw [hfirst]
  | limitReached => exact absurd hsearch hsettled

theorem loop_eq (hspells : sim.machine.Spells rules spots)
    (hrules : ∀ rule ∈ rules, EndsIn Label.IsAccept rule) {fuel : Nat}
    (h : sim.loop fuel s = .ok s') (hlimit : s'.limitHits = s.limitHits) :
    (like sim rules).loop fuel s = .ok s' := by
  induction fuel generalizing s with
  | zero => exact h
  | succ fuel ih =>
    rw [loop]
    obtain ⟨hcursor, rfl⟩ | ⟨cursor, s₁, hcursor, hadvance, hrest⟩ := Simulator.loop_cases h
    · rw [hcursor]
    · -- the count of searches that gave up never falls, so it stands still at each position
      have hle := Simulator.limitHits_le_advance hadvance
      have hle' := Simulator.limitHits_le_loop hrest
      have hstep := advance_eq hspells hrules
        (Simulator.search_ne_limitReached_of_advance hadvance (by omega))
      rw [hadvance] at hstep
      simp only [hcursor, hstep]
      exact ih hrest (by omega)

/-- **The machine runs like the interpreter of its rules** when no search gives up. -/
theorem simulate_eq (sim : Simulator) (hspells : sim.machine.Spells rules spots)
    (hrules : ∀ rule ∈ rules, EndsIn Label.IsAccept rule) {run : GlyphRun}
    (h : sim.simulate run = .ok s) (hlimit : s.limitHits = 0) :
    (like sim rules).simulate run = .ok s :=
  loop_eq hspells hrules h hlimit

/-- Where no search can give up, the two end alike, faults included. -/
theorem simulate_eq_of_settled (sim : Simulator) (hspells : sim.machine.Spells rules spots)
    (hrules : ∀ rule ∈ rules, EndsIn Label.IsAccept rule)
    (hsettled : ∀ v : View,
      Scene.search ⟨v, sim.machine⟩ sim.options.maxMatchDepth.toNat ≠ .limitReached)
    (run : GlyphRun) : (like sim rules).simulate run = sim.simulate run := by
  have hloop : ∀ fuel s, (like sim rules).loop fuel s = sim.loop fuel s := by
    intro fuel
    induction fuel with
    | zero => exact fun s => rfl
    | succ fuel ih =>
      intro s
      rw [loop, Simulator.loop]
      cases s.cursor with
      | none => rfl
      | some cursor => simp only [advance_eq hspells hrules (hsettled _), ih]
  exact hloop run.size _

end Interpreter

end Shaping
