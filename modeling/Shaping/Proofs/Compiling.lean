import Shaping.Compilation
import Shaping.Proofs.Interpreter
import Shaping.Proofs.Lockstep
import Shaping.Proofs.Quotient

/-!
What compilation makes of a list of lookups. The trie of the lookups spells their rules in order,
and a compiled machine is that trie or its minimized form. So a compiled machine runs like the naive
interpreter of the rules, and the first rule that holds wins.
-/

namespace Shaping

variable {lookups : List Lookup} {options : CompileOptions} {compiled : Compiled}
  {trie trie' : Trie Step} {done : List Rule} {spots : List Places}

/-! ### Directions -/

namespace Machine

variable {ℓ : Type} {m : Machine ℓ} {ps : Places} {ls : List ℓ} {s : StateId}

lemma walk_withDirection_iff (d : Direction) :
    Walk { m with direction := d } ps ls s ↔ m.Walk ps ls s := by
  constructor
  · intro h
    induction h with
    | entry => exact .entry
    | step _ hi ih => exact .step ih hi
  · intro h
    induction h with
    | entry => exact .entry (m := { m with direction := d })
    | step _ hi ih => exact .step ih hi

lemma Spells.withDirection {paths : List (List ℓ)} (h : m.Spells paths spots) (d : Direction) :
    Spells { m with direction := d } paths spots := by
  obtain ⟨⟨wellFormed, unique⟩, spelled, ordered, covered⟩ := h
  refine ⟨⟨wellFormed, fun hp hq => ?_⟩, spelled.imp fun p ls ⟨s, walk⟩ => ⟨s, ?_⟩, ordered,
    fun hq => covered ((walk_withDirection_iff d).1 hq)⟩
  · exact unique ((walk_withDirection_iff d).1 hp) ((walk_withDirection_iff d).1 hq)
  · exact (walk_withDirection_iff d).2 walk

variable [DecidableEq ℓ]

lemma direction_addFrom (path : List ℓ) : (m.addFrom s path).direction = m.direction := by
  induction path generalizing m s with
  | nil => rfl
  | cons label path ih =>
    have hfollow : (m.follow s label).2.direction = m.direction := by
      rcases m.follow_cases s label with ⟨a, -, -, heq⟩ | ⟨-, heq⟩
      · exact congrArg (·.2.direction) heq
      · exact congrArg (·.2.direction) heq
    exact ih.trans hfollow

end Machine

lemma Trie.direction_addPaths (rules : List Rule) :
    (trie.addPaths rules).machine.direction = trie.machine.direction := by
  induction rules generalizing trie with
  | nil => rfl
  | cons rule rules ih =>
    refine ih.trans ?_
    rw [addPath]
    split_ifs
    · rfl
    · exact Machine.direction_addFrom rule

/-! ### Lookups -/

namespace Lookup

/-- The direction of a list of lookups, which is that of the last one. -/
def commonDirection (lookups : List Lookup) : Direction :=
  (lookups.getLast?.map direction).getD .forward

lemma expand_direction (l : Lookup) : l.expand l.direction = .ok l.rules := if_pos rfl

lemma mapM_expand (lookups : List Lookup) :
    (lookups.mapM fun l => l.expand l.direction) = .ok (lookups.map rules) := by
  refine Numbered.mapM_eq_pure_of_forall₂ ?_
  rw [List.forall₂_map_right_iff, List.forall₂_same]
  exact fun l _ => expand_direction l

lemma addTo_ok {l : Lookup} (h : l.addTo trie = .ok trie') :
    trie' = Trie.addPaths { trie with machine := { trie.machine with direction := l.direction } }
      l.rules := by
  rw [addTo, expand_direction, Trie.setDirection] at h
  split_ifs at h
  exact (Except.ok.inj h).symm

/-- **The trie of a list of lookups** spells their rules in order, and runs in the direction of the
last one. -/
theorem spells_addAll {index : Nat} (h : addAll index lookups trie = .ok trie')
    (hspells : trie.machine.Spells done spots)
    (hdone : ∀ rule ∈ done, EndsIn Label.IsAccept rule) :
    (∃ spots, trie'.machine.Spells (done ++ lookups.flatMap rules) spots) ∧
      trie'.machine.direction = (lookups.getLast?.map direction).getD trie.machine.direction := by
  induction lookups generalizing index trie done spots with
  | nil =>
    obtain rfl : trie = trie' := Except.ok.inj h
    exact ⟨⟨spots, by simpa using hspells⟩, rfl⟩
  | cons l lookups ih =>
    rw [addAll] at h
    cases hadd : l.addTo trie with
    | error fault =>
      rw [hadd] at h
      cases h
    | ok trie₁ =>
      rw [hadd] at h
      obtain rfl := addTo_ok hadd
      have hturned : Trie.machine { trie with
          machine := { trie.machine with direction := l.direction } } |>.Spells done spots :=
        hspells.withDirection l.direction
      obtain ⟨spots, hspells⟩ :=
        Trie.exists_spells_addPaths hturned hdone fun rule => endsIn_rules
      have hdone : ∀ rule ∈ done ++ l.rules, EndsIn Label.IsAccept rule := by
        intro rule hrule
        obtain hrule | hrule := List.mem_append.1 hrule
        · exact hdone rule hrule
        · exact endsIn_rules hrule
      obtain ⟨⟨spots, hspells⟩, hdirection⟩ := ih h hspells hdone
      refine ⟨⟨spots, by simpa using hspells⟩, ?_⟩
      rw [hdirection, Trie.direction_addPaths, List.getLast?_cons]
      cases lookups.getLast? <;> rfl

end Lookup

/-! ### Compiled machines -/

theorem machine_compile (h : compile lookups options = .ok compiled) :
    ∃ trie, Lookup.addAll 0 lookups {} = .ok trie ∧ compiled.machine =
      if options.optimize then trie.machine.minimize.1 else trie.machine := by
  rw [compile] at h
  cases hadd : Lookup.addAll 0 lookups {} with
  | error e =>
    rw [hadd] at h
    cases h
  | ok trie =>
    rw [hadd] at h
    refine ⟨trie, rfl, ?_⟩
    simp only [bind, Except.bind, pure, Except.pure] at h
    split_ifs at h with hoptimize hverify
    · rw [if_pos hoptimize, ← Except.ok.inj h]
    · rw [if_pos hoptimize, ← Except.ok.inj h]
    · rw [if_neg hoptimize, ← Except.ok.inj h]

/-- A compiled machine is equivalent to one that spells the rules of the lookups in order and runs
in their direction. -/
theorem exists_spells_compile (h : compile lookups options = .ok compiled) :
    ∃ m spots, Machine.Equivalent compiled.machine m ∧
      m.Spells (lookups.flatMap Lookup.rules) spots ∧
        m.direction = Lookup.commonDirection lookups := by
  obtain ⟨trie, hadd, hmachine⟩ := machine_compile h
  obtain ⟨⟨spots, hspells⟩, hdirection⟩ :=
    Lookup.spells_addAll hadd Machine.spells_empty (by simp)
  refine ⟨trie.machine, spots, ?_, hspells, hdirection⟩
  rw [hmachine]
  split_ifs
  · exact Machine.equivalent_minimizeBy hash hspells.tree.wellFormed
  · exact ⟨rfl, .refl _ _⟩

/-- **The first rule wins.** Whatever the options, a compiled machine that reports no search that
gave up has processed the run to its end, and exactly like the naive interpreter of the rules that
the lookups expand to, in their order. -/
theorem simulate_compile (h : compile lookups options = .ok compiled)
    (categories : Option ClassDef) (limits : SimulatorOptions) (arithmetic : Arithmetic)
    {run : GlyphRun} {s : Simulation}
    (hs : Simulator.simulate ⟨compiled.machine, categories, limits, arithmetic⟩ run = .ok s)
    (hlimit : s.limitHits = 0) :
    ∃ rules, (lookups.mapM fun l => l.expand l.direction) = .ok rules ∧
      Interpreter.simulate
        ⟨rules.flatten, Lookup.commonDirection lookups, categories, arithmetic⟩ run = .ok s ∧
      s.cursor = none := by
  obtain ⟨m, spots, hequivalent, hspells, hdirection⟩ := exists_spells_compile h
  have hrules : ∀ rule ∈ lookups.flatMap Lookup.rules, EndsIn Label.IsAccept rule := by
    intro rule hrule
    obtain ⟨l, -, hrule⟩ := List.mem_flatMap.1 hrule
    exact Lookup.endsIn_rules hrule
  have hcursor := Simulator.cursor_simulate hs
  rw [Simulator.simulate_eq hequivalent] at hs
  have hinterpreter := Interpreter.simulate_eq ⟨m, categories, limits, arithmetic⟩ hspells hrules hs
    hlimit
  rw [Interpreter.like, hdirection] at hinterpreter
  exact ⟨_, Lookup.mapM_expand lookups, by rwa [← List.flatMap_def], hcursor⟩

/-- Lookups whose rules overlap: a ligature of 1 and 2, an expansion of 1, and a longer ligature
that comes too late. -/
def Lookup.overlapping : List Lookup :=
  [{ payload := .ligature ⟨⟨.list #[1], rfl⟩, #[[⟨9, [2]⟩]], rfl⟩ },
    { payload := .multiple ⟨⟨.list #[1], rfl⟩, #[[3, 3]], rfl⟩ },
    { payload := .ligature ⟨⟨.list #[1], rfl⟩, #[[⟨8, [2, 2]⟩]], rfl⟩ }]

/-- The trie of the lookups `overlapping`. -/
def Lookup.overlappingTrie : Trie Step := Trie.addPaths {} (overlapping.flatMap rules)

lemma Lookup.compile_overlapping : compile overlapping { optimize := false } =
    .ok ⟨overlappingTrie.machine, 3, none⟩ := by
  rfl

theorem simulate_compile_overlapping :
    compile Lookup.overlapping { optimize := false } =
      .ok ⟨Lookup.overlappingTrie.machine, 3, none⟩ ∧
    Simulator.simulate ⟨Lookup.overlappingTrie.machine, none, {}, .checked⟩ (.ofIds [1, 2, 2, 1]) =
      .ok ⟨.ofIds [9, 2, 3, 3], none, 2, 0⟩ ∧
    ∃ rules, (Lookup.overlapping.mapM fun l => l.expand l.direction) = .ok rules ∧
      Interpreter.simulate ⟨rules.flatten, .forward, none, .checked⟩ (.ofIds [1, 2, 2, 1]) =
        .ok ⟨.ofIds [9, 2, 3, 3], none, 2, 0⟩ := by
  have hrun : Simulator.simulate ⟨Lookup.overlappingTrie.machine, none, {}, .checked⟩
      (.ofIds [1, 2, 2, 1]) = .ok ⟨.ofIds [9, 2, 3, 3], none, 2, 0⟩ := by decide +kernel
  obtain ⟨rules, hrules, hinterpreter, -⟩ :=
    simulate_compile Lookup.compile_overlapping none {} .checked hrun rfl
  exact ⟨Lookup.compile_overlapping, hrun, rules, hrules, hinterpreter⟩

end Shaping
