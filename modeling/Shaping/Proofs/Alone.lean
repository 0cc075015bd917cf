import Shaping.Proofs.Conflicts
import Shaping.Proofs.Coverages
import Shaping.Proofs.Limits
import Shaping.Proofs.Sums

/-!
Lookups compiled alone. One lookup always compiles, and if no search gives up its machine does what
the naive interpreter of the lookup's rules does. What the interpreter does at one position is carry
out the first rule that holds, or move on by one glyph. Main statements:
`Lookup.exists_run_substitutes` and `Lookup.exists_run_settled`.
-/

namespace Shaping

/-! ### The first rule of a table -/

namespace View

variable {α β : Type} {v : View}

lemma first?_flatMap (l : List α) (rules : α → List Rule) :
    v.first? (l.flatMap rules) = l.findSome? fun a => v.first? (rules a) := by
  simp only [first?, ← List.head?_filterMap, List.filterMap_flatMap, List.head?_flatMap]

theorem first?_zip {c : Coverage} {payload : Array β} {rules : GlyphId × β → List Rule}
    {g : GlyphId} (h : ∀ g' b, g' ≠ g → v.first? (rules (g', b)) = none) :
    v.first? ((c.zip payload).flatMap rules) =
      (c.entry? payload g).bind fun b => v.first? (rules (g, b)) := by
  rw [first?_flatMap]
  exact Coverage.findSome?_zip h

end View

/-! ### Positions of the interpreter -/

lemma GlyphRun.start_forward (run : GlyphRun) :
    run.start .forward = if 0 < run.size then some 0 else none := by
  cases run using Array.recOn with
  | mk glyphs => cases glyphs <;> rfl

namespace Interpreter

variable {it : Interpreter} {s s' : Simulation} {cursor fuel : Nat} {f : Finding}

theorem advance_of_none (h : View.first? ⟨it.categories, s.run, cursor⟩ it.rules = none) :
    it.advance s cursor = .ok { s with cursor := s.run.step it.direction 1 cursor } := by
  rw [advance, h]

lemma advance_forward_of_none (hdirection : it.direction = .forward)
    (h : View.first? ⟨it.categories, s.run, cursor⟩ it.rules = none)
    (hcursor : cursor < s.run.size) : it.advance s cursor =
      .ok { s with cursor := if cursor + 1 < s.run.size then some (cursor + 1) else none } := by
  rw [advance_of_none h, hdirection, GlyphRun.step, if_pos hcursor]

theorem advance_of_first (h : View.first? ⟨it.categories, s.run, cursor⟩ it.rules = some f) :
    it.advance s cursor =
      (Edit.carryOut it.arithmetic f.base? it.direction cursor s.run f.plan).map fun (run, next) =>
        { s with run, cursor := next, applied := s.applied + 1 } := by
  rw [advance, h]
  dsimp only
  cases Edit.carryOut it.arithmetic f.base? it.direction cursor s.run f.plan <;> rfl

theorem advance_of_some (h : View.first? ⟨it.categories, s.run, cursor⟩ it.rules = some f)
    {run : GlyphRun} {next : Option Nat}
    (hcarry : Edit.carryOut it.arithmetic f.base? it.direction cursor s.run f.plan =
      .ok (run, next)) :
    it.advance s cursor = .ok { s with run, cursor := next, applied := s.applied + 1 } := by
  rw [advance_of_first h, hcarry]
  rfl

theorem loop_of_none (h : s.cursor = none) : it.loop fuel s = .ok s := by
  cases fuel with
  | zero => rfl
  | succ fuel => rw [loop, h]

theorem loop_of_some (h : s.cursor = some cursor) (hadvance : it.advance s cursor = .ok s') :
    it.loop (fuel + 1) s = it.loop fuel s' := by
  rw [loop, h]
  dsimp only
  rw [hadvance]
  rfl

end Interpreter

/-! ### One lookup -/

namespace Lookup

/-- The trie of the rules of a lookup. -/
def trie (l : Lookup) : Trie Step :=
  Trie.addPaths { machine := { direction := l.direction } } l.rules

lemma addAll_singleton (l : Lookup) : addAll 0 [l] {} = .ok l.trie := by
  have hadd : l.addTo {} = .ok l.trie := by
    rw [addTo, Trie.setDirection, if_neg (by simp)]
    dsimp only
    rw [expand_direction]
    rfl
  rw [addAll, hadd]
  rfl

theorem exists_spells_trie (l : Lookup) : (∃ spots, l.trie.machine.Spells l.rules spots) ∧
    l.trie.machine.direction = l.direction := by
  obtain ⟨⟨spots, hspells⟩, hdirection⟩ :=
    spells_addAll l.addAll_singleton Machine.spells_empty (by simp)
  rw [List.flatMap_singleton, List.nil_append] at hspells
  exact ⟨⟨spots, hspells⟩, hdirection⟩

theorem equivalent_trie (l : Lookup) (optimize : Bool) :
    (l.trie.compiled optimize).machine.Equivalent l.trie.machine := by
  obtain ⟨⟨spots, hspells⟩, -⟩ := l.exists_spells_trie
  cases optimize with
  | false => exact ⟨rfl, .refl _ _⟩
  | true => exact Machine.equivalent_minimizeBy hash hspells.tree.wellFormed

/-- A lookup that runs backward substitutes. -/
lemma substitutes_of_backward {l : Lookup} (hdirection : l.direction = .backward) {rule : Rule}
    (hrule : rule ∈ l.rules) : rule.Substitutes := by
  obtain ⟨flags, payload⟩ := l
  cases payload with
  | reverseChain t =>
    simp only [rules, ReverseChainSubst.rules] at hrule
    split_ifs at hrule
    · exact absurd hrule List.not_mem_nil
    · rw [List.mem_singleton.1 hrule]
      refine (Rule.substitutes_single rfl _ _).append fun step hstep => ?_
      rcases List.mem_append.1 hstep with hstep | hstep <;>
        obtain ⟨p, -, rfl⟩ := List.mem_map.1 hstep <;> rfl
  | _ => cases hdirection

variable (l : Lookup) (options : CompileOptions) (categories : Option ClassDef)
  (limits : SimulatorOptions) (arithmetic : Arithmetic) (run : GlyphRun)

lemma simulate_eq_trie {l : Lookup} {options : CompileOptions} {compiled : Compiled}
    (h : compile [l] options = .ok compiled) :
    Simulator.simulate ⟨compiled.machine, categories, limits, arithmetic⟩ run =
      Simulator.simulate ⟨l.trie.machine, categories, limits, arithmetic⟩ run := by
  obtain rfl := Except.ok.inj (h.symm.trans (compile_eq_of_addAll l.addAll_singleton))
  exact Simulator.simulate_eq (l.equivalent_trie options.optimize) categories limits arithmetic run

/-- **A lookup that substitutes**, compiled alone, processes every run to the end in every build. If
no search gives up, it does so as the interpreter of its rules does. -/
theorem exists_run_substitutes (h : ∀ rule ∈ l.rules, rule.Substitutes) :
    ∃ compiled s, compile [l] options = .ok compiled ∧
      Simulator.simulate ⟨compiled.machine, categories, limits, arithmetic⟩ run = .ok s ∧
      (s.limitHits = 0 →
        Interpreter.simulate ⟨l.rules, l.direction, categories, arithmetic⟩ run = .ok s) := by
  have hcompile : compile [l] options = .ok (l.trie.compiled options.optimize) :=
    compile_eq_of_addAll l.addAll_singleton
  obtain ⟨⟨spots, hspells⟩, hdirection⟩ := l.exists_spells_trie
  have hregular : ∀ rule ∈ l.rules, rule.Regular := fun rule => regular_rules
  have hends : ∀ rule ∈ l.rules, EndsIn Label.IsAccept rule := fun rule => endsIn_rules
  obtain ⟨s, hs⟩ : ∃ s,
      Simulator.simulate ⟨l.trie.machine, categories, limits, arithmetic⟩ run = .ok s :=
    Simulator.exists_simulate_of_substitutes hspells hregular h run
  refine ⟨_, s, hcompile, (simulate_eq_trie _ _ _ run hcompile).trans hs, fun hlimit => ?_⟩
  have hinterpreter := Interpreter.simulate_eq _ hspells hends hs hlimit
  rwa [Interpreter.like, hdirection] at hinterpreter

/-- **A lookup whose searches cannot give up**, compiled alone, does what the interpreter of its
rules does, faults included. -/
theorem exists_run_settled (h : ∀ v : View,
      Scene.search ⟨v, l.trie.machine⟩ limits.maxMatchDepth.toNat ≠ .limitReached) :
    ∃ compiled, compile [l] options = .ok compiled ∧
      Simulator.simulate ⟨compiled.machine, categories, limits, arithmetic⟩ run =
        Interpreter.simulate ⟨l.rules, l.direction, categories, arithmetic⟩ run := by
  have hcompile : compile [l] options = .ok (l.trie.compiled options.optimize) :=
    compile_eq_of_addAll l.addAll_singleton
  obtain ⟨⟨spots, hspells⟩, hdirection⟩ := l.exists_spells_trie
  have hends : ∀ rule ∈ l.rules, EndsIn Label.IsAccept rule := fun rule => endsIn_rules
  have hinterpreter := Interpreter.simulate_eq_of_settled
    ⟨l.trie.machine, categories, limits, arithmetic⟩ hspells hends h run
  rw [Interpreter.like, hdirection] at hinterpreter
  exact ⟨_, hcompile, (simulate_eq_trie _ _ _ run hcompile).trans hinterpreter.symm⟩

end Lookup

end Shaping
