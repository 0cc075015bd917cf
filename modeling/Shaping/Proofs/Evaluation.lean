import Shaping.Proofs.Priority
import Shaping.Simulation.Edit

/-!
Rules evaluated from scratch, step by step along their steps, with no machine. What a rule finds is
the plan of its actions and the base for a mark. The trail of a search and the rule of the labels
along it find the same, so the machine is a way to try rules, and no more.
-/

namespace Shaping

/-- What a rule has found at a position. -/
structure Finding where
  /-- The indices of the consumed glyphs, each with the action of its step. -/
  plan : List (Nat × Option Action) := []
  /-- The index of the first glyph that was probed directly in front of the position. -/
  base? : Option Nat := none

namespace Finding

/-- The indices of the consumed glyphs. -/
def consumed (f : Finding) : Array Nat := (f.plan.map (·.1)).toArray

/-- The findings after one more step, which has this action and hit. -/
def record (f : Finding) (action? : Option Action) : Hit → Finding
  | .probed offset index =>
    { f with base? := f.base?.or (if offset = -1 then some index else none) }
  | .consumed index => { f with plan := f.plan ++ [(index, action?)] }
  | .accepted => f

end Finding

namespace View

/-- Evaluates one more step of a rule. -/
def find? (v : View) (f : Finding) (step : Step) : Option Finding :=
  (v.test f.consumed step.predicate).map (f.record step.action)

/-- What a rule finds, if all its steps hold one after the other. -/
def evaluate? (v : View) (rule : Rule) : Option Finding := rule.foldlM v.find? {}

/-- What the first rule finds of which all steps hold. -/
def first? (v : View) (rules : List Rule) : Option Finding := rules.findSome? v.evaluate?

end View

variable {v : View} {sc : Scene} {m : Machine Step} {rule : Rule} {step : Step} {f : Finding}
  {ps : Places} {s : StateId} {t : Trail} {hit : Hit} {i : Nat}

/-! ### Steps of an evaluation -/

lemma View.evaluate?_concat : v.evaluate? (rule ++ [step]) =
    (v.evaluate? rule).bind fun f => v.find? f step := by
  simp [evaluate?, List.foldlM_append]

lemma View.evaluate?_concat_accept (h : step.predicate = .accept) :
    v.evaluate? (rule ++ [step]) = v.evaluate? rule := by
  have hfind : ∀ f, v.find? f step = some f := by
    intro f
    rw [find?, h]
    rfl
  simp only [evaluate?_concat, hfind]
  exact Option.bind_fun_some _

theorem View.evaluate?_induction {P : Finding → Prop} (hempty : P {})
    (hstep : ∀ f, ∀ step ∈ rule, ∀ g, P f → v.find? f step = some g → P g)
    (h : v.evaluate? rule = some f) : P f := by
  induction rule using List.reverseRecOn generalizing f with
  | nil =>
    obtain rfl : {} = f := Option.some.inj h
    exact hempty
  | append_singleton rule step ih =>
    rw [evaluate?_concat, Option.bind_eq_some_iff] at h
    obtain ⟨g, hg, hf⟩ := h
    have front := ih (fun f step hmem => hstep f step (by simp [hmem])) hg
    exact hstep g step (by simp) f front hf

/-! ### Evaluation along a walk -/

/-- The path has recorded these findings. -/
structure Finding.Recorded (m : Machine Step) (f : Finding) (path : Match) : Prop where
  consumed : path.consumed = f.consumed
  actions : path.taken.toList.filterMap (Edit.actionAt? m) = f.plan.map (·.2)
  base : path.base? = f.base?

namespace Finding.Recorded

theorem plan_eq {path : Match} (h : f.Recorded m path) : Edit.plan m path = f.plan := by
  rw [Edit.plan, h.consumed, h.actions, Finding.consumed, List.toList_toArray]
  exact (List.zip_of_prod rfl rfl).symm

theorem descend (h : f.Recorded m t.path) {a : Transition Step}
    (hi : (m.row t.state)[i]? = some a)
    (htest : v.test f.consumed a.label.predicate = some hit) (n : Nat) :
    (f.record a.label.action hit).Recorded m { t.descend i a.target hit with next := n }.path := by
  obtain ⟨⟨taken, consumed, probed⟩, state, next⟩ := t
  obtain ⟨hconsumed, hactions, hbase⟩ := h
  dsimp only at hi hconsumed hactions hbase
  have htaken : (taken.push (state, i)).toList.filterMap (Edit.actionAt? m) =
      f.plan.map (·.2) ++ (Edit.actionAt? m (state, i)).toList := by
    rw [Array.toList_push, List.filterMap_append, hactions]
    cases h : Edit.actionAt? m (state, i) <;> simp [h]
  cases hit with
  | accepted =>
    have hp := View.test_eq_accepted_iff.1 htest
    have hnone : Edit.actionAt? m (state, i) = none := by simp [Edit.actionAt?, hi, hp]
    rw [hnone, Option.toList_none, List.append_nil] at htaken
    exact ⟨hconsumed, htaken, hbase⟩
  | probed offset index =>
    obtain ⟨matcher, flags, hp, -⟩ := View.test_eq_probed_iff.1 htest
    have hnone : Edit.actionAt? m (state, i) = none := by simp [Edit.actionAt?, hi, hp]
    rw [hnone, Option.toList_none, List.append_nil] at htaken
    refine ⟨hconsumed, htaken, ?_⟩
    rw [record, ← hbase, Match.base?, Match.base?, Trail.descend, Array.find?_push]
    cases probed.find? (·.1 = -1) <;> by_cases hoffset : offset = -1 <;> simp [hoffset]
  | consumed index =>
    obtain ⟨matcher, flags, hp, -⟩ := View.test_eq_consumed_iff.1 htest
    have hsome : Edit.actionAt? m (state, i) = some a.label.action := by
      simp [Edit.actionAt?, hi, hp]
    rw [hsome, Option.toList_some] at htaken
    refine ⟨?_, ?_, hbase⟩
    · simp [Trail.descend, hconsumed, record, Finding.consumed]
    · rw [record, List.map_append]
      exact htaken

end Finding.Recorded

theorem Scene.Takes.exists_evaluate (h : sc.Takes ps t) : ∃ rule f,
    sc.machine.Walk ps rule t.state ∧ sc.evaluate? rule = some f ∧
      f.Recorded sc.machine t.path := by
  induction h with
  | entry => exact ⟨[], {}, .entry, rfl, rfl, rfl, rfl⟩
  | @step ps t i a hit n takes hi htest hne ih =>
    obtain ⟨rule, f, walk, hf, hrecorded⟩ := ih
    rw [hrecorded.consumed] at htest
    refine ⟨_, f.record a.label.action hit, .step walk hi, ?_, hrecorded.descend hi htest n⟩
    rw [View.evaluate?_concat, hf, Option.bind_some, View.find?, htest, Option.map_some]

theorem Machine.Walk.exists_takes (sc : Scene) (h : sc.machine.Walk ps rule s)
    (hrule : ∀ step ∈ rule, step.predicate ≠ .accept) (hf : sc.evaluate? rule = some f) :
    ∃ t, sc.Takes ps t ∧ t.state = s ∧ f.Recorded sc.machine t.path := by
  induction h generalizing f with
  | entry =>
    obtain rfl : {} = f := Option.some.inj hf
    exact ⟨_, .entry 0, rfl, rfl, rfl, rfl⟩
  | @step ps rule s i a walk hi ih =>
    rw [View.evaluate?_concat, Option.bind_eq_some_iff] at hf
    obtain ⟨g, hg, hfind⟩ := hf
    rw [View.find?, Option.map_eq_some_iff] at hfind
    obtain ⟨hit, htest, rfl⟩ := hfind
    obtain ⟨t, takes, rfl, hrecorded⟩ := ih (fun step hstep => hrule step (by simp [hstep])) hg
    have hne : hit ≠ .accepted := by
      rintro rfl
      exact hrule a.label (by simp) (View.test_eq_accepted_iff.1 htest)
    exact ⟨_, .step 0 takes hi (hrecorded.consumed ▸ htest) hne, rfl,
      hrecorded.descend hi htest 0⟩

end Shaping
