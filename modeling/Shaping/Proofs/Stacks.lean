import Shaping.Proofs.Behaviour
import Shaping.Proofs.Following
import Shaping.Proofs.Matching
import Shaping.Simulation.Stacks

/-!
The buffers of a search stay in step with its path. Whatever an earlier search has left in them, the
part below the depth and at it is that of the trail, and no step reads anything else: so the path is
one from the entry, the glyphs that are on record are those that its transitions have consumed and
probed, and the search over the buffers is the search without them. Main statements:
`Stacks.searches?_new`, `Stacks.inStep`.
-/

namespace Shaping

variable {v : View} {sc : Scene} {ps : Places} {t : Trail} {rule : Rule} {consumed : List Nat}

/-! ### What a rule tests -/

/-- The glyph that a probe tests, with its distance. -/
def View.probed? (v : View) (step : Step) : Option (Int16 × Nat) :=
  match step.predicate with
  | .probe offset _ flags => (v.probeIndex? offset flags).map (offset, ·)
  | _ => none

namespace View.Holds

theorem lt_size (h : v.Holds rule consumed) : ∀ i ∈ consumed, i < v.run.size := by
  induction h with
  | nil => exact fun i hi => absurd hi List.not_mem_nil
  | accept _ _ ih => exact ih
  | probe _ _ _ _ ih => exact ih
  | first _ _ haccepts _ =>
    intro i hi
    rw [List.mem_singleton.1 hi]
    exact lt_size_of_accepts haccepts
  | @next rule step consumed last matcher flags index _ _ _ haccepts ih =>
    intro i hi
    rw [List.append_cons, List.mem_append, List.mem_singleton] at hi
    obtain hi | rfl := hi
    · exact ih i hi
    · exact lt_size_of_accepts haccepts

theorem head?_eq (h : v.Holds rule consumed) : ∀ i ∈ consumed.head?, i = v.cursor := by
  induction h with
  | nil => simp
  | accept _ _ ih => exact ih
  | probe _ _ _ _ ih => exact ih
  | first _ _ _ _ => simp
  | next _ _ _ _ ih =>
    intro i hi
    refine ih i ?_
    rwa [List.head?_append] at hi ⊢

end View.Holds

namespace Scene.Takes

theorem holds (h : sc.Takes ps t) : ∃ rule, sc.machine.Walk ps rule t.state ∧
    sc.Holds rule t.path.consumed.toList := by
  obtain ⟨rule, f, walk, hf, hrecorded⟩ := h.exists_evaluate
  exact ⟨rule, walk, View.holds_iff.2 ⟨f, hf, by rw [hrecorded.consumed, Finding.consumed]⟩⟩

theorem probed_eq (h : sc.Takes ps t) (walk : sc.machine.Walk ps rule t.state) :
    t.path.probed.toList = rule.filterMap sc.probed? := by
  induction h generalizing rule with
  | entry =>
    obtain ⟨rfl, -⟩ := Machine.walk_nil_iff.1 walk
    rfl
  | @step ps t i a hit n takes hi htest hne ih =>
    obtain ⟨front, u, b, walk', hj, rfl, -⟩ := Machine.walk_concat_iff.1 walk
    obtain ⟨front', walk'', -⟩ := takes.holds
    obtain ⟨rfl, rfl⟩ := walk'.det walk''
    obtain rfl := Option.some.inj (hi.symm.trans hj)
    rw [List.filterMap_append, ← ih walk']
    cases hit with
    | accepted => exact absurd rfl hne
    | probed offset index =>
      obtain ⟨matcher, flags, hp, hindex, -⟩ := View.test_eq_probed_iff.1 htest
      simp [Trail.descend, View.probed?, hp, hindex]
    | consumed index =>
      obtain ⟨matcher, flags, hp, -⟩ := View.test_eq_consumed_iff.1 htest
      simp [Trail.descend, View.probed?, hp]

theorem exists_takes_of_step {u : Trail} {depth : Nat} (h : sc.Takes ps t)
    (hstep : t.step sc depth = .inl u) : ∃ qs, sc.Takes qs u := by
  have hmove := h.move depth
  rw [hstep] at hmove
  cases hmove with
  | down _ _ _ takes => exact ⟨_, takes⟩
  | up _ _ _ takes => exact ⟨_, takes⟩

theorem state_lt (hm : sc.machine.WellFormed) (h : sc.Takes ps t) :
    t.state < sc.machine.states.size := by
  obtain ⟨rule, walk, -⟩ := h.holds
  exact walk.lt hm

end Scene.Takes

lemma Machine.getElem?_states {ℓ : Type} {m : Machine ℓ} {s : StateId} (h : s < m.states.size) :
    m.states[s]? = some (m.row s) := by
  rw [row, Array.getD_eq_getD_getElem?, Array.getElem?_eq_getElem h, Option.getD_some]

namespace Stacks

variable {s s' b b' : Stacks} {depth n : Nat}

/-! ### Buffers and trails -/

/-- Buffers of the size that a search of this depth needs, whatever is in them. -/
structure Fits (s : Stacks) (depth : Nat) : Prop where
  size : s.size = max 1 (min depth searchLimit)
  states : s.states.size = s.size
  places : s.places.size = s.size

/-- The buffers hold a trail, below the depth and at it. -/
structure Keeps (s : Stacks) (t : Trail) : Prop where
  depth : s.depth = t.path.taken.size
  depth_lt : s.depth < s.size
  taken : ∀ (d : Nat) state i, t.path.taken[d]? = some (state, i) →
    s.states[d]? = some state ∧ s.places[d]? = some i
  state : s.states[s.depth]? = some t.state
  next : s.places[s.depth]? = some t.next
  consumed : s.consumed = t.path.consumed
  probed : s.probed = t.path.probed

lemma fits_new (depth : Nat) : (new depth).Fits depth :=
  ⟨rfl, Array.size_replicate, Array.size_replicate⟩

lemma write?_of_lt {α : Type} {buffer : Array α} {i : Nat} (h : i < buffer.size) (x : α) :
    write? buffer i x = some (buffer.setIfInBounds i x) := if_pos h

theorem Keeps.path_eq (h : s.Keeps t) (fits : s.Fits depth) : s.path = t.path := by
  have htaken : (s.states.zip s.places).extract 0 s.depth = t.path.taken := by
    refine Array.ext_getElem? fun d => ?_
    have hsize : (s.states.zip s.places).size = s.size := by
      rw [Array.size_zip, fits.states, fits.places, Nat.min_self]
    have hdepth := h.depth
    have hlt := h.depth_lt
    rw [Array.getElem?_extract, hsize, Nat.zero_add]
    split_ifs with hd
    · have hplace := Array.getElem?_eq_getElem (by omega : d < t.path.taken.size)
      rw [hplace]
      exact Array.getElem?_zip_eq_some.2 (h.taken d _ _ hplace)
    · exact (Array.getElem?_eq_none (by omega)).symm
  rw [path, htaken, h.consumed, h.probed]

theorem Keeps.withNext (h : s.Keeps t) (fits : s.Fits depth) (k : Nat) :
    Fits { s with places := s.places.setIfInBounds s.depth k } depth ∧
      Keeps { s with places := s.places.setIfInBounds s.depth k } { t with next := k } := by
  have hplace : s.depth < s.places.size := fits.places ▸ h.depth_lt
  refine ⟨⟨fits.size, fits.states, Array.size_setIfInBounds.trans fits.places⟩, ?_⟩
  constructor
  case depth => exact h.depth
  case depth_lt => exact h.depth_lt
  case taken =>
    intro d state i hd
    have hlt : d < s.depth := h.depth ▸ (Array.getElem?_eq_some_iff.1 hd).1
    rw [Array.getElem?_setIfInBounds_ne hlt.ne']
    exact h.taken d state i hd
  case state => exact h.state
  case next => exact Array.getElem?_setIfInBounds_self_of_lt hplace
  case consumed => exact h.consumed
  case probed => exact h.probed

theorem Fits.exists_reset? (fits : s.Fits depth) (entry : StateId) :
    ∃ s', s.reset? entry = some s' ∧ s'.Fits depth ∧ s'.Keeps { state := entry } := by
  obtain ⟨hsize, hstates, hplaces⟩ := fits
  have hpos : 0 < s.size := by omega
  have hstate : 0 < s.states.size := by omega
  have hplace : 0 < s.places.size := by omega
  refine ⟨{ s with
    depth := 0, states := s.states.setIfInBounds 0 entry, places := s.places.setIfInBounds 0 0,
    consumed := #[], probed := #[] }, ?_, ?_, ?_⟩
  · rw [reset?, write?_of_lt hstate, write?_of_lt hplace]
    rfl
  · exact ⟨hsize, by rw [Array.size_setIfInBounds, hstates],
      by rw [Array.size_setIfInBounds, hplaces]⟩
  · constructor
    case depth => rfl
    case depth_lt => exact hpos
    case taken => exact fun d state i h => absurd h (by simp)
    case state => exact Array.getElem?_setIfInBounds_self_of_lt hstate
    case next => exact Array.getElem?_setIfInBounds_self_of_lt hplace
    case consumed => rfl
    case probed => rfl

/-- To go on writes the new top, and the place that was taken below it. -/
theorem Keeps.exists_push? (h : s.Keeps t) (fits : s.Fits depth) (hlt : s.depth + 1 < s.size)
    (i : Nat) (target : StateId) : ∃ s', s.push? i target = some s' ∧ s'.Fits depth ∧
      s'.Keeps ⟨{ t.path with taken := t.path.taken.push (t.state, i) }, target, 0⟩ := by
  obtain ⟨hsize, hstates, hplaces⟩ := fits
  have hdepth := h.depth
  have hstate : s.depth + 1 < s.states.size := by omega
  have hplace : s.depth < s.places.size := by omega
  have hplace' : s.depth + 1 < (s.places.setIfInBounds s.depth i).size := by
    rw [Array.size_setIfInBounds]
    omega
  refine ⟨{ s with
    depth := s.depth + 1, states := s.states.setIfInBounds (s.depth + 1) target,
    places := (s.places.setIfInBounds s.depth i).setIfInBounds (s.depth + 1) 0 }, ?_, ?_, ?_⟩
  · simp only [push?, write?_of_lt hplace, write?_of_lt hstate, write?_of_lt hplace',
      Option.bind_eq_bind, Option.bind_some]
    rfl
  · exact ⟨hsize, by rw [Array.size_setIfInBounds, hstates],
      by rw [Array.size_setIfInBounds, Array.size_setIfInBounds, hplaces]⟩
  · constructor
    case depth => rw [Array.size_push, hdepth]
    case depth_lt => exact hlt
    case taken =>
      intro d state j hd
      rw [Array.getElem?_push] at hd
      split_ifs at hd with hlast
      · obtain ⟨rfl, rfl⟩ := Prod.mk.inj (Option.some.inj hd)
        have hne : s.depth + 1 ≠ s.depth := by omega
        rw [hlast, ← hdepth, Array.getElem?_setIfInBounds_ne hne,
          Array.getElem?_setIfInBounds_ne hne]
        exact ⟨h.state, Array.getElem?_setIfInBounds_self_of_lt hplace⟩
      · have hbelow := (Array.getElem?_eq_some_iff.1 hd).1
        have hne : s.depth ≠ d := by omega
        have hne' : s.depth + 1 ≠ d := by omega
        rw [Array.getElem?_setIfInBounds_ne hne', Array.getElem?_setIfInBounds_ne hne',
          Array.getElem?_setIfInBounds_ne hne]
        exact h.taken d state j hd
    case state => exact Array.getElem?_setIfInBounds_self_of_lt hstate
    case next => exact Array.getElem?_setIfInBounds_self_of_lt hplace'
    case consumed => exact h.consumed
    case probed => exact h.probed

/-- What is forgotten of a transition is what it has recorded. -/
lemma forget_of_test {v : View} {p : Predicate Matcher} {hit : Hit} {i n : Nat} {target : StateId}
    (h : s.Keeps { t.descend i target hit with next := n })
    (htest : v.test t.path.consumed p = some hit) (hne : hit ≠ .accepted) :
    (s.forget p).consumed = t.path.consumed ∧ (s.forget p).probed = t.path.probed ∧
      (s.forget p).size = s.size ∧ (s.forget p).states = s.states := by
  have hconsumed := h.consumed
  have hprobed := h.probed
  cases hit with
  | accepted => exact absurd rfl hne
  | probed offset index =>
    obtain ⟨matcher, flags, rfl, -⟩ := View.test_eq_probed_iff.1 htest
    exact ⟨hconsumed, by rw [forget, hprobed]; exact Array.pop_push .., rfl, rfl⟩
  | consumed index =>
    obtain ⟨matcher, flags, rfl, -⟩ := View.test_eq_consumed_iff.1 htest
    exact ⟨by rw [forget, hconsumed]; exact Array.pop_push .., hprobed, rfl, rfl⟩

/-- To go back uncovers what was written when the last transition was taken. -/
theorem Keeps.exists_back? {i n : Nat} {a : Transition Step} {hit : Hit}
    (h : s.Keeps { t.descend i a.target hit with next := n }) (fits : s.Fits depth)
    (hstate : t.state < sc.machine.states.size) (hi : (sc.machine.row t.state)[i]? = some a)
    (htest : sc.test t.path.consumed a.label.predicate = some hit) (hne : hit ≠ .accepted) :
    ∃ s', s.back? sc.machine = some s' ∧ s'.Fits depth ∧ s'.Keeps { t with next := i + 1 } := by
  obtain ⟨hsize, hstates, hplaces⟩ := fits
  obtain ⟨hconsumed, hprobed, hsize', hstates'⟩ := forget_of_test h htest hne
  have hlt := h.depth_lt
  have hdepth : s.depth = t.path.taken.size + 1 := by
    rw [h.depth]
    simp
  have hbelow : s.depth - 1 = t.path.taken.size := by omega
  obtain ⟨hplaceState, hplaceTaken⟩ := h.taken t.path.taken.size t.state i (by simp)
  have hplace : t.path.taken.size < s.places.size := by omega
  refine ⟨{ s.forget a.label.predicate with
    depth := t.path.taken.size, places := s.places.setIfInBounds t.path.taken.size (i + 1) },
    ?_, ?_, ?_⟩
  · simp only [back?, hbelow, hplaceState, hplaceTaken, Machine.getElem?_states hstate, hi,
      write?_of_lt hplace, Option.bind_eq_bind, Option.bind_some]
    rfl
  · exact ⟨hsize'.trans hsize, by rw [hstates', hstates, hsize'],
      by rw [Array.size_setIfInBounds, hplaces, hsize']⟩
  · constructor
    case depth => rfl
    case depth_lt =>
      dsimp only
      omega
    case taken =>
      intro d state j hd
      have hd' : d < t.path.taken.size := (Array.getElem?_eq_some_iff.1 hd).1
      have hne : t.path.taken.size ≠ d := by omega
      rw [hstates', Array.getElem?_setIfInBounds_ne hne]
      refine h.taken d state j ?_
      rw [Trail.taken_descend, Array.getElem?_push, if_neg hne.symm]
      exact hd
    case state =>
      rw [hstates']
      exact hplaceState
    case next => exact Array.getElem?_setIfInBounds_self_of_lt hplace
    case consumed => exact hconsumed
    case probed => exact hprobed

theorem Keeps.exists_descend? (h : s.Keeps t) (fits : s.Fits depth) (hlt : s.depth + 1 < s.size)
    (i : Nat) (target : StateId) (hit : Hit) : ∃ s', (s.record hit).push? i target = some s' ∧
      s'.Fits depth ∧ s'.Keeps (t.descend i target hit) := by
  have hfits : (s.record hit).Fits depth := by
    cases hit <;> exact ⟨fits.size, fits.states, fits.places⟩
  have hlt' : (s.record hit).depth + 1 < (s.record hit).size := by
    cases hit <;> exact hlt
  cases hit with
  | accepted => exact h.exists_push? hfits hlt' i target
  | probed offset index =>
    have hkeeps : (s.record (.probed offset index)).Keeps
        { t with path.probed := t.path.probed.push (offset, index) } :=
      ⟨h.depth, h.depth_lt, h.taken, h.state, h.next, h.consumed,
        congrArg (·.push (offset, index)) h.probed⟩
    exact hkeeps.exists_push? hfits hlt' i target
  | consumed index =>
    have hkeeps : (s.record (.consumed index)).Keeps
        { t with path.consumed := t.path.consumed.push index } :=
      ⟨h.depth, h.depth_lt, h.taken, h.state, h.next, congrArg (·.push index) h.consumed,
        h.probed⟩
    exact hkeeps.exists_push? hfits hlt' i target

/-! ### Steps -/

section Step

variable (h : s.Keeps t) (hstate : t.state < sc.machine.states.size)
include h hstate

lemma Keeps.step?_of_none (hmeets : t.meets sc = none) : s.step? sc =
    if s.depth = 0 then some (s, some .exhausted) else (s.back? sc.machine).map (·, none) := by
  rw [Trail.meets] at hmeets
  simp only [step?, h.state, h.next, h.consumed, Machine.getElem?_states hstate,
    Option.bind_eq_bind, Option.bind_some, hmeets]
  split_ifs
  · rfl
  · cases s.back? sc.machine <;> rfl

lemma Keeps.step?_of_accepted {k : Nat} {target : StateId}
    (hmeets : t.meets sc = some (k, target, .accepted)) : s.step? sc =
    (write? s.places s.depth k).map fun places =>
      ({ s with places }, some (.matched { s with places }.path)) := by
  rw [Trail.meets] at hmeets
  simp only [step?, h.state, h.next, h.consumed, Machine.getElem?_states hstate,
    Option.bind_eq_bind, Option.bind_some, hmeets]
  cases write? s.places s.depth k <;> rfl

lemma Keeps.step?_of_hit {k : Nat} {target : StateId} {hit : Hit}
    (hmeets : t.meets sc = some (k, target, hit)) (hne : hit ≠ .accepted) : s.step? sc =
    if s.size ≤ s.depth + 1 then some (s, some .limitReached)
    else ((s.record hit).push? k target).map (·, none) := by
  rw [Trail.meets] at hmeets
  simp only [step?, h.state, h.next, h.consumed, Machine.getElem?_states hstate,
    Option.bind_eq_bind, Option.bind_some, hmeets]
  split_ifs
  · rfl
  · cases (s.record hit).push? k target <;> rfl

end Step

/-- **A step over the buffers is a step of the trail.** -/
theorem Keeps.exists_step? (hm : sc.machine.WellFormed) (fits : s.Fits depth) (h : s.Keeps t)
    (takes : sc.Takes ps t) : ∃ s', s'.Fits depth ∧
      match t.step sc s.size with
      | .inl t' => s.step? sc = some (s', none) ∧ s'.Keeps t'
      | .inr outcome => s.step? sc = some (s', some outcome) := by
  have hstate := takes.state_lt hm
  cases hmeets : t.meets sc with
  | none =>
    rw [Trail.step_of_none hmeets, h.step?_of_none hstate hmeets]
    cases takes with
    | entry n =>
      have hdepth : s.depth = 0 := h.depth
      rw [if_pos hdepth]
      exact ⟨s, fits, rfl⟩
    | @step ps t i a hit n takes hi htest hne =>
      have hdepth : s.depth ≠ 0 := by
        rw [h.depth]
        simp
      obtain ⟨s', hback, fits', h'⟩ := h.exists_back? fits (takes.state_lt hm) hi htest hne
      rw [if_neg hdepth, hback, Trail.ascend_descend n hi htest hne]
      exact ⟨s', fits', rfl, h'⟩
  | some found =>
    obtain ⟨k, target, hit⟩ := found
    by_cases hne : hit = .accepted
    · subst hne
      have hplace : s.depth < s.places.size := fits.places ▸ h.depth_lt
      obtain ⟨fits', h'⟩ := h.withNext fits k
      rw [Trail.step_of_accepted hmeets, h.step?_of_accepted hstate hmeets, write?_of_lt hplace,
        Option.map_some, h'.path_eq fits']
      exact ⟨_, fits', rfl⟩
    · rw [Trail.step_of_hit hmeets hne, h.step?_of_hit hstate hmeets hne, ← h.depth]
      split_ifs with hfull
      · exact ⟨s, fits, rfl⟩
      · obtain ⟨s', hpush, fits', h'⟩ := h.exists_descend? fits (by omega) k target hit
        rw [hpush]
        exact ⟨s', fits', rfl, h'⟩

/-! ### Searches -/

/-- Before its step `n`, the search over the buffers `b` has them like `s`. -/
inductive Comes (sc : Scene) (b : Stacks) : Nat → Stacks → Prop
  | start {s : Stacks} (h : b.reset? sc.machine.entry = some s) : Comes sc b 0 s
  | step {n : Nat} {s s' : Stacks} (front : Comes sc b n s)
    (h : s.step? sc = some (s', none)) : Comes sc b (n + 1) s'

theorem Comes.det (h : b.Comes sc n s) (h' : b.Comes sc n s') : s = s' := by
  induction h generalizing s' with
  | start h =>
    cases h' with
    | start h' => exact Option.some.inj (h.symm.trans h')
  | step front h ih =>
    cases h' with
    | step front' h' =>
      obtain rfl := ih front'
      exact congrArg Prod.fst (Option.some.inj (h.symm.trans h'))

/-- **The buffers keep a trail, step by step.** It is the same trail for all buffers that fit. -/
theorem Comes.exists_keeps (hm : sc.machine.WellFormed) (fits : b.Fits depth)
    (h : b.Comes sc n s) : ∃ ps t, sc.Takes ps t ∧ s.Fits depth ∧ s.Keeps t ∧
      ∀ b' : Stacks, b'.Fits depth → ∃ s', b'.Comes sc n s' ∧ s'.Fits depth ∧ s'.Keeps t := by
  induction h with
  | @start s h =>
    obtain ⟨s', hreset, fits', hkeeps⟩ := fits.exists_reset? sc.machine.entry
    obtain rfl := Option.some.inj (h.symm.trans hreset)
    refine ⟨[], _, .entry 0, fits', hkeeps, fun b' hb' => ?_⟩
    obtain ⟨u, hreset', fitsU, keepsU⟩ := hb'.exists_reset? sc.machine.entry
    exact ⟨u, .start hreset', fitsU, keepsU⟩
  | @step n s s' front h ih =>
    obtain ⟨ps, t, takes, fits', hkeeps, others⟩ := ih
    obtain ⟨u, fitsU, hstep⟩ := hkeeps.exists_step? hm fits' takes
    cases hnext : t.step sc s.size with
    | inr outcome =>
      rw [hnext] at hstep
      cases h.symm.trans hstep
    | inl t' =>
      rw [hnext] at hstep
      obtain ⟨hstep, hkeeps'⟩ := hstep
      obtain rfl : s' = u := congrArg Prod.fst (Option.some.inj (h.symm.trans hstep))
      obtain ⟨qs, takes'⟩ := takes.exists_takes_of_step hnext
      refine ⟨qs, t', takes', fitsU, hkeeps', fun b' hb' => ?_⟩
      obtain ⟨w, hcomes, fitsW, keepsW⟩ := others b' hb'
      obtain ⟨w', fitsW', hstep'⟩ := keepsW.exists_step? hm fitsW takes
      rw [fitsW.size, ← fits'.size, hnext] at hstep'
      exact ⟨w', hcomes.step hstep'.1, fitsW', hstep'.2⟩

theorem Keeps.exists_run? (hm : sc.machine.WellFormed) (fits : s.Fits depth) (h : s.Keeps t)
    (takes : sc.Takes ps t) (fuel : Nat) : ∃ s', s'.Fits depth ∧
      s.run? sc fuel = some (s', Trail.search sc (max 1 (min depth searchLimit)) fuel t) := by
  induction fuel generalizing s t ps with
  | zero => exact ⟨s, fits, rfl⟩
  | succ fuel ih =>
    obtain ⟨s', fits', hstep⟩ := h.exists_step? hm fits takes
    rw [fits.size] at hstep
    rw [Trail.search, run?]
    cases hnext : t.step sc (max 1 (min depth searchLimit)) with
    | inr outcome =>
      rw [hnext] at hstep
      exact ⟨s', fits', by rw [hstep]; rfl⟩
    | inl t' =>
      rw [hnext] at hstep
      obtain ⟨hstep, hkeeps'⟩ := hstep
      obtain ⟨qs, takes'⟩ := takes.exists_takes_of_step hnext
      obtain ⟨s'', fits'', hrun⟩ := ih fits' hkeeps' takes'
      exact ⟨s'', fits'', by rw [hstep]; exact hrun⟩

/-- **A search over the buffers is a search without them**, and leaves them fit for the next one. -/
theorem Fits.exists_search? (hm : sc.machine.WellFormed) (fits : b.Fits depth) :
    ∃ b', b.search? sc = some (b', sc.search depth) ∧ b'.Fits depth := by
  obtain ⟨s, hreset, fits', hkeeps⟩ := fits.exists_reset? sc.machine.entry
  obtain ⟨b', fitsB, hrun⟩ := hkeeps.exists_run? hm fits' (.entry 0) searchLimit
  exact ⟨b', by rw [search?, hreset]; exact hrun, fitsB⟩

theorem Fits.searches?_eq (fits : b.Fits depth) {scs : List Scene}
    (hm : ∀ sc ∈ scs, sc.machine.WellFormed) :
    b.searches? scs = some (scs.map (·.search depth)) := by
  induction scs generalizing b with
  | nil => rfl
  | cons sc scs ih =>
    obtain ⟨hsc, hscs⟩ := List.forall_mem_cons.1 hm
    obtain ⟨b', hsearch, fits'⟩ := fits.exists_search? hsc
    have hrest := ih fits' hscs
    simp only [searches?, hsearch, hrest, Option.bind_eq_bind, Option.bind_some]
    rfl

/-- **Searches may share their buffers.** Over buffers that are set up once, each of them ends as it
does on its own. -/
theorem searches?_new {scs : List Scene} (hm : ∀ sc ∈ scs, sc.machine.WellFormed) (depth : Nat) :
    (new depth).searches? scs = some (scs.map (·.search depth)) :=
  (fits_new depth).searches?_eq hm

/-! ### Buffers in step -/

/-- The buffers are in step with the walk along these places, which spells this rule and leads to
this state. -/
structure InStep (sc : Scene) (ps : Places) (rule : Rule) (state : StateId) (s : Stacks) :
    Prop where
  depth : s.depth = ps.length
  depth_lt : s.depth < s.size
  walk : sc.machine.Walk ps rule state
  /-- The transitions on record are those of the walk, from the entry. -/
  along : s.path.Along sc.machine ps
  /-- The walk leads to the state at the top, and the machine has it. -/
  top : s.states[s.depth]? = some state
  state_lt : state < sc.machine.states.size
  /-- The glyphs on record as consumed are those that the steps of the rule consume. -/
  holds : sc.Holds rule s.consumed.toList
  increasing : s.consumed.toList.Pairwise (· < ·)
  lt_size : ∀ i ∈ s.consumed, i < sc.run.size
  first : ∀ i ∈ s.consumed[0]?, i = sc.cursor
  /-- The glyphs on record as probed are those that the steps of the rule probe. -/
  probed : s.probed.toList = rule.filterMap sc.probed?

/-- The buffers agree in all that stands at the depth and below it. -/
structure Agrees (s s' : Stacks) : Prop where
  depth : s.depth = s'.depth
  path : s.path = s'.path
  state : s.states[s.depth]? = s'.states[s'.depth]?
  next : s.places[s.depth]? = s'.places[s'.depth]?

theorem Keeps.isInStep (hm : sc.machine.WellFormed) (fits : s.Fits depth) (h : s.Keeps t)
    (takes : sc.Takes ps t) : ∃ rule, s.InStep sc ps rule t.state := by
  obtain ⟨rule, walk, hholds⟩ := takes.holds
  rw [← h.consumed] at hholds
  obtain ⟨f, hf, hplan⟩ := View.holds_iff.1 hholds
  refine ⟨rule, ?_⟩
  constructor
  case depth => rw [h.depth, takes.size_taken]
  case depth_lt => exact h.depth_lt
  case walk => exact walk
  case along => exact h.path_eq fits ▸ takes.along
  case top => exact h.state
  case state_lt => exact takes.state_lt hm
  case holds => exact hholds
  case increasing => exact hplan ▸ (View.climbs_of_evaluate? hf).increasing
  case lt_size => exact fun i hi => hholds.lt_size i (Array.mem_toList_iff.2 hi)
  case first =>
    rw [← Array.getElem?_toList, ← List.head?_eq_getElem?]
    exact hholds.head?_eq
  case probed => rw [h.probed, takes.probed_eq walk]

theorem Keeps.agrees (fits : s.Fits depth) (fits' : s'.Fits depth) (h : s.Keeps t)
    (h' : s'.Keeps t) : s.Agrees s' where
  depth := h.depth.trans h'.depth.symm
  path := (h.path_eq fits).trans (h'.path_eq fits').symm
  state := h.state.trans h'.state.symm
  next := h.next.trans h'.next.symm

/-- **The buffers stay in step.** Before each step of a search, whatever was left in them, they are
in step with a walk from the entry, and other buffers that fit would agree with them, so what is
left over is never read. The search ends, as it does without buffers, and what it leaves fits for
the next one. -/
theorem inStep (hm : sc.machine.WellFormed) (fits : b.Fits depth) :
    (∀ n s, b.Comes sc n s → (∃ ps rule state, s.InStep sc ps rule state) ∧
      ∀ b' : Stacks, b'.Fits depth → ∃ s', s'.Agrees s ∧ ∀ u, b'.Comes sc n u ↔ u = s') ∧
    ∃ b', b.search? sc = some (b', sc.search depth) ∧ b'.Fits depth := by
  refine ⟨fun n s hcomes => ?_, fits.exists_search? hm⟩
  obtain ⟨ps, t, takes, fits', hkeeps, others⟩ := hcomes.exists_keeps hm fits
  obtain ⟨rule, hstep⟩ := hkeeps.isInStep hm fits' takes
  refine ⟨⟨ps, rule, t.state, hstep⟩, fun b' hb' => ?_⟩
  obtain ⟨s', hcomes', fitsS', hkeeps'⟩ := others b' hb'
  exact ⟨s', hkeeps'.agrees fitsS' fits' hkeeps,
    fun u => ⟨fun hu => hu.det hcomes', fun hu => hu ▸ hcomes'⟩⟩

/-- The second glyph of `1 1 2`, before a machine that consumes the glyph 1 as long as it can. -/
def secondGlyph : Scene := ⟨⟨none, .ofIds [1, 1, 2], 1⟩, .greedyUnrolled⟩

/-- What the search at the first glyph may have left, and a place that none has written. -/
def leftover : Stacks where
  size := 4
  depth := 2
  states := #[0, 2, 0, 9]
  places := #[0, 0, 1, 9]
  consumed := #[0, 1]

/-- The next search takes one transition, to the state 2, and matches there. -/
theorem inStep_leftover : secondGlyph.machine.WellFormed ∧ leftover.Fits 4 ∧
    (∃ s ps rule, leftover.Comes secondGlyph 1 s ∧ s.depth = 1 ∧
      s.InStep secondGlyph ps rule 2) ∧
    ∃ b', leftover.search? secondGlyph =
      some (b', .matched { taken := #[(0, 0)], consumed := #[1] }) := by
  have hm : secondGlyph.machine.WellFormed := by decide
  have fits : leftover.Fits 4 := ⟨by decide, rfl, rfl⟩
  obtain ⟨hsteps, b', hsearch, -⟩ := inStep hm fits
  have hcomes : leftover.Comes secondGlyph 1 { leftover with depth := 1, consumed := #[1] } :=
    .step (.start rfl) rfl
  obtain ⟨⟨ps, rule, state, hstep⟩, -⟩ := hsteps 1 _ hcomes
  obtain rfl : 2 = state := Option.some.inj hstep.top
  exact ⟨hm, fits, ⟨_, ps, rule, hcomes, rfl, hstep⟩, b', hsearch⟩

end Stacks

end Shaping
