import Shaping.Proofs.Safety

/-!
The sums of a run. What the actions of a plan, of a position and of a whole loop compute on
positions is listed, in exact arithmetic. A build that keeps all sums of the list processes the run
as exact arithmetic does. Main statement: `Simulator.loop_eq_exactly`.
-/

namespace Shaping

/-- Whether an action changes ids only. -/
def Action.substitutes : Action → Bool
  | .delta _ | .replace _ | .expand _ | .ligate _ _ => true
  | .adjust _ | .adjustPair _ _ | .linkCursive _ | .attachMark _ => false

/-- All actions of the rule change ids only. -/
def Rule.Substitutes (rule : Rule) : Prop :=
  ∀ step ∈ rule, ∀ action, step.action = some action → action.substitutes

lemma Rule.substitutes_single {action : Action} (h : action.substitutes) (matcher : Matcher)
    (flags : LookupFlags) : (single matcher flags action).Substitutes := by
  refine List.forall_mem_cons.2 ⟨fun action' haction => ?_, List.forall_mem_singleton.2 nofun⟩
  obtain rfl := Option.some.inj haction
  exact h

lemma Rule.Substitutes.append {front rule : Rule} (h : rule.Substitutes)
    (hfront : ∀ step ∈ front, step.action = none) : Rule.Substitutes (front ++ rule) := by
  refine List.forall_mem_append.2 ⟨fun step hstep action haction => ?_, h⟩
  rw [hfront step hstep] at haction
  cases haction

namespace Edit

/-- The numbers that an action computes on positions. Substitutions compute none. -/
def sums (e : Edit) (base? : Option Nat) (action : Action) : List Int :=
  match e.placed with
  | [] => []
  | index :: earlier =>
    match action with
    | .adjust record => e.run.adjustSums record index
    | .adjustPair first second =>
      match earlier with
      | previous :: _ => e.run.adjustSums first previous ++
          (e.run.reposition previous first.added).adjustSums second index
      | [] => e.run.adjustSums second index
    | .linkCursive table =>
      match earlier with
      | previous :: _ => e.run.linkSums table previous index
      | [] => []
    | .attachMark table =>
      match base? with
      | some base => e.run.attachSums table base index
      | none => []
    | .delta _ | .replace _ | .expand _ | .ligate _ _ => []

/-- The numbers that the actions of a plan compute, one after the other. -/
def planSums (base? : Option Nat) : Edit → List (Nat × Option Action) → List Int
  | _, [] => []
  | e, (found, action?) :: rest =>
    if found + e.shift < 0 then []
    else
      match action? with
      | none => planSums base? (e.place found) rest
      | some action =>
        (e.place found).sums base? action ++
          match (e.place found).act .exact base? action with
          | .ok e => planSums base? e rest
          | .error _ => []

variable {a : Arithmetic} {e : Edit} {base? : Option Nat} {run : GlyphRun}

theorem act_eq_exact {action : Action} (h : a.Keeps (e.sums base? action)) :
    e.act a base? action = e.act .exact base? action := by
  obtain ⟨run, placed, shift⟩ := e
  cases placed with
  | nil => rfl
  | cons index earlier =>
    cases action with
    | delta | replace | expand | ligate => rfl
    | adjust record =>
      simp only [act, GlyphRun.adjust_eq h, GlyphRun.adjust_exact]
    | adjustPair first second =>
      cases earlier with
      | nil => simp only [act, GlyphRun.adjust_eq h, GlyphRun.adjust_exact]
      | cons previous older =>
        obtain ⟨hfirst, hsecond⟩ := Arithmetic.keeps_append.1 h
        simp only [act, GlyphRun.adjust_eq hfirst, GlyphRun.adjust_exact, Fault.ok_bind,
          GlyphRun.adjust_eq hsecond]
    | linkCursive table =>
      cases earlier with
      | nil => rfl
      | cons previous older =>
        simp only [act, GlyphRun.link_eq h, GlyphRun.link_exact]
    | attachMark table =>
      cases base? with
      | none => rfl
      | some base => simp only [act, GlyphRun.attach_eq h, GlyphRun.attach_exact]

theorem perform_eq_exact {plan : List (Nat × Option Action)} (h : a.Keeps (planSums base? e plan)) :
    perform a base? e plan = perform .exact base? e plan := by
  induction plan generalizing e with
  | nil => rfl
  | cons entry plan ih =>
    obtain ⟨found, action?⟩ := entry
    unfold planSums at h
    rw [perform, perform]
    dsimp only
    split_ifs at h ⊢ with hindex
    · rfl
    · cases action? with
      | none => exact ih h
      | some action =>
        dsimp only [place] at h ⊢
        obtain ⟨hsums, hrest⟩ := Arithmetic.keeps_append.1 h
        rw [act_eq_exact hsums]
        cases hact : act .exact { e with placed := (found + e.shift).toNat :: e.placed } base?
            action with
        | error fault => rfl
        | ok e' =>
          rw [hact] at hrest
          exact ih hrest

lemma carryOut_eq_exact {plan : List (Nat × Option Action)} {d : Direction} {cursor : Nat}
    (h : a.Keeps (planSums base? { run } plan)) :
    carryOut a base? d cursor run plan = carryOut .exact base? d cursor run plan := by
  rw [carryOut, carryOut, perform_eq_exact h]

lemma planSums_eq_nil {plan : List (Nat × Option Action)}
    (h : ∀ entry ∈ plan, ∀ action, entry.2 = some action → action.substitutes) :
    planSums base? e plan = [] := by
  induction plan generalizing e with
  | nil => rfl
  | cons entry plan ih =>
    obtain ⟨hentry, hplan⟩ := List.forall_mem_cons.1 h
    obtain ⟨found, action?⟩ := entry
    unfold planSums
    split_ifs
    · rfl
    · cases action? with
      | none => exact ih hplan
      | some action =>
        have hsums : ∀ e : Edit, e.sums base? action = [] := by
          intro e
          have hsubstitutes := hentry action rfl
          unfold sums
          cases e.placed <;> cases action <;> first | rfl | cases hsubstitutes
        dsimp only
        rw [hsums, List.nil_append]
        split
        · exact ih hplan
        · rfl

/-- Glyphs that are left as they are have nothing computed. -/
lemma planSums_plain (hshift : e.shift = 0) (found : List Nat)
    (rest : List (Nat × Option Action)) :
    planSums base? e (found.map (·, none) ++ rest) =
      planSums base? { e with placed := found.reverse ++ e.placed } rest := by
  induction found generalizing e with
  | nil => rfl
  | cons i found ih =>
    have hindex : ¬ ((i : Int) + e.shift < 0) := by omega
    have hplace : ((i : Int) + e.shift).toNat = i := by omega
    rw [List.map_cons, List.cons_append, planSums, if_neg hindex]
    rw [ih (e := e.place i) hshift, place, hplace]
    simp

theorem planSums_last (base? : Option Nat) (found : List Nat) (last : Nat) (action : Action) :
    planSums base? { run } (found.map (·, none) ++ [(last, some action)]) =
      sums ⟨run, last :: found.reverse, 0⟩ base? action := by
  rw [planSums_plain rfl, planSums, if_neg (by simp)]
  have hplace : place ⟨run, found.reverse ++ [], 0⟩ last = ⟨run, last :: found.reverse, 0⟩ := by
    simp [place]
  dsimp only
  rw [hplace]
  cases act .exact ⟨run, last :: found.reverse, 0⟩ base? action <;> simp [planSums]

end Edit

namespace Simulator

/-- The numbers that the actions compute when the position at a cursor is processed. -/
def sumsAt (sim : Simulator) (run : GlyphRun) (cursor : Nat) : List Int :=
  match Scene.search ⟨⟨sim.categories, run, cursor⟩, sim.machine⟩
    sim.options.maxMatchDepth.toNat with
  | .matched path => Edit.planSums path.base? { run } (Edit.plan sim.machine path)
  | .exhausted | .limitReached => []

/-- The simulator with exact arithmetic. -/
def exactly (sim : Simulator) : Simulator := { sim with arithmetic := .exact }

/-- The numbers that are computed while at most `fuel` glyphs are processed. -/
def sums (sim : Simulator) : (fuel : Nat) → Simulation → List Int
  | 0, _ => []
  | fuel + 1, s =>
    match s.cursor with
    | none => []
    | some cursor =>
      sim.sumsAt s.run cursor ++
        match sim.exactly.advance s cursor with
        | .ok s => sums sim fuel s
        | .error _ => []

/-! ### Builds that agree -/

variable {sim : Simulator} {fuel : Nat} {s : Simulation}

theorem advance_eq_exactly {cursor : Nat} (h : sim.arithmetic.Keeps (sim.sumsAt s.run cursor)) :
    sim.advance s cursor = sim.exactly.advance s cursor := by
  rw [sumsAt] at h
  rw [advance, advance, exactly]
  dsimp only
  cases hsearch : Scene.search ⟨⟨sim.categories, s.run, cursor⟩, sim.machine⟩
      sim.options.maxMatchDepth.toNat with
  | matched path =>
    rw [hsearch] at h
    simp only [Match.apply, Edit.carryOut_eq_exact h]
  | exhausted => rfl
  | limitReached => rfl

/-- **A run whose sums are kept** is processed as in exact arithmetic. -/
theorem loop_eq_exactly (h : sim.arithmetic.Keeps (sim.sums fuel s)) :
    sim.loop fuel s = sim.exactly.loop fuel s := by
  induction fuel generalizing s with
  | zero => rfl
  | succ fuel ih =>
    rw [sums] at h
    rw [loop, loop]
    cases hcursor : s.cursor with
    | none => rfl
    | some cursor =>
      rw [hcursor] at h
      obtain ⟨hsums, hrest⟩ := Arithmetic.keeps_append.1 h
      dsimp only
      rw [advance_eq_exactly hsums]
      cases hadvance : sim.exactly.advance s cursor with
      | error fault => rfl
      | ok s₁ =>
        rw [hadvance] at hrest
        exact ih hrest

lemma sums_exactly : sim.exactly.sums fuel s = sim.sums fuel s := by
  induction fuel generalizing s with
  | zero => rfl
  | succ fuel ih =>
    unfold sums
    cases s.cursor with
    | none => rfl
    | some cursor =>
      refine congrArg (sim.sumsAt s.run cursor ++ ·) ?_
      show (match sim.exactly.advance s cursor with
        | .ok s => sim.exactly.sums fuel s
        | .error _ => []) = _
      simp only [ih]

/-- The numbers that the actions compute when a run is processed. -/
def runSums (sim : Simulator) (run : GlyphRun) : List Int :=
  sim.sums run.size { run, cursor := run.start sim.machine.direction }

/-- **A run whose sums are words** is processed alike in every build. -/
theorem simulate_eq_exact {m : Machine Step} {categories : Option ClassDef}
    {options : SimulatorOptions} {run : GlyphRun}
    (h : ∀ x ∈ runSums ⟨m, categories, options, .exact⟩ run, IsWord x) (arithmetic : Arithmetic) :
    simulate ⟨m, categories, options, arithmetic⟩ run =
      simulate ⟨m, categories, options, .exact⟩ run := by
  refine loop_eq_exactly (Arithmetic.keeps_of_forall_isWord (fun x hx => h x ?_) arithmetic)
  rw [← sums_exactly] at hx
  exact hx

theorem exists_loop_of_mem_sums {x : Int} (h : x ∈ sim.sums fuel s) : ∃ n < fuel, ∃ s' cursor,
    sim.exactly.loop n s = .ok s' ∧ s'.cursor = some cursor ∧ x ∈ sim.sumsAt s'.run cursor := by
  induction fuel generalizing s with
  | zero => exact absurd h List.not_mem_nil
  | succ fuel ih =>
    unfold sums at h
    cases hcursor : s.cursor with
    | none =>
      rw [hcursor] at h
      exact absurd h List.not_mem_nil
    | some cursor =>
      rw [hcursor] at h
      rcases List.mem_append.1 h with h | h
      · exact ⟨0, Nat.succ_pos fuel, s, cursor, rfl, hcursor, h⟩
      · cases hadvance : sim.exactly.advance s cursor with
        | error fault =>
          simp only [hadvance] at h
          exact absurd h List.not_mem_nil
        | ok s₁ =>
          simp only [hadvance] at h
          obtain ⟨n, hn, s', cursor', hloop, hcursor', hx⟩ := ih h
          refine ⟨n + 1, Nat.succ_lt_succ hn, s', cursor', ?_, hcursor', hx⟩
          unfold loop
          simp only [hcursor, hadvance]
          exact hloop

/-! ### Substitutions -/

section Substitutions

variable {rules : List Rule} {spots : List Places}

theorem sumsAt_eq_nil (hspells : sim.machine.Spells rules spots)
    (hregular : ∀ rule ∈ rules, rule.Regular)
    (hrules : ∀ rule ∈ rules, rule.Substitutes) (run : GlyphRun) (cursor : Nat) :
    sim.sumsAt run cursor = [] := by
  unfold sumsAt
  split
  · rename_i path hpath
    obtain ⟨rule, hrule, f, heval, hplan, -⟩ := hspells.exists_finding hregular hpath
    rw [hplan]
    refine Edit.planSums_eq_nil fun entry hentry action haction => ?_
    obtain ⟨step, hstep, heq⟩ := View.exists_step_of_evaluate? heval entry hentry
    exact hrules rule hrule step hstep action (heq.symm.trans haction)
  · rfl
  · rfl

/-- **Rules that substitute** process every run to its end in every build. -/
theorem exists_simulate_of_substitutes (hspells : sim.machine.Spells rules spots)
    (hregular : ∀ rule ∈ rules, rule.Regular)
    (hrules : ∀ rule ∈ rules, rule.Substitutes) (run : GlyphRun) :
    ∃ s, sim.simulate run = .ok s := by
  have hkeeps : sim.arithmetic.Keeps
      (sim.sums run.size { run, cursor := run.start sim.machine.direction }) := by
    intro x hx
    obtain ⟨-, -, s, cursor, -, -, hx⟩ := exists_loop_of_mem_sums hx
    rw [sumsAt_eq_nil hspells hregular hrules] at hx
    exact absurd hx List.not_mem_nil
  have hexact : sim.exactly.machine.Spells rules spots := hspells
  have hends : Arithmetic.exact.Ends (fun _ => True) (sim.exactly.simulate run) :=
    ends_loop hexact hregular run.size _
  obtain ⟨s, hs, -⟩ := hends.exists_ok (by decide)
  exact ⟨s, (loop_eq_exactly hkeeps).trans hs⟩

end Substitutions

/-! ### Equivalent machines -/

variable {l r : Machine Step} {categories : Option ClassDef} {options : SimulatorOptions}
  {arithmetic : Arithmetic}

theorem sumsAt_eq (h : Machine.Equivalent l r) (run : GlyphRun) (cursor : Nat) :
    sumsAt ⟨l, categories, options, arithmetic⟩ run cursor =
      sumsAt ⟨r, categories, options, arithmetic⟩ run cursor := by
  obtain ⟨-, R, hR, hentry⟩ := h
  have hsearch := Scene.search_related hR hentry ⟨categories, run, cursor⟩
    options.maxMatchDepth.toNat
  unfold sumsAt
  dsimp only
  generalize Scene.search ⟨_, l⟩ _ = a at hsearch ⊢
  generalize Scene.search ⟨_, r⟩ _ = b at hsearch ⊢
  cases hsearch with
  | matched hpath =>
    dsimp only
    rw [Edit.plan_eq hR hpath, Match.base?, Match.base?, hpath.probed]
  | exhausted => rfl
  | limitReached => rfl

end Simulator

end Shaping
