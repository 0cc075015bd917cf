import Shaping.Proofs.Compiling
import Shaping.Proofs.Matching

/-!
Runs end, and compiled machines edit no index outside the run. A regular rule acts once, on the
glyph that it consumes last. So when it acts, all glyphs that it has consumed still stand where they
were found, in order, and the edits of its action meet them there. All that can stop a run is a sum
of positions that does not fit, with overflow checks. Main statement: `Simulator.runs_end`.
-/

namespace Shaping

/-! ### Edits inside the run -/

namespace GlyphRun

lemma exists_splice? {run : GlyphRun} {i : Nat} (h : i < run.size)
    (replacement : List ShapedGlyph) : ∃ run', run.splice? i replacement = some run' := by
  unfold splice?
  rw [if_pos h]
  split <;> exact ⟨_, rfl⟩

theorem exists_removeAll {run : GlyphRun} {indices : List Nat}
    (hsorted : indices.Pairwise (· > ·)) (hlt : ∀ i ∈ indices, i < run.size) :
    ∃ run', removeAll run indices = .ok run' := by
  induction indices generalizing run with
  | nil => exact ⟨run, rfl⟩
  | cons i rest ih =>
    obtain ⟨hbelow, hsorted⟩ := List.pairwise_cons.1 hsorted
    have hi := hlt i List.mem_cons_self
    rw [removeAll, dif_pos hi]
    refine ih hsorted fun j hj => ?_
    have hji := hbelow j hj
    rw [Array.size_eraseIdx]
    omega

/-! ### Sums that do not fit -/

variable (a : Arithmetic) (run : GlyphRun)

lemma ends_applyTo (record : ValueRecord) (p : Position) :
    a.Ends (fun _ => True) (record.applyTo a p) :=
  (a.ends_keep _).bind fun _ _ _ => (a.ends_keep _).bind fun _ _ _ =>
    (a.ends_keep _).bind fun _ _ _ => (a.ends_keep _).bind fun _ _ _ => Arithmetic.ends_ok trivial

lemma ends_adjust (record : ValueRecord) (i : Nat) :
    a.Ends (fun _ => True) (run.adjust a record i) := by
  rw [adjust]
  split
  · exact Arithmetic.ends_ok trivial
  · exact (ends_applyTo a record _).bind fun _ _ _ => Arithmetic.ends_ok trivial

lemma ends_link (table : CursiveAttachment) (front i : Nat) :
    a.Ends (fun _ => True) (run.link a table front i) := by
  rw [link]
  split
  · exact (a.ends_keep _).bind fun _ _ _ => (a.ends_keep _).bind fun _ _ _ =>
      Arithmetic.ends_ok trivial
  · exact Arithmetic.ends_ok trivial

lemma ends_foldlM (glyphs : List ShapedGlyph) (sum : Int) : a.Ends (fun _ => True)
    (glyphs.foldlM (fun sum g => a.keep (sum + g.position.xAdvance)) sum) := by
  induction glyphs generalizing sum with
  | nil => exact Arithmetic.ends_ok trivial
  | cons g glyphs ih =>
    rw [List.foldlM_cons]
    exact (a.ends_keep _).bind fun sum _ _ => ih sum

lemma ends_sumAdvances (first last : Nat) :
    a.Ends (fun _ => True) (run.sumAdvances a first last) := by
  rw [sumAdvances]
  split
  · rw [← Array.foldlM_toList]
    exact ends_foldlM a _ 0
  · exact Arithmetic.ends_ok trivial

lemma ends_attach (table : MarkToBase) (base i : Nat) :
    a.Ends (fun _ => True) (run.attach a table base i) := by
  rw [attach]
  repeat' split
  all_goals first | exact Arithmetic.ends_ok trivial | skip
  exact (ends_sumAdvances a run base i).bind fun _ _ _ => (a.ends_keep _).bind fun _ _ _ =>
    (a.ends_keep _).bind fun _ _ _ => (a.ends_keep _).bind fun _ _ _ =>
      (a.ends_keep _).bind fun _ _ _ => (a.ends_keep _).bind fun _ _ _ => Arithmetic.ends_ok trivial

end GlyphRun

namespace Edit

variable {a : Arithmetic} {e : Edit} {base? : Option Nat} {run : GlyphRun}

theorem exists_ligate (hsorted : e.placed.Pairwise (· > ·)) (hlt : ∀ i ∈ e.placed, i < e.run.size)
    (glyph : GlyphId) (components : Nat) : ∃ e', e.ligate glyph components = .ok e' := by
  rw [ligate]
  dsimp only
  split
  · exact ⟨e, rfl⟩
  · rename_i first earlier hdrop
    have hsub := List.take_sublist (max 1 (min components e.placed.length) - 1) e.placed
    have hlt : ∀ i ∈ e.placed.take (max 1 (min components e.placed.length) - 1),
        i < (e.run.modify first fun _ => .ofId glyph).size := by
      intro i hi
      rw [Array.size_modify]
      exact hlt i (hsub.subset hi)
    obtain ⟨run', hremove⟩ := GlyphRun.exists_removeAll (hsorted.sublist hsub) hlt
    rw [hremove]
    exact ⟨_, rfl⟩

theorem ends_act (a : Arithmetic) (hsorted : e.placed.Pairwise (· > ·))
    (hlt : ∀ i ∈ e.placed, i < e.run.size) (action : Action) :
    a.Ends (fun _ => True) (e.act a base? action) := by
  rw [act]
  split
  · exact Arithmetic.ends_ok trivial
  · rename_i index earlier hplaced
    cases action with
    | expand glyphs =>
      have hindex : index < e.run.size := hlt index (by simp [hplaced])
      obtain ⟨run', hsplice⟩ := GlyphRun.exists_splice? hindex (glyphs.map .ofId)
      simp only [hsplice]
      exact Arithmetic.ends_ok trivial
    | ligate glyph components =>
      obtain ⟨e', hligate⟩ := exists_ligate hsorted hlt glyph components.toNat
      exact .inl ⟨e', hligate, trivial⟩
    | adjust record =>
      exact (GlyphRun.ends_adjust a _ record _).bind fun _ _ _ => Arithmetic.ends_ok trivial
    | adjustPair first second =>
      dsimp only
      split
      · exact (GlyphRun.ends_adjust a _ first _).bind fun _ _ _ =>
          (GlyphRun.ends_adjust a _ second _).bind fun _ _ _ => Arithmetic.ends_ok trivial
      · exact (GlyphRun.ends_adjust a _ second _).bind fun _ _ _ => Arithmetic.ends_ok trivial
    | linkCursive table =>
      dsimp only
      split
      · exact (GlyphRun.ends_link a _ table _ _).bind fun _ _ _ => Arithmetic.ends_ok trivial
      · exact Arithmetic.ends_ok trivial
    | attachMark table =>
      dsimp only
      split
      · exact (GlyphRun.ends_attach a _ table _ _).bind fun _ _ _ => Arithmetic.ends_ok trivial
      · exact Arithmetic.ends_ok trivial
    | delta | replace => exact Arithmetic.ends_ok trivial

theorem perform_plain (hshift : e.shift = 0) (found : List Nat)
    (rest : List (Nat × Option Action)) :
    perform a base? e (found.map (·, none) ++ rest) =
      perform a base? { e with placed := found.reverse ++ e.placed } rest := by
  induction found generalizing e with
  | nil => rfl
  | cons i found ih =>
    have hindex : ¬ ((i : Int) + e.shift < 0) := by omega
    have hplace : ((i : Int) + e.shift).toNat = i := by omega
    rw [List.map_cons, List.cons_append, perform]
    simp only [if_neg hindex, hplace]
    rw [ih (e := ⟨e.run, i :: e.placed, e.shift⟩) hshift]
    simp

theorem perform_last (a : Arithmetic) (base? : Option Nat) (found : List Nat) (last : Nat)
    (action : Action) :
    perform a base? { run } (found.map (·, none) ++ [(last, some action)]) =
      (act a ⟨run, last :: found.reverse, 0⟩ base? action).map .done := by
  rw [perform_plain rfl, perform]
  simp only [List.append_nil, Int.add_zero, Int.toNat_natCast]
  rw [if_neg (by omega)]
  cases act a ⟨run, last :: found.reverse, 0⟩ base? action <;> rfl

/-- The newest place comes first. -/
lemma pairwise_placed {found : List Nat} {last : Nat}
    (h : (found ++ [last]).Pairwise (· < ·)) : (last :: found.reverse).Pairwise (· > ·) := by
  have hplaced : (found ++ [last]).reverse = last :: found.reverse := by simp
  rw [← hplaced, List.pairwise_reverse]
  exact h

/-- **A plan is carried out** if its indices increase within the run and only its last entry
acts. -/
theorem ends_carryOut (a : Arithmetic) {found : List Nat} {last : Nat} {action : Action}
    {cursor : Nat} (hsorted : (found ++ [last]).Pairwise (· < ·))
    (hlt : ∀ i ∈ found ++ [last], i < run.size) (base? : Option Nat) (d : Direction) :
    a.Ends (fun _ => True)
      (carryOut a base? d cursor run (found.map (·, none) ++ [(last, some action)])) := by
  have hwithin : ∀ i ∈ last :: found.reverse, i < run.size := by
    intro i hi
    exact hlt i (by simpa [or_comm] using hi)
  have hact : a.Ends (fun _ => True) (act a ⟨run, last :: found.reverse, 0⟩ base? action) :=
    ends_act a (pairwise_placed hsorted) hwithin action
  rw [carryOut, perform_last]
  refine (hact.map (R := fun result => ∃ e, result = .done e) fun e _ _ => ⟨e, rfl⟩).bind ?_
  rintro result - ⟨e, rfl⟩
  cases d <;> exact Arithmetic.ends_ok trivial

end Edit

/-! ### Plans of regular rules -/

namespace View

variable {v : View} {rule : Rule} {f : Finding}

theorem exists_accepts_of_evaluate? (h : v.evaluate? rule = some f) :
    ∀ i ∈ f.plan.map (·.1), ∃ step ∈ rule, ∃ matcher flags,
      step.predicate = .consume matcher flags ∧ v.accepts i matcher flags := by
  refine evaluate?_induction (P := fun f => ∀ i ∈ f.plan.map (·.1), ∃ step ∈ rule,
    ∃ matcher flags, step.predicate = .consume matcher flags ∧ v.accepts i matcher flags)
    (by simp) ?_ h
  intro f step hstep g hf hg
  rw [find?, Option.map_eq_some_iff] at hg
  obtain ⟨hit, htest, rfl⟩ := hg
  cases hit with
  | accepted => exact hf
  | probed => exact hf
  | consumed index =>
    obtain ⟨matcher, flags, hpredicate, -, haccepts⟩ := test_eq_consumed_iff.1 htest
    intro i hi
    rw [Finding.record, List.map_append, List.mem_append] at hi
    obtain hi | hi := hi
    · exact hf i hi
    · rw [List.mem_singleton.1 hi]
      exact ⟨step, hstep, matcher, flags, hpredicate, haccepts⟩

theorem lt_size_of_evaluate? (h : v.evaluate? rule = some f) :
    ∀ i ∈ f.plan.map (·.1), i < v.run.size := by
  intro i hi
  obtain ⟨-, -, matcher, flags, -, haccepts⟩ := exists_accepts_of_evaluate? h i hi
  by_contra hout
  simp [accepts, Array.getElem?_eq_none (Nat.le_of_not_lt hout)] at haccepts

theorem exists_step_of_evaluate? (h : v.evaluate? rule = some f) :
    ∀ entry ∈ f.plan, ∃ step ∈ rule, entry.2 = step.action := by
  refine evaluate?_induction (P := fun f => ∀ entry ∈ f.plan, ∃ step ∈ rule, entry.2 = step.action)
    (by simp) ?_ h
  intro f step hstep g hf hg
  rw [find?, Option.map_eq_some_iff] at hg
  obtain ⟨hit, -, rfl⟩ := hg
  cases hit with
  | accepted => exact hf
  | probed => exact hf
  | consumed index =>
    intro entry hentry
    rcases List.mem_append.1 hentry with hentry | hentry
    · exact hf entry hentry
    · rw [List.mem_singleton.1 hentry]
      exact ⟨step, hstep, rfl⟩

lemma plan_of_plain (hrule : ∀ step ∈ rule, step.action = none) (h : v.evaluate? rule = some f) :
    ∃ found : List Nat, f.plan = found.map (·, none) := by
  refine ⟨f.plan.map Prod.fst, ?_⟩
  have hself : ∀ entry ∈ f.plan, (entry.1, none) = entry := by
    intro entry hentry
    obtain ⟨step, hstep, heq⟩ := exists_step_of_evaluate? h entry hentry
    rw [← hrule step hstep, ← heq]
  calc f.plan = f.plan.map id := (List.map_id f.plan).symm
    _ = f.plan.map fun entry => (entry.1, none) :=
        List.map_congr_left fun entry hentry => (hself entry hentry).symm
    _ = (f.plan.map Prod.fst).map (·, none) := by simp [Function.comp_def]

theorem plan_of_regular (hrule : rule.Regular) (h : v.evaluate? rule = some f) :
    ∃ (found : List Nat) (last : Nat) (action : Action),
      f.plan = found.map (·, none) ++ [(last, some action)] := by
  obtain ⟨probes, plains, matcher, flags, action, rfl, hprobes, hplains⟩ := hrule
  have hsplit : probes ++ plains ++ Rule.single matcher flags action =
      probes ++ plains ++ [.consume matcher flags action] ++ [.accept] := by simp [Rule.single]
  rw [hsplit, evaluate?_concat_accept rfl, evaluate?_concat, Option.bind_eq_some_iff] at h
  obtain ⟨g, hg, hf⟩ := h
  rw [find?, Option.map_eq_some_iff] at hf
  obtain ⟨hit, htest, rfl⟩ := hf
  have hplain : ∀ step ∈ probes ++ plains, step.action = none := by
    intro step hstep
    obtain hstep | hstep := List.mem_append.1 hstep
    · exact (hprobes step hstep).action_eq
    · exact (hplains step hstep).action_eq
  obtain ⟨found, hfound⟩ := plan_of_plain hplain hg
  cases hit with
  | accepted => cases test_eq_accepted_iff.1 htest
  | probed => obtain ⟨_, _, hp, -⟩ := test_eq_probed_iff.1 htest; cases hp
  | consumed index => exact ⟨found, index, action, by rw [Finding.record, hfound]; rfl⟩

end View

/-! ### Machines of regular rules -/

/-- **A match is one of the rules**, and does what that rule finds. -/
theorem Machine.Spells.exists_finding {m : Machine Step} {rules : List Rule} {spots : List Places}
    (h : m.Spells rules spots) (hregular : ∀ rule ∈ rules, rule.Regular) {v : View} {depth : Nat}
    {path : Match} (hpath : Scene.search ⟨v, m⟩ depth = .matched path) :
    ∃ rule ∈ rules, ∃ f, v.evaluate? rule = some f ∧ Edit.plan m path = f.plan ∧
      path.base? = f.base? := by
  have hfirst := h.search (fun rule hrule => (hregular rule hrule).endsIn) v depth
  rw [hpath] at hfirst
  obtain ⟨f, hf, hplan, hbase⟩ := hfirst
  obtain ⟨rule, hrule, heval⟩ := List.exists_of_findSome?_eq_some hf
  exact ⟨rule, hrule, f, heval, hplan, hbase⟩

theorem Machine.Spells.exists_plan {m : Machine Step} {rules : List Rule} {spots : List Places}
    (h : m.Spells rules spots) (hregular : ∀ rule ∈ rules, rule.Regular) {v : View} {depth : Nat}
    {path : Match} (hpath : Scene.search ⟨v, m⟩ depth = .matched path) :
    ∃ rule ∈ rules, ∃ (f : Finding) (found : List Nat) (last : Nat) (action : Action),
      v.evaluate? rule = some f ∧ f.plan.map (·.1) = found ++ [last] ∧
        (found ++ [last]).Pairwise (· < ·) ∧
          Edit.plan m path = found.map (·, none) ++ [(last, some action)] := by
  obtain ⟨rule, hrule, f, heval, hplan, -⟩ := h.exists_finding hregular hpath
  obtain ⟨found, last, action, hshape⟩ := View.plan_of_regular (hregular rule hrule) heval
  have hindices : f.plan.map (·.1) = found ++ [last] := by simp [hshape, Function.comp_def]
  have hsorted := (View.climbs_of_evaluate? heval).increasing
  rw [hindices] at hsorted
  exact ⟨rule, hrule, f, found, last, action, heval, hindices, hsorted, hplan.trans hshape⟩

namespace Simulator

variable {sim : Simulator} {rules : List Rule} {spots : List Places}

theorem ends_advance (hspells : sim.machine.Spells rules spots)
    (hregular : ∀ rule ∈ rules, rule.Regular) (s : Simulation) (cursor : Nat) :
    sim.arithmetic.Ends (fun _ => True) (sim.advance s cursor) := by
  rw [advance]
  dsimp only
  cases hsearch : Scene.search ⟨⟨sim.categories, s.run, cursor⟩, sim.machine⟩
      sim.options.maxMatchDepth.toNat with
  | exhausted => exact Arithmetic.ends_ok trivial
  | limitReached => exact Arithmetic.ends_ok trivial
  | matched path =>
    obtain ⟨rule, -, f, found, last, action, heval, hindices, hsorted, hplan⟩ :=
      hspells.exists_plan hregular hsearch
    have hlt := View.lt_size_of_evaluate? heval
    rw [hindices] at hlt
    have happly : sim.arithmetic.Ends (fun _ => True)
        (path.apply sim.arithmetic sim.machine cursor s.run) := by
      rw [Match.apply, hplan]
      exact Edit.ends_carryOut sim.arithmetic hsorted hlt path.base? sim.machine.direction
    exact happly.bind fun _ _ _ => Arithmetic.ends_ok trivial

theorem ends_loop (hspells : sim.machine.Spells rules spots)
    (hregular : ∀ rule ∈ rules, rule.Regular) (fuel : Nat) (s : Simulation) :
    sim.arithmetic.Ends (fun _ => True) (sim.loop fuel s) := by
  induction fuel generalizing s with
  | zero => exact Arithmetic.ends_ok trivial
  | succ fuel ih =>
    rw [loop]
    cases s.cursor with
    | none => exact Arithmetic.ends_ok trivial
    | some cursor => exact (ends_advance hspells hregular s cursor).bind fun s₁ _ _ => ih s₁

end Simulator

section Compiled

variable {lookups : List Lookup} {options : CompileOptions} {compiled : Compiled}
  (h : compile lookups options = .ok compiled) (categories : Option ClassDef)
  (limits : SimulatorOptions) {arithmetic : Arithmetic} (run : GlyphRun)

include h

/-- **Compiled machines end every run**: no edit is outside the run. -/
theorem ends_simulate_compile (arithmetic : Arithmetic) : arithmetic.Ends (fun _ => True)
    (Simulator.simulate ⟨compiled.machine, categories, limits, arithmetic⟩ run) := by
  obtain ⟨m, spots, hequivalent, hspells, -⟩ := exists_spells_compile h
  rw [Simulator.simulate_eq hequivalent]
  exact Simulator.ends_loop hspells Lookup.regular_flatMap_rules _ _

end Compiled

end Shaping
