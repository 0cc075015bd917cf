import Mathlib.Data.List.Pairwise
import Shaping.Proofs.Evaluation
import Shaping.Proofs.Positions
import Shaping.Simulation.Basic

/-!
Progress of a simulation. While a rule is carried out, the run grows by the shift, no more and no
less, and the glyphs that a rule consumes stand in order from the cursor on. So every position that
is processed leaves fewer glyphs to come, whatever the machine, and a simulation ends with its
cursor behind the run. Main statement: `Simulator.cursor_simulate`.
-/

namespace Shaping

/-! ### The indices of a rule -/

/-- The indices of the consumed glyphs increase, from the cursor on. -/
structure Finding.Climbs (cursor : Nat) (f : Finding) : Prop where
  increasing : (f.plan.map (·.1)).Pairwise (· < ·)
  cursor_le : ∀ index ∈ f.plan.map (·.1), cursor ≤ index

theorem GlyphRun.lt_of_walk {run : GlyphRun} {skip : ShapedGlyph → Bool} {fuel count i j : Nat}
    (h : run.walk skip .forward fuel (count + 1) i = some j) : i < j := by
  induction fuel generalizing count i with
  | zero => simp [walk] at h
  | succ fuel ih =>
    have hnext : i < neighbour .forward i := Nat.lt_succ_self i
    rw [walk] at h
    split_ifs at h
    · exact hnext.trans (ih h)
    · cases count with
      | zero =>
        rw [walk] at h
        rwa [← Option.some.inj h]
      | succ count => exact hnext.trans (ih h)

theorem View.lt_of_nextIndex? {v : View} {flags : LookupFlags} {consumed : List Nat} {j : Nat}
    (hsorted : consumed.Pairwise (· < ·)) (hcursor : ∀ i ∈ consumed, v.cursor ≤ i)
    (h : v.nextIndex? consumed.toArray flags = some j) : v.cursor ≤ j ∧ ∀ i ∈ consumed, i < j := by
  rw [nextIndex?, List.back?_toArray] at h
  cases consumed using List.reverseRecOn with
  | nil =>
    obtain rfl : v.cursor = j := Option.some.inj h
    exact ⟨Nat.le_refl _, by simp⟩
  | append_singleton consumed last =>
    rw [List.getLast?_concat] at h
    dsimp only at h
    rw [GlyphRun.stepFiltered] at h
    split_ifs at h with hlast
    have hlt := GlyphRun.lt_of_walk h
    have hle := hcursor last (by simp)
    refine ⟨by omega, fun i hi => ?_⟩
    obtain hi | rfl := List.mem_append.1 hi |>.imp_right List.mem_singleton.1
    · exact (List.pairwise_append.1 hsorted).2.2 i hi last (by simp) |>.trans hlt
    · exact hlt

/-- **The glyphs that a rule consumes stand in order.** -/
theorem View.climbs_of_evaluate? {v : View} {rule : Rule} {f : Finding}
    (h : v.evaluate? rule = some f) : f.Climbs v.cursor := by
  refine evaluate?_induction (P := Finding.Climbs v.cursor) ⟨.nil, by simp⟩ ?_ h
  rintro f step - g ⟨hsorted, hcursor⟩ hg
  rw [find?, Option.map_eq_some_iff] at hg
  obtain ⟨hit, htest, rfl⟩ := hg
  cases hit with
  | accepted => exact ⟨hsorted, hcursor⟩
  | probed => exact ⟨hsorted, hcursor⟩
  | consumed index =>
    obtain ⟨matcher, flags, -, hnext, -⟩ := test_eq_consumed_iff.1 htest
    obtain ⟨hle, hlt⟩ := lt_of_nextIndex? hsorted hcursor hnext
    constructor
    · rw [Finding.record, List.map_append, List.pairwise_append]
      refine ⟨hsorted, List.pairwise_singleton _ _, fun i hi j hj => ?_⟩
      obtain rfl := List.mem_singleton.1 hj
      exact hlt i hi
    · intro i hi
      rw [Finding.record, List.map_append, List.mem_append] at hi
      obtain hi | hi := hi
      · exact hcursor i hi
      · obtain rfl := List.mem_singleton.1 hi
        exact hle

/-! ### The shift of a rule -/

namespace GlyphRun

@[simp] lemma size_rename (run : GlyphRun) (i : Nat) (f : GlyphId → GlyphId) :
    (run.rename i f).size = run.size := Array.size_modify

section Moves

variable {a : Arithmetic} {run run' : GlyphRun} {base front i : Nat}

theorem exists_reposition_of_adjust {record : ValueRecord} (h : run.adjust a record i = .ok run') :
    ∃ f, run' = run.reposition i f := by
  rw [adjust] at h
  split at h
  · rename_i hnone
    obtain rfl := Except.ok.inj h
    exact ⟨id, (reposition_of_le (Array.getElem?_eq_none_iff.1 hnone) id).symm⟩
  · obtain ⟨position, -, h⟩ := Fault.bind_eq_ok h
    exact ⟨_, (Except.ok.inj h).symm⟩

theorem exists_reposition_of_link {table : CursiveAttachment}
    (h : run.link a table front i = .ok run') :
    run' = run ∨ ∃ f g, run' = (run.reposition front f).reposition i g := by
  rw [link] at h
  split at h
  · obtain ⟨y, -, h⟩ := Fault.bind_eq_ok h
    obtain ⟨yOffset, -, h⟩ := Fault.bind_eq_ok h
    exact .inr ⟨_, _, (Except.ok.inj h).symm⟩
  · exact .inl (Except.ok.inj h).symm

theorem exists_reposition_of_attach {table : MarkToBase}
    (h : run.attach a table base i = .ok run') : run' = run ∨ ∃ f, run' = run.reposition i f := by
  rw [attach] at h
  repeat' split at h
  all_goals first | exact .inl (Except.ok.inj h).symm | skip
  obtain ⟨advance, -, h⟩ := Fault.bind_eq_ok h
  obtain ⟨x, -, h⟩ := Fault.bind_eq_ok h
  obtain ⟨x, -, h⟩ := Fault.bind_eq_ok h
  obtain ⟨xOffset, -, h⟩ := Fault.bind_eq_ok h
  obtain ⟨y, -, h⟩ := Fault.bind_eq_ok h
  obtain ⟨yOffset, -, h⟩ := Fault.bind_eq_ok h
  exact .inr ⟨_, (Except.ok.inj h).symm⟩

end Moves

theorem size_splice? {run run' : GlyphRun} {i : Nat} {replacement : List ShapedGlyph}
    (h : run.splice? i replacement = some run') :
    i < run.size ∧ run'.size + 1 = run.size + replacement.length := by
  unfold splice? at h
  split_ifs at h with hi
  refine ⟨hi, ?_⟩
  split at h <;> obtain rfl := Option.some.inj h
  · rw [Array.eraseIdxIfInBounds, dif_pos hi, Array.size_eraseIdx, List.length_nil]
    omega
  · simp
  · rw [← Array.length_toList, Array.toList_append, Array.toList_appendList]
    simp
    omega

theorem size_removeAll {run run' : GlyphRun} {indices : List Nat}
    (h : removeAll run indices = .ok run') : run'.size + indices.length = run.size := by
  induction indices generalizing run with
  | nil =>
    obtain rfl : run = run' := Except.ok.inj h
    rfl
  | cons i rest ih =>
    rw [removeAll] at h
    split_ifs at h with hi
    have hrest := ih h
    rw [Array.size_eraseIdx] at hrest
    rw [List.length_cons]
    omega

end GlyphRun

namespace Edit

variable {a : Arithmetic} {e e' : Edit} {base? : Option Nat} {action : Action} {n : Int}

/-- The run has grown from `n` glyphs by the shift. -/
def Sized (n : Int) (e : Edit) : Prop := (e.run.size : Int) = n + e.shift

theorem ligate_cases {glyph : GlyphId} {components : Nat}
    (h : e.ligate glyph components = .ok e') :
    e' = e ∨ ∃ newer first earlier run, e.placed = newer ++ first :: earlier ∧
      GlyphRun.removeAll (e.run.modify first fun _ => .ofId glyph) newer = .ok run ∧
      e' = ⟨run, first :: earlier, e.shift - newer.length⟩ := by
  unfold ligate at h
  dsimp only at h
  generalize max 1 (min components e.placed.length) - 1 = merged at h
  split at h
  · exact .inl (Except.ok.inj h).symm
  · rename_i first earlier hdrop
    have hplaced : e.placed = e.placed.take merged ++ first :: earlier := by
      rw [← hdrop, List.take_append_drop]
    have hcount : (e.placed.take merged).length = merged := by
      have hlength := congrArg List.length hdrop
      rw [List.length_drop, List.length_cons] at hlength
      rw [List.length_take]
      omega
    cases hremove : GlyphRun.removeAll (e.run.modify first fun _ => .ofId glyph)
        (e.placed.take merged) with
    | error fault =>
      rw [hremove] at h
      cases h
    | ok run =>
      rw [hremove] at h
      refine .inr ⟨_, first, earlier, run, hplaced, hremove, ?_⟩
      rw [hcount]
      exact (Except.ok.inj h).symm

theorem Sized.ligate (hsize : e.Sized n) {glyph : GlyphId} {components : Nat}
    (h : e.ligate glyph components = .ok e') : e'.Sized n := by
  rcases ligate_cases h with rfl | ⟨newer, first, earlier, run, -, hremove, rfl⟩
  · exact hsize
  · have hlength := GlyphRun.size_removeAll hremove
    rw [Array.size_modify] at hlength
    rw [Sized] at hsize ⊢
    dsimp only
    omega

/-- What an action can do to an edit: nothing, a change to the newest placed glyph or to the
positions of the newest two, a sequence in the place of the newest, or a ligature. -/
inductive Alters (e : Edit) : Action → Edit → Prop
  | idle {action : Action} : Alters e action e
  | newest {action : Action} {index : Nat} {earlier : List Nat} (f : ShapedGlyph → ShapedGlyph) :
      e.placed = index :: earlier → Alters e action { e with run := e.run.modify index f }
  | newestTwo {action : Action} {index previous : Nat} {older : List Nat}
      (f g : Position → Position) : e.placed = index :: previous :: older →
      Alters e action { e with run := (e.run.reposition previous f).reposition index g }
  | expanded {index : Nat} {earlier : List Nat} {glyphs : List GlyphId} {run : GlyphRun} :
      e.placed = index :: earlier → e.run.splice? index (glyphs.map .ofId) = some run →
      Alters e (.expand glyphs) { e with run, shift := e.shift + glyphs.length - 1 }
  | ligated {glyph : GlyphId} {components : UInt16} {e' : Edit} :
      e.ligate glyph components.toNat = .ok e' → Alters e (.ligate glyph components) e'

theorem alters_act (h : e.act a base? action = .ok e') : e.Alters action e' := by
  rw [Edit.act] at h
  split at h
  · obtain rfl := Except.ok.inj h
    exact .idle
  · rename_i index earlier hplaced
    cases action with
    | expand glyphs =>
      dsimp only at h
      split at h
      · rename_i run hsplice
        obtain rfl := Except.ok.inj h
        exact .expanded hplaced hsplice
      · cases h
    | ligate glyph components => exact .ligated h
    | adjust record =>
      obtain ⟨run, hadjust, h⟩ := Fault.bind_eq_ok h
      obtain rfl := Except.ok.inj h
      obtain ⟨f, rfl⟩ := GlyphRun.exists_reposition_of_adjust hadjust
      exact .newest _ hplaced
    | adjustPair first second =>
      cases earlier with
      | nil =>
        obtain ⟨run, hadjust, h⟩ := Fault.bind_eq_ok h
        obtain rfl := Except.ok.inj h
        obtain ⟨f, rfl⟩ := GlyphRun.exists_reposition_of_adjust hadjust
        exact .newest _ hplaced
      | cons previous older =>
        obtain ⟨run, hfirst, h⟩ := Fault.bind_eq_ok h
        obtain ⟨run', hsecond, h⟩ := Fault.bind_eq_ok h
        obtain rfl := Except.ok.inj h
        obtain ⟨f, rfl⟩ := GlyphRun.exists_reposition_of_adjust hfirst
        obtain ⟨g, rfl⟩ := GlyphRun.exists_reposition_of_adjust hsecond
        exact .newestTwo f g hplaced
    | linkCursive table =>
      cases earlier with
      | nil =>
        obtain rfl := Except.ok.inj h
        exact .idle
      | cons previous older =>
        obtain ⟨run, hlink, h⟩ := Fault.bind_eq_ok h
        obtain rfl := Except.ok.inj h
        obtain rfl | ⟨f, g, rfl⟩ := GlyphRun.exists_reposition_of_link hlink
        · exact .idle
        · exact .newestTwo f g hplaced
    | attachMark table =>
      cases base? with
      | none =>
        obtain rfl := Except.ok.inj h
        exact .idle
      | some base =>
        obtain ⟨run, hattach, h⟩ := Fault.bind_eq_ok h
        obtain rfl := Except.ok.inj h
        obtain rfl | ⟨f, rfl⟩ := GlyphRun.exists_reposition_of_attach hattach
        · exact .idle
        · exact .newest _ hplaced
    | delta | replace =>
      obtain rfl := Except.ok.inj h
      exact .newest _ hplaced

theorem Sized.act (hsize : e.Sized n) (h : e.act a base? action = .ok e') : e'.Sized n := by
  rw [Sized] at hsize
  cases alters_act h with
  | idle => exact hsize
  | newest f hplaced => simpa [Sized] using hsize
  | newestTwo f g hplaced => simpa [Sized] using hsize
  | expanded hplaced hsplice =>
    obtain ⟨-, hlength⟩ := GlyphRun.size_splice? hsplice
    rw [List.length_map] at hlength
    rw [Sized]
    dsimp only
    omega
  | ligated hligate => exact Sized.ligate hsize hligate

theorem shift_act_of_retainsLast (hretains : action.retainsLast)
    (h : e.act a base? action = .ok e') : e'.shift = e.shift := by
  cases alters_act h with
  | idle | newest | newestTwo => rfl
  | expanded | ligated => simp [Action.retainsLast] at hretains

/-- The edit once the glyph found at an index has been placed. -/
def place (e : Edit) (found : Nat) : Edit :=
  { e with placed := (found + e.shift).toNat :: e.placed }

/-- Carries out the action of a transition, if it has one. -/
def actOn (a : Arithmetic) (e : Edit) (base? : Option Nat) : Option Action → Except Fault Edit
  | none => .ok e
  | some action => e.act a base? action

theorem perform_cons {found : Nat} {action? : Option Action} {rest : List (Nat × Option Action)}
    {result : Result} (h : perform a base? e ((found, action?) :: rest) = .ok result) :
    (found + e.shift < 0 ∧ result = .lost e.run) ∨
      ∃ e₁, (e.place found).actOn a base? action? = .ok e₁ ∧
        perform a base? e₁ rest = .ok result := by
  rw [perform] at h
  dsimp only at h
  split_ifs at h with hindex
  · exact .inl ⟨hindex, (Except.ok.inj h).symm⟩
  · right
    cases action? with
    | none => exact ⟨_, rfl, h⟩
    | some action =>
      rw [← place] at h
      dsimp only at h
      cases hact : (e.place found).act a base? action with
      | error fault =>
        rw [hact] at h
        cases h
      | ok e₁ =>
        rw [hact] at h
        exact ⟨e₁, hact, h⟩

theorem Sized.perform {plan : List (Nat × Option Action)} (hsize : e.Sized n)
    (h : Edit.perform a base? e plan = .ok (.done e')) : e'.Sized n := by
  induction plan generalizing e with
  | nil =>
    obtain rfl := Result.done.inj (Except.ok.inj h)
    exact hsize
  | cons entry rest ih =>
    obtain ⟨found, action?⟩ := entry
    obtain ⟨-, hlost⟩ | ⟨e₁, hact, hrest⟩ := perform_cons h
    · cases hlost
    · have hplaced : (e.place found).Sized n := hsize
      cases action? with
      | none =>
        obtain rfl := Except.ok.inj hact
        exact ih hplaced hrest
      | some action => exact ih (hplaced.act hact) hrest

end Edit

/-! ### The next position -/

/-- How many positions may still be processed from a cursor on. -/
def GlyphRun.remaining (run : GlyphRun) : Direction → (cursor : Nat) → Nat
  | .forward, cursor => run.size - cursor
  | .backward, cursor => cursor + 1

lemma GlyphRun.remaining_step {run : GlyphRun} {d : Direction} {cursor next : Nat}
    (h : run.step d 1 cursor = some next) :
    0 < run.remaining d next ∧ run.remaining d next < run.remaining d cursor := by
  cases d with
  | forward =>
    simp only [step] at h
    split_ifs at h with hcursor hnext
    obtain rfl := Option.some.inj h
    simp only [remaining]
    omega
  | backward =>
    simp only [step] at h
    split_ifs at h with hcursor hnext
    obtain rfl := Option.some.inj h
    simp only [remaining]
    omega

lemma GlyphRun.remaining_start {run : GlyphRun} {d : Direction} {cursor : Nat}
    (h : run.start d = some cursor) :
    0 < run.remaining d cursor ∧ run.remaining d cursor ≤ run.size := by
  cases d with
  | forward =>
    simp only [start] at h
    split_ifs at h with hempty
    obtain rfl := Option.some.inj h
    have hsize : run.size ≠ 0 := mt Array.isEmpty_iff_size_eq_zero.2 hempty
    simp only [remaining]
    omega
  | backward =>
    simp only [start] at h
    split_ifs at h with hempty
    obtain rfl := Option.some.inj h
    have hsize : run.size ≠ 0 := mt Array.isEmpty_iff_size_eq_zero.2 hempty
    simp only [remaining]
    omega

namespace Edit

variable {a : Arithmetic} {base? : Option Nat} {cursor next : Nat} {run run' : GlyphRun}
  {plan : List (Nat × Option Action)} {e : Edit}

/-- The last glyph that a plan consumes, or the one at the cursor. -/
def lastConsumed (cursor : Nat) (plan : List (Nat × Option Action)) : Nat :=
  (plan.getLast?.map (·.1)).getD cursor

/-- Whether the last action of a plan retains its glyph. -/
def retains (plan : List (Nat × Option Action)) : Bool :=
  (plan.getLast?.bind (·.2)).any (·.retainsLast)

theorem nextForward_cases (h : nextForward cursor plan e = some next) : next < e.run.size ∧
    ((next : Int) = lastConsumed cursor plan + 1 + e.shift ∨
      retains plan ∧ (next : Int) = lastConsumed cursor plan + e.shift ∧ cursor < next) := by
  rw [nextForward, ← lastConsumed, ← retains] at h
  dsimp only at h
  generalize lastConsumed cursor plan = last, retains plan = r at h ⊢
  split_ifs at h with hstop hback hend hend
  · obtain rfl := Option.some.inj h
    simp only [Bool.and_eq_true, decide_eq_true_eq] at hback
    refine ⟨by omega, .inr ⟨hback.1, ?_, ?_⟩⟩ <;> omega
  · obtain rfl := Option.some.inj h
    exact ⟨by omega, .inl (by omega)⟩

theorem shift_perform_single {index : Nat} {action : Action} (hretains : action.retainsLast)
    (hperform : perform a base? { run } [(index, some action)] = .ok (.done e)) : e.shift = 0 := by
  obtain ⟨-, hlost⟩ | ⟨e₁, hact, hrest⟩ := perform_cons hperform
  · cases hlost
  · obtain rfl := Result.done.inj (Except.ok.inj hrest)
    exact shift_act_of_retainsLast (e := Edit.place { run } index) hretains hact

theorem remaining_nextForward (hsorted : (plan.map (·.1)).Pairwise (· < ·))
    (hcursor : ∀ index ∈ plan.map (·.1), cursor ≤ index)
    (hperform : perform a base? { run } plan = .ok (.done e))
    (h : nextForward cursor plan e = some next) :
    0 < e.run.remaining .forward next ∧
      e.run.remaining .forward next < run.remaining .forward cursor := by
  have hsize : e.Sized run.size := Sized.perform (by simp [Sized]) hperform
  have hlast : cursor ≤ lastConsumed cursor plan := by
    cases plan using List.reverseRecOn with
    | nil => exact Nat.le_refl cursor
    | append_singleton body entry => simpa [lastConsumed] using hcursor entry.1 (by simp)
  have honly : retains plan → lastConsumed cursor plan = cursor → e.shift = 0 := by
    intro hretains heq
    cases plan using List.reverseRecOn with
    | nil => simp [retains] at hretains
    | append_singleton body entry =>
      obtain ⟨last, action?⟩ := entry
      obtain rfl : last = cursor := by simpa [lastConsumed] using heq
      obtain ⟨action, rfl, hretains⟩ : ∃ action, action? = some action ∧ action.retainsLast := by
        simpa [retains, Option.any_eq_true] using hretains
      -- a glyph consumed before it would stand in front of the cursor
      cases body with
      | nil => exact shift_perform_single hretains hperform
      | cons first body =>
        have hle := hcursor first.1 (by simp)
        have hlt : first.1 < last := by
          rw [List.map_append] at hsorted
          exact (List.pairwise_append.1 hsorted).2.2 _ (by simp) _ (by simp)
        omega
  obtain ⟨hend, hnext | ⟨hretains, hnext, hlt⟩⟩ := nextForward_cases h
  · rw [Sized] at hsize
    simp only [GlyphRun.remaining]
    omega
  · rw [Sized] at hsize
    have honly := honly hretains
    simp only [GlyphRun.remaining]
    omega

/-- **Every rule leaves fewer positions to come.** -/
theorem remaining_carryOut {d : Direction} (hsorted : (plan.map (·.1)).Pairwise (· < ·))
    (hcursor : ∀ index ∈ plan.map (·.1), cursor ≤ index)
    (h : carryOut a base? d cursor run plan = .ok (run', some next)) :
    0 < run'.remaining d next ∧ run'.remaining d next < run.remaining d cursor := by
  rw [carryOut] at h
  cases hperform : perform a base? { run } plan with
  | error fault =>
    rw [hperform] at h
    cases h
  | ok result =>
    rw [hperform] at h
    cases result with
    | lost run => cases h
    | done e =>
      cases d with
      | forward =>
        obtain ⟨rfl, hnext⟩ := Prod.mk.inj (Except.ok.inj h)
        exact remaining_nextForward hsorted hcursor hperform hnext
      | backward =>
        obtain ⟨rfl, hnext⟩ := Prod.mk.inj (Except.ok.inj h)
        split_ifs at hnext with hzero
        obtain rfl := Option.some.inj hnext
        simp only [GlyphRun.remaining]
        omega

end Edit

/-! ### Simulations -/

namespace Simulator

variable {sim : Simulator} {s s' : Simulation} {cursor next : Nat}

/-- How many positions a simulation may still process. -/
def remaining (sim : Simulator) (s : Simulation) : Nat :=
  match s.cursor with
  | none => 0
  | some cursor => s.run.remaining sim.machine.direction cursor

theorem advance_cases (h : sim.advance s cursor = .ok s') :
    match Scene.search ⟨⟨sim.categories, s.run, cursor⟩, sim.machine⟩
      sim.options.maxMatchDepth.toNat with
    | .matched path => ∃ run next,
        path.apply sim.arithmetic sim.machine cursor s.run = .ok (run, next) ∧
          s' = { s with run, cursor := next, applied := s.applied + 1 }
    | .exhausted => s' = { s with cursor := s.run.step sim.machine.direction 1 cursor }
    | .limitReached => s' = { s with
        cursor := s.run.step sim.machine.direction 1 cursor, limitHits := s.limitHits + 1 } := by
  rw [advance] at h
  dsimp only at h
  cases hsearch : Scene.search ⟨⟨sim.categories, s.run, cursor⟩, sim.machine⟩
      sim.options.maxMatchDepth.toNat with
  | matched path =>
    rw [hsearch] at h
    dsimp only at h
    cases happly : path.apply sim.arithmetic sim.machine cursor s.run with
    | error fault =>
      rw [happly] at h
      cases h
    | ok result =>
      rw [happly] at h
      exact ⟨result.1, result.2, happly, (Except.ok.inj h).symm⟩
  | exhausted =>
    rw [hsearch] at h
    exact (Except.ok.inj h).symm
  | limitReached =>
    rw [hsearch] at h
    exact (Except.ok.inj h).symm

theorem counts_advance (h : sim.advance s cursor = .ok s') :
    ((∃ path, Scene.search ⟨⟨sim.categories, s.run, cursor⟩, sim.machine⟩
        sim.options.maxMatchDepth.toNat = .matched path) ∧
      s'.applied = s.applied + 1 ∧ s'.limitHits = s.limitHits) ∨
    (s'.applied = s.applied ∧ s'.limitHits = s.limitHits) ∨
    (Scene.search ⟨⟨sim.categories, s.run, cursor⟩, sim.machine⟩
        sim.options.maxMatchDepth.toNat = .limitReached ∧
      s'.applied = s.applied ∧ s'.limitHits = s.limitHits + 1) := by
  have hcases := advance_cases h
  split at hcases
  · rename_i path hsearch
    obtain ⟨run, next, -, rfl⟩ := hcases
    exact .inl ⟨⟨path, hsearch⟩, rfl, rfl⟩
  · rw [hcases]
    exact .inr (.inl ⟨rfl, rfl⟩)
  · rename_i hsearch
    rw [hcases]
    exact .inr (.inr ⟨hsearch, rfl, rfl⟩)

theorem loop_cases {fuel : Nat} (h : sim.loop (fuel + 1) s = .ok s') :
    (s.cursor = none ∧ s' = s) ∨ ∃ cursor s₁, s.cursor = some cursor ∧
      sim.advance s cursor = .ok s₁ ∧ sim.loop fuel s₁ = .ok s' := by
  rw [loop] at h
  cases hcursor : s.cursor with
  | none =>
    rw [hcursor] at h
    exact .inl ⟨rfl, (Except.ok.inj h).symm⟩
  | some cursor =>
    rw [hcursor] at h
    cases hadvance : sim.advance s cursor with
    | error fault =>
      simp only [hadvance] at h
      cases h
    | ok s₁ =>
      simp only [hadvance] at h
      exact .inr ⟨cursor, s₁, rfl, hadvance, h⟩

/-- What each position keeps, a loop keeps. -/
theorem loop_induction {P : Simulation → Prop}
    (hstep : ∀ s cursor s', P s → s.cursor = some cursor → sim.advance s cursor = .ok s' → P s')
    {fuel : Nat} (h : sim.loop fuel s = .ok s') (hs : P s) : P s' := by
  induction fuel generalizing s with
  | zero =>
    obtain rfl : s = s' := Except.ok.inj h
    exact hs
  | succ fuel ih =>
    obtain ⟨-, rfl⟩ | ⟨cursor, s₁, hcursor, hadvance, hrest⟩ := loop_cases h
    · exact hs
    · exact ih hrest (hstep s cursor s₁ hs hcursor hadvance)

/-- **Every position that is processed leaves fewer to come.** -/
theorem remaining_advance (h : sim.advance s cursor = .ok s') (hnext : s'.cursor = some next) :
    0 < s'.run.remaining sim.machine.direction next ∧
      s'.run.remaining sim.machine.direction next <
        s.run.remaining sim.machine.direction cursor := by
  have hfinds := Scene.search_spec ⟨⟨sim.categories, s.run, cursor⟩, sim.machine⟩
    sim.options.maxMatchDepth.toNat
  have hcases := advance_cases h
  cases hsearch : Scene.search ⟨⟨sim.categories, s.run, cursor⟩, sim.machine⟩
      sim.options.maxMatchDepth.toNat with
  | matched path =>
    rw [hsearch] at hcases hfinds
    obtain ⟨run, next?, happly, rfl⟩ := hcases
    obtain rfl : next? = some next := hnext
    obtain ⟨ps, t, i, rfl, ⟨takes, -⟩, -⟩ := hfinds
    obtain ⟨rule, f, -, hf, hrecorded⟩ := takes.exists_evaluate
    have hclimbs := View.climbs_of_evaluate? hf
    rw [Match.apply, hrecorded.plan_eq] at happly
    exact Edit.remaining_carryOut hclimbs.increasing hclimbs.cursor_le happly
  | exhausted =>
    rw [hsearch] at hcases
    obtain rfl := hcases
    exact GlyphRun.remaining_step hnext
  | limitReached =>
    rw [hsearch] at hcases
    obtain rfl := hcases
    exact GlyphRun.remaining_step hnext

/-- Each search that has been reported has used up one of `n` positions, and no more are left. -/
structure Within (sim : Simulator) (n : Nat) (s : Simulation) : Prop where
  pos : ∀ cursor, s.cursor = some cursor → 0 < sim.remaining s
  count_le : s.applied + s.limitHits + sim.remaining s ≤ n

theorem within_start (sim : Simulator) (run : GlyphRun) :
    sim.Within run.size { run, cursor := run.start sim.machine.direction } := by
  cases hcursor : run.start sim.machine.direction with
  | none => exact ⟨by simp, Nat.zero_le _⟩
  | some cursor =>
    obtain ⟨hpos, hle⟩ := GlyphRun.remaining_start hcursor
    exact ⟨fun _ _ => hpos, by simpa [remaining] using hle⟩

lemma count_advance_le (h : sim.advance s cursor = .ok s') :
    s'.applied + s'.limitHits ≤ s.applied + s.limitHits + 1 := by
  obtain ⟨-, happlied, hhits⟩ | ⟨happlied, hhits⟩ | ⟨-, happlied, hhits⟩ := counts_advance h <;>
    omega

theorem Within.advance {n : Nat} (hs : sim.Within n s) (hcursor : s.cursor = some cursor)
    (h : sim.advance s cursor = .ok s') :
    sim.Within n s' ∧ sim.remaining s' < sim.remaining s := by
  have hleft : ∀ next, s'.cursor = some next → 0 < sim.remaining s' ∧
      sim.remaining s' < sim.remaining s := by
    intro next hnext
    simpa [remaining, hnext, hcursor] using remaining_advance h hnext
  have hless : sim.remaining s' < sim.remaining s := by
    cases hnext : s'.cursor with
    | none => simpa [remaining, hnext] using hs.pos cursor hcursor
    | some next => exact (hleft next hnext).2
  have hcount := count_advance_le h
  have hle := hs.count_le
  exact ⟨⟨fun next hnext => (hleft next hnext).1, by omega⟩, hless⟩

theorem Within.loop {n fuel : Nat} (hs : sim.Within n s) (h : sim.loop fuel s = .ok s') :
    sim.Within n s' ∧ (sim.remaining s ≤ fuel → s'.cursor = none) := by
  induction fuel generalizing s with
  | zero =>
    obtain rfl : s = s' := Except.ok.inj h
    refine ⟨hs, fun hfuel => ?_⟩
    cases hcursor : s.cursor with
    | none => rfl
    | some cursor =>
      have hpos := hs.pos cursor hcursor
      omega
  | succ fuel ih =>
    obtain ⟨hcursor, rfl⟩ | ⟨cursor, s₁, hcursor, hadvance, hrest⟩ := loop_cases h
    · exact ⟨hs, fun _ => hcursor⟩
    · obtain ⟨hs₁, hless⟩ := hs.advance hcursor hadvance
      obtain ⟨hs', hend⟩ := ih hs₁ hrest
      exact ⟨hs', fun hfuel => hend (by omega)⟩

/-- **A simulation comes to the end of its run.** -/
theorem cursor_simulate {run : GlyphRun} (h : sim.simulate run = .ok s) : s.cursor = none := by
  have hstart := within_start sim run
  have hle := hstart.count_le
  exact (hstart.loop h).2 (by simpa using hle)

end Simulator

end Shaping
