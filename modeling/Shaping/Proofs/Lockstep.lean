import Shaping.Proofs.Bisimulation
import Shaping.Simulation.Basic

/-!
Equivalent machines process every run alike. Two searches at one position, one in each machine,
stand in related states, have taken related transitions at the same places and have recorded the
same hits; a step keeps them so. Hence they end alike, and the rules they find have the same plan.
Main statement: `simulate_eq`.
-/

namespace Shaping

open Machine Numbered

variable {l r : Machine Step} {R : StateId → StateId → Prop}

/-! ### Searches in step -/

/-- The paths have taken related transitions at the same places, and recorded the same. -/
structure Match.Related (R : StateId → StateId → Prop) (p q : Match) : Prop where
  taken : List.Forall₂ (fun a b => R a.1 b.1 ∧ a.2 = b.2) p.taken.toList q.taken.toList
  consumed : p.consumed = q.consumed
  probed : p.probed = q.probed

/-- The searches have followed related paths to related states, and go on at the same place. -/
structure Trail.Related (R : StateId → StateId → Prop) (t u : Trail) : Prop where
  path : Match.Related R t.path u.path
  state : R t.state u.state
  next : t.next = u.next

/-- The searches have ended alike. -/
inductive Outcome.Related (R : StateId → StateId → Prop) : Outcome → Outcome → Prop
  | matched {p q : Match} (h : Match.Related R p q) : Related R (.matched p) (.matched q)
  | exhausted : Related R .exhausted .exhausted
  | limitReached : Related R .limitReached .limitReached

namespace Trail

theorem firstHit_related (hR : IsBisimulation l r R) {s t : StateId} (h : R s t)
    (test : Predicate Matcher → Option Hit) (fuel i : Nat) :
    Option.Rel (fun a b => a.1 = b.1 ∧ R a.2.1 b.2.1 ∧ a.2.2 = b.2.2)
      (firstHit test (l.row s) fuel i) (firstHit test (r.row t) fuel i) := by
  induction fuel generalizing i with
  | zero => exact .none
  | succ fuel ih =>
    have hrow := hR.row h i
    rw [firstHit, firstHit]
    generalize (l.row s)[i]? = a, (r.row t)[i]? = b at hrow ⊢
    cases hrow with
    | none => exact .none
    | @some a b hab =>
      obtain ⟨hlabel, htarget⟩ := hab
      simp only [hlabel]
      cases test b.label.predicate with
      | none => exact ih (i + 1)
      | some hit => exact .some ⟨rfl, htarget, rfl⟩

theorem descend_related {t u : Trail} (h : Related R t u) {i : Nat} {a b : StateId} (hab : R a b)
    (hit : Hit) : Related R (t.descend i a hit) (u.descend i b hit) := by
  have htaken : List.Forall₂ (fun a b => R a.1 b.1 ∧ a.2 = b.2)
      (t.path.taken.push (t.state, i)).toList (u.path.taken.push (u.state, i)).toList := by
    rw [Array.toList_push, Array.toList_push]
    exact forall₂_concat_iff.2 ⟨h.path.taken, h.state, rfl⟩
  obtain ⟨⟨-, hconsumed, hprobed⟩, -, -⟩ := h
  cases hit with
  | probed offset index =>
    exact ⟨⟨htaken, hconsumed, congrArg (·.push (offset, index)) hprobed⟩, hab, rfl⟩
  | consumed index => exact ⟨⟨htaken, congrArg (·.push index) hconsumed, hprobed⟩, hab, rfl⟩
  | accepted => exact ⟨⟨htaken, hconsumed, hprobed⟩, hab, rfl⟩

theorem ascend_related (hR : IsBisimulation l r R) {t u : Trail} (h : Related R t u) :
    Option.Rel (Related R) (t.ascend l) (u.ascend r) := by
  obtain ⟨⟨ts, consumed, probed⟩, s, n⟩ := t
  obtain ⟨⟨us, consumed', probed'⟩, s', n'⟩ := u
  obtain ⟨⟨htaken, rfl, rfl⟩, -, -⟩ := h
  have hsize : ts.size = us.size := by simpa using htaken.length_eq
  by_cases hts : ts.size = 0
  · obtain rfl := Array.eq_empty_of_size_eq_zero hts
    obtain rfl := Array.eq_empty_of_size_eq_zero (hsize ▸ hts)
    exact .none
  · obtain ⟨ts, ⟨a, i⟩, rfl⟩ := Array.eq_push_of_size_ne_zero hts
    obtain ⟨us, ⟨b, j⟩, rfl⟩ := Array.eq_push_of_size_ne_zero (hsize ▸ hts)
    rw [Array.toList_push, Array.toList_push] at htaken
    obtain ⟨hfront, hab, hij⟩ := forall₂_concat_iff.1 htaken
    obtain rfl : i = j := hij
    -- the transition that is taken back has one predicate in both machines
    have hpredicate : (l.row a)[i]?.map (·.label.predicate) =
        (r.row b)[i]?.map (·.label.predicate) := by
      simpa only [Option.map_map, Function.comp_def] using
        congrArg (Option.map (·.predicate)) (hR.label hab i)
    simp only [ascend, Array.back?_push, Array.pop_push, hpredicate]
    refine .some ⟨?_, hab, rfl⟩
    split <;> exact ⟨hfront, rfl, rfl⟩

/-- **One step keeps the searches in step.** -/
theorem step_related (hR : IsBisimulation l r R) (v : View) (depth : Nat) {t u : Trail}
    (h : Related R t u) :
    Sum.LiftRel (Related R) (Outcome.Related R) (t.step ⟨v, l⟩ depth) (u.step ⟨v, r⟩ depth) := by
  have hsize := hR.size_row h.state
  have hfirst := firstHit_related hR h.state (v.test u.path.consumed)
    ((r.row u.state).size - u.next) u.next
  have htaken : t.path.taken.size = u.path.taken.size := by simpa using h.path.taken.length_eq
  have hup := ascend_related hR h
  simp only [step, hsize, h.next, h.path.consumed, htaken]
  generalize firstHit (v.test u.path.consumed) (l.row t.state) _ u.next = a at hfirst ⊢
  generalize firstHit (v.test u.path.consumed) (r.row u.state) _ u.next = b at hfirst ⊢
  cases hfirst with
  | none =>
    generalize t.ascend l = a, u.ascend r = b at hup ⊢
    cases hup with
    | none => exact .inr .exhausted
    | some hup => exact .inl hup
  | @some a b hab =>
    obtain ⟨i, target, hit⟩ := a
    obtain ⟨j, target', hit'⟩ := b
    obtain ⟨rfl, htarget, rfl⟩ := hab
    cases hit with
    | accepted => exact .inr (.matched h.path)
    | probed offset index =>
      dsimp only
      split
      · exact .inr .limitReached
      · exact .inl (descend_related h htarget _)
    | consumed index =>
      dsimp only
      split
      · exact .inr .limitReached
      · exact .inl (descend_related h htarget _)

theorem search_related (hR : IsBisimulation l r R) (v : View) (depth fuel : Nat) {t u : Trail}
    (h : Related R t u) :
    Outcome.Related R (search ⟨v, l⟩ depth fuel t) (search ⟨v, r⟩ depth fuel u) := by
  induction fuel generalizing t u with
  | zero => exact .limitReached
  | succ fuel ih =>
    have hstep := step_related hR v depth h
    rw [search, search]
    generalize t.step ⟨v, l⟩ depth = a, u.step ⟨v, r⟩ depth = b at hstep ⊢
    cases hstep with
    | inl hstep => exact ih hstep
    | inr hend => exact hend

end Trail

theorem Scene.search_related (hR : IsBisimulation l r R) (hentry : R l.entry r.entry) (v : View)
    (depth : Nat) : Outcome.Related R (Scene.search ⟨v, l⟩ depth) (Scene.search ⟨v, r⟩ depth) :=
  Trail.search_related hR v _ _ ⟨⟨.nil, rfl, rfl⟩, hentry, rfl⟩

/-! ### Runs in step -/

theorem Edit.plan_eq (hR : IsBisimulation l r R) {p q : Match} (h : Match.Related R p q) :
    Edit.plan l p = Edit.plan r q := by
  obtain ⟨htaken, hconsumed, -⟩ := h
  rw [Edit.plan, Edit.plan, hconsumed]
  congr 1
  generalize p.taken.toList = ts, q.taken.toList = us at htaken ⊢
  induction htaken with
  | nil => rfl
  | @cons a b _ _ hab _ ih =>
    obtain ⟨s, i⟩ := a
    obtain ⟨t, j⟩ := b
    obtain ⟨hst, hij⟩ := hab
    obtain rfl : i = j := hij
    have hrow := hR.row hst i
    simp only [List.filterMap_cons, Edit.actionAt?]
    generalize (l.row s)[i]? = a, (r.row t)[i]? = b at hrow ⊢
    cases hrow with
    | none => exact ih
    | some hmatch => simp only [Option.bind_some, hmatch.1, ih]

theorem Match.apply_eq (hR : IsBisimulation l r R) (hdir : l.direction = r.direction)
    {p q : Match} (h : Match.Related R p q) (a : Arithmetic) (cursor : Nat) (run : GlyphRun) :
    p.apply a l cursor run = q.apply a r cursor run := by
  rw [Match.apply, Match.apply, Edit.plan_eq hR h, hdir, Match.base?, Match.base?, h.probed]

namespace Simulator

variable (h : Equivalent l r) (categories : Option ClassDef) (options : SimulatorOptions)
  (arithmetic : Arithmetic)

include h

theorem advance_eq (s : Simulation) (cursor : Nat) :
    advance ⟨l, categories, options, arithmetic⟩ s cursor =
      advance ⟨r, categories, options, arithmetic⟩ s cursor := by
  obtain ⟨hdir, R, hR, hentry⟩ := h
  have hsearch := Scene.search_related hR hentry ⟨categories, s.run, cursor⟩
    options.maxMatchDepth.toNat
  simp only [advance, hdir]
  generalize Scene.search ⟨_, l⟩ _ = a at hsearch ⊢
  generalize Scene.search ⟨_, r⟩ _ = b at hsearch ⊢
  cases hsearch with
  | matched hpath => simp only [Match.apply_eq hR hdir hpath]
  | exhausted => rfl
  | limitReached => rfl

theorem loop_eq (fuel : Nat) (s : Simulation) :
    loop ⟨l, categories, options, arithmetic⟩ fuel s =
      loop ⟨r, categories, options, arithmetic⟩ fuel s := by
  induction fuel generalizing s with
  | zero => rfl
  | succ fuel ih => simp only [loop, advance_eq h, ih]

/-- **Equivalent machines process every run alike**, faults included. -/
theorem simulate_eq (run : GlyphRun) :
    simulate ⟨l, categories, options, arithmetic⟩ run =
      simulate ⟨r, categories, options, arithmetic⟩ run := by
  simp only [simulate, h.1, loop_eq h]

end Simulator

end Shaping
