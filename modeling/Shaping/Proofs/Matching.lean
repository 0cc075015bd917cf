import Shaping.Proofs.Interpreter

/-!
What a search finds, said of the machine and the run alone. A rule holds at a position if its steps
do, one after the other: probes count from the position, the first glyph to be consumed is the one
at the position, and each further one is the next that is not skipped. A search that matches has
taken the first walk, in the lexicographic order of places, that ends in a step that accepts and
whose rule holds; a search that is exhausted has shown that there is none. Main statement:
`Scene.search_first`.
-/

namespace Shaping

/-! ### Rules that hold -/

/-- The steps of the rule hold at the position, one after the other, and consume the glyphs at these
indices. -/
inductive View.Holds (v : View) : Rule → List Nat → Prop
  | nil : Holds v [] []
  /-- Accepting tests nothing. -/
  | accept {rule : Rule} {step : Step} {consumed : List Nat} (front : Holds v rule consumed)
    (hstep : step.predicate = .accept) : Holds v (rule ++ [step]) consumed
  /-- A probe tests the glyph that its offset leads to from the position. -/
  | probe {rule : Rule} {step : Step} {consumed : List Nat} {offset : Int16} {matcher : Matcher}
    {flags : LookupFlags} {index : Nat} (front : Holds v rule consumed)
    (hstep : step.predicate = .probe offset matcher flags)
    (hindex : v.run.stepFiltered (skips v.categories flags)
      (if offset < 0 then .backward else .forward) offset.toInt.natAbs v.cursor = some index)
    (haccepts : v.accepts index matcher flags) : Holds v (rule ++ [step]) consumed
  /-- The first glyph to be consumed is the one at the position. -/
  | first {rule : Rule} {step : Step} {matcher : Matcher} {flags : LookupFlags}
    (front : Holds v rule []) (hstep : step.predicate = .consume matcher flags)
    (haccepts : v.accepts v.cursor matcher flags) : Holds v (rule ++ [step]) [v.cursor]
  /-- Each further one is the next behind the last that is not skipped. -/
  | next {rule : Rule} {step : Step} {consumed : List Nat} {last : Nat} {matcher : Matcher}
    {flags : LookupFlags} {index : Nat} (front : Holds v rule (consumed ++ [last]))
    (hstep : step.predicate = .consume matcher flags)
    (hindex : v.run.stepFiltered (skips v.categories flags) .forward 1 last = some index)
    (haccepts : v.accepts index matcher flags) :
    Holds v (rule ++ [step]) (consumed ++ [last, index])

variable {v : View} {sc : Scene} {rule : Rule} {consumed : List Nat} {f : Finding} {hit : Hit}
  {step : Step} {ps qs : Places} {t : Trail}

namespace View

lemma evaluate?_concat_of_test (hf : v.evaluate? rule = some f)
    (htest : v.test f.consumed step.predicate = some hit) :
    v.evaluate? (rule ++ [step]) = some (f.record step.action hit) := by
  rw [evaluate?_concat, hf, Option.bind_some, find?, htest, Option.map_some]

theorem Holds.exists_evaluate (h : v.Holds rule consumed) :
    ∃ f, v.evaluate? rule = some f ∧ f.plan.map (·.1) = consumed := by
  induction h with
  | nil => exact ⟨{}, rfl, rfl⟩
  | accept _ hstep ih =>
    obtain ⟨f, hf, rfl⟩ := ih
    exact ⟨f, by rw [evaluate?_concat_accept hstep, hf], rfl⟩
  | @probe rule step consumed offset matcher flags index _ hstep hindex haccepts ih =>
    obtain ⟨f, hf, rfl⟩ := ih
    have htest : v.test f.consumed step.predicate = some (.probed offset index) :=
      test_eq_probed_iff.2 ⟨matcher, flags, hstep, hindex, haccepts⟩
    exact ⟨_, evaluate?_concat_of_test hf htest, rfl⟩
  | @first rule step matcher flags _ hstep haccepts ih =>
    obtain ⟨f, hf, hplan⟩ := ih
    have hnext : v.nextIndex? f.consumed flags = some v.cursor := by
      rw [Finding.consumed, hplan]
      rfl
    have htest := test_eq_consumed_iff.2 ⟨matcher, flags, hstep, hnext, haccepts⟩
    exact ⟨_, evaluate?_concat_of_test hf htest, by simp [Finding.record, hplan]⟩
  | @next rule step consumed last matcher flags index _ hstep hindex haccepts ih =>
    obtain ⟨f, hf, hplan⟩ := ih
    have hnext : v.nextIndex? f.consumed flags = some index := by
      rw [Finding.consumed, hplan, nextIndex?, List.back?_toArray, List.getLast?_concat]
      exact hindex
    have htest := test_eq_consumed_iff.2 ⟨matcher, flags, hstep, hnext, haccepts⟩
    exact ⟨_, evaluate?_concat_of_test hf htest, by simp [Finding.record, hplan]⟩

theorem holds_of_evaluate (hf : v.evaluate? rule = some f) :
    v.Holds rule (f.plan.map (·.1)) := by
  induction rule using List.reverseRecOn generalizing f with
  | nil =>
    obtain rfl : {} = f := Option.some.inj hf
    exact .nil
  | append_singleton rule step ih =>
    rw [evaluate?_concat, Option.bind_eq_some_iff] at hf
    obtain ⟨g, hg, hf⟩ := hf
    rw [find?, Option.map_eq_some_iff] at hf
    obtain ⟨hit, htest, rfl⟩ := hf
    have front := ih hg
    cases hit with
    | accepted => exact .accept front (test_eq_accepted_iff.1 htest)
    | probed offset index =>
      obtain ⟨matcher, flags, hstep, hindex, haccepts⟩ := test_eq_probed_iff.1 htest
      exact .probe front hstep hindex haccepts
    | consumed index =>
      obtain ⟨matcher, flags, hstep, hnext, haccepts⟩ := test_eq_consumed_iff.1 htest
      rw [Finding.record, List.map_append, List.map_singleton]
      rw [Finding.consumed] at hnext
      generalize g.plan.map (·.1) = consumed at front hnext ⊢
      cases consumed using List.reverseRecOn with
      | nil =>
        obtain rfl : v.cursor = index := Option.some.inj hnext
        exact .first front hstep haccepts
      | append_singleton consumed last =>
        rw [nextIndex?, List.back?_toArray, List.getLast?_concat] at hnext
        rw [List.append_assoc]
        exact .next front hstep hnext haccepts

/-- **Evaluation decides whether a rule holds**, and finds what it consumes. -/
theorem holds_iff : v.Holds rule consumed ↔
    ∃ f, v.evaluate? rule = some f ∧ f.plan.map (·.1) = consumed := by
  refine ⟨Holds.exists_evaluate, ?_⟩
  rintro ⟨f, hf, rfl⟩
  exact holds_of_evaluate hf

end View

/-! ### Walks that hold -/

/-- The walk along these places ends in a step that accepts, and the rule that it spells holds. -/
def Scene.HoldsAlong (sc : Scene) (ps : Places) : Prop :=
  ∃ rule step consumed s, sc.machine.Walk ps (rule ++ [step]) s ∧ step.IsAccept ∧
    sc.Holds (rule ++ [step]) consumed

theorem Scene.Accepting.holdsAlong {i : Nat} (h : sc.Accepting ps t i) :
    sc.HoldsAlong (ps ++ [i]) := by
  obtain ⟨body, last, s, f, hlast, hwalk, hf, -⟩ := h.exists_evaluate
  exact ⟨body, last, _, s, hwalk, hlast, View.holds_iff.2 ⟨f, hf, rfl⟩⟩

/-- A walk whose rule holds accepts nowhere, or begins with one that accepts at its end only. -/
theorem Machine.Walk.accepting_or (hwalk : sc.machine.Walk ps rule s)
    (hf : sc.evaluate? rule = some f) :
    (∀ step ∈ rule, ¬ step.IsAccept) ∨ ∃ qs u i, sc.Accepting qs u i ∧ qs ++ [i] <+: ps := by
  induction hwalk generalizing f with
  | entry => exact .inl (by simp)
  | @step ps rule s i a walk hi ih =>
    have hconcat := hf
    rw [View.evaluate?_concat, Option.bind_eq_some_iff] at hf
    obtain ⟨g, hg, -⟩ := hf
    obtain hnone | ⟨qs, u, j, hacc, hbegins⟩ := ih hg
    · by_cases ha : a.label.IsAccept
      · obtain ⟨qs, u, j, hqs, hacc, -⟩ :=
          Machine.Walk.accepting ⟨rule, a.label, rfl, ha, hnone⟩ (walk.step hi) hconcat
        exact .inr ⟨qs, u, j, hacc, by rw [hqs]⟩
      · refine .inl fun step hstep => ?_
        obtain hstep | hstep := List.mem_append.1 hstep
        · exact hnone step hstep
        · rwa [List.mem_singleton.1 hstep]
    · exact .inr ⟨qs, u, j, hacc, hbegins.trans (List.prefix_append _ _)⟩

theorem Scene.HoldsAlong.exists_accepting (h : sc.HoldsAlong ps) :
    ∃ qs u i, sc.Accepting qs u i ∧ qs ++ [i] <+: ps := by
  obtain ⟨rule, step, consumed, s, hwalk, hstep, hholds⟩ := h
  obtain ⟨f, hf, -⟩ := View.holds_iff.1 hholds
  obtain hnone | hacc := hwalk.accepting_or hf
  · exact absurd hstep (hnone step (by simp))
  · exact hacc

/-! ### Recorded paths -/

/-- The transitions of the path are those of the walk along these places: each leaves the state that
the places in front of it lead to. -/
def Match.Along (m : Machine Step) (path : Match) (ps : Places) : Prop :=
  path.taken.toList.map (·.2) = ps ∧
    ∀ (k : Nat) s i, path.taken[k]? = some (s, i) → ∃ rule, m.Walk (ps.take k) rule s

theorem Scene.Takes.along (h : sc.Takes ps t) : t.path.Along sc.machine ps := by
  induction h with
  | entry => exact ⟨rfl, by simp⟩
  | @step ps t i a hit n takes hi htest hne ih =>
    obtain ⟨hplaces, hstates⟩ := ih
    have hlen := takes.size_taken
    refine ⟨by simp [hplaces], fun k s j hk => ?_⟩
    rw [Trail.taken_descend, Array.getElem?_push] at hk
    split_ifs at hk with hlast
    · obtain ⟨rfl, rfl⟩ := Prod.mk.inj (Option.some.inj hk)
      obtain ⟨rule, f, hwalk, -⟩ := takes.exists_evaluate
      exact ⟨rule, by rwa [hlast, hlen, List.take_left]⟩
    · obtain ⟨hlt, -⟩ := Array.getElem?_eq_some_iff.1 hk
      rw [List.take_append_of_le_length (by omega)]
      exact hstates k s j hk

theorem Scene.Takes.place_lt (h : sc.Takes ps t) :
    ∀ taken ∈ t.path.taken, taken.2 < (sc.machine.row taken.1).size := by
  induction h with
  | entry => simp
  | @step ps t i a hit n takes hi htest hne ih =>
    intro taken htaken
    rw [Trail.taken_descend, Array.mem_push] at htaken
    obtain htaken | rfl := htaken
    · exact ih taken htaken
    · exact (Array.getElem?_eq_some_iff.1 hi).1

/-! ### The search -/

/-- **The search finds the first walk that holds.** If it matches, then the path it has recorded is
that of a walk from the entry, which holds together with a transition that accepts, and every other
walk that holds comes later in the lexicographic order of places. If it is exhausted, then no walk
holds. -/
theorem Scene.search_first (sc : Scene) (depth : Nat) :
    match sc.search depth with
    | .matched path => ∃ ps i, path.Along sc.machine ps ∧ sc.HoldsAlong (ps ++ [i]) ∧
        ∀ qs, sc.HoldsAlong qs → qs = ps ++ [i] ∨ ps ++ [i] < qs
    | .exhausted => ∀ qs, ¬ sc.HoldsAlong qs
    | .limitReached => True := by
  have hspec := sc.search_spec depth
  cases hsearch : sc.search depth with
  | limitReached => trivial
  | exhausted =>
    rw [hsearch] at hspec
    intro qs hqs
    obtain ⟨rs, u, j, hacc, -⟩ := hqs.exists_accepting
    exact hspec rs u j hacc
  | matched path =>
    rw [hsearch] at hspec
    obtain ⟨ps, t, i, rfl, hacc, hfirst⟩ := hspec
    refine ⟨ps, i, hacc.1.along, hacc.holdsAlong, fun qs hqs => ?_⟩
    obtain ⟨rs, u, j, hacc', rest, rfl⟩ := hqs.exists_accepting
    obtain heq | hbefore := hfirst rs u j hacc'
    · rw [heq]
      cases rest with
      | nil => exact .inl (List.append_nil _)
      | cons k rest => exact .inr (Places.lt_append_cons _ k rest)
    · exact .inr (hbefore.append rest).lt

end Shaping
