import Mathlib.Algebra.GroupWithZero.Nat
import Shaping.Proofs.Behaviour
import Shaping.Proofs.Layouts

/-!
Packed tables can be followed without checks. In the layout of a machine the stretches of the states
tile the table of transitions, and the pools are the matchers and the actions of the transitions,
each once, in the order of their first appearance. A word is never greater than the number that it
stores, so the words stay within the tables as well; and where there are not too many transitions,
each word is its number, so the tables have no gaps. Main statement: `Packed.consistent_pack`.
-/

namespace Shaping

open Numbered
open Packed (Pools)

/-- The matcher of a predicate. One that accepts has none. -/
def Predicate.matcher? {μ : Type} : Predicate μ → Option μ
  | .probe _ matcher _ | .consume matcher _ => some matcher
  | .accept => none

namespace Layout

variable {p : Layout} {q : Pools} {u : NumberedTransition} {a : Transition Step} {m : Machine Step}

/-! ### The table of states -/

/-- The states are stretches that tile a table of `size` entries: the first one starts at its
beginning, each further one where the one in front of it ends, and the last one ends at its end. -/
structure Tiles (states : Array Stretch) (size : Nat) : Prop where
  first : ∀ s, states[0]? = some s → s.first = 0
  next : ∀ (i : Nat) s t, states[i]? = some s → states[i + 1]? = some t →
    t.first = s.first + s.count
  last : ∀ s, states.back? = some s → s.first + s.count = size

section Stretches

variable {α : Type}

lemma length_stretches (first : Nat) (counts : List Nat) :
    (stretches first counts).length = counts.length := by
  induction counts generalizing first with
  | nil => rfl
  | cons count counts ih => rw [stretches, List.length_cons, List.length_cons, ih]

/-- The stretch of a row starts behind the entries of the rows in front of it. -/
lemma getElem?_stretches (first : Nat) (rows : List (List α)) (i : Nat) :
    (stretches first (rows.map List.length))[i]? =
      rows[i]?.map fun row => ⟨first + (rows.take i).flatten.length, row.length⟩ := by
  induction rows generalizing first i with
  | nil => rfl
  | cons row rows ih =>
    cases i with
    | zero => rfl
    | succ i =>
      rw [List.map_cons, stretches, List.getElem?_cons_succ, List.getElem?_cons_succ, ih,
        List.take_succ_cons, List.flatten_cons, List.length_append, Nat.add_assoc]

lemma length_flatten_take_succ {rows : List (List α)} {row : List α} {i : Nat}
    (h : rows[i]? = some row) :
    (rows.take (i + 1)).flatten.length = (rows.take i).flatten.length + row.length := by
  rw [List.take_add_one, h, Option.toList_some, List.flatten_append, List.length_append,
    List.flatten_singleton]

theorem tiles_stretches (rows : List (List α)) :
    Tiles (stretches 0 (rows.map List.length)).toArray rows.flatten.length := by
  have hplace : ∀ (i : Nat) s, (stretches 0 (rows.map List.length))[i]? = some s →
      ∃ row, rows[i]? = some row ∧ s.first = (rows.take i).flatten.length ∧
        s.count = row.length := by
    intro i s hs
    rw [getElem?_stretches, Option.map_eq_some_iff] at hs
    obtain ⟨row, hrow, rfl⟩ := hs
    exact ⟨row, hrow, Nat.zero_add _, rfl⟩
  refine ⟨fun s hs => ?_, fun i s t hs ht => ?_, fun s hs => ?_⟩
  · obtain ⟨row, -, hfirst, -⟩ := hplace 0 s (by simpa using hs)
    rw [hfirst]
    rfl
  · obtain ⟨row, hrow, hfirst, hcount⟩ := hplace i s (by simpa using hs)
    obtain ⟨-, -, hnext, -⟩ := hplace (i + 1) t (by simpa using ht)
    rw [hnext, hfirst, hcount, length_flatten_take_succ hrow]
  · rw [List.back?_toArray, List.getLast?_eq_getElem?, length_stretches, List.length_map] at hs
    obtain ⟨row, hrow, hfirst, hcount⟩ := hplace _ s hs
    have hlt := (List.getElem?_eq_some_iff.1 hrow).1
    rw [hfirst, hcount, ← length_flatten_take_succ hrow, List.take_of_length_le (by omega)]

end Stretches

/-! ### The pools -/

lemma items_mapM_label (l : Step) (q : Pools) :
    ((l.mapM numberMatcher numberAction).run q).2.matchers.items.toList =
        addAll q.matchers.items.toList l.predicate.matcher?.toList ∧
      ((l.mapM numberMatcher numberAction).run q).2.actions.items.toList =
        addAll q.actions.items.toList l.action.toList := by
  obtain ⟨predicate, action?⟩ := l
  constructor
  · cases predicate with
    | accept => cases action? <;> rfl
    | probe offset x flags | consume x flags =>
      cases action? <;> exact Pool.items_intern q.matchers x
  · cases action? with
    | none => cases predicate <;> rfl
    | some x => cases predicate <;> exact Pool.items_intern q.actions x

/-- The items that some transitions have under `part`, in order. -/
def parts {γ : Type} (part : Transition Step → Option γ) (as : List (Transition Step)) : List γ :=
  as.flatMap fun a => (part a).toList

theorem items_mapM (as : List (Transition Step)) (q : Pools) :
    ((as.mapM numberParts).run q).2.matchers.items.toList =
        addAll q.matchers.items.toList (parts (·.label.predicate.matcher?) as) ∧
      ((as.mapM numberParts).run q).2.actions.items.toList =
        addAll q.actions.items.toList (parts (·.label.action) as) := by
  induction as generalizing q with
  | nil => exact ⟨rfl, rfl⟩
  | cons a as ih =>
    obtain ⟨hmatchers, hactions⟩ := items_mapM_label a.label q
    obtain ⟨hmatchers', hactions'⟩ := ih ((a.label.mapM numberMatcher numberAction).run q).2
    rw [run_mapM_cons, parts, parts, List.flatMap_cons, List.flatMap_cons, addAll_append,
      addAll_append, ← hmatchers, ← hactions]
    exact ⟨hmatchers', hactions'⟩

lemma pools_of (m : Machine Step) :
    (of m).matchers.toList =
        addAll [] (parts (·.label.predicate.matcher?) m.states.flatten.toList) ∧
      (of m).actions.toList = addAll [] (parts (·.label.action) m.states.flatten.toList) := by
  rw [of, Array.mapM_eq_mapM_toList]
  exact items_mapM m.states.flatten.toList .empty

lemma Stands.matcher (h : Stands q u a) :
    Option.Rel (fun i x => q.matchers.items[i]? = some x) u.label.predicate.matcher?
      a.label.predicate.matcher? := by
  obtain ⟨⟨predicate, action?⟩, target⟩ := u
  obtain ⟨⟨hpredicate, -⟩, -⟩ := h
  cases predicate with
  | accept =>
    rw [← Option.some.inj hpredicate]
    exact .none
  | probe offset i flags | consume i flags =>
    cases hi : q.matchers.items[i]? with
    | none => simp [Predicate.mapM, hi] at hpredicate
    | some x =>
      simp only [Predicate.mapM, hi, Option.bind_eq_bind, Option.bind_some] at hpredicate
      rw [← Option.some.inj hpredicate]
      exact .some hi

lemma Stands.action (h : Stands q u a) :
    Option.Rel (fun i x => q.actions.items[i]? = some x) u.label.action a.label.action := by
  obtain ⟨⟨predicate, action?⟩, target⟩ := u
  obtain ⟨⟨-, haction⟩, -⟩ := h
  cases action? with
  | none =>
    rw [← Option.some.inj haction]
    exact .none
  | some i =>
    cases hi : q.actions.items[i]? with
    | none => simp [hi] at haction
    | some x =>
      simp only [Option.mapM_some, hi] at haction
      rw [← Option.some.inj haction]
      exact .some hi

/-- A pool that serves some transitions: each number that one of them names is that of an item, and
the pool has nothing twice and nothing that none of them names. -/
structure Serves {γ : Type} (pool : Array γ) (named : NumberedTransition → Option Nat)
    (us : Array NumberedTransition) : Prop where
  lt : ∀ u ∈ us, ∀ i, named u = some i → i < pool.size
  nodup : pool.toList.Nodup
  used : ∀ i < pool.size, ∃ u ∈ us, named u = some i

theorem serves_addAll {γ : Type} [BEq γ] [LawfulBEq γ] {pool : Array γ}
    {named : NumberedTransition → Option Nat} {part : Transition Step → Option γ}
    {us : Array NumberedTransition} {as : List (Transition Step)}
    (hpool : pool.toList = addAll [] (parts part as))
    (hrel : List.Forall₂ (fun u a => Option.Rel (fun i x => pool[i]? = some x) (named u) (part a))
      us.toList as) : Serves pool named us := by
  have hnodup : pool.toList.Nodup := hpool ▸ nodup_addAll List.nodup_nil _
  refine ⟨fun u hu i hi => ?_, hnodup, fun i hi => ?_⟩
  · obtain ⟨a, -, hua⟩ := exists_of_mem_forall₂ hrel.flip (Array.mem_toList_iff.2 hu)
    rw [hi] at hua
    generalize part a = y at hua
    cases hua with
    | some hplace => exact (Array.getElem?_eq_some_iff.1 hplace).1
  · have hmem : pool[i] ∈ parts part as := by
      have hx : pool[i] ∈ pool.toList := Array.mem_toList_iff.2 (Array.getElem_mem hi)
      rw [hpool, mem_addAll] at hx
      exact hx.resolve_left List.not_mem_nil
    obtain ⟨a, ha, hax⟩ := List.mem_flatMap.1 hmem
    obtain ⟨u, hu, hua⟩ := exists_of_mem_forall₂ hrel ha
    rw [Option.mem_toList.1 hax] at hua
    generalize hy : named u = y at hua
    cases hua with
    | @some j _ hplace =>
      -- The item has one place in the pool, so the number that `u` names is `i`.
      have hij : j = i := place_unique hnodup (Array.getElem?_toList ▸ hplace)
        (Array.getElem?_toList ▸ Array.getElem?_eq_getElem hi)
      exact ⟨u, Array.mem_toList_iff.1 hu, hij ▸ hy⟩

/-! ### Consistent layouts -/

/-- A layout that can be followed without checks: the states tile the table of transitions, each
target is a state, and the pools serve the transitions. -/
structure Consistent (p : Layout) : Prop where
  entry : 0 < p.states.size
  tiles : Tiles p.states p.transitions.size
  target : ∀ u ∈ p.transitions, u.target < p.states.size
  matchers : Serves p.matchers (fun u => u.label.predicate.matcher?) p.transitions
  actions : Serves p.actions (fun u => u.label.action) p.transitions

lemma states_of (m : Machine Step) :
    (of m).states =
      (stretches 0 ((m.states.toList.map Array.toList).map List.length)).toArray := by
  rw [List.map_map]
  rfl

lemma size_states_of (m : Machine Step) : (of m).states.size = m.states.size := by
  rw [states_of, List.size_toArray, length_stretches, List.length_map, List.length_map,
    Array.length_toList]

lemma size_transitions_of (m : Machine Step) :
    (of m).transitions.size = (m.states.toList.map Array.toList).flatten.length := by
  obtain ⟨p, -, -, hstands⟩ := stands_of m
  rw [← Array.length_toList, hstands.length_eq, Array.toList_flatten]

/-- **The layout of a machine whose targets are states is consistent.** -/
theorem consistent_of (hm : m.WellFormed) : (of m).Consistent := by
  obtain ⟨p, hmatchers, hactions, hstands⟩ := stands_of m
  obtain ⟨hmatcherItems, hactionItems⟩ := pools_of m
  constructor
  case entry =>
    rw [size_states_of]
    exact Nat.lt_of_le_of_lt (Nat.zero_le _) hm.1
  case tiles =>
    rw [states_of, size_transitions_of]
    exact tiles_stretches _
  case target =>
    intro u hu
    obtain ⟨a, ha, hua⟩ := exists_of_mem_forall₂ hstands.flip (Array.mem_toList_iff.2 hu)
    obtain ⟨row, hrow, ha⟩ := Array.mem_flatten.1 (Array.mem_toList_iff.1 ha)
    rw [hua.2, size_states_of]
    exact hm.2 row hrow a ha
  case matchers =>
    exact serves_addAll hmatcherItems (hstands.imp fun u a h => hmatchers ▸ h.matcher)
  case actions =>
    exact serves_addAll hactionItems (hstands.imp fun u a h => hactions ▸ h.action)

lemma Tiles.end_le {states : Array Stretch} {size : Nat} (h : Tiles states size)
    {s : Stretch} (hs : s ∈ states) : s.first + s.count ≤ size := by
  obtain ⟨i, hi⟩ := Array.mem_iff_getElem?.1 hs
  -- The induction is on the number of stretches behind this one.
  have hbehind : ∀ (k i : Nat) s, states.size = i + 1 + k → states[i]? = some s →
      s.first + s.count ≤ size := by
    intro k
    induction k with
    | zero =>
      intro i s hsize hs
      have hback : states.back? = some s := by
        rw [Array.back?_eq_getElem?, hsize]
        exact hs
      exact (h.last s hback).le
    | succ k ih =>
      intro i s hsize hs
      have ht := Array.getElem?_eq_getElem (by omega : i + 1 < states.size)
      have hend := ih (i + 1) _ (by omega) ht
      rw [h.next i s _ hs ht] at hend
      omega
  have hlt := (Array.getElem?_eq_some_iff.1 hi).1
  exact hbehind (states.size - (i + 1)) i s (by omega) hi

/-- A pool has no more items than there are transitions that name them. -/
lemma Serves.size_le {γ : Type} {pool : Array γ} {named : NumberedTransition → Option Nat}
    {us : Array NumberedTransition} (h : Serves pool named us) : pool.size ≤ us.size := by
  have hsub : List.range pool.size ⊆ us.toList.filterMap named := by
    intro i hi
    obtain ⟨u, hu, hui⟩ := h.used i (List.mem_range.1 hi)
    exact List.mem_filterMap.2 ⟨u, Array.mem_toList_iff.2 hu, hui⟩
  have hlength := (List.nodup_range.subperm hsub).length_le
  rw [List.length_range] at hlength
  exact hlength.trans (List.length_filterMap_le named us.toList)

/-! ### Words -/

/-- Each number of a layout fits its word, and no action has the number for what is absent. -/
structure Fits (p : Layout) : Prop where
  first : ∀ s ∈ p.states, s.first < 2 ^ 32
  count : ∀ s ∈ p.states, s.count < 2 ^ 32
  target : ∀ u ∈ p.transitions, u.target < 2 ^ 32
  matcher : ∀ u ∈ p.transitions, ∀ i, u.label.predicate.matcher? = some i → i < 2 ^ 32
  action : ∀ u ∈ p.transitions, ∀ i, u.label.action = some i → i < Packed.absent.toNat

theorem Consistent.fits (h : p.Consistent) (hstates : p.states.size ≤ 2 ^ 32)
    (hsize : p.transitions.size < 2 ^ 32) : p.Fits := by
  have hmatchers := h.matchers.size_le
  have hactions := h.actions.size_le
  constructor
  case first =>
    intro s hs
    have hend := h.tiles.end_le hs
    omega
  case count =>
    intro s hs
    have hend := h.tiles.end_le hs
    omega
  case target =>
    intro u hu
    exact (h.target u hu).trans_le hstates
  case matcher =>
    intro u hu i hi
    have hlt := h.matchers.lt u hu i hi
    omega
  case action =>
    intro u hu i hi
    have hlt := h.actions.lt u hu i hi
    have habsent : Packed.absent.toNat = 2 ^ 32 - 1 := rfl
    omega

end Layout

namespace Machine

/-- A machine has at most one state more than it has transitions, since each state that the entry
leads to, but for the entry, is a target. -/
theorem stateCount_le {ℓ : Type} {m : Machine ℓ} (hm : m.WellFormed) :
    m.stateCount ≤ m.transitionCount + 1 := by
  have hsub : m.reachable.toList ⊆ m.entry :: m.reachable.toList.flatMap m.successors := by
    intro s hs
    obtain rfl | ⟨r, hr, hrs⟩ := (Pool.reach_of_mem_discover hs).cases_tail
    · exact List.mem_cons_self
    · have hr := Array.mem_toList_iff.2 ((mem_reachable_iff hm).2 hr)
      exact List.mem_cons_of_mem _ (List.mem_flatMap.2 ⟨r, hr, hrs⟩)
  have hlength := (Pool.nodup_discover.subperm hsub).length_le
  rwa [List.length_cons, ← transitionCount_eq, Array.length_toList] at hlength

variable {m : Machine Step}

lemma size_states_layout (m : Machine Step) : m.layout.states.size = m.stateCount := by
  rw [layout, Layout.size_states_of, compact, Array.size_map, stateCount]

lemma size_transitions_layout (m : Machine Step) :
    m.layout.transitions.size = m.transitionCount := by
  rw [layout, Layout.size_transitions_of, transitionCount_eq]
  simp [compact, successors, Function.comp_def]

lemma consistent_layout (hm : m.WellFormed) : m.layout.Consistent :=
  Layout.consistent_of (renumbers_compact hm).wellFormed

/-- **A machine's layout fits its words if its transitions can be counted in one.** -/
theorem fits_layout (hm : m.WellFormed) (h : m.transitionCount < 2 ^ 32) : m.layout.Fits := by
  have hstates := stateCount_le hm
  refine (consistent_layout hm).fits ?_ ?_
  · rw [size_states_layout]
    omega
  · rwa [size_transitions_layout]

lemma transitionCount_greedyUnrolled_lt : greedyUnrolled.transitionCount < 2 ^ 32 := by
  rw [transitionCount, reachable_greedyUnrolled]
  decide

end Machine

/-! ### Machines that only accept -/

namespace Machine

/-- A machine that only accepts: `a` transitions lead from the entry to a second state, and `b` from
there to itself. -/
def acceptors (a b : Nat) : Machine Step where
  states := #[.replicate a ⟨.accept, 1⟩, .replicate b ⟨.accept, 1⟩]

variable {a b : Nat}

lemma wellFormed_acceptors (a b : Nat) : (acceptors a b).WellFormed := by
  refine ⟨Nat.zero_lt_two, fun row hrow t ht => ?_⟩
  rcases List.mem_pair.1 (Array.mem_toList_iff.2 hrow) with rfl | rfl <;>
  · rw [(Array.mem_replicate.1 ht).2]
    exact Nat.one_lt_two

lemma successors_acceptors (a b : Nat) : (acceptors a b).successors 0 = List.replicate a 1 ∧
    (acceptors a b).successors 1 = List.replicate b 1 := by
  constructor
  · show (Array.replicate a _).toList.map _ = _
    rw [Array.toList_replicate, List.map_replicate]
  · show (Array.replicate b _).toList.map _ = _
    rw [Array.toList_replicate, List.map_replicate]

lemma reachable_acceptors (ha : 0 < a) : (acceptors a b).reachable = Array.range 2 := by
  obtain ⟨hzero, hone⟩ := successors_acceptors a b
  have hsame (n : Nat) : addAll [0, 1] (List.replicate n 1) = [0, 1] := by
    induction n with
    | zero => rfl
    | succ n ih => exact ih
  have hfirst : addAll [0] (List.replicate a 1) = [0, 1] := by
    rw [← Nat.sub_one_add_one_eq_of_pos ha]
    exact hsame (a - 1)
  have hitems : (acceptors a b).reachable.toList = Pool.visit (acceptors a b).successors 2 0 [0] :=
    Pool.items_discover ..
  rw [← Array.toList_inj, hitems, Pool.visit_succ rfl, hzero, hfirst, Pool.visit_succ rfl, hone,
    hsame]
  rfl

lemma layout_acceptors (ha : 0 < a) : (acceptors a b).layout =
    { direction := .forward
      states := #[⟨0, a⟩, ⟨a, b⟩]
      transitions := .replicate (a + b) ⟨.accept, 1⟩
      matchers := #[]
      actions := #[] } := by
  have hcompact := compact_eq_self rfl (reachable_acceptors (b := b) ha) (wellFormed_acceptors a b)
  have hflat : (acceptors a b).states.flatten = .replicate (a + b) ⟨.accept, 1⟩ := by
    rw [acceptors, ← Array.replicate_append_replicate]
    simp
  have hsizes : (acceptors a b).states.toList.map (·.size) = [a, b] := by
    simp [acceptors]
  have hnumber : Layout.numberParts ⟨.accept, 1⟩ = pure ⟨.accept, 1⟩ := rfl
  rw [layout, hcompact, Layout.of, hflat, hsizes, Layout.mapM_replicate hnumber, StateT.run_pure,
    Layout.stretches, Layout.stretches, Layout.stretches, Nat.zero_add]
  rfl

end Machine

open Machine (acceptors)

namespace Packed

variable {p : Packed} {l : Layout} {m : Machine Step}

/-- The words of packed tables stay within them: the stretches within the table of transitions, the
targets within the states, and each matcher and action within its pool unless it is absent. Exactly
the transitions that accept have no matcher. The pools have nothing twice. -/
structure InRange (p : Packed) : Prop where
  entry : 0 < p.states.size
  stretch : ∀ s ∈ p.states, s.first.toNat + s.count.toNat ≤ p.transitions.size
  target : ∀ t ∈ p.transitions, t.target.toNat < p.states.size
  matcher : ∀ t ∈ p.transitions,
    (t.kind = probing ∨ t.kind = consuming) ∧ t.matcher.toNat < p.matchers.size ∨
      t.kind = accepting ∧ t.matcher = absent
  action : ∀ t ∈ p.transitions, t.action = absent ∨ t.action.toNat < p.actions.size
  matchers_nodup : p.matchers.toList.Nodup
  actions_nodup : p.actions.toList.Nodup

/-- Packed tables without gaps: the states tile the table of transitions, and the pools have nothing
that no transition names. -/
structure Gapless (p : Packed) : Prop where
  tiles : Layout.Tiles (p.states.map (·.stretch)) p.transitions.size
  matcher : ∀ i < p.matchers.size, ∃ t ∈ p.transitions,
    (t.kind = probing ∨ t.kind = consuming) ∧ t.matcher.toNat = i
  action : ∀ i < p.actions.size, ∃ t ∈ p.transitions, t.action ≠ absent ∧ t.action.toNat = i

lemma toNat_ofNat_le (n : Nat) : (UInt32.ofNat n).toNat ≤ n := by
  rw [UInt32.toNat_ofNat']
  exact Nat.mod_le n _

theorem inRange_packed (h : l.Consistent) : l.packed.InRange := by
  constructor
  case entry =>
    rw [Layout.packed, Array.size_map]
    exact h.entry
  case stretch =>
    intro s hs
    obtain ⟨r, hr, rfl⟩ := Array.mem_map.1 hs
    rw [Layout.packed, Array.size_map]
    exact (Nat.add_le_add (toNat_ofNat_le r.first) (toNat_ofNat_le r.count)).trans
      (h.tiles.end_le hr)
  case target =>
    intro t ht
    obtain ⟨u, hu, rfl⟩ := Array.mem_map.1 ht
    rw [Layout.packed, Array.size_map]
    exact (toNat_ofNat_le u.target).trans_lt (h.target u hu)
  case matcher =>
    intro t ht
    obtain ⟨u, hu, rfl⟩ := Array.mem_map.1 ht
    have hlt := h.matchers.lt u hu
    obtain ⟨⟨predicate, action⟩, target⟩ := u
    cases predicate with
    | probe offset i flags => exact .inl ⟨.inl rfl, (toNat_ofNat_le i).trans_lt (hlt i rfl)⟩
    | consume i flags => exact .inl ⟨.inr rfl, (toNat_ofNat_le i).trans_lt (hlt i rfl)⟩
    | accept => exact .inr ⟨rfl, rfl⟩
  case action =>
    intro t ht
    obtain ⟨u, hu, rfl⟩ := Array.mem_map.1 ht
    have hlt := h.actions.lt u hu
    obtain ⟨⟨predicate, action⟩, target⟩ := u
    cases action with
    | none => exact .inl rfl
    | some i => exact .inr ((toNat_ofNat_le i).trans_lt (hlt i rfl))
  case matchers_nodup => exact h.matchers.nodup
  case actions_nodup => exact h.actions.nodup

lemma toNat_ofNat {n : Nat} (h : n < 2 ^ 32) : (UInt32.ofNat n).toNat = n :=
  UInt32.toNat_ofNat_of_lt' h

lemma stretch_packedState (h : l.Fits) {s : Stretch} (hs : s ∈ l.states) :
    (Layout.packedState s).stretch = s := by
  show Stretch.mk (UInt32.ofNat s.first).toNat (UInt32.ofNat s.count).toNat = s
  rw [toNat_ofNat (h.first s hs), toNat_ofNat (h.count s hs)]

lemma stretches_packed (h : l.Fits) : l.packed.states.map (·.stretch) = l.states := by
  rw [Layout.packed, Array.map_map]
  exact (Array.map_congr_left fun s hs => stretch_packedState h hs).trans (Array.map_id _)

theorem gapless_packed (h : l.Consistent) (hfits : l.Fits) : l.packed.Gapless := by
  constructor
  case tiles =>
    rw [stretches_packed hfits, Layout.packed, Array.size_map]
    exact h.tiles
  case matcher =>
    intro i hi
    obtain ⟨u, hu, hui⟩ := h.matchers.used i hi
    have hlt := hfits.matcher u hu i hui
    refine ⟨_, Array.mem_map_of_mem hu, ?_⟩
    obtain ⟨⟨predicate, action⟩, target⟩ := u
    cases predicate with
    | probe offset j flags =>
      obtain rfl := Option.some.inj hui
      exact ⟨.inl rfl, toNat_ofNat hlt⟩
    | consume j flags =>
      obtain rfl := Option.some.inj hui
      exact ⟨.inr rfl, toNat_ofNat hlt⟩
    | accept => cases hui
  case action =>
    intro i hi
    obtain ⟨u, hu, hui⟩ := h.actions.used i hi
    have hlt := hfits.action u hu i hui
    have hword : (UInt32.ofNat i).toNat = i := toNat_ofNat (hlt.trans absent.toNat_lt)
    have haction : (Layout.packedTransition u).action = .ofNat i := by
      show Layout.actionWord u.label.action = _
      rw [hui]
      rfl
    refine ⟨_, Array.mem_map_of_mem hu, fun habsent => ?_, haction ▸ hword⟩
    rw [← habsent, haction, hword] at hlt
    exact Nat.lt_irrefl i hlt

lemma pack_acceptors {a : Nat} (ha : 0 < a) (b : Nat) : pack (acceptors a b) =
    { direction := .forward
      states := #[⟨0, .ofNat a⟩, ⟨.ofNat a, .ofNat b⟩]
      transitions := .replicate (a + b) ⟨accepting, 0, 0, absent, absent, 1⟩
      matchers := #[]
      actions := #[] } := by
  rw [Layout.pack_eq_packed, Machine.layout_acceptors ha, Layout.packed, Array.map_replicate,
    List.map_toArray]
  rfl

/-- If the stretches of the accepting machine tile its transitions, no count was cut off. -/
lemma mod_add_mod_of_tiles {a b : Nat} (ha : 0 < a)
    (h : Layout.Tiles ((pack (acceptors a b)).states.map (·.stretch))
      (pack (acceptors a b)).transitions.size) : a % 2 ^ 32 + b % 2 ^ 32 = a + b := by
  rw [pack_acceptors ha, Array.size_replicate, List.map_toArray] at h
  have hlast := h.last ⟨(UInt32.ofNat a).toNat, (UInt32.ofNat b).toNat⟩ rfl
  rwa [UInt32.toNat_ofNat', UInt32.toNat_ofNat'] at hlast

/-! ### Packing -/

/-- **Packed tables are consistent.** For every machine whose targets are states, every target in
the tables is a state, exactly the transitions that probe or consume name a matcher, each matcher
and each action that is named is in its pool, and the pools have nothing twice. If the transitions
can be counted in a word, the stretches of the states tile the table of transitions, and every item
of a pool is named by some transition. -/
theorem consistent_pack (hm : m.WellFormed) :
    (pack m).InRange ∧ (m.transitionCount < 2 ^ 32 → (pack m).Gapless) := by
  have hconsistent := Machine.consistent_layout hm
  rw [Layout.pack_eq_packed]
  exact ⟨inRange_packed hconsistent, fun hcount =>
    gapless_packed hconsistent (Machine.fits_layout hm hcount)⟩

theorem consistent_pack_greedyUnrolled : Machine.greedyUnrolled.WellFormed ∧
    Machine.greedyUnrolled.transitionCount < 2 ^ 32 ∧ (pack Machine.greedyUnrolled).InRange ∧
      (pack Machine.greedyUnrolled).Gapless := by
  have hm : Machine.greedyUnrolled.WellFormed := by decide
  have hcount := Machine.transitionCount_greedyUnrolled_lt
  have h := consistent_pack hm
  exact ⟨hm, hcount, h.1, h.2 hcount⟩

/-- A count of as many transitions as there are words is stored as 0, so the last stretch ends at
the beginning of the table. -/
theorem not_tiles_pack_acceptors : (acceptors (2 ^ 32) 0).WellFormed ∧
    ¬ Layout.Tiles ((pack (acceptors (2 ^ 32) 0)).states.map (·.stretch))
      (pack (acceptors (2 ^ 32) 0)).transitions.size := by
  refine ⟨Machine.wellFormed_acceptors _ _, fun h => ?_⟩
  have hcounts := mod_add_mod_of_tiles (by decide) h
  omega

end Packed

end Shaping
