import Mathlib.Algebra.BigOperators.Group.Finset.Piecewise
import Shaping.Proofs.Merging
import Shaping.Proofs.Quotient

/-!
How a trie grows. Whatever paths are added and whatever directions are asked for, the machine of a
trie is a tree: a state is numbered behind the one state that leads to it, and no state is without
one but the entry. A path only ever adds states, and transitions behind those that are there, and
the direction is settled by the first path that is not empty. Main statement: `Trie.grown_calls`.
-/

namespace Shaping

namespace Machine

variable {ℓ : Type} {m m' m'' : Machine ℓ} {s t : StateId} {p : StateId × Nat} {label : ℓ}

/-! ### Trees of numbered states -/

/-- The transition at a place of a state leads to `t`. -/
def Leads (m : Machine ℓ) (p : StateId × Nat) (t : StateId) : Prop :=
  ∃ a, (m.row p.1)[p.2]? = some a ∧ a.target = t

/-- Transitions lead to states that are numbered behind the one they leave, each state but the entry
is led to by one transition, and there are as many transitions as such states. -/
structure Grown (m : Machine ℓ) : Prop where
  entry_lt : m.entry < m.states.size
  behind : ∀ {p t}, m.Leads p t → p.1 < t ∧ t < m.states.size
  parent : ∀ {t}, t < m.states.size → t ≠ m.entry → ∃! p, m.Leads p t
  count : (∑ s ∈ Finset.range m.states.size, (m.row s).size) + 1 = m.states.size

namespace Grown

theorem wellFormed (h : m.Grown) : m.WellFormed := by
  refine ⟨h.entry_lt, fun row hrow a ha => ?_⟩
  obtain ⟨s, hs, rfl⟩ := Array.getElem_of_mem hrow
  obtain ⟨i, hi⟩ := Array.mem_iff_getElem?.1 ha
  have hleads : m.Leads (s, i) a.target := by
    refine ⟨a, ?_, rfl⟩
    rwa [row, Array.getD_eq_getD_getElem?, Array.getElem?_eq_getElem hs]
  exact (h.behind hleads).2

/-- **Every state can be reached**, since the states that lead to it have smaller numbers. -/
theorem mem_reachable_iff (h : m.Grown) : s ∈ m.reachable ↔ s < m.states.size := by
  refine ⟨lt_of_mem_reachable h.wellFormed, fun hs => ?_⟩
  rw [Machine.mem_reachable_iff h.wellFormed]
  induction s using Nat.strong_induction_on with
  | _ s ih =>
    by_cases hentry : s = m.entry
    · rw [hentry]
      exact .refl
    · obtain ⟨p, ⟨a, hi, rfl⟩, -⟩ := h.parent hs hentry
      have hlt := (h.behind ⟨a, hi, rfl⟩).1
      refine (ih p.1 hlt (hlt.trans hs)).tail ?_
      exact mem_successors.2 ⟨a, Array.mem_of_getElem? hi, rfl⟩

/-- The states in breadth-first order are those of the arena in some order. -/
lemma perm_reachable (h : m.Grown) : m.reachable.toList.Perm (List.range m.states.size) := by
  refine (List.perm_ext_iff_of_nodup Pool.nodup_discover List.nodup_range).2 fun s => ?_
  rw [List.mem_range, ← h.mem_reachable_iff, reachable, discovery, Array.mem_toList_iff]

theorem stateCount_eq (h : m.Grown) : m.stateCount = m.states.size := by
  rw [stateCount, ← Array.length_toList, h.perm_reachable.length_eq, List.length_range]

theorem transitionCount_add_one (h : m.Grown) : m.transitionCount + 1 = m.stateCount := by
  have hrange : ∑ s ∈ Finset.range m.states.size, (m.row s).size =
      ((List.range m.states.size).map fun s => (m.row s).size).sum := rfl
  rw [h.stateCount_eq, ← h.count, transitionCount_eq, List.length_flatMap,
    (h.perm_reachable.map _).sum_eq, hrange]
  simp only [length_successors]

/-! ### Growth -/

theorem leads_grow_iff (hs : s < m.states.size) : (m.grow s label).Leads p t ↔
    m.Leads p t ∨ p = (s, (m.row s).size) ∧ t = m.states.size := by
  obtain ⟨r, i⟩ := p
  unfold Leads
  rw [row_grow hs, Prod.mk.injEq]
  split_ifs with hr
  · subst hr
    dsimp only
    constructor
    · rintro ⟨a, hi, rfl⟩
      rw [Array.getElem?_push] at hi
      split_ifs at hi with hlast
      · obtain rfl := Option.some.inj hi
        exact .inr ⟨⟨rfl, hlast⟩, rfl⟩
      · exact .inl ⟨a, hi, rfl⟩
    · rintro (⟨a, hi, rfl⟩ | ⟨⟨-, rfl⟩, rfl⟩)
      · have hlt := (Array.getElem?_eq_some_iff.1 hi).1
        exact ⟨a, by rw [Array.getElem?_push, if_neg (Nat.ne_of_lt hlt), hi], rfl⟩
      · exact ⟨⟨label, m.states.size⟩, by rw [Array.getElem?_push, if_pos rfl], rfl⟩
  · refine ⟨.inl, ?_⟩
    rintro (h | ⟨⟨hp, -⟩, -⟩)
    · exact h
    · exact absurd hp hr

/-- **One state is added, and one transition to it.** -/
theorem grow (h : m.Grown) (hs : s < m.states.size) (label : ℓ) : (m.grow s label).Grown := by
  refine ⟨?_, fun {p t} hleads => ?_, fun {t} ht hne => ?_, ?_⟩
  · rw [entry_grow, size_grow]
    exact Nat.lt_succ_of_lt h.entry_lt
  · rw [size_grow]
    rcases (leads_grow_iff hs).1 hleads with hold | ⟨rfl, rfl⟩
    · exact ⟨(h.behind hold).1, Nat.lt_succ_of_lt (h.behind hold).2⟩
    · exact ⟨hs, Nat.lt_succ_self _⟩
  · rw [size_grow] at ht
    by_cases hnew : t = m.states.size
    · refine ⟨(s, (m.row s).size), (leads_grow_iff hs).2 (.inr ⟨rfl, hnew⟩), fun p hp => ?_⟩
      rcases (leads_grow_iff hs).1 hp with hold | ⟨rfl, -⟩
      · exact absurd hnew (Nat.ne_of_lt (h.behind hold).2)
      · rfl
    · obtain ⟨p, hp, hunique⟩ := h.parent (Nat.lt_of_le_of_ne (Nat.le_of_lt_succ ht) hnew) hne
      refine ⟨p, (leads_grow_iff hs).2 (.inl hp), fun q hq => ?_⟩
      rcases (leads_grow_iff hs).1 hq with hold | ⟨-, heq⟩
      · exact hunique q hold
      · exact absurd heq hnew
  · have hrow : ∀ t ∈ Finset.range m.states.size,
        ((m.grow s label).row t).size = (m.row t).size + if t = s then 1 else 0 := by
      intro t _
      rw [row_grow hs]
      split_ifs with hts
      · rw [Array.size_push, hts]
      · rfl
    have hnew : (m.grow s label).row m.states.size = #[] := by
      rw [row_grow hs, if_neg (Nat.ne_of_gt hs), row_eq_empty (Nat.le_refl _)]
    rw [size_grow, Finset.sum_range_succ, Finset.sum_congr rfl hrow, Finset.sum_add_distrib,
      Finset.sum_ite_eq' (Finset.range m.states.size) s, if_pos (Finset.mem_range.2 hs), hnew,
      h.count]
    rfl

end Grown

lemma grown_empty : Grown ({} : Machine ℓ) := by
  have hleads : ∀ {p t}, ¬ Leads ({} : Machine ℓ) p t := by
    rintro p t ⟨a, hi, -⟩
    have hrow : Machine.row ({} : Machine ℓ) p.1 = #[] := by
      unfold Machine.row
      cases p.1 <;> rfl
    rw [hrow] at hi
    simp at hi
  refine ⟨Nat.zero_lt_one, fun h => absurd h hleads, fun {t} ht hne => ?_, rfl⟩
  exact absurd (Nat.lt_one_iff.1 ht) hne

/-! ### What is there stays -/

/-- `m'` has the states of `m`, with new transitions only behind those of `m`. -/
structure Appends (m m' : Machine ℓ) : Prop where
  size_le : m.states.size ≤ m'.states.size
  rows : ∀ s, (m.row s).toList <+: (m'.row s).toList
  entry_eq : m'.entry = m.entry
  direction_eq : m'.direction = m.direction

namespace Appends

lemma refl (m : Machine ℓ) : m.Appends m := ⟨Nat.le_refl _, fun _ => List.prefix_rfl, rfl, rfl⟩

lemma trans (h : m.Appends m') (h' : m'.Appends m'') : m.Appends m'' :=
  ⟨h.size_le.trans h'.size_le, fun s => (h.rows s).trans (h'.rows s),
    h'.entry_eq.trans h.entry_eq, h'.direction_eq.trans h.direction_eq⟩

lemma grow (hs : s < m.states.size) (label : ℓ) : m.Appends (m.grow s label) := by
  refine ⟨by rw [size_grow]; exact Nat.le_succ _, fun t => ?_, rfl, rfl⟩
  rw [row_grow hs]
  split_ifs with hts
  · rw [hts, Array.toList_push]
    exact List.prefix_append _ _
  · exact List.prefix_rfl

end Appends

section Adding

variable [DecidableEq ℓ]

theorem Grown.follow (h : m.Grown) (hs : s < m.states.size) (label : ℓ) :
    (m.follow s label).2.Grown ∧ m.Appends (m.follow s label).2 ∧
      (m.follow s label).1 < (m.follow s label).2.states.size := by
  rcases m.follow_cases s label with ⟨a, hback, -, heq⟩ | ⟨-, heq⟩
  · rw [heq]
    rw [Array.back?_eq_getElem?] at hback
    exact ⟨h, .refl m, (h.behind (p := (s, _)) ⟨a, hback, rfl⟩).2⟩
  · rw [heq]
    exact ⟨h.grow hs label, .grow hs label, by rw [size_grow]; exact Nat.lt_succ_self _⟩

theorem Grown.addFrom (h : m.Grown) (hs : s < m.states.size) (path : List ℓ) :
    (m.addFrom s path).Grown ∧ m.Appends (m.addFrom s path) := by
  induction path generalizing m s with
  | nil => exact ⟨h, .refl m⟩
  | cons label path ih =>
    obtain ⟨hgrown, happends, hlt⟩ := h.follow hs label
    obtain ⟨hgrown', happends'⟩ := ih hgrown hlt
    exact ⟨hgrown', happends.trans happends'⟩

end Adding

end Machine

lemma Machine.Grown.withDirection {ℓ : Type} {m : Machine ℓ} (h : m.Grown) (d : Direction) :
    Machine.Grown { m with direction := d } := ⟨h.entry_lt, h.behind, h.parent, h.count⟩

namespace Trie

variable {ℓ : Type}

/-! ### Calls -/

/-- A call to a trie under construction. -/
inductive Call (ℓ : Type) where
  | addPath (path : List ℓ)
  | setDirection (d : Direction)

variable [DecidableEq ℓ] {t : Trie ℓ}

/-- Carries out a call. The result is the trie, and the conflict if the call fails. -/
def call (t : Trie ℓ) : Call ℓ → Trie ℓ × Option DirectionConflict
  | .addPath path => (t.addPath path, none)
  | .setDirection d =>
    match t.setDirection d with
    | .ok t' => (t', none)
    | .error e => (t, some e)

/-- Carries out calls one after the other, whether they fail or not. -/
def calls (t : Trie ℓ) (history : List (Call ℓ)) : Trie ℓ :=
  history.foldl (fun t c => (t.call c).1) t

theorem call_setDirection_cases (t : Trie ℓ) (d : Direction) :
    (0 < t.pathCount ∧ t.machine.direction ≠ d ∧
      t.call (.setDirection d) = (t, some ⟨t.machine.direction, d⟩)) ∨
    ((0 < t.pathCount → t.machine.direction = d) ∧
      t.call (.setDirection d) =
        ({ t with machine := { t.machine with direction := d } }, none)) := by
  by_cases h : 0 < t.pathCount ∧ t.machine.direction ≠ d
  · exact .inl ⟨h.1, h.2, by simp only [call, setDirection, if_pos h]⟩
  · refine .inr ⟨fun hpos => by_contra fun hne => h ⟨hpos, hne⟩, ?_⟩
    simp only [call, setDirection, if_neg h]

theorem grown_addPath (h : t.machine.Grown) (path : List ℓ) :
    (t.addPath path).machine.Grown ∧ t.machine.Appends (t.addPath path).machine := by
  unfold addPath
  split_ifs
  · exact ⟨h, .refl _⟩
  · exact h.addFrom h.entry_lt path

theorem grown_call (h : t.machine.Grown) (c : Call ℓ) : (t.call c).1.machine.Grown := by
  cases c with
  | addPath path => exact (grown_addPath h path).1
  | setDirection d =>
    rcases t.call_setDirection_cases d with ⟨-, -, heq⟩ | ⟨-, heq⟩
    · rw [heq]
      exact h
    · rw [heq]
      exact h.withDirection d

/-- **Calls keep the tree.** -/
theorem grown_foldl_call (h : t.machine.Grown) (history : List (Call ℓ)) :
    (t.calls history).machine.Grown := by
  induction history generalizing t with
  | nil => exact h
  | cons c history ih => exact ih (grown_call h c)

theorem direction_call (h : t.machine.Grown) (hpos : 0 < t.pathCount) (c : Call ℓ) :
    0 < (t.call c).1.pathCount ∧ (t.call c).1.machine.direction = t.machine.direction := by
  cases c with
  | addPath path =>
    refine ⟨?_, (grown_addPath h path).2.direction_eq⟩
    show 0 < (t.addPath path).pathCount
    unfold addPath
    split_ifs
    · exact hpos
    · exact Nat.succ_pos _
  | setDirection d =>
    rcases t.call_setDirection_cases d with ⟨-, -, heq⟩ | ⟨hsame, heq⟩
    · rw [heq]
      exact ⟨hpos, rfl⟩
    · rw [heq]
      exact ⟨hpos, (hsame hpos).symm⟩

theorem direction_calls (h : t.machine.Grown) (hpos : 0 < t.pathCount) (history : List (Call ℓ)) :
    (t.calls history).machine.direction = t.machine.direction := by
  induction history generalizing t with
  | nil => rfl
  | cons c history ih =>
    obtain ⟨hpos', heq⟩ := direction_call h hpos c
    exact (ih (grown_call h c) hpos').trans heq

/-- **A trie is a tree that only grows at its ends**, after any history of calls. Each state but the
entry is led to by exactly one transition, from a state with a smaller number; the entry leads to
all states, and there is one transition less than there are states. A path leaves the entry, the
direction and the transitions of each state as they are, and puts new ones only behind them. A call
that fails changes nothing, and no call changes the direction once a path has been added that is not
empty. -/
theorem grown_calls (history : List (Call ℓ)) :
    let t : Trie ℓ := calls {} history
    (∀ s < t.machine.states.size, s ≠ t.machine.entry → ∃! p : StateId × Nat,
      ∃ a, (t.machine.row p.1)[p.2]? = some a ∧ a.target = s) ∧
    (∀ (s : StateId) (i : Nat) (a : Transition ℓ), (t.machine.row s)[i]? = some a →
      s < a.target ∧ a.target < t.machine.states.size) ∧
    (∀ s, s ∈ t.machine.reachable ↔ s < t.machine.states.size) ∧
    t.machine.transitionCount + 1 = t.machine.stateCount ∧
    (∀ path, let t' := (t.call (.addPath path)).1
      (∀ s < t.machine.states.size, s < t'.machine.states.size ∧
        (t.machine.row s).toList <+: (t'.machine.row s).toList) ∧
      t'.machine.entry = t.machine.entry ∧ t'.machine.direction = t.machine.direction) ∧
    (∀ c, (t.call c).2 ≠ none → (t.call c).1 = t) ∧
    ∀ before path after, history = before ++ .addPath path :: after → path ≠ [] →
      t.machine.direction = (calls {} before).machine.direction := by
  intro t
  have hgrown : ∀ history, (calls ({} : Trie ℓ) history).machine.Grown :=
    fun history => grown_foldl_call (t := {}) Machine.grown_empty history
  have h : t.machine.Grown := hgrown history
  refine ⟨fun s hs hne => h.parent hs hne, fun s i a hi => h.behind (p := (s, i)) ⟨a, hi, rfl⟩,
    fun s => h.mem_reachable_iff, h.transitionCount_add_one, fun path => ?_, fun c hc => ?_, ?_⟩
  · have happends := (grown_addPath h path).2
    exact ⟨fun s hs => ⟨hs.trans_le happends.size_le, happends.rows s⟩, happends.entry_eq,
      happends.direction_eq⟩
  · cases c with
    | addPath path => exact absurd rfl hc
    | setDirection d =>
      rcases t.call_setDirection_cases d with ⟨-, -, heq⟩ | ⟨-, heq⟩
      · rw [heq]
      · exact absurd (congrArg Prod.snd heq) hc
  · intro before path after hhistory hne
    obtain ⟨hadded, happends⟩ := grown_addPath (hgrown before) path
    have hpos : 0 < ((calls {} before).addPath path).pathCount := by
      rw [addPath_of_ne_nil hne]
      exact Nat.succ_pos _
    have hsplit : t = calls ((calls {} before).addPath path) after := by
      show calls {} history = _
      rw [hhistory]
      unfold calls
      rw [List.foldl_append, List.foldl_cons]
      rfl
    rw [hsplit, direction_calls hadded hpos after, happends.direction_eq]

end Trie

end Shaping
