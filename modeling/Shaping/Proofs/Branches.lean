import Mathlib.Data.Fintype.Card
import Mathlib.Data.List.Destutter
import Shaping.Proofs.Rules

/-!
The branches of a machine: what the walks spell that lead from the entry to a state without
transitions, depth first. The branches of a trie are the paths that were added to it, in the order
in which they were added; a path that is added twice in a row has one branch, since the second time
it follows the walk of the first. Main statement: `Trie.branches_addPaths`.
-/

namespace Shaping

namespace Machine

variable {ℓ : Type} {m : Machine ℓ} {ps qs : Places} {ls ks : List ℓ} {s t : StateId}
  {spots : List Places} {paths : List (List ℓ)} {P : ℓ → Prop}

/-! ### Branches -/

/-- The walks from state `s` to the states without transitions, depth first, each as its places and
its labels. Walks of `fuel` transitions or more are left out. -/
def branchesFrom (m : Machine ℓ) : (fuel : Nat) → (s : StateId) → List (Places × List ℓ)
  | 0, _ => []
  | fuel + 1, s =>
    if (m.row s).isEmpty then [([], [])]
    else (m.row s).toList.zipIdx.flatMap fun (a, i) =>
      (branchesFrom m fuel a.target).map fun (ps, ls) => (i :: ps, a.label :: ls)

/-- The label sequences of the walks from the entry to the states without transitions, depth first.
No walk through a tree has as many transitions as the tree has states. -/
def branches (m : Machine ℓ) : List (List ℓ) := (m.branchesFrom m.states.size m.entry).map (·.2)

theorem mem_branchesFrom_iff {fuel : Nat} (h : m.Walk ps ls s) :
    (qs, ks) ∈ m.branchesFrom fuel s ↔
      qs.length < fuel ∧ ∃ t, m.Walk (ps ++ qs) (ls ++ ks) t ∧ m.row t = #[] := by
  induction fuel generalizing ps ls s qs ks with
  | zero => simp [branchesFrom]
  | succ fuel ih =>
    rw [branchesFrom]
    split_ifs with hrow
    · have hrow := Array.isEmpty_iff.1 hrow
      rw [List.mem_singleton, Prod.mk.injEq]
      constructor
      · rintro ⟨rfl, rfl⟩
        exact ⟨Nat.succ_pos fuel, s, by simpa using h, hrow⟩
      · rintro ⟨-, t, h', -⟩
        cases qs with
        | nil =>
          rw [List.append_nil] at h'
          obtain ⟨heq, -⟩ := h.det h'
          exact ⟨rfl, by simpa using heq⟩
        | cons i qs =>
          have hi := h.place_lt h'
          simp [hrow] at hi
    · simp only [List.mem_flatMap, List.mem_map, Prod.exists, Prod.mk.injEq]
      constructor
      · rintro ⟨a, i, hi, rs, js, hrest, rfl, rfl⟩
        have hi : (m.row s)[i]? = some a := by simpa using List.mk_mem_zipIdx_iff_getElem?.1 hi
        obtain ⟨hlen, t, h', ht⟩ := (ih (.step h hi)).1 hrest
        exact ⟨by simpa using hlen, t, h.append_cons_iff.2 ⟨a, js, hi, rfl, h'⟩, ht⟩
      · rintro ⟨hlen, t, h', ht⟩
        cases qs with
        | nil =>
          rw [List.append_nil] at h'
          obtain ⟨-, rfl⟩ := h.det h'
          exact absurd ht (mt Array.isEmpty_iff.2 hrow)
        | cons i rs =>
          obtain ⟨a, js, hi, rfl, hon⟩ := h.append_cons_iff.1 h'
          have hmem : (a, i) ∈ (m.row s).toList.zipIdx :=
            List.mk_mem_zipIdx_iff_getElem?.2 (by simpa using hi)
          have hrest := (ih (.step h hi)).2 ⟨by simpa using hlen, t, hon, ht⟩
          exact ⟨a, i, hmem, rs, js, hrest, rfl, rfl⟩

theorem pairwise_branchesFrom (m : Machine ℓ) (fuel : Nat) (s : StateId) :
    (m.branchesFrom fuel s).Pairwise fun a b => Places.Before a.1 b.1 := by
  induction fuel generalizing s with
  | zero => exact .nil
  | succ fuel ih =>
    rw [branchesFrom]
    split_ifs with hrow
    · exact List.pairwise_singleton _ _
    · have hplaces : (m.row s).toList.zipIdx.Pairwise fun a b => a.2 < b.2 := by
        rw [← List.pairwise_map (R := (· < ·)), List.zipIdx_map_snd]
        exact List.pairwise_lt_range'
      refine List.pairwise_flatMap.2 ⟨fun a _ => ?_, hplaces.imp fun {a b} hab x hx y hy => ?_⟩
      · exact List.pairwise_map.2
          ((ih a.1.target).imp fun h => Places.cons_before_cons.2 (.inr ⟨rfl, h⟩))
      · obtain ⟨x, -, rfl⟩ := List.mem_map.1 hx
        obtain ⟨y, -, rfl⟩ := List.mem_map.1 hy
        exact Places.cons_before_cons.2 (.inl hab)

/-! ### Walks through trees -/

theorem Tree.length_lt (hm : m.Tree) (h : m.Walk ps ls s) : ps.length < m.states.size := by
  have hstate : ∀ k : Fin (ps.length + 1), ∃ t : Fin m.states.size, ∃ ks,
      m.Walk (ps.take k) ks t := by
    intro k
    rw [← List.take_append_drop k ps] at h
    obtain ⟨ks, t, walk, -⟩ := h.of_append
    exact ⟨⟨t, walk.lt hm.wellFormed⟩, ks, walk⟩
  choose f hf using hstate
  have hinj : Function.Injective f := by
    intro j k hjk
    obtain ⟨js, hj⟩ := hf j
    obtain ⟨ks, hk⟩ := hf k
    rw [hjk] at hj
    have hlen := congrArg List.length (hm.unique hj hk)
    rw [List.length_take, List.length_take] at hlen
    omega
  have hcard := Fintype.card_le_of_injective f hinj
  rwa [Fintype.card_fin, Fintype.card_fin] at hcard

namespace Spells

theorem row_eq_empty (h : m.Spells paths spots) (hpaths : ∀ path ∈ paths, EndsIn P path)
    (hls : ls ∈ paths) (hwalk : m.Walk ps ls s) : m.row s = #[] := by
  by_contra hrow
  have hsize : 0 < (m.row s).size := Array.size_pos_iff.2 hrow
  have hnext := Walk.step hwalk (Array.getElem?_eq_getElem hsize)
  obtain hnil | ⟨p, hp, hpre⟩ := h.covered hnext
  · simp at hnil
  · obtain ⟨path, hpath, t, hwalk'⟩ := h.mem_spelled hp
    have hbegins := hnext.labels_of_begins hwalk' hpre
    have heq := (hpaths ls hls).eq_of_begins' (hpaths path hpath)
      ((List.prefix_append _ _).trans hbegins)
    have hlen := hbegins.length_le
    rw [heq, List.length_append, List.length_singleton] at hlen
    omega

/-- **The branches of a machine** whose walks spell paths, each once, are these walks. -/
theorem branchesFrom_eq (h : m.Spells paths spots) (hpaths : ∀ path ∈ paths, EndsIn P path)
    (hordered : spots.Pairwise Places.Before) (hne : paths ≠ []) :
    m.branchesFrom m.states.size m.entry = spots.zip paths := by
  have hzip : (spots.zip paths).map (·.1) = spots :=
    List.map_fst_zip h.spelled.length_eq.le
  have hpairwise : (spots.zip paths).Pairwise fun a b => Places.Before a.1 b.1 := by
    rwa [← List.pairwise_map, hzip]
  have hmem : ∀ b, b ∈ m.branchesFrom m.states.size m.entry ↔ b ∈ spots.zip paths := by
    rintro ⟨ps, ls⟩
    rw [mem_branchesFrom_iff .entry, List.nil_append, List.nil_append]
    constructor
    · rintro ⟨-, t, hwalk, ht⟩
      obtain ⟨q, hq, rest, hrest⟩ : ∃ q ∈ spots, ps <+: q := by
        obtain rfl | hspot := h.covered hwalk
        · obtain ⟨path, hpath⟩ := List.exists_mem_of_ne_nil paths hne
          obtain ⟨q, hq, -⟩ := h.mem_paths hpath
          exact ⟨q, hq, List.nil_prefix⟩
        · exact hspot
      obtain ⟨⟨q, path⟩, hmem, rfl⟩ := List.mem_map.1 (hzip ▸ hq)
      obtain ⟨u, hwalk'⟩ := List.forall₂_zip h.spelled hmem
      cases rest with
      | nil =>
        obtain rfl : ps = q := by simpa using hrest
        obtain ⟨rfl, -⟩ := hwalk.det hwalk'
        exact hmem
      | cons i rest =>
        dsimp only at hrest
        rw [← hrest] at hwalk'
        have hi := hwalk.place_lt hwalk'
        simp [ht] at hi
    · intro hmem
      obtain ⟨t, hwalk⟩ := List.forall₂_zip h.spelled hmem
      exact ⟨h.tree.length_lt hwalk, t, hwalk, h.row_eq_empty hpaths (List.of_mem_zip hmem).2 hwalk⟩
  have hnodup : ∀ {l : List (Places × List ℓ)}, (l.Pairwise fun a b => Places.Before a.1 b.1) →
      l.Nodup := by
    intro l hl
    refine hl.imp fun {a b} hab heq => ?_
    rw [heq] at hab
    exact Places.before_irrefl hab
  have hsorted := pairwise_branchesFrom m m.states.size m.entry
  have hperm := (List.perm_ext_iff_of_nodup (hnodup hsorted) (hnodup hpairwise)).2 hmem
  exact hperm.eq_of_pairwise (fun a b _ _ hab hba => absurd hba hab.asymm) hsorted hpairwise

theorem not_before_last {q : Places} (h : m.Spells paths (spots ++ [q])) (hwalk : m.Walk qs ks t) :
    ¬ Places.Before q qs := by
  intro hbefore
  obtain ⟨-, -, hlast⟩ := List.pairwise_append.1 h.ordered
  obtain rfl | ⟨p, hp, rest, rfl⟩ := h.covered hwalk
  · exact Places.not_before_nil hbefore
  · have hbefore := hbefore.append rest
    obtain hp | hp := List.mem_append.1 hp
    · obtain heq | hp := hlast _ hp q (List.mem_singleton_self q)
      · rw [heq] at hbefore
        exact Places.before_irrefl hbefore
      · exact hp.asymm hbefore
    · rw [List.mem_singleton.1 hp] at hbefore
      exact Places.before_irrefl hbefore

end Spells

/-! ### The rightmost walk -/

/-- From state `s` on, the last transitions bear the labels `ls` and lead to state `t`. -/
inductive Rightmost (m : Machine ℓ) : StateId → List ℓ → StateId → Prop
  | nil {s : StateId} : Rightmost m s [] s
  | cons {s t : StateId} {a : Transition ℓ} {ls : List ℓ} (hback : (m.row s).back? = some a)
    (h : Rightmost m a.target ls t) : Rightmost m s (a.label :: ls) t

/-- A walk that no walk comes behind goes along last transitions. -/
theorem Walk.rightmost (h : m.Walk ps ls s) (h' : m.Walk (ps ++ qs) (ls ++ ks) t)
    (hlast : ∀ {rs js u}, m.Walk rs js u → ¬ Places.Before (ps ++ qs) rs) :
    m.Rightmost s ks t := by
  induction qs generalizing ps ls s ks with
  | nil =>
    rw [List.append_nil] at h'
    obtain ⟨heq, rfl⟩ := h.det h'
    obtain rfl : ks = [] := by simpa using heq
    exact .nil
  | cons i qs ih =>
    obtain ⟨a, js, hi, rfl, hon⟩ := h.append_cons_iff.1 h'
    have hsize := (Array.getElem?_eq_some_iff.1 hi).1
    -- a transition behind this one would lead behind the walk
    have hend : i = (m.row s).size - 1 := by
      by_contra hne
      have hnext : i + 1 < (m.row s).size := by omega
      refine hlast (.step h (Array.getElem?_eq_getElem hnext)) ?_
      simp
    refine .cons (by rw [Array.back?_eq_getElem?, ← hend, hi]) (ih (.step h hi) hon fun walk => ?_)
    rw [← List.append_cons]
    exact hlast walk

theorem Spells.exists_rightmost {path : List ℓ} (h : m.Spells (paths ++ [path]) spots) :
    ∃ q t, m.Walk q path t ∧ m.Rightmost m.entry path t := by
  cases spots using List.reverseRecOn with
  | nil =>
    have hlen := h.spelled.length_eq
    simp at hlen
  | append_singleton spots q =>
    obtain ⟨-, t, hwalk⟩ := Numbered.forall₂_concat_iff.1 h.spelled
    have hwalk' : m.Walk ([] ++ q) ([] ++ path) t := hwalk
    exact ⟨q, t, hwalk, Walk.entry.rightmost hwalk' h.not_before_last⟩

/-! ### Repetitions -/

section Adding

variable [DecidableEq ℓ]

theorem Rightmost.addFrom_eq_self (h : m.Rightmost s ls t) : m.addFrom s ls = m := by
  induction h with
  | nil => rfl
  | @cons s t a ls hback _ ih =>
    have hfollow : m.follow s a.label = (a.target, m) := by
      rw [follow, hback]
      exact if_pos rfl
    rw [addFrom, hfollow]
    exact ih

/-- **A path that is added twice in a row** changes nothing the second time. -/
theorem Spells.addFrom_last {path : List ℓ} (h : m.Spells (paths ++ [path]) spots) :
    m.addFrom m.entry path = m := by
  obtain ⟨-, t, -, hright⟩ := h.exists_rightmost
  exact hright.addFrom_eq_self

theorem Spells.concat_of_ne {path : List ℓ} (h : m.Spells paths spots)
    (hordered : spots.Pairwise Places.Before) (hpaths : ∀ ls ∈ paths, EndsIn P ls)
    (hpath : EndsIn P path) (hne : paths.getLast? ≠ some path) :
    ∃ q, (m.addFrom m.entry path).Spells (paths ++ [path]) (spots ++ [q]) ∧
      (spots ++ [q]).Pairwise Places.Before := by
  obtain ⟨q, hq⟩ := h.concat hpaths hpath
  refine ⟨q, hq, List.pairwise_append.2 ⟨hordered, List.pairwise_singleton _ _, ?_⟩⟩
  intro p hp q' hq'
  obtain rfl := List.mem_singleton.1 hq'
  have hlast := fun r hr =>
    (List.pairwise_append.1 hq.ordered).2.2 r hr q' (List.mem_singleton_self q')
  obtain rfl | hbefore := hlast p hp
  · -- of the earlier walks only the last could be the same, and it spells another path
    exfalso
    obtain ⟨hspelled, t, hwalk⟩ := Numbered.forall₂_concat_iff.1 hq.spelled
    cases spots using List.reverseRecOn with
    | nil => exact List.not_mem_nil hp
    | append_singleton spots r =>
      cases paths using List.reverseRecOn with
      | nil => simpa using hspelled.length_eq
      | append_singleton paths path' =>
        obtain ⟨-, u, hwalk'⟩ := Numbered.forall₂_concat_iff.1 hspelled
        obtain hp | hp := List.mem_append.1 hp
        · have hbefore := (List.pairwise_append.1 hordered).2.2 p hp r (List.mem_singleton_self r)
          obtain rfl | hafter := hlast r (by simp)
          · exact Places.before_irrefl hbefore
          · exact hbefore.asymm hafter
        · obtain rfl := List.mem_singleton.1 hp
          obtain ⟨rfl, -⟩ := hwalk.det hwalk'
          exact hne List.getLast?_concat
  · exact hbefore

end Adding

end Machine

/-! ### Tries -/

/-- Behind a list without repetitions in a row, an item counts unless it is the last one again. -/
lemma destutter_concat {α : Type} [DecidableEq α] (l : List α) (a : α) :
    (l ++ [a]).destutter (· ≠ ·) = if (l.destutter (· ≠ ·)).getLast? = some a
      then l.destutter (· ≠ ·) else l.destutter (· ≠ ·) ++ [a] := by
  cases l with
  | nil => simp
  | cons b l =>
    rw [List.cons_append, List.destutter_cons', List.destutter_cons']
    induction l generalizing b with
    | nil => by_cases h : b = a <;> simp [h]
    | cons c l ih =>
      rw [List.cons_append]
      by_cases hbc : b ≠ c
      · have hlast : (b :: l.destutter' (· ≠ ·) c).getLast? = (l.destutter' (· ≠ ·) c).getLast? :=
          List.getLast?_cons_of_ne_nil (List.destutter'_ne_nil _ _)
        rw [List.destutter'_cons_pos _ hbc, List.destutter'_cons_pos _ hbc, ih, hlast]
        split_ifs <;> rfl
      · rw [List.destutter'_cons_neg _ hbc, List.destutter'_cons_neg _ hbc, ih]

namespace Trie

variable {ℓ : Type} [DecidableEq ℓ] {P : ℓ → Prop} {paths : List (List ℓ)}

/-- The machine of a trie spells the paths that were added to it, those that were added several
times in a row once, along walks that come one behind the other. -/
theorem exists_spells_destutter (hpaths : ∀ path ∈ paths, EndsIn P path) :
    ∃ spots, (addPaths {} paths).machine.Spells (paths.destutter (· ≠ ·)) spots ∧
      spots.Pairwise Places.Before := by
  induction paths using List.reverseRecOn with
  | nil => exact ⟨[], Machine.spells_empty, .nil⟩
  | append_singleton paths path ih =>
    obtain ⟨hpaths, hpath⟩ := List.forall_mem_append.1 hpaths
    have hpath := hpath path (List.mem_singleton_self path)
    obtain ⟨spots, hspells, hordered⟩ := ih hpaths
    have hadd : (addPaths {} (paths ++ [path])).machine =
        (addPaths {} paths).machine.addFrom (addPaths {} paths).machine.entry path := by
      rw [addPaths, List.foldl_append, ← addPaths]
      exact congrArg machine (if_neg (by simpa using hpath.ne_nil))
    rw [hadd, destutter_concat]
    split_ifs with hlast
    · obtain ⟨done, hdone⟩ := List.getLast?_eq_some_iff.1 hlast
      rw [hdone] at hspells ⊢
      rw [hspells.addFrom_last]
      exact ⟨spots, hspells, hordered⟩
    · obtain ⟨q, hq⟩ := hspells.concat_of_ne hordered
        (fun ls hls => hpaths ls ((List.destutter_sublist _ _).subset hls)) hpath hlast
      exact ⟨spots ++ [q], hq⟩

end Trie

/-- **The branches of a trie are its rules in the order in which they were added.** Depth first, the
walks from the entry to the states without transitions spell the rules that were added, no rule is
lost, none is added, and only a rule that was added several times in a row counts once. -/
theorem Trie.branches_addPaths {rules : List Rule} (hne : rules ≠ [])
    (hrules : ∀ rule ∈ rules, EndsIn Label.IsAccept rule) :
    (addPaths {} rules).machine.branches = rules.destutter (· ≠ ·) := by
  obtain ⟨spots, hspells, hordered⟩ := exists_spells_destutter hrules
  have hends : ∀ rule ∈ rules.destutter (· ≠ ·), EndsIn Label.IsAccept rule :=
    fun rule hrule => hrules rule ((List.destutter_sublist _ _).subset hrule)
  rw [Machine.branches, hspells.branchesFrom_eq hends hordered (mt (List.destutter_eq_nil _).1 hne)]
  exact List.map_snd_zip hspells.spelled.length_eq.ge

/-- Ligatures that share their first glyph. The second one comes twice in a row, and the first one
comes again at the end. -/
def Rule.recurring : List Rule :=
  [[1, 2], [1, 3], [1, 3], [1, 2]].map (sequence .none (.ligate 9 2))

theorem Trie.branches_addPaths_recurring : Rule.recurring ≠ [] ∧
    (∀ rule ∈ Rule.recurring, EndsIn Label.IsAccept rule) ∧
    (addPaths {} Rule.recurring).machine.branches =
      [[1, 2], [1, 3], [1, 2]].map (Rule.sequence .none (.ligate 9 2)) := by
  have hrules : ∀ rule ∈ Rule.recurring, EndsIn Label.IsAccept rule := by
    intro rule hrule
    obtain ⟨glyphs, hglyphs, rfl⟩ := List.mem_map.1 hrule
    have hne : ∀ glyphs ∈ ([[1, 2], [1, 3], [1, 3], [1, 2]] : List (List GlyphId)),
        glyphs ≠ [] := by
      decide
    exact (Rule.regularWith_sequence (hne glyphs hglyphs)).regular.endsIn
  have hne : Rule.recurring ≠ [] := by decide
  refine ⟨hne, hrules, (branches_addPaths hne hrules).trans ?_⟩
  decide

end Shaping
