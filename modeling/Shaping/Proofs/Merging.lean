import Shaping.Machine.Trie
import Shaping.Proofs.Walks

/-!
How paths merge into a machine. A path is added along the last walk of a tree: it follows the last
transition of a state or grows a new one behind it, so no walk ever comes behind the tip where
growth goes on. If all paths end in labels that occur nowhere else in them, none begins another, and
the walks of the paths are then in the order in which the paths were added. Main statement:
`Trie.exists_spells_addPaths`.
-/

namespace Shaping

/-- The path ends in a label with the property `P`, and no other label of it has the property. -/
def EndsIn {ℓ : Type} (P : ℓ → Prop) (path : List ℓ) : Prop :=
  ∃ body last, path = body ++ [last] ∧ P last ∧ ∀ l ∈ body, ¬ P l

namespace EndsIn

variable {ℓ : Type} {P : ℓ → Prop} {path body : List ℓ} {last : ℓ}

lemma ne_nil (h : EndsIn P path) : path ≠ [] := by
  obtain ⟨body, last, rfl, -⟩ := h
  simp

theorem eq_of_begins (h : EndsIn P path) (hlast : P last) (hbegins : body ++ [last] <+: path) :
    body ++ [last] = path := by
  obtain ⟨body', last', rfl, -, hbody⟩ := h
  obtain heq | hbefore := List.prefix_concat_iff.1 hbegins
  · exact heq
  · have hmem : last ∈ body' := hbefore.subset (by simp)
    exact absurd hlast (hbody last hmem)

lemma eq_of_begins' {path' : List ℓ} (h : EndsIn P path) (h' : EndsIn P path')
    (hbegins : path <+: path') : path = path' := by
  obtain ⟨body, last, rfl, hlast, -⟩ := h
  exact h'.eq_of_begins hlast hbegins

end EndsIn

namespace Machine

variable {ℓ : Type} {m m' : Machine ℓ} {ps qs : Places} {ls ks : List ℓ} {s t : StateId} {label : ℓ}

/-! ### Trees -/

/-- Each state is at the end of at most one walk. -/
structure Tree (m : Machine ℓ) : Prop where
  wellFormed : m.WellFormed
  unique : ∀ {ps qs ls ks s}, m.Walk ps ls s → m.Walk qs ks s → ps = qs

/-- The walks of `m` are walks of `m'`. -/
def Extends (m' m : Machine ℓ) : Prop := ∀ ps ls s, m.Walk ps ls s → m'.Walk ps ls s

theorem row_grow (hs : s < m.states.size) (t : StateId) : (m.grow s label).row t =
    if t = s then (m.row s).push ⟨label, m.states.size⟩ else m.row t := by
  have hgrow : (m.grow s label).row t =
      ((m.states.modify s (·.push ⟨label, m.states.size⟩)).push #[]).getD t #[] := rfl
  rw [hgrow, Array.getD_eq_getD_getElem?, Array.getElem?_push, Array.size_modify,
    Array.getElem?_modify]
  by_cases hts : t = s
  · subst hts
    have hne : t ≠ m.states.size := Nat.ne_of_lt hs
    simp [hne, row, Array.getD_eq_getD_getElem?, hs]
  · rw [if_neg (Ne.symm hts), if_neg hts, row, Array.getD_eq_getD_getElem?]
    split_ifs with heq
    · rw [heq, Array.getElem?_eq_none (Nat.le_refl _)]
      rfl
    · rfl

@[simp] lemma size_grow : (m.grow s label).states.size = m.states.size + 1 := by
  simp [grow]

@[simp] lemma entry_grow : (m.grow s label).entry = m.entry := rfl

theorem wellFormed_grow (hm : m.WellFormed) (hs : s < m.states.size) :
    (m.grow s label).WellFormed := by
  refine ⟨by rw [size_grow, entry_grow]; exact Nat.lt_succ_of_lt hm.1, fun row hrow a ha => ?_⟩
  obtain ⟨t, ht, rfl⟩ := Array.getElem_of_mem hrow
  have hmem : a ∈ (m.grow s label).row t := by
    rwa [Machine.row, Array.getD_eq_getD_getElem?, Array.getElem?_eq_getElem ht]
  rw [row_grow hs] at hmem
  rw [size_grow]
  split_ifs at hmem
  · obtain hold | rfl := Array.mem_push.1 hmem
    · exact Nat.lt_succ_of_lt (hm.target_lt hold)
    · exact Nat.lt_succ_self _
  · exact Nat.lt_succ_of_lt (hm.target_lt hmem)

/-- Growth keeps all walks. -/
lemma Walk.grow (hs : s < m.states.size) (h : m.Walk ps ls t) : (m.grow s label).Walk ps ls t := by
  induction h with
  | entry => exact .entry
  | @step ps ls t i a _ hi ih =>
    refine .step ih ?_
    rw [row_grow hs]
    split_ifs with hts
    · obtain ⟨hlt, -⟩ := Array.getElem?_eq_some_iff.1 hi
      rw [Array.getElem?_push, ← hts, if_neg (Nat.ne_of_lt hlt), hi]
    · exact hi

/-- **Growth adds one walk**, the one behind all transitions of its state. -/
theorem walk_grow_iff (hm : m.Tree) (h : m.Walk qs ks s) : (m.grow s label).Walk ps ls t ↔
    m.Walk ps ls t ∨
      ps = qs ++ [(m.row s).size] ∧ ls = ks ++ [label] ∧ t = m.states.size := by
  have hs := h.lt hm.wellFormed
  constructor
  · intro walk
    induction walk with
    | entry => exact .inl .entry
    | @step ps ls t i a walk hi ih =>
      rw [row_grow hs] at hi
      obtain hps | ⟨rfl, rfl, rfl⟩ := ih
      · split_ifs at hi with hts
        · subst hts
          rw [Array.getElem?_push] at hi
          split_ifs at hi with hnew
          · obtain rfl := Option.some.inj hi
            obtain rfl := hm.unique hps h
            obtain ⟨rfl, -⟩ := hps.det h
            exact .inr ⟨by rw [hnew], rfl, rfl⟩
          · exact .inl (.step hps hi)
        · exact .inl (.step hps hi)
      · -- the new state has no transitions yet
        rw [if_neg (Nat.ne_of_gt hs), row_eq_empty (Nat.le_refl _)] at hi
        exact absurd hi (by simp)
  · rintro (walk | ⟨rfl, rfl, rfl⟩)
    · exact walk.grow hs
    · refine .step (h.grow hs) (a := ⟨label, m.states.size⟩) ?_
      rw [row_grow hs, if_pos rfl, Array.getElem?_push, if_pos rfl]

theorem tree_grow (hm : m.Tree) (h : m.Walk qs ks s) : (m.grow s label).Tree := by
  refine ⟨wellFormed_grow hm.wellFormed (h.lt hm.wellFormed), fun hps hps' => ?_⟩
  rw [walk_grow_iff hm h] at hps hps'
  obtain hps | ⟨rfl, -, rfl⟩ := hps <;> obtain hps' | ⟨rfl, -, heq⟩ := hps'
  · exact hm.unique hps hps'
  · exact absurd (hps.lt hm.wellFormed) (by rw [heq]; exact Nat.lt_irrefl _)
  · exact absurd (hps'.lt hm.wellFormed) (Nat.lt_irrefl _)
  · rfl

/-! ### The tip -/

/-- Growth goes on at the end of `ps`: no walk comes behind it, and all walks belong to it or to the
walks that are finished. -/
structure Tip (m : Machine ℓ) (spots : List Places) (ps : Places) (ls : List ℓ) (s : StateId) :
    Prop where
  tree : m.Tree
  walk : m.Walk ps ls s
  last : ∀ {qs ks t}, m.Walk qs ks t → ¬ Places.Before ps qs
  covered : ∀ {qs ks t}, m.Walk qs ks t → qs <+: ps ∨ ∃ p ∈ spots, qs <+: p

variable {spots : List Places}

theorem Tip.moves (h : m.Tip spots ps ls s) {a : Transition ℓ} (ha : (m.row s).back? = some a) :
    m.Tip spots (ps ++ [(m.row s).size - 1]) (ls ++ [a.label]) a.target := by
  obtain ⟨tree, walk, last, covered⟩ := h
  rw [Array.back?_eq_getElem?] at ha
  refine ⟨tree, .step walk ha, fun {qs ks t} hqs hbefore => ?_, fun hqs => ?_⟩
  · obtain hbefore | ⟨j, rest, hj, rfl⟩ := Places.concat_before_iff.1 hbefore
    · exact last hqs hbefore
    · have := walk.place_lt hqs
      omega
  · obtain hbegins | hspot := covered hqs
    · exact .inl (hbegins.trans (List.prefix_append _ _))
    · exact .inr hspot

theorem Tip.grows (h : m.Tip spots ps ls s) (label : ℓ) :
    (m.grow s label).Tip spots (ps ++ [(m.row s).size]) (ls ++ [label]) m.states.size := by
  obtain ⟨tree, walk, last, covered⟩ := h
  refine ⟨tree_grow tree walk, (walk_grow_iff tree walk).2 (.inr ⟨rfl, rfl, rfl⟩),
    fun {qs ks t} hqs hbefore => ?_, fun hqs => ?_⟩
  · obtain hqs | ⟨rfl, -, -⟩ := (walk_grow_iff tree walk).1 hqs
    · obtain hbefore | ⟨j, rest, hj, rfl⟩ := Places.concat_before_iff.1 hbefore
      · exact last hqs hbefore
      · have := walk.place_lt hqs
        omega
    · exact Places.before_irrefl hbefore
  · obtain hqs | ⟨rfl, -, -⟩ := (walk_grow_iff tree walk).1 hqs
    · obtain hbegins | hspot := covered hqs
      · exact .inl (hbegins.trans (List.prefix_append _ _))
      · exact .inr hspot
    · exact .inl List.prefix_rfl

section Adding

variable [DecidableEq ℓ]

theorem follow_cases (m : Machine ℓ) (s : StateId) (label : ℓ) :
    (∃ a, (m.row s).back? = some a ∧ a.label = label ∧ m.follow s label = (a.target, m)) ∨
      (∀ a, (m.row s).back? = some a → a.label ≠ label) ∧
        m.follow s label = (m.states.size, m.grow s label) := by
  unfold follow
  cases hback : (m.row s).back? with
  | none => exact .inr ⟨by simp, rfl⟩
  | some a =>
    by_cases ha : a.label = label
    · exact .inl ⟨a, rfl, ha, if_pos ha⟩
    · exact .inr ⟨by simpa using ha, if_neg ha⟩

/-- **One step of a path keeps the tip** and all walks. -/
theorem Tip.follow (h : m.Tip spots ps ls s) (label : ℓ) :
    ∃ i, (m.follow s label).2.Tip spots (ps ++ [i]) (ls ++ [label]) (m.follow s label).1 ∧
      (m.follow s label).2.Extends m := by
  rcases m.follow_cases s label with ⟨a, hback, rfl, heq⟩ | ⟨-, heq⟩
  · rw [heq]
    exact ⟨_, h.moves hback, fun _ _ _ hqs => hqs⟩
  · rw [heq]
    exact ⟨_, h.grows label, fun _ _ _ hqs => (walk_grow_iff h.tree h.walk).2 (.inl hqs)⟩

theorem Tip.addFrom (h : m.Tip spots ps ls s) (path : List ℓ) :
    ∃ qs t, (m.addFrom s path).Tip spots qs (ls ++ path) t ∧ (m.addFrom s path).Extends m := by
  induction path generalizing m ps ls s with
  | nil => exact ⟨ps, s, by rw [List.append_nil]; exact h, fun _ _ _ hqs => hqs⟩
  | cons label path ih =>
    obtain ⟨i, htip, hkeep⟩ := h.follow label
    obtain ⟨qs, t, htip', hkeep'⟩ := ih htip
    rw [List.append_assoc] at htip'
    exact ⟨qs, t, htip', fun _ _ _ hqs => hkeep' _ _ _ (hkeep _ _ _ hqs)⟩

end Adding

/-! ### Finished paths -/

/-- The finished walks `spots` spell the paths, they stand in depth-first order, and there is no
walk beside them. -/
structure Spells (m : Machine ℓ) (paths : List (List ℓ)) (spots : List Places) : Prop where
  tree : m.Tree
  spelled : List.Forall₂ (fun p ls => ∃ s, m.Walk p ls s) spots paths
  ordered : spots.Pairwise fun p q => p = q ∨ Places.Before p q
  covered : ∀ {qs ks t}, m.Walk qs ks t → qs = [] ∨ ∃ p ∈ spots, qs <+: p

namespace Spells

variable {paths : List (List ℓ)} {P : ℓ → Prop}

lemma mem_spelled (h : m.Spells paths spots) {p : Places} (hp : p ∈ spots) :
    ∃ ls ∈ paths, ∃ s, m.Walk p ls s :=
  Numbered.exists_of_mem_forall₂ h.spelled.flip hp

lemma mem_paths (h : m.Spells paths spots) (hls : ls ∈ paths) : ∃ p ∈ spots, ∃ s, m.Walk p ls s :=
  Numbered.exists_of_mem_forall₂ h.spelled hls

theorem concat [DecidableEq ℓ] (h : m.Spells paths spots) (hpaths : ∀ ls ∈ paths, EndsIn P ls)
    {path : List ℓ} (hpath : EndsIn P path) :
    ∃ q, (m.addFrom m.entry path).Spells (paths ++ [path]) (spots ++ [q]) := by
  have hstart : m.Tip spots [] [] m.entry := by
    refine ⟨h.tree, .entry, fun _ => Places.not_nil_before, fun hqs => ?_⟩
    obtain rfl | hspot := h.covered hqs
    · exact .inl List.prefix_rfl
    · exact .inr hspot
  obtain ⟨q, t, htip, hkeep⟩ := hstart.addFrom path
  refine ⟨q, htip.tree, ?_, ?_, fun hqs => ?_⟩
  · exact Numbered.forall₂_concat_iff.2 ⟨h.spelled.imp fun p ls ⟨s, walk⟩ => ⟨s, hkeep _ _ _ walk⟩,
      t, htip.walk⟩
  · refine List.pairwise_append.2 ⟨h.ordered, List.pairwise_singleton _ _, fun p hp q' hq' => ?_⟩
    obtain rfl := List.mem_singleton.1 hq'
    obtain ⟨ls, hls, s, walk⟩ := h.mem_spelled hp
    have walk := hkeep _ _ _ walk
    obtain hpre | hpre | hbefore | hbefore := Places.prefix_or_before p q'
    · have heq := (hpaths ls hls).eq_of_begins' hpath (walk.labels_of_begins htip.walk hpre)
      exact .inl (hpre.eq_of_length (by rw [← walk.length_eq, ← htip.walk.length_eq, heq]; rfl))
    · have heq := hpath.eq_of_begins' (hpaths ls hls) (htip.walk.labels_of_begins walk hpre)
      exact .inl
        (hpre.eq_of_length (by rw [← walk.length_eq, ← htip.walk.length_eq, ← heq]; rfl)).symm
    · exact .inr hbefore
    · exact absurd hbefore (htip.last walk)
  · obtain hpre | ⟨p, hp, hpre⟩ := htip.covered hqs
    · exact .inr ⟨q, by simp, hpre⟩
    · exact .inr ⟨p, by simp [hp], hpre⟩

theorem mem_spots (h : m.Spells paths spots) (hpaths : ∀ ls ∈ paths, EndsIn P ls) {last : ℓ}
    (hlast : P last) (hwalk : m.Walk qs (ks ++ [last]) t) : qs ∈ spots := by
  obtain rfl | ⟨p, hp, hpre⟩ := h.covered hwalk
  · obtain ⟨heq, -⟩ := walk_nil_iff.1 hwalk
    simp at heq
  · obtain ⟨ls, hls, s, walk⟩ := h.mem_spelled hp
    have heq := (hpaths ls hls).eq_of_begins hlast (hwalk.labels_of_begins walk hpre)
    rwa [hpre.eq_of_length (by rw [← hwalk.length_eq, ← walk.length_eq, heq])]

end Spells

lemma spells_empty : Spells ({} : Machine ℓ) [] [] := by
  have hwalk : ∀ {ps ls s}, Walk ({} : Machine ℓ) ps ls s → ps = [] ∧ s = 0 := by
    intro ps ls s walk
    induction walk with
    | entry => exact ⟨rfl, rfl⟩
    | step _ hi ih =>
      obtain ⟨-, rfl⟩ := ih
      simp [row] at hi
  refine ⟨⟨⟨Nat.zero_lt_one, by simp⟩, fun hp hq => ?_⟩, .nil, .nil, fun hq => .inl (hwalk hq).1⟩
  rw [(hwalk hp).1, (hwalk hq).1]

end Machine

/-- **Paths keep their order**: the walks that spell the paths of a trie are in depth-first order,
and the machine has no walk beside them. -/
theorem Trie.exists_spells_addPaths {ℓ : Type} [DecidableEq ℓ] {P : ℓ → Prop} {trie : Trie ℓ}
    {done paths : List (List ℓ)} {spots : List Places} (h : trie.machine.Spells done spots)
    (hdone : ∀ ls ∈ done, EndsIn P ls) (hpaths : ∀ ls ∈ paths, EndsIn P ls) :
    ∃ spots, (trie.addPaths paths).machine.Spells (done ++ paths) spots := by
  induction paths generalizing trie done spots with
  | nil => exact ⟨spots, by rw [List.append_nil]; exact h⟩
  | cons path paths ih =>
    obtain ⟨hpath, hrest⟩ := List.forall_mem_cons.1 hpaths
    obtain ⟨q, hq⟩ := h.concat hdone hpath
    have hadd : (trie.addPath path).machine = trie.machine.addFrom trie.machine.entry path := by
      rw [addPath_of_ne_nil hpath.ne_nil]
    rw [← hadd] at hq
    obtain ⟨spots, hspots⟩ := ih hq (fun ls hls => by
      obtain hls | hls := List.mem_append.1 hls
      · exact hdone ls hls
      · rwa [List.mem_singleton.1 hls]) hrest
    exact ⟨spots, by rwa [List.append_assoc] at hspots⟩

end Shaping
