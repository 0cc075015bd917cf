import Shaping.Proofs.Limits

/-!
Searches that are over after a few steps, however many rules there are. A trie puts rules that begin
with the same step one behind the other under one transition. So if at most one group of rules can
be entered, the search enters it and does not come back for another one, and behind two consuming
steps a rule for a pair accepts. Main statement: `Machine.Spells.search_pairs_ne_limitReached`.
-/

namespace Shaping

namespace Machine

variable {ℓ : Type} {m : Machine ℓ} {s : StateId} {label : ℓ}

/-! ### Transitions side by side -/

/-- No transition bears the label of the one in front of it. -/
def Parted (m : Machine ℓ) : Prop := ∀ (s : StateId) (i : Nat) (a b : Transition ℓ),
  (m.row s)[i]? = some a → (m.row s)[i + 1]? = some b → a.label ≠ b.label

/-- Growth keeps the transitions of a state apart if the new label differs from the last one. -/
theorem Parted.grow (h : m.Parted) (hs : s < m.states.size)
    (hlabel : ∀ a, (m.row s).back? = some a → a.label ≠ label) : (m.grow s label).Parted := by
  intro t i a b ha hb
  rw [row_grow hs] at ha hb
  split_ifs at ha hb with hts
  · rw [Array.getElem?_push] at ha hb
    split_ifs at hb with hnew
    · obtain rfl := Option.some.inj hb
      rw [if_neg (by omega)] at ha
      refine hlabel a ?_
      rw [Array.back?_eq_getElem?, ← hnew, Nat.add_sub_cancel, ha]
    · obtain ⟨hlt, -⟩ := Array.getElem?_eq_some_iff.1 hb
      rw [if_neg (by omega)] at ha
      exact h s i a b ha hb
  · exact h t i a b ha hb

variable [DecidableEq ℓ]

theorem Parted.follow (h : m.Parted) (hm : m.WellFormed) (hs : s < m.states.size) (label : ℓ) :
    (m.follow s label).2.Parted ∧ (m.follow s label).2.WellFormed ∧
      (m.follow s label).1 < (m.follow s label).2.states.size := by
  rcases m.follow_cases s label with ⟨a, hback, -, heq⟩ | ⟨hother, heq⟩
  · rw [heq]
    exact ⟨h, hm, hm.target_lt (Array.mem_of_back? hback)⟩
  · have hnew : m.states.size < (m.grow s label).states.size := by simp
    rw [heq]
    exact ⟨h.grow hs hother, wellFormed_grow hm hs, hnew⟩

theorem Parted.addFrom (h : m.Parted) (hm : m.WellFormed) (hs : s < m.states.size)
    (path : List ℓ) : (m.addFrom s path).Parted ∧ (m.addFrom s path).WellFormed := by
  induction path generalizing m s with
  | nil => exact ⟨h, hm⟩
  | cons label path ih =>
    obtain ⟨hparted, hwell, hlt⟩ := h.follow hm hs label
    exact ih hparted hwell hlt

end Machine

/-- **Tries keep different labels apart**, and merge equal ones. -/
theorem Trie.parted_addPaths {ℓ : Type} [DecidableEq ℓ] {trie : Trie ℓ} (h : trie.machine.Parted)
    (hm : trie.machine.WellFormed) (paths : List (List ℓ)) :
    (trie.addPaths paths).machine.Parted := by
  induction paths generalizing trie with
  | nil => exact h
  | cons path paths ih =>
    have hadd : (trie.addPath path).machine.Parted ∧ (trie.addPath path).machine.WellFormed := by
      rw [addPath]
      split_ifs
      · exact ⟨h, hm⟩
      · exact h.addFrom hm hm.1 path
    exact ih hadd.1 hadd.2

/-! ### Groups of rules -/

/-- The rules whose first step holds stand together and begin with the same step. -/
def View.EntersOnce (v : View) (rules : List Rule) : Prop :=
  ∃ front group back : List Rule, ∃ label, rules = front ++ group ++ back ∧
    (∀ rule ∈ group, rule.head? = some label) ∧
    ∀ rule ∈ front ++ back, ∀ step ∈ rule.head?, v.test #[] step.predicate = none

/-- Groups of rules are entered once if the first steps of two groups do not hold together. -/
theorem View.entersOnce_flatMap {β : Type} {v : View} {groups : List β} {rules : β → List Rule}
    (first : β → Step)
    (hfirst : ∀ group ∈ groups, ∀ rule ∈ rules group, rule.head? = some (first group))
    (hapart : groups.Pairwise fun a b =>
      v.test #[] (first a).predicate = none ∨ v.test #[] (first b).predicate = none) :
    v.EntersOnce (groups.flatMap rules) := by
  by_cases hexists : ∃ group ∈ groups, v.test #[] (first group).predicate ≠ none
  · obtain ⟨group, hgroup, htest⟩ := hexists
    obtain ⟨front, back, rfl⟩ := List.append_of_mem hgroup
    obtain ⟨-, hback, hfront⟩ := List.pairwise_append.1 hapart
    refine ⟨front.flatMap rules, rules group, back.flatMap rules, first group, by simp,
      hfirst group hgroup, fun rule hrule step hstep => ?_⟩
    obtain hrule | hrule := List.mem_append.1 hrule
    · obtain ⟨other, hother, hrule⟩ := List.mem_flatMap.1 hrule
      obtain rfl := Option.some.inj (hstep.symm.trans (hfirst other (by simp [hother]) rule hrule))
      exact (hfront other hother group (by simp)).resolve_right htest
    · obtain ⟨other, hother, hrule⟩ := List.mem_flatMap.1 hrule
      obtain rfl := Option.some.inj (hstep.symm.trans (hfirst other (by simp [hother]) rule hrule))
      exact ((List.pairwise_cons.1 hback).1 other hother).resolve_left htest
  · refine ⟨groups.flatMap rules, [], [], .accept, by simp, by simp, ?_⟩
    intro rule hrule step hstep
    rw [List.append_nil] at hrule
    obtain ⟨group, hgroup, hrule⟩ := List.mem_flatMap.1 hrule
    obtain rfl := Option.some.inj (hstep.symm.trans (hfirst group hgroup rule hrule))
    by_contra htest
    exact hexists ⟨group, hgroup, htest⟩

namespace Machine

variable {m : Machine Step} {rules : List Rule} {spots : List Places} {v : View} {x y : Nat}
  {a b : Transition Step}

lemma Spells.exists_index (h : m.Spells rules spots) (hx : (m.row m.entry)[x]? = some a) :
    ∃ (n : Nat) (p : Places) (rule : Rule), spots[n]? = some p ∧ [x] <+: p ∧
      rules[n]? = some rule ∧ rule.head? = some a.label := by
  have walk : m.Walk [x] [a.label] a.target := .step .entry hx
  obtain ⟨p, hp, hbegins⟩ := (h.covered walk).resolve_left (List.cons_ne_nil _ _)
  obtain ⟨n, hn⟩ := List.mem_iff_getElem?.1 hp
  have hrel := Numbered.getElem?_of_forall₂ h.spelled n
  rw [hn] at hrel
  generalize hrule : rules[n]? = rule? at hrel
  cases hrel with
  | @some _ rule hwalk =>
    obtain ⟨t, walk'⟩ := hwalk
    obtain ⟨rest, rfl⟩ := walk.labels_of_begins walk' hbegins
    exact ⟨n, p, _, hn, hbegins, hrule, rfl⟩

/-- Rules along earlier transitions come earlier. -/
lemma Spells.index_lt (h : m.Spells rules spots) {n k : Nat} {p q : Places}
    (hp : spots[n]? = some p) (hq : spots[k]? = some q) (hx : [x] <+: p) (hy : [y] <+: q)
    (hxy : x < y) : n < k := by
  obtain ⟨ps, rfl⟩ := hx
  obtain ⟨qs, rfl⟩ := hy
  by_contra hkn
  obtain rfl | hlt := Nat.eq_or_lt_of_le (Nat.le_of_not_lt hkn)
  · have heq := hp.symm.trans hq
    simp only [Option.some.injEq, List.cons_append, List.cons.injEq] at heq
    omega
  · obtain ⟨hn, hp⟩ := List.getElem?_eq_some_iff.1 hp
    obtain ⟨hk, hq⟩ := List.getElem?_eq_some_iff.1 hq
    have hordered := List.pairwise_iff_getElem.1 h.ordered k n hk hn hlt
    rw [hp, hq] at hordered
    simp only [List.cons_append, List.nil_append, List.cons.injEq, Places.cons_before_cons]
      at hordered
    omega

/-- Where the rules are entered once, a transition that can be taken is not followed by another. -/
lemma Spells.not_lt_of_test_entry (h : m.Spells rules spots) (hm : m.Parted)
    (honce : v.EntersOnce rules) (ha : (m.row m.entry)[x]? = some a)
    (hb : (m.row m.entry)[y]? = some b) (htest : v.test #[] a.label.predicate ≠ none)
    (htest' : v.test #[] b.label.predicate ≠ none) : ¬ x < y := by
  intro hxy
  obtain ⟨front, group, back, label, rfl, hgroup, houtside⟩ := honce
  -- a rule that can be entered is one of the group, and all rules of the group begin alike
  have hinside : ∀ (n : Nat) (rule : Rule) (step : Step), (front ++ group ++ back)[n]? = some rule →
      rule.head? = some step → v.test #[] step.predicate ≠ none →
        front.length ≤ n ∧ n < front.length + group.length := by
    intro n rule step hn hstep htest
    by_contra hout
    refine htest (houtside rule ?_ step hstep)
    rw [List.getElem?_append, List.length_append] at hn
    split_ifs at hn with hback
    · rw [List.getElem?_append_left (by omega)] at hn
      exact List.mem_append_left _ (List.mem_of_getElem? hn)
    · exact List.mem_append_right _ (List.mem_of_getElem? hn)
  have hlabel : ∀ (n : Nat) (rule : Rule) (step : Step), (front ++ group ++ back)[n]? = some rule →
      rule.head? = some step → front.length ≤ n → n < front.length + group.length →
        step = label := by
    intro n rule step hn hstep hle hlt
    rw [List.getElem?_append_left (by rwa [List.length_append]),
      List.getElem?_append_right hle] at hn
    exact Option.some.inj (hstep.symm.trans (hgroup rule (List.mem_of_getElem? hn)))
  obtain ⟨n, p, rule, hp, hx, hrule, hhead⟩ := h.exists_index ha
  obtain ⟨k, q, rule', hq, hy, hrule', hhead'⟩ := h.exists_index hb
  obtain ⟨hn, hn'⟩ := hinside n rule _ hrule hhead htest
  obtain ⟨hk, hk'⟩ := hinside k rule' _ hrule' hhead' htest'
  obtain ⟨hsize, -⟩ := Array.getElem?_eq_some_iff.1 hb
  have hnext : (m.row m.entry)[x + 1]? = some ((m.row m.entry)[x + 1]) :=
    Array.getElem?_eq_getElem (by omega)
  refine hm _ x a _ ha hnext ((hlabel n rule _ hrule hhead hn hn').trans ?_)
  -- the transition behind the first one is the second one, or its rules stand in between
  obtain heq | hlt := Nat.eq_or_lt_of_le (Nat.succ_le_of_lt hxy)
  · obtain rfl := heq
    obtain rfl := Option.some.inj (hnext.symm.trans hb)
    exact (hlabel k rule' _ hrule' hhead' hk hk').symm
  · obtain ⟨j, r, rule'', hr, hz, hrule'', hhead''⟩ := h.exists_index hnext
    have hnj := h.index_lt hp hr hx hz (Nat.lt_succ_self x)
    have hjk := h.index_lt hr hq hz hy hlt
    exact (hlabel j rule'' _ hrule'' hhead'' (by omega) (by omega)).symm

theorem Spells.eq_of_test_entry (h : m.Spells rules spots) (hm : m.Parted)
    (honce : v.EntersOnce rules) (ha : (m.row m.entry)[x]? = some a)
    (hb : (m.row m.entry)[y]? = some b) (htest : v.test #[] a.label.predicate ≠ none)
    (htest' : v.test #[] b.label.predicate ≠ none) : x = y := by
  obtain hxy | hxy | hxy := Nat.lt_trichotomy x y
  · exact absurd hxy (h.not_lt_of_test_entry hm honce ha hb htest htest')
  · exact hxy
  · exact absurd hxy (h.not_lt_of_test_entry hm honce hb ha htest' htest)

end Machine

/-! ### Searches over two levels -/

namespace Trail

variable {sc : Scene} {t : Trail} {depth fuel : Nat}

theorem search_of_accept {a : Transition Step} (hnext : t.next = 0)
    (ha : (sc.machine.row t.state)[0]? = some a) (haccept : a.label.predicate = .accept) :
    search sc depth (fuel + 1) t = .matched t.path := by
  have hmeets : t.meets sc = some (0, a.target, .accepted) := by
    obtain ⟨hsize, -⟩ := Array.getElem?_eq_some_iff.1 ha
    obtain ⟨n, hn⟩ := Nat.exists_eq_succ_of_ne_zero (Nat.ne_of_gt hsize)
    rw [meets, hnext, Nat.sub_zero, hn, firstHit, ha]
    dsimp only
    rw [haccept]
    rfl
  rw [search, step_of_accepted hmeets]

theorem search_back_ne_limitReached (takes : sc.Takes [] t)
    (hdone : ∀ i a, (sc.machine.row sc.machine.entry)[i]? = some a →
      sc.test #[] a.label.predicate ≠ none → i < t.next) :
    search sc depth (fuel + 1) t ≠ .limitReached := by
  have hentry := Scene.Takes.nil_iff.1 takes
  have hnone : ∀ k target hit, t.meets sc ≠ some (k, target, hit) := by
    intro k target hit hmeets
    obtain ⟨hk, ⟨a, ha, -, htest⟩, -⟩ := firstHit_some hmeets
    rw [hentry] at ha htest
    have hlt := hdone k a ha (by simp [htest])
    omega
  have hmove := takes.move depth
  rw [search]
  generalize t.step sc depth = next at hmove ⊢
  cases hmove with
  | accept hmeets => exact absurd hmeets (hnone _ _ _)
  | stop => simp
  | full hmeets => exact absurd hmeets (hnone _ _ _)
  | down hmeets => exact absurd hmeets (hnone _ _ _)
  | up _ hps => simp at hps

end Trail

namespace Machine.Spells

variable {m : Machine Step} {rules : List Rule} {spots : List Places} {v : View} {ps : Places}
  {t : Trail} {i n depth fuel : Nat}

theorem exists_accept (h : m.Spells rules spots)
    (hrules : ∀ rule ∈ rules, EndsIn Label.IsAccept rule)
    (hlength : ∀ rule ∈ rules, rule.length = n + 1) (takes : Scene.Takes ⟨v, m⟩ ps t)
    (hps : ps.length = n) (hne : ps ≠ []) :
    ∃ a, (m.row t.state)[0]? = some a ∧ a.label.predicate = .accept := by
  obtain ⟨ls, walk, -⟩ := takes.exists_walk
  obtain ⟨p, hp, rule, hrule, hlen, ⟨rest, rfl⟩, hlt⟩ := h.begins_of_takes hrules takes hne
  obtain ⟨rule', hrule', s, walk'⟩ := h.mem_spelled hp
  cases rest with
  | nil => simp at hlt
  | cons k rest =>
    have hsize : 0 < (m.row t.state).size := Nat.zero_lt_of_lt (walk.place_lt walk')
    have hfirst := Array.getElem?_eq_getElem hsize
    -- the walk through the first transition is that of a whole rule
    have hnext := walk.step hfirst
    obtain ⟨q, hq, hbegins⟩ := (h.covered hnext).resolve_left (by simp)
    obtain ⟨rule'', hrule'', u, walk''⟩ := h.mem_spelled hq
    have hends := hnext.labels_of_begins walk'' hbegins
    have hwhole : ls ++ [(m.row t.state)[0].label] = rule'' := by
      refine hends.eq_of_length ?_
      rw [hlength rule'' hrule'', List.length_append, List.length_singleton, walk.length_eq, hps]
    obtain ⟨body, last, heq, haccept, -⟩ := hrules rule'' hrule''
    obtain ⟨-, hlabel⟩ := List.append_singleton_inj.1 (hwhole.trans heq)
    exact ⟨_, hfirst, by rw [hlabel]; exact haccept⟩

variable (h : m.Spells rules spots) (hm : m.Parted)
  (hrules : ∀ rule ∈ rules, EndsIn Label.IsAccept rule) (hlength : ∀ rule ∈ rules, rule.length = 3)
  (honce : v.EntersOnce rules) (hdepth : 3 ≤ depth)

include h hm hrules hlength honce hdepth

/-- Behind the first glyph of a pair, a search is over soon. -/
lemma search_second_ne_limitReached (takes : Scene.Takes ⟨v, m⟩ [i] t) :
    Trail.search ⟨v, m⟩ depth (fuel + 2) t ≠ .limitReached := by
  have hmove := takes.move depth
  rw [Trail.search]
  generalize t.step ⟨v, m⟩ depth = next at hmove ⊢
  cases hmove with
  | accept => simp
  | stop _ hps => simp at hps
  | full _ _ hfull => exact absurd hdepth (Nat.not_le.2 (Nat.lt_succ_of_le hfull))
  | @down k target hit hmeets hne _ takes =>
    obtain ⟨a, ha, haccept⟩ := h.exists_accept hrules hlength takes rfl (by simp)
    have hnext : (t.descend k target hit).next = 0 := by cases hit <;> rfl
    dsimp only
    rw [Trail.search_of_accept hnext ha haccept]
    simp
  | @up qs j u hmeets hps hnext takes' =>
    obtain ⟨rfl, rfl⟩ : qs = [] ∧ j = i := by
      cases qs with
      | nil => simpa using hps.symm
      | cons k qs => simp at hps
    refine Trail.search_back_ne_limitReached takes' fun x b hb htest => ?_
    -- the transition that is taken back was the only one that could be taken
    have htaken : Scene.Takes ⟨v, m⟩ ([] ++ [j]) t := takes
    obtain ⟨w, a, hit, hw, ha, htest', -, -⟩ := Scene.Takes.concat_iff.1 htaken
    rw [Scene.Takes.nil_iff.1 hw] at ha htest'
    have heq := h.eq_of_test_entry hm honce hb ha htest (by simp [htest'])
    rw [hnext, heq]
    exact Nat.lt_succ_self j

lemma search_first_ne_limitReached :
    Trail.search ⟨v, m⟩ depth (fuel + 3) { state := m.entry } ≠ .limitReached := by
  have hentry : Scene.Takes ⟨v, m⟩ [] { state := m.entry } := .entry 0
  have hmove := hentry.move depth
  rw [Trail.search]
  generalize Trail.step ⟨v, m⟩ depth { state := m.entry } = next at hmove ⊢
  cases hmove with
  | accept => simp
  | stop => simp
  | full _ _ hfull => exact absurd hdepth (by rw [List.length_nil] at hfull; omega)
  | down _ _ _ takes =>
    exact h.search_second_ne_limitReached hm hrules hlength honce hdepth takes
  | up _ hps => simp at hps

/-- **Searches for pairs do not give up**, however many pairs there are, where the rules are entered
once. -/
theorem search_pairs_ne_limitReached : Scene.search ⟨v, m⟩ depth ≠ .limitReached := by
  have hdepth : 3 ≤ max 1 (min depth searchLimit) := by
    rw [searchLimit]
    omega
  exact h.search_first_ne_limitReached hm hrules hlength honce hdepth

end Machine.Spells

/-- **Searches for single glyphs do not give up**: behind the first step that consumes, a rule for
one glyph accepts. -/
theorem Machine.Spells.search_singles_ne_limitReached {m : Machine Step} {rules : List Rule}
    {spots : List Places} (h : m.Spells rules spots)
    (hrules : ∀ rule ∈ rules, EndsIn Label.IsAccept rule)
    (hlength : ∀ rule ∈ rules, rule.length = 2) {depth : Nat} (hdepth : 2 ≤ depth) (v : View) :
    Scene.search ⟨v, m⟩ depth ≠ .limitReached := by
  have hdepth : 2 ≤ max 1 (min depth searchLimit) := by
    rw [searchLimit]
    omega
  have hentry : Scene.Takes ⟨v, m⟩ [] { state := m.entry } := .entry 0
  have hmove := hentry.move (max 1 (min depth searchLimit))
  show Trail.search ⟨v, m⟩ _ (99998 + 2) { state := m.entry } ≠ .limitReached
  rw [Trail.search]
  generalize Trail.step ⟨v, m⟩ _ { state := m.entry } = next at hmove ⊢
  cases hmove with
  | accept => simp
  | stop => simp
  | full _ _ hfull => exact absurd hdepth (by rw [List.length_nil] at hfull; omega)
  | @down k target hit _ _ _ takes =>
    obtain ⟨a, ha, haccept⟩ := h.exists_accept hrules hlength takes rfl (by simp)
    have hnext : (Trail.descend { state := m.entry } k target hit).next = 0 := by cases hit <;> rfl
    dsimp only
    rw [Trail.search_of_accept hnext ha haccept]
    simp
  | up _ hps => simp at hps

end Shaping
