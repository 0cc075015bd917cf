import Mathlib.Algebra.GroupWithZero.Nat
import Shaping.Proofs.Branches
import Shaping.Proofs.Growth

/-!
How much the rules of a trie share. A rule follows the last transitions from the entry on, and these
spell the rule that was added before it. So it shares with that rule the steps that the two have in
common before they differ, and no step with any other rule. Main statement:
`Trie.stateCount_addPaths`.
-/

namespace Shaping

/-! ### Common beginnings -/

section Common

variable {α : Type} [DecidableEq α] {as bs : List α} {n : Nat}

/-- How many items two lists have in common before they differ. -/
def commonLength : List α → List α → Nat
  | a :: as, b :: bs => if a = b then commonLength as bs + 1 else 0
  | _, _ => 0

@[simp] lemma commonLength_nil_left (bs : List α) : commonLength [] bs = 0 := rfl

@[simp] lemma commonLength_nil_right (as : List α) : commonLength as [] = 0 := by cases as <;> rfl

/-- **The common length is the length of the longest list that both begin with.** -/
theorem le_commonLength_iff :
    n ≤ commonLength as bs ↔ ∃ front, front.length = n ∧ front <+: as ∧ front <+: bs := by
  induction as generalizing bs n with
  | nil => simp [eq_comm]
  | cons a as ih =>
    cases bs with
    | nil => simp [eq_comm]
    | cons b bs =>
      unfold commonLength
      cases n with
      | zero => simp
      | succ n =>
        split_ifs with hab
        · subst hab
          rw [Nat.succ_le_succ_iff, ih]
          constructor
          · rintro ⟨front, rfl, has, hbs⟩
            exact ⟨a :: front, rfl, by simpa using has, by simpa using hbs⟩
          · rintro ⟨front, hlen, has, hbs⟩
            cases front with
            | nil => simp at hlen
            | cons c front =>
              exact ⟨front, by simpa using hlen, (List.cons_prefix_cons.1 has).2,
                (List.cons_prefix_cons.1 hbs).2⟩
        · refine ⟨fun h => absurd h (Nat.not_succ_le_zero n), ?_⟩
          rintro ⟨front, hlen, has, hbs⟩
          cases front with
          | nil => simp at hlen
          | cons c front =>
            have hca := (List.cons_prefix_cons.1 has).1
            have hcb := (List.cons_prefix_cons.1 hbs).1
            exact absurd (hca.symm.trans hcb) hab

lemma commonLength_le (as bs : List α) : commonLength as bs ≤ bs.length := by
  obtain ⟨front, hlen, -, hbs⟩ := le_commonLength_iff.1 (Nat.le_refl (commonLength as bs))
  rw [← hlen]
  exact hbs.length_le

end Common

namespace Machine

variable {ℓ : Type} {m : Machine ℓ} {s t : StateId} {ls : List ℓ} {paths : List (List ℓ)}
  {spots : List Places} {P : ℓ → Prop}

lemma row_grow_size (m : Machine ℓ) (s : StateId) (label : ℓ) :
    (m.grow s label).row m.states.size = #[] := by
  have hlast : (m.grow s label).states[m.states.size]? = some #[] := by
    show ((m.states.modify s _).push #[])[m.states.size]? = _
    rw [Array.getElem?_push, Array.size_modify, if_pos rfl]
  rw [row, Array.getD_eq_getD_getElem?, hlast]
  rfl

theorem Spells.rightmost_getLastD (h : m.Spells paths spots)
    (hpaths : ∀ path ∈ paths, EndsIn P path) :
    ∃ t, m.Rightmost m.entry (paths.getLastD []) t ∧ m.row t = #[] := by
  cases paths using List.reverseRecOn with
  | nil =>
    refine ⟨m.entry, .nil, ?_⟩
    by_contra hrow
    have hsize : 0 < (m.row m.entry).size := Array.size_pos_iff.2 hrow
    have hspots : spots = [] := List.forall₂_nil_right_iff.1 h.spelled
    rcases h.covered (.step .entry (Array.getElem?_eq_getElem hsize)) with hnil | ⟨p, hp, -⟩
    · simp at hnil
    · rw [hspots] at hp
      exact absurd hp List.not_mem_nil
  | append_singleton paths path =>
    obtain ⟨q, t, hwalk, hright⟩ := h.exists_rightmost
    refine ⟨t, by rwa [List.getLastD_concat], ?_⟩
    exact h.row_eq_empty hpaths (by simp) hwalk

/-- **A path adds a state for each label that it does not share** with what the last transitions
spell, if these end where nothing goes on. -/
theorem Rightmost.size_addFrom [DecidableEq ℓ] (h : m.Rightmost s ls t) (hend : m.row t = #[])
    (path : List ℓ) :
    (m.addFrom s path).states.size + commonLength ls path = m.states.size + path.length := by
  induction path generalizing m s ls t with
  | nil => simp [addFrom]
  | cons label path ih =>
    rcases m.follow_cases s label with ⟨a, hback, rfl, heq⟩ | ⟨hother, heq⟩
    · -- the last transition has the label, so it is followed
      have hadd : m.addFrom s (a.label :: path) = m.addFrom a.target path := by rw [addFrom, heq]
      rw [hadd]
      cases h with
      | nil => simp [hend] at hback
      | @cons _ _ b ls hback' h' =>
        obtain rfl := Option.some.inj (hback.symm.trans hback')
        have hrest := ih h' hend
        rw [commonLength, if_pos rfl, List.length_cons]
        omega
    · -- a state is added, and from it on there is nothing to follow
      have hadd : m.addFrom s (label :: path) =
          (m.grow s label).addFrom m.states.size path := by rw [addFrom, heq]
      rw [hadd]
      have hnone : commonLength ls (label :: path) = 0 := by
        cases h with
        | nil => rfl
        | cons hback' _ =>
          rw [commonLength, if_neg (hother _ hback')]
      have hrest := ih (Rightmost.nil (s := m.states.size)) (row_grow_size m s label)
      rw [size_grow, commonLength_nil_left] at hrest
      rw [hnone, List.length_cons]
      omega

end Machine

/-! ### Tries -/

namespace Trie

variable {ℓ : Type} [DecidableEq ℓ] {P : ℓ → Prop} {trie : Trie ℓ} {done paths : List (List ℓ)}
  {spots : List Places}

/-- A path that ends in a label of the property adds what it does not share with the last path. -/
lemma size_addPath {path : List ℓ} (h : trie.machine.Spells done spots)
    (hdone : ∀ ls ∈ done, EndsIn P ls) (hpath : EndsIn P path) :
    (trie.addPath path).machine.states.size =
      trie.machine.states.size + (path.length - commonLength (done.getLastD []) path) := by
  obtain ⟨t, hright, hend⟩ := h.rightmost_getLastD hdone
  have hsize := hright.size_addFrom hend path
  have hle := commonLength_le (done.getLastD []) path
  rw [addPath_of_ne_nil hpath.ne_nil]
  dsimp only
  omega

theorem size_addPaths (h : trie.machine.Spells done spots) (hdone : ∀ ls ∈ done, EndsIn P ls)
    (hpaths : ∀ ls ∈ paths, EndsIn P ls) :
    (trie.addPaths paths).machine.states.size = trie.machine.states.size +
      (List.zipWith (fun previous path => path.length - commonLength previous path)
        (done.getLastD [] :: paths) paths).sum := by
  induction paths generalizing trie done spots with
  | nil => rfl
  | cons path paths ih =>
    obtain ⟨hpath, hrest⟩ := List.forall_mem_cons.1 hpaths
    have hadd : trie.addPaths (path :: paths) = (trie.addPath path).addPaths paths := rfl
    obtain ⟨spots', hspells⟩ :
        ∃ spots', (trie.addPath path).machine.Spells (done ++ [path]) spots' :=
      exists_spells_addPaths h hdone (List.forall_mem_singleton.2 hpath)
    have hdone' : ∀ ls ∈ done ++ [path], EndsIn P ls :=
      List.forall_mem_append.2 ⟨hdone, List.forall_mem_singleton.2 hpath⟩
    have hsizes := ih hspells hdone' hrest
    rw [List.getLastD_concat] at hsizes
    rw [hadd, hsizes, size_addPath h hdone hpath, List.zipWith_cons_cons, List.sum_cons,
      Nat.add_assoc]

lemma grown_addPaths (h : trie.machine.Grown) (paths : List (List ℓ)) :
    (trie.addPaths paths).machine.Grown := by
  induction paths generalizing trie with
  | nil => exact h
  | cons path paths ih => exact ih (grown_addPath h path).1

/-- **A rule shares with the rule before it what the two have in common before they differ**, and
nothing with any other. So the states of a trie are the entry, and for each rule one state for each
of its steps that comes behind what it has in common with the rule before it. -/
theorem stateCount_addPaths {rules : List Rule}
    (hrules : ∀ rule ∈ rules, EndsIn Label.IsAccept rule) :
    (addPaths {} rules).machine.stateCount =
      1 + (List.zipWith (fun previous rule => rule.length - commonLength previous rule)
        ([] :: rules) rules).sum := by
  have hgrown : (addPaths {} rules).machine.Grown := grown_addPaths Machine.grown_empty rules
  have hspells : ({} : Trie Step).machine.Spells [] [] := Machine.spells_empty
  rw [hgrown.stateCount_eq]
  exact size_addPaths hspells (by simp) hrules

end Trie

/-- Ligatures that share their first glyph with the one before them, but for the third. The last one
repeats the first one. -/
def Rule.interrupted : List Rule :=
  [[1, 2], [1, 3], [4, 2], [1, 2]].map (sequence .none (.ligate 9 2))

theorem Trie.stateCount_addPaths_interrupted :
    (∀ rule ∈ Rule.interrupted, EndsIn Label.IsAccept rule) ∧
      (addPaths {} Rule.interrupted).machine.stateCount = 12 := by
  have hrules : ∀ rule ∈ Rule.interrupted, EndsIn Label.IsAccept rule := by
    intro rule hrule
    obtain ⟨glyphs, hglyphs, rfl⟩ := List.mem_map.1 hrule
    have hne : ∀ glyphs ∈ ([[1, 2], [1, 3], [4, 2], [1, 2]] : List (List GlyphId)),
        glyphs ≠ [] := by
      decide
    exact (Rule.regularWith_sequence (hne glyphs hglyphs)).regular.endsIn
  exact ⟨hrules, (stateCount_addPaths hrules).trans (by decide)⟩

end Shaping
