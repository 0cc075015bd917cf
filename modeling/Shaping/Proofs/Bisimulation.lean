import Mathlib.Data.List.ProdSigma
import Shaping.Machine.Bisimilar
import Shaping.Proofs.Discovery

/-!
Bisimulations of machines, and what the comparison of two machines decides. A bisimulation relates
states that have the same labels in the same order and whose targets it relates in turn. Main
statement: `bisimilar_iff`, the comparison answers yes exactly if the directions agree and some
bisimulation relates the entries. The pairs that the comparison meets are the least candidate for
such a relation, and every bisimulation of the entries contains them.
-/

namespace Shaping.Machine

open Numbered

variable {ℓ : Type} {l m r : Machine ℓ} {R : StateId → StateId → Prop} {s t u : StateId}

/-! ### States of a well-formed machine -/

lemma row_eq_empty (h : m.states.size ≤ s) : m.row s = #[] := by
  simp [row, Array.getD_eq_getD_getElem?, Array.getElem?_eq_none h]

lemma WellFormed.target_lt (hm : m.WellFormed) {a : Transition ℓ} (ha : a ∈ m.row s) :
    a.target < m.states.size := by
  by_cases hs : s < m.states.size
  · rw [row, Array.getD_eq_getD_getElem?, Array.getElem?_eq_getElem hs, Option.getD_some] at ha
    exact hm.2 _ (Array.getElem_mem hs) a ha
  · rw [row_eq_empty (Nat.le_of_not_lt hs)] at ha
    exact absurd ha (Array.not_mem_empty a)

lemma mem_successors : t ∈ m.successors s ↔ ∃ a ∈ m.row s, a.target = t := by
  simp [successors]

lemma WellFormed.successor_lt (hm : m.WellFormed) (h : t ∈ m.successors s) :
    t < m.states.size := by
  obtain ⟨a, ha, rfl⟩ := mem_successors.1 h
  exact hm.target_lt ha

/-! ### Bisimulations -/

/-- Two transitions have the same label and related targets. -/
def Matches (R : StateId → StateId → Prop) (a b : Transition ℓ) : Prop :=
  a.label = b.label ∧ R a.target b.target

/-- States that `R` relates have equally many transitions, which match in order. -/
def IsBisimulation (l r : Machine ℓ) (R : StateId → StateId → Prop) : Prop :=
  ∀ s t, R s t → List.Forall₂ (Matches R) (l.row s).toList (r.row t).toList

/-- Some bisimulation relates the two states. -/
def Alike (l r : Machine ℓ) (s t : StateId) : Prop := ∃ R, IsBisimulation l r R ∧ R s t

/-- Two machines run in one direction and have entries that are alike. -/
def Equivalent (l r : Machine ℓ) : Prop := l.direction = r.direction ∧ Alike l r l.entry r.entry

lemma Matches.imp {S : StateId → StateId → Prop} (h : ∀ s t, R s t → S s t) {a b : Transition ℓ}
    (hab : Matches R a b) : Matches S a b := ⟨hab.1, h _ _ hab.2⟩

theorem IsBisimulation.row (hR : IsBisimulation l r R) (h : R s t) (i : Nat) :
    Option.Rel (Matches R) (l.row s)[i]? (r.row t)[i]? := by
  simpa using getElem?_of_forall₂ (hR s t h) i

theorem IsBisimulation.size_row (hR : IsBisimulation l r R) (h : R s t) :
    (l.row s).size = (r.row t).size := by
  simpa using (hR s t h).length_eq

theorem IsBisimulation.label (hR : IsBisimulation l r R) (h : R s t) (i : Nat) :
    (l.row s)[i]?.map (·.label) = (r.row t)[i]?.map (·.label) := by
  have hrow := hR.row h i
  generalize (l.row s)[i]? = a, (r.row t)[i]? = b at hrow ⊢
  cases hrow with
  | none => rfl
  | some hab => exact congrArg some hab.1

theorem isBisimulation_alike : IsBisimulation l r (Alike l r) := by
  rintro s t ⟨R, hR, hst⟩
  exact (hR s t hst).imp fun a b => Matches.imp fun s t h => ⟨R, hR, h⟩

theorem Alike.rows (h : Alike l r s t) :
    List.Forall₂ (Matches (Alike l r)) (l.row s).toList (r.row t).toList :=
  isBisimulation_alike s t h

theorem Alike.of_rows (h : List.Forall₂ (Matches (Alike l r)) (l.row s).toList (r.row t).toList) :
    Alike l r s t := by
  refine ⟨fun a b => Alike l r a b ∨ a = s ∧ b = t, ?_, Or.inr ⟨rfl, rfl⟩⟩
  rintro a b (hab | ⟨rfl, rfl⟩)
  · exact hab.rows.imp fun _ _ => Matches.imp fun _ _ => Or.inl
  · exact h.imp fun _ _ => Matches.imp fun _ _ => Or.inl

theorem Alike.refl (m : Machine ℓ) (s : StateId) : Alike m m s s := by
  refine ⟨Eq, ?_, rfl⟩
  rintro s t rfl
  exact List.forall₂_same.2 fun a _ => ⟨rfl, rfl⟩

theorem Alike.symm (h : Alike l r s t) : Alike r l t s := by
  refine ⟨fun t s => Alike l r s t, fun t s hst => ?_, h⟩
  exact .flip (hst.rows.imp fun a b hab => ⟨hab.1.symm, hab.2⟩)

theorem Alike.trans (h : Alike l m s t) (h' : Alike m r t u) : Alike l r s u := by
  refine ⟨fun s u => ∃ t, Alike l m s t ∧ Alike m r t u, ?_, t, h, h'⟩
  rintro s u ⟨t, hst, htu⟩
  obtain ⟨hlen, hget⟩ := List.forall₂_iff_get.1 hst.rows
  obtain ⟨hlen', hget'⟩ := List.forall₂_iff_get.1 htu.rows
  refine List.forall₂_iff_get.2 ⟨hlen.trans hlen', fun i hi hi' => ?_⟩
  obtain ⟨hlabel, htarget⟩ := hget i hi (by omega)
  obtain ⟨hlabel', htarget'⟩ := hget' i (by omega) hi'
  exact ⟨hlabel.trans hlabel', _, htarget, htarget'⟩

theorem Equivalent.symm (h : Equivalent l r) : Equivalent r l := ⟨h.1.symm, h.2.symm⟩

theorem Equivalent.trans (h : Equivalent l m) (h' : Equivalent m r) : Equivalent l r :=
  ⟨h.1.trans h'.1, h.2.trans h'.2⟩

/-! ### The comparison -/

lemma forall₂_matches_iff {as bs : List (Transition ℓ)} :
    List.Forall₂ (Matches R) as bs ↔ as.map (·.label) = bs.map (·.label) ∧
      ∀ p ∈ (as.map (·.target)).zip (bs.map (·.target)), R p.1 p.2 := by
  induction as generalizing bs with
  | nil => cases bs <;> simp
  | cons a as ih =>
    cases bs with
    | nil => simp
    | cons b bs =>
      simp only [List.forall₂_cons, ih, Matches, List.map_cons, List.cons.injEq, List.zip_cons_cons,
        List.forall_mem_cons]
      tauto

section Comparison

variable [DecidableEq ℓ]

/-- Two rows match exactly if the comparison finds no fault with them and the pairs of targets that
it goes on to are related. -/
theorem rows_match_iff : List.Forall₂ (Matches R) (l.row s).toList (r.row t).toList ↔
    l.sameLabels r (s, t) ∧ ∀ p ∈ l.pairSuccessors r (s, t), R p.1 p.2 := by
  have hlabels : l.sameLabels r (s, t) = true ↔
      (l.row s).toList.map (·.label) = (r.row t).toList.map (·.label) := by
    rw [sameLabels, decide_eq_true_iff, ← Array.toList_inj, Array.toList_map, Array.toList_map]
  rw [forall₂_matches_iff, hlabels]
  refine and_congr_right fun h => ?_
  rw [pairSuccessors, if_pos (hlabels.2 h), successors, successors]

lemma lt_of_reach_pair (hl : l.WellFormed) (hr : r.WellFormed) {p : StateId × StateId}
    (hp : Pool.Reach (l.pairSuccessors r) (l.entry, r.entry) p) :
    p.1 < l.states.size ∧ p.2 < r.states.size := by
  induction hp with
  | refl => exact ⟨hl.1, hr.1⟩
  | @tail p q _ hstep _ =>
    unfold Pool.Succ pairSuccessors at hstep
    split at hstep
    · obtain ⟨h₁, h₂⟩ := List.of_mem_zip hstep
      exact ⟨hl.successor_lt h₁, hr.successor_lt h₂⟩
    · exact absurd hstep List.not_mem_nil

theorem bounded_pairs (hl : l.WellFormed) (hr : r.WellFormed) :
    Pool.Bounded (l.pairSuccessors r) (l.states.size * r.states.size) (l.entry, r.entry) := by
  refine ⟨List.range l.states.size ×ˢ List.range r.states.size, ?_, fun p hp => ?_⟩
  · exact Nat.le_of_eq (by rw [List.length_product, List.length_range, List.length_range])
  · rw [List.mem_product, List.mem_range, List.mem_range]
    exact lt_of_reach_pair hl hr hp

lemma mem_pairs_iff (hl : l.WellFormed) (hr : r.WellFormed) {p : StateId × StateId} :
    p ∈ l.pairs r ↔ Pool.Reach (l.pairSuccessors r) (l.entry, r.entry) p := by
  rw [pairs, ← Array.mem_toList_iff, Pool.mem_discover_iff (bounded_pairs hl hr)]

lemma lt_of_mem_pairs (hl : l.WellFormed) (hr : r.WellFormed) (h : (s, t) ∈ l.pairs r) :
    s < l.states.size ∧ t < r.states.size :=
  lt_of_reach_pair hl hr ((mem_pairs_iff hl hr).1 h)

lemma bisimilar_eq_true_iff : l.bisimilar r = true ↔
    l.direction = r.direction ∧ ∀ p ∈ l.pairs r, l.sameLabels r p := by
  rw [bisimilar, Bool.and_eq_true, decide_eq_true_iff, Array.all_eq_true_iff_forall_mem]

theorem isBisimulation_pairs (hl : l.WellFormed) (hr : r.WellFormed)
    (h : ∀ p ∈ l.pairs r, l.sameLabels r p) : IsBisimulation l r fun s t => (s, t) ∈ l.pairs r := by
  intro s t hst
  refine rows_match_iff.2 ⟨h _ hst, fun p hp => ?_⟩
  rw [mem_pairs_iff hl hr] at hst ⊢
  exact hst.tail hp

theorem IsBisimulation.of_mem_pairs (hR : IsBisimulation l r R) (hl : l.WellFormed)
    (hr : r.WellFormed) (hentry : R l.entry r.entry) {p : StateId × StateId} (hp : p ∈ l.pairs r) :
    R p.1 p.2 := by
  rw [mem_pairs_iff hl hr] at hp
  induction hp with
  | refl => exact hentry
  | tail _ hstep ih => exact (rows_match_iff.1 (hR _ _ ih)).2 _ hstep

/-- **The comparison decides equivalence.** -/
theorem bisimilar_iff (hl : l.WellFormed) (hr : r.WellFormed) :
    l.bisimilar r = true ↔ Equivalent l r := by
  rw [bisimilar_eq_true_iff]
  refine and_congr_right fun _ => ⟨fun h => ?_, ?_⟩
  · exact ⟨_, isBisimulation_pairs hl hr h, (mem_pairs_iff hl hr).2 .refl⟩
  · rintro ⟨R, hR, hentry⟩ p hp
    exact (rows_match_iff.1 (hR _ _ (hR.of_mem_pairs hl hr hentry hp))).1

end Comparison

end Shaping.Machine
