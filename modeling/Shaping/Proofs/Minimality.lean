import Shaping.Proofs.Behaviour
import Shaping.Proofs.Renumbering

/-!
A minimized machine has the fewest states. Every class of a machine's states has a partner among the
reachable states of an equivalent machine, a state that is alike to the states of the class; two
classes never share a partner, since states that are alike to one state are alike. So there are no
more classes than reachable states in any equivalent machine.
-/

namespace Shaping.Machine

open Numbered

variable {ℓ : Type} {l m r : Machine ℓ} {s : StateId}

/-! ### Machines that lead to their states only -/

/-- Whatever the entry leads to is a state of the machine. The targets of other rows do not matter,
since no search and no comparison meets them. -/
def Intact (m : Machine ℓ) : Prop := ∀ s, Pool.Reach m.successors m.entry s → s < m.states.size

lemma WellFormed.intact (hm : m.WellFormed) : m.Intact := by
  intro s hs
  cases hs with
  | refl => exact hm.1
  | tail _ hstep => exact hm.successor_lt hstep

lemma Intact.mem_reachable_iff (hm : m.Intact) :
    s ∈ m.reachable ↔ Pool.Reach m.successors m.entry s := by
  have hbounded : Pool.Bounded m.successors m.states.size m.entry :=
    ⟨List.range m.states.size, Nat.le_of_eq List.length_range, fun s hs =>
      List.mem_range.2 (hm s hs)⟩
  rw [reachable, discovery, ← Array.mem_toList_iff, Pool.mem_discover_iff hbounded]

section Comparison

variable [DecidableEq ℓ]

lemma reach_of_reach_pair {p : StateId × StateId}
    (hp : Pool.Reach (l.pairSuccessors r) (l.entry, r.entry) p) :
    Pool.Reach l.successors l.entry p.1 ∧ Pool.Reach r.successors r.entry p.2 := by
  induction hp with
  | refl => exact ⟨.refl, .refl⟩
  | tail _ hstep ih =>
    unfold Pool.Succ pairSuccessors at hstep
    split at hstep
    · obtain ⟨h₁, h₂⟩ := List.of_mem_zip hstep
      exact ⟨ih.1.tail h₁, ih.2.tail h₂⟩
    · exact absurd hstep List.not_mem_nil

theorem Intact.equivalent (hl : l.Intact) (hr : r.Intact) (h : l.bisimilar r = true) :
    Equivalent l r := by
  obtain ⟨hdirection, hlabels⟩ := bisimilar_eq_true_iff.1 h
  have hbounded : Pool.Bounded (l.pairSuccessors r) (l.states.size * r.states.size)
      (l.entry, r.entry) := by
    refine ⟨List.range l.states.size ×ˢ List.range r.states.size, ?_, fun p hp => ?_⟩
    · exact Nat.le_of_eq (by rw [List.length_product, List.length_range, List.length_range])
    · obtain ⟨h₁, h₂⟩ := reach_of_reach_pair hp
      exact List.mem_product.2 ⟨List.mem_range.2 (hl _ h₁), List.mem_range.2 (hr _ h₂)⟩
  have hmem : ∀ p, p ∈ l.pairs r ↔ Pool.Reach (l.pairSuccessors r) (l.entry, r.entry) p := by
    intro p
    rw [pairs, ← Array.mem_toList_iff, Pool.mem_discover_iff hbounded]
  refine ⟨hdirection, fun s t => (s, t) ∈ l.pairs r, fun s t hst => ?_, (hmem _).2 .refl⟩
  refine rows_match_iff.2 ⟨hlabels _ hst, fun p hp => ?_⟩
  exact (hmem p).2 (((hmem _).1 hst).tail hp)

end Comparison

/-! ### Partners -/

theorem exists_alike_of_mem_reachable (hl : l.WellFormed) (hr : r.Intact)
    (h : Alike l r l.entry r.entry) (hs : s ∈ l.reachable) : ∃ t ∈ r.reachable, Alike l r s t := by
  rw [mem_reachable_iff hl] at hs
  induction hs with
  | refl => exact ⟨r.entry, hr.mem_reachable_iff.2 .refl, h⟩
  | tail _ hstep ih =>
    obtain ⟨t, ht, hst⟩ := ih
    obtain ⟨a, ha, rfl⟩ := mem_successors.1 hstep
    -- the transition that was followed has a match in the row of the partner
    obtain ⟨b, hb, -, htarget⟩ := exists_of_mem_forall₂ hst.rows.flip (Array.mem_toList_iff.2 ha)
    have hnext := (hr.mem_reachable_iff.1 ht).tail
      (mem_successors.2 ⟨b, Array.mem_toList_iff.1 hb, rfl⟩)
    exact ⟨b.target, hr.mem_reachable_iff.2 hnext, htarget⟩

section Classes

variable [DecidableEq ℓ] (key : Signature ℓ → UInt64)

/-- **No machine has fewer states than there are classes**, if it is equivalent. -/
theorem count_classes_le (hm : m.WellFormed) (hr : r.Intact) (h : Equivalent m r) :
    (m.classes key).count ≤ r.stateCount := by
  have hpartner : ∀ c : Fin (m.classes key).count, ∃ t ∈ r.reachable, ∃ s ∈ m.reachable,
      (m.classes key).classOf s = c ∧ Alike m r s t := by
    intro c
    obtain ⟨s, hs, hclass⟩ := (settled_classes key hm).onto c c.2
    obtain ⟨t, ht, hst⟩ := exists_alike_of_mem_reachable hm hr h.2 hs
    exact ⟨t, ht, s, hs, hclass, hst⟩
  choose partner hmem state hstate hclass halike using hpartner
  have hinj : partner.Injective := by
    intro c d hcd
    have hsame : Alike m m (state c) (state d) := (halike c).trans (hcd ▸ (halike d).symm)
    have heq := (classOf_eq_iff key hm (hstate c) (hstate d)).2 hsame
    rw [hclass, hclass] at heq
    exact Fin.ext heq
  have hnodup : ((List.finRange (m.classes key).count).map partner).Nodup :=
    (List.nodup_finRange _).map hinj
  have hsub : (List.finRange (m.classes key).count).map partner ⊆ r.reachable.toList := by
    intro t ht
    obtain ⟨c, -, rfl⟩ := List.mem_map.1 ht
    exact Array.mem_toList_iff.2 (hmem c)
  have hle := (hnodup.subperm hsub).length_le
  rwa [List.length_map, List.length_finRange, Array.length_toList] at hle

theorem size_minimizeBy_eq_count (hm : m.WellFormed) :
    (m.minimizeBy key).1.states.size = (m.classes key).count := by
  have hmem : ∀ c, c ∈ (m.classOrder key).items.toList ↔ c ∈ List.range (m.classes key).count := by
    intro c
    rw [List.mem_range]
    constructor
    · intro hc
      obtain ⟨s, hs, rfl⟩ := exists_classOf_eq key hm (Pool.reach_of_mem_discover hc)
      exact (settled_classes key hm).lt s hs
    · intro hc
      obtain ⟨s, hs, rfl⟩ := (settled_classes key hm).onto c hc
      exact classOf_mem_classOrder key hm hs
  have hperm := (List.perm_ext_iff_of_nodup Pool.nodup_discover List.nodup_range).2 hmem
  rw [size_minimizeBy]
  exact hperm.length_eq.trans List.length_range

/-! ### Minimality -/

/-- **A minimized machine is minimal.** No intact machine that compares as alike has fewer reachable
states; all states of the minimized machine are reachable, and the report gives their number and
the number of states there were. -/
theorem minimizeBy_minimal {m : Machine ℓ} (hm : m.WellFormed) :
    (∀ r : Machine ℓ, r.Intact → m.bisimilar r = true →
      (m.minimizeBy key).1.states.size ≤ r.stateCount) ∧
    (∀ s < (m.minimizeBy key).1.states.size, s ∈ (m.minimizeBy key).1.reachable) ∧
    (m.minimizeBy key).1.states.size = (m.minimizeBy key).2.after ∧
    (m.minimizeBy key).2.before = m.stateCount ∧
    (m.minimizeBy key).2.after ≤ (m.minimizeBy key).2.before := by
  have hafter : (m.minimizeBy key).2.after = (m.classes key).count := rfl
  have hbefore : (m.minimizeBy key).2.before = m.stateCount := rfl
  have hsize := size_minimizeBy_eq_count key hm
  refine ⟨fun r hr hmr => ?_, fun s hs => ?_, hsize.trans hafter.symm, hbefore, ?_⟩
  · rw [hsize]
    exact count_classes_le key hm hr (hm.intact.equivalent hr hmr)
  · rw [reachable_minimizeBy key hm]
    exact Array.mem_range.2 hs
  · rw [hafter, hbefore]
    exact (settled_classes key hm).count_le

end Classes

lemma equivalent_greedy : Equivalent greedyUnrolled greedy := by
  refine ⟨rfl, fun s t => (s = 0 ∨ s = 2) ∧ t = 0, ?_, by decide⟩
  rintro s t ⟨rfl | rfl, rfl⟩ <;>
    exact .cons ⟨rfl, by decide⟩ (.cons ⟨rfl, by decide⟩ .nil)

theorem minimizeBy_minimal_greedyUnrolled : greedyUnrolled.WellFormed ∧ greedy.WellFormed ∧
    greedyUnrolled.bisimilar greedy = true ∧
    (greedyUnrolled.minimizeBy fun _ => 7).1.states.size ≤ greedy.stateCount ∧
    (greedyUnrolled.minimizeBy fun _ => 7).2.before = greedyUnrolled.stateCount := by
  have hm : greedyUnrolled.WellFormed := by decide
  have hr : greedy.WellFormed := by decide
  have halike := (bisimilar_iff hm hr).2 equivalent_greedy
  have h := minimizeBy_minimal (fun _ => 7) hm
  exact ⟨hm, hr, halike, h.1 greedy hr.intact halike, h.2.2.2.1⟩

end Shaping.Machine
