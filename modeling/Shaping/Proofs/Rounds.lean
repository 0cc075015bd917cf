import Mathlib.Logic.Function.Iterate
import Mathlib.Order.Bounds.Basic
import Shaping.Proofs.Behaviour

/-!
The rounds of splitting one by one. A round splits classes and joins none, so the number of classes
never goes down, and a round that leaves it as it is has split no class. There are no more classes
than states, so such a round comes before there have been more rounds than states. The loop ends
with the first of them, and then two states share a class exactly if their rows match up to classes.
Main statement: `minimizeBy_rounds`.
-/

namespace Shaping.Machine

section Rounds

variable {ℓ : Type} [DecidableEq ℓ] (key : Signature ℓ → UInt64) {m : Machine ℓ}
  {states : Array StateId} {p : Partition} {fuel last : Nat}

/-- The classes after `n` rounds that split the reachable states. -/
def afterRounds (m : Machine ℓ) (n : Nat) : Partition :=
  (m.refine key m.reachable)^[n] m.oneClass

/-- The round after `n` rounds leaves the number of classes as it is. -/
def Repeats (m : Machine ℓ) (n : Nat) : Prop :=
  (m.afterRounds key (n + 1)).count = (m.afterRounds key n).count

/-! ### The loop -/

/-- **The loop ends with the first round that adds no class**, whatever fuel is left. -/
theorem refineAll_eq_iterate (hlast : IsLeast
    {n | ((m.refine key states)^[n + 1] p).count = ((m.refine key states)^[n] p).count} last)
    (hfuel : last < fuel) :
    m.refineAll key states fuel p = ((m.refine key states)^[last + 1] p, last + 1) := by
  induction fuel generalizing last p with
  | zero => exact absurd hfuel (Nat.not_lt_zero last)
  | succ fuel ih =>
    rw [refineAll]
    dsimp only
    cases last with
    | zero =>
      have hend : (m.refine key states p).count = p.count := hlast.1
      rw [if_pos hend]
      rfl
    | succ last =>
      have hgoes : ¬ (m.refine key states p).count = p.count := fun hend =>
        absurd (hlast.2 (show 0 ∈ _ from hend)) (Nat.not_succ_le_zero last)
      have hnext : IsLeast {n | ((m.refine key states)^[n + 1] (m.refine key states p)).count =
          ((m.refine key states)^[n] (m.refine key states p)).count} last :=
        ⟨hlast.1, fun n hn => Nat.succ_le_succ_iff.1 (hlast.2 (show n + 1 ∈ _ from hn))⟩
      rw [if_neg hgoes, ih hnext (Nat.lt_of_succ_lt_succ hfuel)]
      rfl

lemma minimizeBy_eq_quotient {n : Nat}
    (h : m.refineAll key m.reachable m.stateCount m.oneClass = (p, n)) : m.minimizeBy key =
      (m.quotient p (representatives p m.reachable), ⟨m.stateCount, p.count, n⟩) := by
  rw [minimizeBy]
  exact h ▸ rfl

/-! ### One round after the other -/

lemma afterRounds_succ (m : Machine ℓ) (n : Nat) :
    m.afterRounds key (n + 1) = m.refine key m.reachable (m.afterRounds key n) :=
  Function.iterate_succ_apply' _ _ _

section WellFormed

variable (hm : m.WellFormed)
include hm

theorem classed_afterRounds (n : Nat) : Classed m m.reachable (m.afterRounds key n) := by
  induction n with
  | zero => exact classed_oneClass hm
  | succ n ih =>
    rw [afterRounds_succ]
    exact ih.refine (closed_reachable hm)

theorem splits_afterRounds (n : Nat) :
    Splits m.reachable (m.afterRounds key (n + 1)) (m.afterRounds key n) := by
  rw [afterRounds_succ]
  exact (classed_afterRounds key hm n).splits_refine

theorem count_afterRounds_le (n : Nat) :
    (m.afterRounds key n).count ≤ (m.afterRounds key (n + 1)).count :=
  (splits_afterRounds key hm n).count_le (classed_afterRounds key hm n)
    (classed_afterRounds key hm (n + 1))

theorem stable_afterRounds (h : m.Repeats key last) :
    Stable m m.reachable (m.afterRounds key (last + 1)) := by
  rw [Repeats, afterRounds_succ] at h
  rw [afterRounds_succ]
  exact (classed_afterRounds key hm last).stable_refine (closed_reachable hm) h

/-- There are too few states for every round to add a class. -/
theorem exists_repeats : ∃ n < m.stateCount, m.Repeats key n := by
  by_contra hnone
  have hgrows : ∀ n ≤ m.stateCount, n < (m.afterRounds key n).count := by
    intro n hn
    induction n with
    | zero => exact Nat.one_pos
    | succ n ih =>
      have hlt := ih (Nat.le_of_succ_le hn)
      have hne : (m.afterRounds key (n + 1)).count ≠ (m.afterRounds key n).count :=
        fun hrepeats => hnone ⟨n, hn, hrepeats⟩
      have hle := count_afterRounds_le key hm n
      omega
  exact absurd (hgrows _ le_rfl)
    (Nat.not_lt_of_le (classed_afterRounds key hm m.stateCount).count_le)

theorem exists_isLeast_repeats : ∃ last < m.stateCount, IsLeast {n | m.Repeats key n} last := by
  classical
  obtain ⟨n, hn, hrepeats⟩ := exists_repeats key hm
  have hex : ∃ n, m.Repeats key n := ⟨n, hrepeats⟩
  exact ⟨Nat.find hex, (Nat.find_min' hex hrepeats).trans_lt hn, Nat.find_spec hex,
    fun n hn => Nat.find_min' hex hn⟩

end WellFormed

/-- **Splitting never joins classes and ends in time.** After every round, states that were in two
classes still are, the classes of the reachable states are numbered without gaps, and there are no
fewer than before. The loop ends with the first round that adds no class, of which there is one
within as many rounds as there are reachable states; more fuel changes nothing. At that point two
states share a class exactly if they have the same labels in order, to targets that share classes;
the minimized machine is the one of these classes. -/
theorem minimizeBy_rounds {m : Machine ℓ} (hm : m.WellFormed) :
    (∀ n, ∀ s ∈ m.reachable, ∀ t ∈ m.reachable,
      (m.afterRounds key n).classOf s ≠ (m.afterRounds key n).classOf t →
        (m.afterRounds key (n + 1)).classOf s ≠ (m.afterRounds key (n + 1)).classOf t) ∧
    (∀ n c, c < (m.afterRounds key n).count ↔
      ∃ s ∈ m.reachable, (m.afterRounds key n).classOf s = c) ∧
    (∀ n, (m.afterRounds key n).count ≤ (m.afterRounds key (n + 1)).count) ∧
    ∃ last < m.stateCount, IsLeast {n | m.Repeats key n} last ∧
      let p := m.afterRounds key (last + 1)
      (∀ fuel, last < fuel → m.refineAll key m.reachable fuel m.oneClass = (p, last + 1)) ∧
      m.minimizeBy key = (m.quotient p (representatives p m.reachable),
        ⟨m.stateCount, p.count, last + 1⟩) ∧
      ∀ s ∈ m.reachable, ∀ t ∈ m.reachable, p.classOf s = p.classOf t ↔
        List.Forall₂ (Matches fun a b => p.classOf a = p.classOf b) (m.row s).toList
          (m.row t).toList := by
  obtain ⟨last, hlt, hlast⟩ := exists_isLeast_repeats key hm
  have hends : ∀ fuel, last < fuel → m.refineAll key m.reachable fuel m.oneClass =
      (m.afterRounds key (last + 1), last + 1) := fun _ => refineAll_eq_iterate key hlast
  refine ⟨fun n s hs t ht hne hst => hne (splits_afterRounds key hm n s hs t ht hst),
    fun n c => ⟨(classed_afterRounds key hm n).onto c, ?_⟩, count_afterRounds_le key hm,
    last, hlt, hlast, hends, ?_, fun s hs t ht => ?_⟩
  · rintro ⟨s, hs, rfl⟩
    exact (classed_afterRounds key hm n).lt s hs
  · exact minimizeBy_eq_quotient key (hends _ hlt)
  · exact (classed_afterRounds key hm (last + 1)).classOf_eq_iff_rows (closed_reachable hm)
      (stable_afterRounds key hm hlast.1) hs ht

end Rounds

theorem minimizeBy_rounds_greedyUnrolled : greedyUnrolled.WellFormed ∧
    ∃ last < 2, (greedyUnrolled.minimizeBy fun _ => 7).2 =
      ⟨2, (greedyUnrolled.afterRounds (fun _ => 7) (last + 1)).count, last + 1⟩ := by
  have hm : greedyUnrolled.WellFormed := by decide
  have hcount : greedyUnrolled.stateCount = 2 := by rw [stateCount, reachable_greedyUnrolled]; rfl
  obtain ⟨-, -, -, last, hlt, -, -, heq, -⟩ := minimizeBy_rounds (fun _ => 7) hm
  rw [hcount] at hlt heq
  exact ⟨hm, last, hlt, by rw [heq]⟩

end Shaping.Machine
