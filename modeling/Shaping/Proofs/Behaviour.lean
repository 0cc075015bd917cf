import Shaping.Proofs.Lockstep
import Shaping.Proofs.Quotient

/-!
Comparison, minimization and the runs of machines. Minimization changes no run, the comparison
decides whether two machines behave alike, and two machines behave alike exactly if they have one
minimized form.
-/

namespace Shaping.Machine

/-- The machine that consumes the glyph 1 as long as it can, and then accepts. -/
def greedy : Machine Step where
  states := #[#[⟨.consume (.glyph 1) .none, 0⟩, ⟨.accept, 0⟩]]

/-- The machine `greedy` with its loop unrolled once, and a state that is not reachable. -/
def greedyUnrolled : Machine Step where
  states := #[#[⟨.consume (.glyph 1) .none, 2⟩, ⟨.accept, 0⟩], #[],
    #[⟨.consume (.glyph 1) .none, 0⟩, ⟨.accept, 2⟩]]

lemma reachable_greedyUnrolled : greedyUnrolled.reachable = #[0, 2] := by
  rw [← Array.toList_inj, reachable, discovery, Pool.items_discover]
  rfl

/-! ### Minimization -/

/-- **Minimization changes no run**: whatever the key, a machine and its minimized form end every
run alike, with one run of glyphs, one report, and one fault if there is a fault. -/
theorem simulate_minimizeBy (key : Signature Step → UInt64) {m : Machine Step} (hm : m.WellFormed)
    (categories : Option ClassDef) (options : SimulatorOptions) (arithmetic : Arithmetic)
    (run : GlyphRun) :
    Simulator.simulate ⟨(m.minimizeBy key).1, categories, options, arithmetic⟩ run =
      Simulator.simulate ⟨m, categories, options, arithmetic⟩ run :=
  Simulator.simulate_eq (equivalent_minimizeBy key hm) categories options arithmetic run

theorem simulate_minimizeBy_greedyUnrolled : greedyUnrolled.WellFormed ∧
    Simulator.simulate ⟨(greedyUnrolled.minimizeBy fun _ => 7).1, none, {}, .checked⟩
        (.ofIds [1, 1, 2]) =
      Simulator.simulate ⟨greedyUnrolled, none, {}, .checked⟩ (.ofIds [1, 1, 2]) :=
  ⟨by decide, simulate_minimizeBy (fun _ => 7) (by decide) none {} .checked (.ofIds [1, 1, 2])⟩

/-! ### Comparison -/

/-- **The comparison decides whether machines behave alike.** It answers yes exactly if the
directions agree and there is a bisimulation of the states that relates the entries; it ends, since
a greater bound meets no more pairs; and machines for which it answers yes end every run alike. -/
theorem bisimilar_decides {l r : Machine Step} (hl : l.WellFormed) (hr : r.WellFormed) :
    (l.bisimilar r = true ↔ l.direction = r.direction ∧ ∃ R : StateId → StateId → Prop,
      (∀ s t, R s t → s < l.states.size ∧ t < r.states.size) ∧ IsBisimulation l r R ∧
        R l.entry r.entry) ∧
    (∀ bound, l.states.size * r.states.size ≤ bound →
      (Pool.discover (l.pairSuccessors r) bound (l.entry, r.entry)).items = l.pairs r) ∧
    (l.bisimilar r = true → ∀ categories options arithmetic run,
      Simulator.simulate ⟨l, categories, options, arithmetic⟩ run =
        Simulator.simulate ⟨r, categories, options, arithmetic⟩ run) := by
  refine ⟨⟨fun h => ?_, ?_⟩, fun bound hbound => ?_, fun h categories options arithmetic run => ?_⟩
  · obtain ⟨hdir, hpairs⟩ := bisimilar_eq_true_iff.1 h
    refine ⟨hdir, fun s t => (s, t) ∈ l.pairs r, fun s t hst => ?_,
      isBisimulation_pairs hl hr hpairs, (mem_pairs_iff hl hr).2 .refl⟩
    exact lt_of_mem_pairs hl hr hst
  · rintro ⟨hdir, R, -, hR, hentry⟩
    exact (bisimilar_iff hl hr).2 ⟨hdir, R, hR, hentry⟩
  · exact Array.toList_inj.1 (Pool.items_discover_of_le (bounded_pairs hl hr) hbound)
  · exact Simulator.simulate_eq ((bisimilar_iff hl hr).1 h) categories options arithmetic run

theorem bisimilar_decides_greedy : greedy.WellFormed ∧ greedyUnrolled.WellFormed ∧
    greedy.bisimilar greedyUnrolled = true ∧
    Simulator.simulate ⟨greedy, none, {}, .checked⟩ (.ofIds [1, 1, 2]) =
      Simulator.simulate ⟨greedyUnrolled, none, {}, .checked⟩ (.ofIds [1, 1, 2]) := by
  have hl : greedy.WellFormed := by decide
  have hr : greedyUnrolled.WellFormed := by decide
  have h := bisimilar_decides hl hr
  have hyes : greedy.bisimilar greedyUnrolled = true := by
    refine h.1.2 ⟨rfl, fun s t => s = 0 ∧ (t = 0 ∨ t = 2), ?_, ?_, by decide⟩
    · rintro s t ⟨rfl, rfl | rfl⟩ <;> decide
    · rintro s t ⟨rfl, rfl | rfl⟩ <;>
        exact .cons ⟨rfl, rfl, by decide⟩ (.cons ⟨rfl, rfl, by decide⟩ .nil)
  exact ⟨hl, hr, hyes, h.2.2 hyes none {} .checked (.ofIds [1, 1, 2])⟩

/-! ### Canonical forms -/

/-- **Minimization computes a canonical form**: two machines compare as alike exactly if their
minimized forms are one machine, whatever the keys, and minimizing a minimized machine changes
nothing. -/
theorem bisimilar_iff_minimizeBy_eq {ℓ : Type} [DecidableEq ℓ] (key key' : Signature ℓ → UInt64)
    {l r : Machine ℓ} (hl : l.WellFormed) (hr : r.WellFormed) :
    (l.bisimilar r = true ↔ (l.minimizeBy key).1 = (r.minimizeBy key').1) ∧
      ((l.minimizeBy key).1.minimizeBy key').1 = (l.minimizeBy key).1 := by
  refine ⟨(bisimilar_iff hl hr).trans ⟨minimizeBy_eq_of_equivalent hl hr, fun h => ?_⟩, ?_⟩
  · have hleft := (equivalent_minimizeBy key hl).symm
    rw [h] at hleft
    exact hleft.trans (equivalent_minimizeBy key' hr)
  · exact minimizeBy_eq_of_equivalent (wellFormed_minimizeBy key hl) hl
      (equivalent_minimizeBy key hl)

theorem bisimilar_iff_minimizeBy_eq_greedy : greedy.WellFormed ∧ greedyUnrolled.WellFormed ∧
    (greedy.bisimilar greedyUnrolled = true ↔
      (greedy.minimizeBy fun _ => 7).1 = (greedyUnrolled.minimizeBy hash).1) ∧
    ((greedy.minimizeBy fun _ => 7).1.minimizeBy hash).1 = (greedy.minimizeBy fun _ => 7).1 :=
  ⟨by decide, by decide, bisimilar_iff_minimizeBy_eq (fun _ => 7) hash (by decide) (by decide)⟩

end Shaping.Machine
