import Shaping.Proofs.Behaviour
import Shaping.Proofs.Interpreter

/-!
Greater depths. The depth bounds how long a path a search may follow, and a search whose path never
fills it does not notice the bound. So where a search with a small depth does not give up, searches
with greater depths take the same steps and end the same way, even if the machine has longer paths;
and where no search of a run gives up, the run is the same. Main statement:
`Simulator.settled_of_le`.
-/

namespace Shaping

variable {sc : Scene} {t : Trail} {depth depth' : Nat}

/-! ### Searches -/

namespace Trail

theorem step_of_le (hle : depth ≤ depth') (h : t.step sc depth ≠ .inr .limitReached) :
    t.step sc depth' = t.step sc depth := by
  cases hmeets : t.meets sc with
  | none => rw [step_of_none hmeets, step_of_none hmeets]
  | some found =>
    obtain ⟨k, target, hit⟩ := found
    by_cases hacc : hit = .accepted
    · subst hacc
      rw [step_of_accepted hmeets, step_of_accepted hmeets]
    · -- the path is shorter than the smaller depth, so it is shorter than the greater
      rw [step_of_hit hmeets hacc] at h ⊢
      rw [step_of_hit hmeets hacc]
      have hshort : ¬ depth ≤ t.path.taken.size + 1 := fun hfull => h (if_pos hfull)
      rw [if_neg hshort, if_neg (by omega)]

/-- **A search that does not give up** is the same with a greater depth. -/
theorem search_of_le (hle : depth ≤ depth') {fuel : Nat}
    (h : search sc depth fuel t ≠ .limitReached) :
    search sc depth' fuel t = search sc depth fuel t := by
  induction fuel generalizing t with
  | zero => exact absurd rfl h
  | succ fuel ih =>
    rw [search] at h
    have hstep : t.step sc depth' = t.step sc depth := by
      refine step_of_le hle fun hlimit => ?_
      rw [hlimit] at h
      exact h rfl
    rw [search, search, hstep]
    cases hnext : t.step sc depth with
    | inl u =>
      rw [hnext] at h
      exact ih h
    | inr outcome => rfl

end Trail

/-- The depths that a search works with are ordered as those it is given. -/
theorem Scene.search_of_le (hle : depth ≤ depth') (h : sc.search depth ≠ .limitReached) :
    sc.search depth' = sc.search depth :=
  Trail.search_of_le (by omega) h

/-! ### Runs -/

namespace Simulator

variable {m : Machine Step} {categories : Option ClassDef} {d d' : UInt64}
  {arithmetic : Arithmetic} {s s' : Simulation} {cursor : Nat}

theorem advance_of_le (hle : d ≤ d')
    (h : advance ⟨m, categories, ⟨d⟩, arithmetic⟩ s cursor = .ok s')
    (hsettled : s'.limitHits = s.limitHits) :
    advance ⟨m, categories, ⟨d'⟩, arithmetic⟩ s cursor = .ok s' := by
  have hsearched := search_ne_limitReached_of_advance h hsettled
  have hsearch : Scene.search ⟨⟨categories, s.run, cursor⟩, m⟩ d'.toNat =
      Scene.search ⟨⟨categories, s.run, cursor⟩, m⟩ d.toNat :=
    Scene.search_of_le (UInt64.le_iff_toNat_le.1 hle) hsearched
  rw [advance] at h ⊢
  dsimp only at h ⊢
  rw [hsearch]
  exact h

theorem loop_of_le (hle : d ≤ d') {fuel : Nat}
    (h : loop ⟨m, categories, ⟨d⟩, arithmetic⟩ fuel s = .ok s')
    (hsettled : s'.limitHits = s.limitHits) :
    loop ⟨m, categories, ⟨d'⟩, arithmetic⟩ fuel s = .ok s' := by
  induction fuel generalizing s with
  | zero => exact h
  | succ fuel ih =>
    rw [loop]
    obtain ⟨hcursor, rfl⟩ | ⟨cursor, s₁, hcursor, hadvance, hrest⟩ := loop_cases h
    · rw [hcursor]
    · -- no search gives up behind this position, so none did at it
      have hfirst := limitHits_le_advance hadvance
      have hothers := limitHits_le_loop hrest
      have hsame := advance_of_le hle hadvance (by omega)
      simp only [hcursor, hsame]
      exact ih hrest (by omega)

/-- **A greater depth changes nothing that is settled.** A search that matches or is exhausted at
some depth ends the same way, with the same path, at every greater depth; and a run in which no
search gives up at some depth ends with the same glyphs and the same counts at every greater
depth. -/
theorem settled_of_le (m : Machine Step) (categories : Option ClassDef) (arithmetic : Arithmetic)
    (hle : d ≤ d') :
    (∀ run cursor outcome, outcome ≠ .limitReached →
      Scene.search ⟨⟨categories, run, cursor⟩, m⟩ d.toNat = outcome →
        Scene.search ⟨⟨categories, run, cursor⟩, m⟩ d'.toNat = outcome) ∧
    ∀ run s, simulate ⟨m, categories, ⟨d⟩, arithmetic⟩ run = .ok s → s.limitHits = 0 →
      simulate ⟨m, categories, ⟨d'⟩, arithmetic⟩ run = .ok s := by
  refine ⟨fun run cursor outcome hne h => ?_, fun run s h hsettled => ?_⟩
  · subst h
    exact Scene.search_of_le (UInt64.le_iff_toNat_le.1 hle) hne
  · exact loop_of_le hle h hsettled

theorem settled_of_le_greedy :
    Scene.search ⟨⟨none, .ofIds [1, 1, 2], 0⟩, Machine.greedy⟩ 3 =
      .matched ⟨#[(0, 0), (0, 0)], #[0, 1], #[]⟩ ∧
    simulate ⟨Machine.greedy, none, ⟨3⟩, .checked⟩ (.ofIds [1, 1, 2]) =
      .ok { run := .ofIds [1, 1, 2], cursor := none, applied := 2, limitHits := 0 } ∧
    Scene.search ⟨⟨none, .ofIds [1, 1, 2], 0⟩, Machine.greedy⟩ 256 =
      .matched ⟨#[(0, 0), (0, 0)], #[0, 1], #[]⟩ ∧
    simulate ⟨Machine.greedy, none, ⟨256⟩, .checked⟩ (.ofIds [1, 1, 2]) =
      .ok { run := .ofIds [1, 1, 2], cursor := none, applied := 2, limitHits := 0 } := by
  have hsearch : Scene.search ⟨⟨none, .ofIds [1, 1, 2], 0⟩, Machine.greedy⟩ 3 =
      .matched ⟨#[(0, 0), (0, 0)], #[0, 1], #[]⟩ := by
    decide +kernel
  have hrun : simulate ⟨Machine.greedy, none, ⟨3⟩, .checked⟩ (.ofIds [1, 1, 2]) =
      .ok { run := .ofIds [1, 1, 2], cursor := none, applied := 2, limitHits := 0 } := by
    decide +kernel
  have hle : (3 : UInt64) ≤ 256 := by decide
  obtain ⟨hsearches, hruns⟩ := settled_of_le Machine.greedy none .checked hle
  exact ⟨hsearch, hrun, hsearches _ 0 _ (by simp) hsearch, hruns _ _ hrun rfl⟩

end Simulator

end Shaping
