import Shaping.Proofs.Walks
import Shaping.Simulation.Search

/-!
What a search finds. The trail of a search has been taken along the walk of its places, and every
accepting walk is still ahead of it: each step keeps both. So a search that ends with a match has
found the first accepting walk in depth-first order, and one that is exhausted has shown that there
is none. Main statement: `Scene.search_spec`.
-/

namespace Shaping

variable {sc : Scene} {ps qs : Places} {t u : Trail} {depth : Nat}

/-! ### Tests -/

namespace View

variable {v : View} {consumed : Array Nat} {p : Predicate Matcher} {index : Nat}

theorem test_eq_accepted_iff : v.test consumed p = some .accepted ↔ p = .accept := by
  cases p <;> simp [test]

theorem test_eq_probed_iff {offset : Int16} : v.test consumed p = some (.probed offset index) ↔
    ∃ matcher flags, p = .probe offset matcher flags ∧
      v.probeIndex? offset flags = some index ∧ v.accepts index matcher flags := by
  cases p with
  | probe offset' matcher flags =>
    simp only [test, Option.map_eq_some_iff, Option.filter_eq_some_iff, Hit.probed.injEq,
      Predicate.probe.injEq]
    constructor
    · rintro ⟨i, ⟨hi, haccepts⟩, rfl, rfl⟩
      exact ⟨matcher, flags, ⟨rfl, rfl, rfl⟩, hi, haccepts⟩
    · rintro ⟨_, _, ⟨rfl, rfl, rfl⟩, hi, haccepts⟩
      exact ⟨index, ⟨hi, haccepts⟩, rfl, rfl⟩
  | consume => simp [test]
  | accept => simp [test]

theorem test_eq_consumed_iff : v.test consumed p = some (.consumed index) ↔
    ∃ matcher flags, p = .consume matcher flags ∧
      v.nextIndex? consumed flags = some index ∧ v.accepts index matcher flags := by
  cases p with
  | consume matcher flags =>
    simp only [test, Option.map_eq_some_iff, Option.filter_eq_some_iff, Hit.consumed.injEq,
      Predicate.consume.injEq]
    constructor
    · rintro ⟨i, ⟨hi, haccepts⟩, rfl⟩
      exact ⟨matcher, flags, ⟨rfl, rfl⟩, hi, haccepts⟩
    · rintro ⟨_, _, ⟨rfl, rfl⟩, hi, haccepts⟩
      exact ⟨index, ⟨hi, haccepts⟩, rfl⟩
  | probe => simp [test]
  | accept => simp [test]

end View

/-! ### Accepting walks -/

/-- From the entry, the transitions at these places can be taken one after the other, and taking
them leads to this trail, up to the place it goes on at. -/
inductive Scene.Takes (sc : Scene) : Places → Trail → Prop
  | entry (n : Nat) : Takes sc [] { state := sc.machine.entry, next := n }
  | step {ps : Places} {t : Trail} {i : Nat} {a : Transition Step} {hit : Hit} (n : Nat)
    (takes : Takes sc ps t) (hi : (sc.machine.row t.state)[i]? = some a)
    (htest : sc.test t.path.consumed a.label.predicate = some hit) (hne : hit ≠ .accepted) :
    Takes sc (ps ++ [i]) { t.descend i a.target hit with next := n }

/-- The walk along these places ends in a transition that accepts, and all before it can be
taken. -/
def Scene.Accepting (sc : Scene) (ps : Places) (t : Trail) (i : Nat) : Prop :=
  sc.Takes ps t ∧ ∃ a, (sc.machine.row t.state)[i]? = some a ∧ a.label.predicate = .accept

namespace Scene.Takes

theorem withNext (h : sc.Takes ps t) (n : Nat) : sc.Takes ps { t with next := n } := by
  cases h with
  | entry => exact .entry n
  | step _ takes hi htest hne => exact .step n takes hi htest hne

theorem nil_iff : sc.Takes [] t ↔ t = { state := sc.machine.entry, next := t.next } := by
  constructor
  · intro h
    generalize hps : ([] : Places) = ps at h
    cases h with
    | entry => rfl
    | step => simp at hps
  · intro h
    rw [h]
    exact .entry _

theorem concat_iff {i : Nat} : sc.Takes (ps ++ [i]) t ↔ ∃ u a hit, sc.Takes ps u ∧
    (sc.machine.row u.state)[i]? = some a ∧
    sc.test u.path.consumed a.label.predicate = some hit ∧ hit ≠ .accepted ∧
    t = { u.descend i a.target hit with next := t.next } := by
  constructor
  · intro h
    generalize hqs : ps ++ [i] = qs at h
    cases h with
    | entry => simp at hqs
    | step n takes hi htest hne =>
      obtain ⟨rfl, rfl⟩ := List.append_singleton_inj.1 hqs
      exact ⟨_, _, _, takes, hi, htest, hne, rfl⟩
  · rintro ⟨u, a, hit, takes, hi, htest, hne, ht⟩
    rw [ht]
    exact .step _ takes hi htest hne

theorem det (h : sc.Takes ps t) (h' : sc.Takes ps u) : t.path = u.path ∧ t.state = u.state := by
  induction h generalizing u with
  | entry =>
    rw [nil_iff.1 h']
    exact ⟨rfl, rfl⟩
  | @step ps t i a hit n takes hi htest hne ih =>
    obtain ⟨w, b, hit', takes', hj, htest', -, hu⟩ := concat_iff.1 h'
    obtain ⟨hpath, hstate⟩ := ih takes'
    rw [← hstate, hi] at hj
    obtain rfl := Option.some.inj hj
    rw [← hpath, htest] at htest'
    obtain rfl := Option.some.inj htest'
    rw [hu]
    simp only [Trail.descend, hpath, hstate, and_self]

theorem of_append (h : sc.Takes (ps ++ qs) t) : ∃ u, sc.Takes ps u := by
  induction qs using List.reverseRecOn generalizing t with
  | nil => exact ⟨t, by simpa using h⟩
  | append_singleton qs i ih =>
    rw [← List.append_assoc] at h
    obtain ⟨u, -, -, takes, -⟩ := concat_iff.1 h
    exact ih takes

end Scene.Takes

@[simp] lemma Trail.taken_descend (t : Trail) (i : Nat) (target : StateId) (hit : Hit) :
    (t.descend i target hit).path.taken = t.path.taken.push (t.state, i) := by
  cases hit <;> rfl

lemma Scene.Takes.size_taken (h : sc.Takes ps t) : t.path.taken.size = ps.length := by
  induction h with
  | entry => rfl
  | step _ _ _ _ _ ih => simp [ih]

/-! ### Going back -/

theorem Trail.ascend_descend {m : Machine Step} {v : View} {a : Transition Step} {hit : Hit}
    {i : Nat} (n : Nat) (hi : (m.row t.state)[i]? = some a)
    (htest : v.test t.path.consumed a.label.predicate = some hit) (hne : hit ≠ .accepted) :
    ascend m { t.descend i a.target hit with next := n } = some { t with next := i + 1 } := by
  obtain ⟨⟨taken, consumed, probed⟩, state, next⟩ := t
  dsimp only at hi htest
  -- the hit and the predicate agree on which of the two stacks has grown
  cases hit with
  | accepted => exact absurd rfl hne
  | probed offset index =>
    obtain ⟨matcher, flags, hp, -⟩ := View.test_eq_probed_iff.1 htest
    simp only [descend, ascend, Array.back?_push, Array.pop_push, hi, Option.map_some, hp]
  | consumed index =>
    obtain ⟨matcher, flags, hp, -⟩ := View.test_eq_consumed_iff.1 htest
    simp only [descend, ascend, Array.back?_push, Array.pop_push, hi, Option.map_some, hp]

theorem Scene.Takes.ascend (h : sc.Takes ps t) : (t.ascend sc.machine = none ∧ ps = []) ∨
    ∃ (qs : Places) (i : Nat) (u : Trail), ps = qs ++ [i] ∧
      t.ascend sc.machine = some { u with next := i + 1 } ∧
      sc.Takes qs { u with next := i + 1 } := by
  cases h with
  | entry => exact .inl ⟨rfl, rfl⟩
  | @step qs u i a hit n takes hi htest hne =>
    exact .inr ⟨qs, i, u, rfl, Trail.ascend_descend n hi htest hne, takes.withNext _⟩

/-! ### One step -/

namespace Trail

variable {test : Predicate Matcher → Option Hit} {row : Array (Transition Step)}

theorem firstHit_none {fuel i : Nat} (hfuel : row.size ≤ i + fuel)
    (h : firstHit test row fuel i = none) {j : Nat} {a : Transition Step} (hj : i ≤ j)
    (ha : row[j]? = some a) : test a.label.predicate = none := by
  induction fuel generalizing i with
  | zero =>
    obtain ⟨hlt, -⟩ := Array.getElem?_eq_some_iff.1 ha
    omega
  | succ fuel ih =>
    rw [firstHit] at h
    cases hi : row[i]? with
    | none =>
      have hi := Array.getElem?_eq_none_iff.1 hi
      obtain ⟨hlt, -⟩ := Array.getElem?_eq_some_iff.1 ha
      omega
    | some b =>
      rw [hi] at h
      cases htest : test b.label.predicate with
      | some hit => simp [htest] at h
      | none =>
        simp only [htest] at h
        obtain rfl | hlt := Nat.eq_or_lt_of_le hj
        · obtain rfl := Option.some.inj (hi.symm.trans ha)
          exact htest
        · exact ih (by omega) h hlt

theorem firstHit_some {fuel i k : Nat} {target : StateId} {hit : Hit}
    (h : firstHit test row fuel i = some (k, target, hit)) : i ≤ k ∧
      (∃ a, row[k]? = some a ∧ a.target = target ∧ test a.label.predicate = some hit) ∧
      ∀ j a, i ≤ j → j < k → row[j]? = some a → test a.label.predicate = none := by
  induction fuel generalizing i with
  | zero => simp [firstHit] at h
  | succ fuel ih =>
    rw [firstHit] at h
    cases hi : row[i]? with
    | none => simp [hi] at h
    | some b =>
      cases htest : test b.label.predicate with
      | some hit' =>
        simp only [hi, htest, Option.some.injEq, Prod.mk.injEq] at h
        obtain ⟨rfl, rfl, rfl⟩ := h
        exact ⟨Nat.le_refl i, ⟨b, hi, rfl, htest⟩, fun j a hj hji => absurd hj (by omega)⟩
      | none =>
        simp only [hi, htest] at h
        obtain ⟨hk, hfound, hearlier⟩ := ih h
        refine ⟨by omega, hfound, fun j a hj hjk ha => ?_⟩
        obtain rfl | hlt := Nat.eq_or_lt_of_le hj
        · obtain rfl := Option.some.inj (hi.symm.trans ha)
          exact htest
        · exact hearlier j a hlt hjk ha

/-- What the trail meets next: the first transition, from its next place on, that can be taken. -/
def meets (sc : Scene) (t : Trail) : Option (Nat × StateId × Hit) :=
  firstHit (sc.test t.path.consumed) (sc.machine.row t.state)
    ((sc.machine.row t.state).size - t.next) t.next

theorem step_of_none (h : t.meets sc = none) : t.step sc depth =
    match t.ascend sc.machine with
    | some u => .inl u
    | none => .inr .exhausted := by
  rw [meets] at h
  cases hup : t.ascend sc.machine <;> simp only [step, h, hup]

theorem step_of_accepted {k : Nat} {target : StateId}
    (h : t.meets sc = some (k, target, .accepted)) :
    t.step sc depth = .inr (.matched t.path) := by
  rw [meets] at h
  simp only [step, h]

theorem step_of_hit {k : Nat} {target : StateId} {hit : Hit}
    (h : t.meets sc = some (k, target, hit)) (hne : hit ≠ .accepted) :
    t.step sc depth = if depth ≤ t.path.taken.size + 1 then .inr .limitReached
      else .inl (t.descend k target hit) := by
  rw [meets] at h
  simp only [step, h]

end Trail

/-- What a step of a search does, by what its trail meets. The trail has been taken along `ps`. -/
inductive Scene.Move (sc : Scene) (depth : Nat) (ps : Places) (t : Trail) : Trail ⊕ Outcome → Prop
  /-- The trail goes on through a transition that can be taken. -/
  | down {k : Nat} {target : StateId} {hit : Hit} (hmeets : t.meets sc = some (k, target, hit))
    (hne : hit ≠ .accepted) (hdepth : ps.length + 1 < depth)
    (takes : sc.Takes (ps ++ [k]) (t.descend k target hit)) :
    Move sc depth ps t (.inl (t.descend k target hit))
  /-- The trail could go on, but it is as long as the depth allows. -/
  | full {k : Nat} {target : StateId} {hit : Hit} (hmeets : t.meets sc = some (k, target, hit))
    (hne : hit ≠ .accepted) (hdepth : depth ≤ ps.length + 1)
    (takes : sc.Takes (ps ++ [k]) (t.descend k target hit)) :
    Move sc depth ps t (.inr .limitReached)
  /-- The trail has come to a transition that accepts. -/
  | accept {k : Nat} {target : StateId} (hmeets : t.meets sc = some (k, target, .accepted)) :
    Move sc depth ps t (.inr (.matched t.path))
  /-- The trail goes back, and on behind the transition that it takes back. -/
  | up {qs : Places} {i : Nat} {u : Trail} (hmeets : t.meets sc = none) (hps : ps = qs ++ [i])
    (hnext : u.next = i + 1) (takes : sc.Takes qs u) : Move sc depth ps t (.inl u)
  /-- The trail is back at the entry. -/
  | stop (hmeets : t.meets sc = none) (hps : ps = []) : Move sc depth ps t (.inr .exhausted)

theorem Scene.Takes.move (h : sc.Takes ps t) (depth : Nat) :
    sc.Move depth ps t (t.step sc depth) := by
  cases hmeets : t.meets sc with
  | none =>
    rw [Trail.step_of_none hmeets]
    obtain ⟨hup, hps⟩ | ⟨qs, i, u, hps, hup, takes⟩ := h.ascend
    · rw [hup]
      exact .stop hmeets hps
    · rw [hup]
      exact .up hmeets hps rfl takes
  | some found =>
    obtain ⟨k, target, hit⟩ := found
    obtain ⟨-, ⟨a, ha, rfl, htest⟩, -⟩ := Trail.firstHit_some hmeets
    by_cases hacc : hit = .accepted
    · subst hacc
      rw [Trail.step_of_accepted hmeets]
      exact .accept hmeets
    · have takes : sc.Takes (ps ++ [k]) (t.descend k a.target hit) := .step 0 h ha htest hacc
      rw [Trail.step_of_hit hmeets hacc, h.size_taken]
      split_ifs with hdepth
      · exact .full hmeets hacc hdepth takes
      · exact .down hmeets hacc (Nat.lt_of_not_le hdepth) takes

/-! ### The frontier -/

namespace Scene

/-- The trail of a search: it has been taken along `ps`, and every accepting walk is still ahead. -/
structure Frontier (sc : Scene) (ps : Places) (t : Trail) : Prop where
  takes : sc.Takes ps t
  ahead : ∀ qs u i, sc.Accepting qs u i → Places.Ahead ps t.next (qs ++ [i])

/-- The path is that of the first accepting walk. -/
def Finds (sc : Scene) (path : Match) : Prop :=
  ∃ ps t i, t.path = path ∧ sc.Accepting ps t i ∧
    ∀ qs u j, sc.Accepting qs u j → qs ++ [j] = ps ++ [i] ∨ Places.Before (ps ++ [i]) (qs ++ [j])

/-- No walk is accepting. -/
def Refuses (sc : Scene) : Prop := ∀ ps t i, ¬ sc.Accepting ps t i

/-- What a search promises about its outcome. -/
def Promises (sc : Scene) : Outcome → Prop
  | .matched path => sc.Finds path
  | .exhausted => sc.Refuses
  | .limitReached => True

theorem Accepting.exists_test {rest : Places} {i j : Nat} (h : sc.Accepting qs u j)
    (hqs : qs ++ [j] = ps ++ i :: rest) (ht : sc.Takes ps t) :
    ∃ a hit, (sc.machine.row t.state)[i]? = some a ∧
      sc.test t.path.consumed a.label.predicate = some hit ∧ (hit = .accepted ↔ rest = []) := by
  obtain ⟨takes, a, ha, haccept⟩ := h
  cases rest using List.reverseRecOn with
  | nil =>
    obtain ⟨rfl, rfl⟩ := List.append_singleton_inj.1 hqs
    obtain ⟨hpath, hstate⟩ := takes.det ht
    exact ⟨a, .accepted, hstate ▸ ha, by rw [haccept]; rfl, by simp⟩
  | append_singleton rest k =>
    rw [← List.cons_append, ← List.append_assoc] at hqs
    obtain ⟨rfl, rfl⟩ := List.append_singleton_inj.1 hqs
    rw [List.append_cons] at takes
    obtain ⟨w, hw⟩ := takes.of_append
    obtain ⟨w, b, hit, takes', hi, htest, hne, -⟩ := Takes.concat_iff.1 hw
    obtain ⟨hpath, hstate⟩ := takes'.det ht
    exact ⟨b, hit, hstate ▸ hi, hpath ▸ htest, by simp [hne]⟩

namespace Frontier

theorem before_of_none (h : sc.Frontier ps t) (hmeets : t.meets sc = none) {i : Nat}
    (hacc : sc.Accepting qs u i) : Places.Before ps (qs ++ [i]) := by
  obtain hbefore | ⟨j, rest, hj, hqs⟩ := h.ahead qs u i hacc
  · exact hbefore
  · obtain ⟨a, hit, ha, htest, -⟩ := hacc.exists_test hqs h.takes
    rw [Trail.firstHit_none (by omega) hmeets hj ha] at htest
    exact absurd htest (by simp)

/-- Where the trail meets a transition, all accepting walks go through it or come behind it. -/
theorem through_or_before (h : sc.Frontier ps t) {k : Nat} {target : StateId} {hit : Hit}
    (hmeets : t.meets sc = some (k, target, hit)) {i : Nat} (hacc : sc.Accepting qs u i) :
    (∃ rest, qs ++ [i] = ps ++ k :: rest ∧ (hit = .accepted ↔ rest = [])) ∨
      Places.Before (ps ++ [k]) (qs ++ [i]) := by
  obtain ⟨-, ⟨a, ha, -, htest⟩, hearlier⟩ := Trail.firstHit_some hmeets
  obtain hbefore | ⟨j, rest, hj, hqs⟩ := h.ahead qs u i hacc
  · exact .inr (hbefore.concat k)
  · obtain ⟨b, hit', hb, htest', hrest⟩ := hacc.exists_test hqs h.takes
    obtain hlt | rfl | hlt := Nat.lt_trichotomy j k
    · rw [hearlier j b hj hlt hb] at htest'
      exact absurd htest' (by simp)
    · obtain rfl := Option.some.inj (ha.symm.trans hb)
      obtain rfl := Option.some.inj (htest.symm.trans htest')
      exact .inl ⟨rest, hqs, hrest⟩
    · exact .inr (Places.concat_before_iff.2 (.inr ⟨j, rest, hlt, hqs⟩))

/-- A trail that meets a transition that accepts has found the first accepting walk. -/
theorem finds (h : sc.Frontier ps t) {k : Nat} {target : StateId}
    (hmeets : t.meets sc = some (k, target, .accepted)) : sc.Finds t.path := by
  obtain ⟨-, ⟨a, ha, -, htest⟩, -⟩ := Trail.firstHit_some hmeets
  refine ⟨ps, t, k, rfl, ⟨h.takes, a, ha, View.test_eq_accepted_iff.1 htest⟩, fun qs u i hacc => ?_⟩
  obtain ⟨rest, heq, hrest⟩ | hbefore := h.through_or_before hmeets hacc
  · obtain rfl := hrest.1 rfl
    exact .inl heq
  · exact .inr hbefore

/-- **One step keeps the frontier**, or ends the search with what it promises. -/
theorem step (h : sc.Frontier ps t) (depth : Nat) :
    match t.step sc depth with
    | .inl u => ∃ qs, sc.Frontier qs u
    | .inr outcome => sc.Promises outcome := by
  have hmove := h.takes.move depth
  generalize t.step sc depth = next at hmove ⊢
  cases hmove with
  | full => trivial
  | accept hmeets => exact h.finds hmeets
  | stop hmeets hps =>
    subst hps
    exact fun qs u i hacc => Places.not_nil_before (h.before_of_none hmeets hacc)
  | @up qs i u hmeets hps hnext takes =>
    subst hps
    refine ⟨qs, takes, fun rs w j hacc => ?_⟩
    rw [hnext]
    exact Places.concat_before_iff.1 (h.before_of_none hmeets hacc)
  | @down k target hit hmeets hne _ takes =>
    refine ⟨ps ++ [k], takes, fun qs u i hacc => ?_⟩
    obtain ⟨rest, heq, hrest⟩ | hbefore := h.through_or_before hmeets hacc
    · obtain ⟨j, rest, rfl⟩ := List.exists_cons_of_ne_nil (mt hrest.2 hne)
      exact .inr ⟨j, rest, Nat.zero_le j, by simpa using heq⟩
    · exact .inl hbefore

theorem search (h : sc.Frontier ps t) (depth fuel : Nat) :
    sc.Promises (Trail.search sc depth fuel t) := by
  induction fuel generalizing ps t with
  | zero => trivial
  | succ fuel ih =>
    have hstep := h.step depth
    rw [Trail.search]
    cases hnext : t.step sc depth with
    | inl u =>
      rw [hnext] at hstep
      obtain ⟨qs, hu⟩ := hstep
      exact ih hu
    | inr outcome =>
      rw [hnext] at hstep
      exact hstep

end Frontier

/-- **The search keeps its promise**: a match is the first accepting walk in depth-first order, and
a search is exhausted only where there is none. -/
theorem search_spec (sc : Scene) (depth : Nat) : sc.Promises (sc.search depth) := by
  have hstart : sc.Frontier [] { state := sc.machine.entry } := by
    refine ⟨.entry 0, fun qs u i _ => .inr ?_⟩
    obtain ⟨j, rest, h⟩ := List.exists_cons_of_ne_nil (List.append_ne_nil_of_right_ne_nil qs
      (List.cons_ne_nil i []))
    exact ⟨j, rest, Nat.zero_le j, h⟩
  exact hstart.search _ _

end Scene

end Shaping
