import Mathlib.Data.List.Infix
import Shaping.Proofs.Bisimulation

/-!
Walks from the entry of a machine, and their depth-first order. A walk is named by its places: for
each transition, its place among the transitions of the state it leaves. Depth-first order is the
order of places, at the first place where two walks differ; a walk and its beginnings are not
ordered.
-/

namespace Shaping

/-- The transitions of a walk, each as its place in its state. -/
abbrev Places := List Nat

namespace Places

variable {ps qs rs : Places} {i j n : Nat}

/-! ### Depth-first order -/

/-- The first place where the two differ is smaller in the first. -/
def Before : Places → Places → Prop
  | i :: ps, j :: qs => i < j ∨ i = j ∧ Before ps qs
  | _, _ => False

/-- What is still to come when the walks through `ps` have been tried up to the place `n`. -/
def Ahead (ps : Places) (n : Nat) (qs : Places) : Prop :=
  Before ps qs ∨ ∃ j rest, n ≤ j ∧ qs = ps ++ j :: rest

@[simp] lemma not_before_nil : ¬ Before ps [] := by cases ps <;> simp [Before]

@[simp] lemma not_nil_before : ¬ Before [] qs := by simp [Before]

@[simp] lemma cons_before_cons : Before (i :: ps) (j :: qs) ↔ i < j ∨ i = j ∧ Before ps qs := by
  simp [Before]

theorem concat_before_iff : Before (ps ++ [i]) qs ↔ Ahead ps (i + 1) qs := by
  induction ps generalizing qs with
  | nil =>
    cases qs with
    | nil => simp [Ahead]
    | cons j qs =>
      rw [List.nil_append, cons_before_cons, Ahead]
      constructor
      · rintro (h | ⟨-, h⟩)
        · exact .inr ⟨j, qs, h, rfl⟩
        · exact absurd h not_nil_before
      · rintro (h | ⟨k, rest, hk, heq⟩)
        · exact absurd h not_nil_before
        · obtain ⟨rfl, rfl⟩ := List.cons.inj heq
          exact .inl hk
  | cons a ps ih =>
    cases qs with
    | nil => simp [Ahead]
    | cons b qs =>
      rw [List.cons_append, cons_before_cons, ih, Ahead, Ahead, cons_before_cons]
      simp only [List.cons_append, List.cons.injEq]
      constructor
      · rintro (h | ⟨rfl, h | ⟨j, rest, hj, rfl⟩⟩)
        · exact .inl (.inl h)
        · exact .inl (.inr ⟨rfl, h⟩)
        · exact .inr ⟨j, rest, hj, rfl, rfl⟩
      · rintro ((h | ⟨rfl, h⟩) | ⟨j, rest, hj, rfl, rfl⟩)
        · exact .inl h
        · exact .inr ⟨rfl, .inl h⟩
        · exact .inr ⟨rfl, .inr ⟨j, rest, hj, rfl⟩⟩

lemma Before.concat (h : Before ps qs) (i : Nat) : Before (ps ++ [i]) qs :=
  concat_before_iff.2 (.inl h)

@[simp] lemma append_before_append : Before (rs ++ ps) (rs ++ qs) ↔ Before ps qs := by
  induction rs with
  | nil => rfl
  | cons i rs ih => simp [ih]

lemma Before.append (h : Before ps qs) (rs : Places) : Before ps (qs ++ rs) := by
  induction ps generalizing qs with
  | nil => exact absurd h not_nil_before
  | cons i ps ih =>
    cases qs with
    | nil => exact absurd h not_before_nil
    | cons j qs =>
      rw [List.cons_append, cons_before_cons]
      exact (cons_before_cons.1 h).imp_right fun ⟨hij, h⟩ => ⟨hij, ih h⟩

lemma before_irrefl : ¬ Before ps ps := by
  induction ps with
  | nil => simp
  | cons i ps ih => simp [ih]

theorem Before.asymm (h : Before ps qs) : ¬ Before qs ps := by
  induction ps generalizing qs with
  | nil => exact absurd h not_nil_before
  | cons i ps ih =>
    cases qs with
    | nil => exact not_nil_before
    | cons j qs =>
      rw [cons_before_cons] at h ⊢
      rintro (h' | ⟨hij, h'⟩) <;> obtain h | ⟨hji, h⟩ := h
      · omega
      · omega
      · omega
      · exact ih h h'

/-- Depth-first order is a part of the lexicographic order of places. -/
theorem Before.lt (h : Before ps qs) : ps < qs := by
  induction ps generalizing qs with
  | nil => exact absurd h not_nil_before
  | cons i ps ih =>
    cases qs with
    | nil => exact absurd h not_before_nil
    | cons j qs =>
      rw [List.cons_lt_cons_iff]
      exact (cons_before_cons.1 h).imp_right fun ⟨hij, h⟩ => ⟨hij, ih h⟩

/-- The other part is that walks come behind those that they continue. -/
lemma lt_append_cons (ps : Places) (i : Nat) (qs : Places) : ps < ps ++ i :: qs := by
  induction ps with
  | nil => exact List.nil_lt_cons i qs
  | cons j ps ih => exact List.cons_lt_cons_iff.2 (.inr ⟨rfl, ih⟩)

/-- Walks that are not ordered continue each other. -/
theorem prefix_or_before (ps qs : Places) :
    ps <+: qs ∨ qs <+: ps ∨ Before ps qs ∨ Before qs ps := by
  induction ps generalizing qs with
  | nil => exact .inl (List.nil_prefix)
  | cons i ps ih =>
    cases qs with
    | nil => exact .inr (.inl List.nil_prefix)
    | cons j qs =>
      simp only [cons_before_cons, List.cons_prefix_cons]
      obtain h | rfl | h := Nat.lt_trichotomy i j
      · exact .inr (.inr (.inl (.inl h)))
      · obtain h | h | h | h := ih qs
        · exact .inl ⟨rfl, h⟩
        · exact .inr (.inl ⟨rfl, h⟩)
        · exact .inr (.inr (.inl (.inr ⟨rfl, h⟩)))
        · exact .inr (.inr (.inr (.inr ⟨rfl, h⟩)))
      · exact .inr (.inr (.inr (.inl h)))

end Places

namespace Machine

variable {ℓ : Type} {m : Machine ℓ} {ps qs : Places} {ls ks : List ℓ} {s t : StateId} {i : Nat}

/-! ### Walks -/

/-- From the entry, the transitions at these places bear these labels and lead to this state. -/
inductive Walk (m : Machine ℓ) : Places → List ℓ → StateId → Prop
  | entry : Walk m [] [] m.entry
  | step {ps ls s i a} (walk : Walk m ps ls s) (hi : (m.row s)[i]? = some a) :
    Walk m (ps ++ [i]) (ls ++ [a.label]) a.target

theorem walk_nil_iff : m.Walk [] ls s ↔ ls = [] ∧ s = m.entry := by
  constructor
  · intro h
    generalize hps : ([] : Places) = ps at h
    cases h with
    | entry => exact ⟨rfl, rfl⟩
    | step => simp at hps
  · rintro ⟨rfl, rfl⟩
    exact .entry

theorem walk_concat_iff : m.Walk (ps ++ [i]) ls s ↔
    ∃ ks t a, m.Walk ps ks t ∧ (m.row t)[i]? = some a ∧ ls = ks ++ [a.label] ∧ s = a.target := by
  constructor
  · intro h
    generalize hqs : ps ++ [i] = qs at h
    cases h with
    | entry => simp at hqs
    | @step qs ks t j a walk hi =>
      obtain ⟨rfl, rfl⟩ := List.append_singleton_inj.1 hqs
      exact ⟨ks, t, a, walk, hi, rfl, rfl⟩
  · rintro ⟨ks, t, a, walk, hi, rfl, rfl⟩
    exact .step walk hi

theorem Walk.det (h : m.Walk ps ls s) (h' : m.Walk ps ks t) : ls = ks ∧ s = t := by
  induction h generalizing ks t with
  | entry =>
    obtain ⟨rfl, rfl⟩ := walk_nil_iff.1 h'
    exact ⟨rfl, rfl⟩
  | step walk hi ih =>
    obtain ⟨ks, t, b, walk', hj, rfl, rfl⟩ := walk_concat_iff.1 h'
    obtain ⟨rfl, rfl⟩ := ih walk'
    obtain rfl := Option.some.inj (hi.symm.trans hj)
    exact ⟨rfl, rfl⟩

lemma Walk.length_eq (h : m.Walk ps ls s) : ls.length = ps.length := by
  induction h with
  | entry => rfl
  | step _ _ ih => simp [ih]

theorem Walk.of_append (h : m.Walk (ps ++ qs) ls s) : ∃ ks t, m.Walk ps ks t ∧ ks <+: ls := by
  induction qs using List.reverseRecOn generalizing ls s with
  | nil => exact ⟨ls, s, by simpa using h, List.prefix_rfl⟩
  | append_singleton qs i ih =>
    rw [← List.append_assoc] at h
    obtain ⟨ks, t, a, walk, -, rfl, -⟩ := walk_concat_iff.1 h
    obtain ⟨js, u, walk', hjs⟩ := ih walk
    exact ⟨js, u, walk', hjs.trans (List.prefix_append _ _)⟩

/-- A walk that continues another bears its labels first. -/
lemma Walk.labels_of_begins (h : m.Walk ps ls s) (h' : m.Walk qs ks t) (hpre : ps <+: qs) :
    ls <+: ks := by
  obtain ⟨rest, rfl⟩ := hpre
  obtain ⟨js, u, walk, hjs⟩ := h'.of_append
  obtain ⟨rfl, -⟩ := h.det walk
  exact hjs

lemma Walk.place_lt (h : m.Walk ps ls s) (h' : m.Walk (ps ++ i :: qs) ks t) :
    i < (m.row s).size := by
  rw [List.append_cons] at h'
  obtain ⟨js, u, walk, -⟩ := h'.of_append
  obtain ⟨js', u', a, walk', hi, -⟩ := walk_concat_iff.1 walk
  obtain ⟨-, rfl⟩ := h.det walk'
  exact (Array.getElem?_eq_some_iff.1 hi).1

theorem Walk.append_cons_iff (h : m.Walk ps ls s) : m.Walk (ps ++ i :: qs) (ls ++ ks) t ↔
    ∃ a js, (m.row s)[i]? = some a ∧ ks = a.label :: js ∧
      m.Walk (ps ++ [i] ++ qs) (ls ++ [a.label] ++ js) t := by
  constructor
  · intro h'
    have hi := h.place_lt h'
    have hnext : m.Walk (ps ++ [i]) (ls ++ [(m.row s)[i].label]) (m.row s)[i].target :=
      .step h (Array.getElem?_eq_getElem hi)
    rw [List.append_cons] at h'
    obtain ⟨js, hjs⟩ := hnext.labels_of_begins h' (List.prefix_append _ _)
    have hks : ks = (m.row s)[i].label :: js := by simpa using hjs.symm
    exact ⟨_, js, Array.getElem?_eq_getElem hi, hks, by rwa [hjs]⟩
  · rintro ⟨a, js, -, rfl, h'⟩
    simpa using h'

theorem Walk.lt (hm : m.WellFormed) (h : m.Walk ps ls s) : s < m.states.size := by
  cases h with
  | entry => exact hm.1
  | step _ hi => exact hm.target_lt (Array.mem_of_getElem? hi)

end Machine

end Shaping
