import Shaping.Proofs.Splitting

/-!
Minimization yields a canonical form. The classes of the reachable states are those of states that
are alike, so the machine of the classes is equivalent to the machine it comes from; and since the
classes of equivalent machines correspond and are numbered in the same order, equivalent machines
have one minimized form, whatever the keys. Main statements: `equivalent_minimizeBy`,
`minimizeBy_eq_of_equivalent`.
-/

namespace Shaping.Machine

open Numbered

variable {ℓ : Type} {l m r : Machine ℓ} {s t : StateId}

/-! ### Reachable states -/

theorem bounded_successors (hm : m.WellFormed) :
    Pool.Bounded m.successors m.states.size m.entry := by
  refine ⟨List.range m.states.size, Nat.le_of_eq List.length_range, fun s hs => List.mem_range.2 ?_⟩
  induction hs with
  | refl => exact hm.1
  | tail _ hstep _ => exact hm.successor_lt hstep

theorem mem_reachable_iff (hm : m.WellFormed) :
    s ∈ m.reachable ↔ Pool.Reach m.successors m.entry s := by
  rw [reachable, discovery, ← Array.mem_toList_iff, Pool.mem_discover_iff (bounded_successors hm)]

lemma entry_mem_reachable (hm : m.WellFormed) : m.entry ∈ m.reachable :=
  (mem_reachable_iff hm).2 .refl

lemma closed_reachable (hm : m.WellFormed) : Closed m m.reachable := by
  intro s hs t ht
  rw [mem_reachable_iff hm] at hs ⊢
  exact hs.tail ht

lemma lt_of_mem_reachable (hm : m.WellFormed) (hs : s ∈ m.reachable) : s < m.states.size := by
  rw [mem_reachable_iff hm] at hs
  cases hs with
  | refl => exact hm.1
  | tail _ hstep => exact hm.successor_lt hstep

lemma length_successors (m : Machine ℓ) (s : StateId) :
    (m.successors s).length = (m.row s).size := by
  rw [successors, List.length_map, Array.length_toList]

lemma transitionCount_eq (m : Machine ℓ) :
    m.transitionCount = (m.reachable.toList.flatMap m.successors).length := by
  have hlength : ∀ (l : List StateId) (n : Nat),
      l.foldl (fun n s => n + (m.row s).size) n = n + (l.flatMap m.successors).length := by
    intro l
    induction l with
    | nil => exact fun n => rfl
    | cons s l ih =>
      intro n
      rw [List.foldl_cons, ih, List.flatMap_cons, List.length_append, length_successors,
        Nat.add_assoc]
  rw [transitionCount, ← Array.foldl_toList, hlength, Nat.zero_add]

/-! ### The class of all states -/

/-- All states in one class, as before the first round. -/
def oneClass (m : Machine ℓ) : Partition := ⟨Array.replicate m.states.size 0, 1⟩

theorem classed_oneClass (hm : m.WellFormed) : Classed m m.reachable m.oneClass := by
  have hclass : ∀ s, m.oneClass.classOf s = 0 := by
    intro s
    simp only [oneClass, Partition.classOf, Array.getD_eq_getD_getElem?, Array.getElem?_replicate]
    split <;> rfl
  refine ⟨fun s hs => ?_, fun s _ => ?_, fun c hc => ?_, fun s _ t _ _ => ?_⟩
  · simpa [oneClass] using lt_of_mem_reachable hm hs
  · exact (hclass s).symm ▸ Nat.one_pos
  · exact ⟨m.entry, entry_mem_reachable hm, (hclass _).trans (Nat.lt_one_iff.1 hc).symm⟩
  · rw [hclass, hclass]

/-! ### The first states of the classes -/

/-- Where `all` lists the values of `f` by first appearance and `cls` gives their places, the states
that are kept, with those kept before, have the places in order. -/
theorem fold_first {α : Type} [BEq α] [LawfulBEq α] {f : StateId → α} {cls : StateId → Nat}
    {all seen : List α} (hnodup : all.Nodup) {P : StateId → Prop} {ss : List StateId}
    (hP : ∀ s ∈ ss, P s) (hplace : ∀ s ∈ ss, all[cls s]? = some (f s))
    (hall : addAll seen (ss.map f) = all) {firsts : Array StateId}
    (hsize : firsts.size = seen.length)
    (hfirsts : ∀ c s, firsts[c]? = some s → P s ∧ cls s = c) :
    let r := ss.foldl
      (fun firsts s => if cls s = firsts.size then firsts.push s else firsts) firsts
    r.size = all.length ∧ ∀ c s, r[c]? = some s → P s ∧ cls s = c := by
  induction ss generalizing seen firsts with
  | nil =>
    subst hall
    exact ⟨hsize, hfirsts⟩
  | cons s ss ih =>
    have hs := hplace s List.mem_cons_self
    rw [List.map_cons, addAll_cons] at hall
    have hbegins : addNew seen (f s) <+: all := hall ▸ prefix_addAll _ _
    have hP' : ∀ t ∈ ss, P t := fun t ht => hP t (List.mem_cons_of_mem s ht)
    have hplace' : ∀ t ∈ ss, all[cls t]? = some (f t) :=
      fun t ht => hplace t (List.mem_cons_of_mem s ht)
    by_cases hmem : f s ∈ seen
    · -- the value has been seen, so its place is taken
      rw [addNew_of_mem hmem] at hall hbegins
      obtain ⟨i, hi⟩ := List.mem_iff_getElem?.1 hmem
      have hcls : cls s = i := place_unique hnodup hs (getElem?_of_begins hbegins hi)
      have hlt := (List.getElem?_eq_some_iff.1 hi).1
      rw [List.foldl_cons, if_neg (by omega)]
      exact ih hP' hplace' hall hsize hfirsts
    · -- the value is new, so its place is the next
      rw [addNew_of_notMem hmem] at hall hbegins
      have hnext : all[seen.length]? = some (f s) := getElem?_of_begins hbegins (by simp)
      have hcls : cls s = firsts.size := (place_unique hnodup hs hnext).trans hsize.symm
      rw [List.foldl_cons, if_pos hcls]
      refine ih hP' hplace' hall (by simp [hsize]) fun c t hc => ?_
      rw [Array.getElem?_push] at hc
      split at hc
      · rename_i hc'
        obtain rfl := Option.some.inj hc
        exact ⟨hP s List.mem_cons_self, hcls.trans hc'.symm⟩
      · exact hfirsts c t hc

theorem Numbers.representatives [DecidableEq ℓ] {f : StateId → Signature ℓ}
    {states : Array StateId} {p : Partition} (h : Numbers f states p) :
    (representatives p states).size = p.count ∧
      ∀ c s, (representatives p states)[c]? = some s → s ∈ states ∧ p.classOf s = c := by
  rw [h.count, Machine.representatives, ← Array.foldl_toList]
  exact fold_first (nodup_addAll List.nodup_nil _) (fun s hs => Array.mem_toList_iff.1 hs)
    (fun s hs => h.place s (Array.mem_toList_iff.1 hs)) rfl rfl (by simp)

/-! ### The machine of the classes -/

section Quotient

variable [DecidableEq ℓ] (key : Signature ℓ → UInt64)

/-- The classes of a machine's states when the splitting has ended. -/
def classes (m : Machine ℓ) : Partition :=
  (m.refineAll key m.reachable m.reachable.size ⟨Array.replicate m.states.size 0, 1⟩).1

/-- The state that stands for a class. -/
def leader (m : Machine ℓ) (c : Nat) : StateId :=
  (representatives (m.classes key) m.reachable).getD c 0

/-- The classes that a class leads to. -/
def classSuccessors (m : Machine ℓ) (c : Nat) : List Nat :=
  (m.row (m.leader key c)).toList.map fun a => (m.classes key).classOf a.target

/-- The classes that the entry's class leads to, numbered in breadth-first order. -/
def classOrder (m : Machine ℓ) : Pool Nat :=
  Pool.discover (m.classSuccessors key) (representatives (m.classes key) m.reachable).size
    ((m.classes key).classOf m.entry)

/-- A transition with the number of its target's class. -/
def renumbered (m : Machine ℓ) (a : Transition ℓ) : Transition ℓ :=
  ⟨a.label, ((m.classOrder key).find? ((m.classes key).classOf a.target)).getD 0⟩

theorem minimizeBy_fst (m : Machine ℓ) : (m.minimizeBy key).1 =
    { states := (m.classOrder key).items.map fun c =>
        (m.row (m.leader key c)).map (m.renumbered key)
      direction := m.direction } := rfl

section Classes

variable (hm : m.WellFormed)
include hm

theorem settled_classes : Settled m m.reachable (m.classes key) :=
  (classed_oneClass hm).refineAll (closed_reachable hm) (Nat.lt_succ_self _)

theorem classOf_eq_iff (hs : s ∈ m.reachable) (ht : t ∈ m.reachable) :
    (m.classes key).classOf s = (m.classes key).classOf t ↔ Alike m m s t :=
  (settled_classes key hm).classOf_eq_iff (closed_reachable hm) (settled_classes key hm).stable hs
    ht

lemma size_representatives :
    (representatives (m.classes key) m.reachable).size = (m.classes key).count := by
  obtain ⟨f, hf⟩ := (settled_classes key hm).numbered
  exact hf.representatives.1

lemma leader_spec (hs : s ∈ m.reachable) :
    m.leader key ((m.classes key).classOf s) ∈ m.reachable ∧
      (m.classes key).classOf (m.leader key ((m.classes key).classOf s)) =
        (m.classes key).classOf s := by
  obtain ⟨f, hf⟩ := (settled_classes key hm).numbered
  have hlt : (m.classes key).classOf s < (representatives (m.classes key) m.reachable).size :=
    size_representatives key hm ▸ (settled_classes key hm).lt s hs
  refine hf.representatives.2 _ _ ?_
  rw [leader, Array.getD_eq_getD_getElem?, Array.getElem?_eq_getElem hlt, Option.getD_some]

lemma alike_leader (hs : s ∈ m.reachable) :
    Alike m m (m.leader key ((m.classes key).classOf s)) s :=
  (classOf_eq_iff key hm (leader_spec key hm hs).1 hs).1 (leader_spec key hm hs).2

theorem classSuccessors_classOf (hs : s ∈ m.reachable) :
    m.classSuccessors key ((m.classes key).classOf s) =
      (m.row s).toList.map fun a => (m.classes key).classOf a.target := by
  have hm' := closed_reachable hm
  have hrows := hm'.rows_imp hm' (leader_spec key hm hs).1 hs
    (fun a ha b hb => (classOf_eq_iff key hm ha hb).2) (alike_leader key hm hs).rows
  rw [classSuccessors, ← List.forall₂_eq_eq_eq, List.forall₂_map_left_iff,
    List.forall₂_map_right_iff]
  exact hrows.imp fun a b hab => hab.2

theorem exists_classOf_eq {c : Nat}
    (hc : Pool.Reach (m.classSuccessors key) ((m.classes key).classOf m.entry) c) :
    ∃ s ∈ m.reachable, (m.classes key).classOf s = c := by
  induction hc with
  | refl => exact ⟨m.entry, entry_mem_reachable hm, rfl⟩
  | tail _ hstep ih =>
    obtain ⟨s, hs, rfl⟩ := ih
    rw [Pool.Succ, classSuccessors_classOf key hm hs] at hstep
    obtain ⟨a, ha, rfl⟩ := List.mem_map.1 hstep
    exact ⟨a.target, (closed_reachable hm).target_mem hs ha, rfl⟩

theorem bounded_classes : Pool.Bounded (m.classSuccessors key)
    (representatives (m.classes key) m.reachable).size ((m.classes key).classOf m.entry) := by
  refine ⟨List.range (m.classes key).count, ?_, fun c hc => List.mem_range.2 ?_⟩
  · rw [List.length_range, size_representatives key hm]
  · obtain ⟨s, hs, rfl⟩ := exists_classOf_eq key hm hc
    exact (settled_classes key hm).lt s hs

theorem classOf_mem_classOrder (hs : s ∈ m.reachable) :
    (m.classes key).classOf s ∈ (m.classOrder key).items.toList := by
  have hreach := (mem_reachable_iff hm).1 hs
  induction hreach with
  | refl => exact Pool.start_mem_discover
  | @tail s t h hstep ih =>
    have hs' := (mem_reachable_iff hm).2 h
    refine Pool.discover_closed (bounded_classes key hm) (ih hs') ?_
    obtain ⟨a, ha, rfl⟩ := mem_successors.1 hstep
    rw [classSuccessors_classOf key hm hs']
    exact List.mem_map_of_mem (Array.mem_toList_iff.2 ha)

/-- The number of a class is its place. -/
lemma exists_number (hs : s ∈ m.reachable) :
    ∃ i, (m.classOrder key).find? ((m.classes key).classOf s) = some i ∧
      (m.classOrder key).items.toList[i]? = some ((m.classes key).classOf s) := by
  obtain ⟨i, hi⟩ := List.mem_iff_getElem?.1 (classOf_mem_classOrder key hm hs)
  exact ⟨i, Pool.find?_discover.2 hi, hi⟩

end Classes

/-! ### The minimized machine -/

lemma row_minimizeBy {i c : Nat} (hi : (m.classOrder key).items.toList[i]? = some c) :
    (m.minimizeBy key).1.row i = (m.row (m.leader key c)).map (m.renumbered key) := by
  rw [Array.getElem?_toList] at hi
  rw [minimizeBy_fst, row, Array.getD_eq_getD_getElem?, Array.getElem?_map, hi]
  rfl

theorem wellFormed_minimizeBy (hm : m.WellFormed) : (m.minimizeBy key).1.WellFormed := by
  rw [minimizeBy_fst]
  have hlt : ∀ {c i}, (m.classOrder key).items.toList[i]? = some c →
      i < (m.classOrder key).items.size := fun h => by
    simpa using (List.getElem?_eq_some_iff.1 h).1
  refine ⟨?_, fun row hrow b hb => ?_⟩
  · obtain ⟨i, -, hi⟩ := exists_number key hm (entry_mem_reachable hm)
    simpa using Nat.zero_lt_of_lt (hlt hi)
  · obtain ⟨c, hc, rfl⟩ := Array.mem_map.1 hrow
    obtain ⟨a, ha, rfl⟩ := Array.mem_map.1 hb
    -- the row is the leader's, and the leader is a state that is met
    obtain ⟨s, hs, rfl⟩ :=
      exists_classOf_eq key hm (Pool.reach_of_mem_discover (Array.mem_toList_iff.2 hc))
    have htarget := (closed_reachable hm).target_mem (leader_spec key hm hs).1
      (Array.mem_toList_iff.2 ha)
    obtain ⟨i, hfind, hi⟩ := exists_number key hm htarget
    simpa [renumbered, hfind] using hlt hi

/-- **Minimization keeps a machine's behaviour.** A state of the minimized machine is alike to the
states of the class it stands for. -/
theorem equivalent_minimizeBy (hm : m.WellFormed) : Equivalent (m.minimizeBy key).1 m := by
  have hm' := closed_reachable hm
  refine ⟨rfl, fun i s => s ∈ m.reachable ∧
    (m.classOrder key).items.toList[i]? = some ((m.classes key).classOf s), ?_,
    entry_mem_reachable hm, ?_⟩
  · rintro i s ⟨hs, hi⟩
    rw [row_minimizeBy key hi, Array.toList_map, List.forall₂_map_left_iff]
    have hrows : List.Forall₂ (Matches fun a b => b ∈ m.reachable ∧ (m.classOrder key).items.toList[
        ((m.classOrder key).find? ((m.classes key).classOf a)).getD 0]? =
          some ((m.classes key).classOf b)) _ _ :=
      hm'.rows_imp hm' (leader_spec key hm hs).1 hs (fun a ha b hb hab => by
        obtain ⟨j, hfind, hj⟩ := exists_number key hm ha
        rw [hfind, Option.getD_some, hj, (classOf_eq_iff key hm ha hb).2 hab]
        exact ⟨hb, rfl⟩) (alike_leader key hm hs).rows
    exact hrows
  · rw [classOrder, Pool.items_discover]
    exact getElem?_of_begins Pool.prefix_visit rfl

/-! ### Canonicity -/

/-- Classes of two machines correspond if states of theirs are alike. -/
def ClassesAlike (key' : Signature ℓ → UInt64) (l r : Machine ℓ) (c c' : Nat) : Prop :=
  ∃ s ∈ l.reachable, ∃ t ∈ r.reachable,
    Alike l r s t ∧ (l.classes key).classOf s = c ∧ (r.classes key').classOf t = c'

variable {key} {key' : Signature ℓ → UInt64} (hl : l.WellFormed) (hr : r.WellFormed)
include hl hr

theorem biUnique_classesAlike : Relator.BiUnique (ClassesAlike key key' l r) := by
  refine ⟨?_, ?_⟩
  · rintro _ _ _ ⟨s, hs, t, ht, hst, rfl, rfl⟩ ⟨s', hs', t', ht', hst', rfl, htt⟩
    have htt := (classOf_eq_iff key' hr ht' ht).1 htt
    exact (classOf_eq_iff key hl hs hs').2 (hst.trans (hst'.trans htt).symm)
  · rintro _ _ _ ⟨s, hs, t, ht, hst, rfl, rfl⟩ ⟨s', hs', t', ht', hst', hss, rfl⟩
    have hss := (classOf_eq_iff key hl hs' hs).1 hss
    exact (classOf_eq_iff key' hr ht ht').2 (hst.symm.trans (hss.symm.trans hst'))

theorem classSuccessors_alike {c c' : Nat} (h : ClassesAlike key key' l r c c') :
    List.Forall₂ (ClassesAlike key key' l r) (l.classSuccessors key c)
      (r.classSuccessors key' c') := by
  obtain ⟨s, hs, t, ht, hst, rfl, rfl⟩ := h
  rw [classSuccessors_classOf key hl hs, classSuccessors_classOf key' hr ht,
    List.forall₂_map_left_iff, List.forall₂_map_right_iff]
  have hrows := (closed_reachable hl).rows_imp (closed_reachable hr) hs ht
    (fun a ha b hb hab => (⟨a, ha, b, hb, hab, rfl, rfl⟩ : ClassesAlike key key' l r _ _)) hst.rows
  exact hrows.imp fun a b hab => hab.2

theorem classOrder_alike (h : Alike l r l.entry r.entry) :
    List.Forall₂ (ClassesAlike key key' l r) (l.classOrder key).items.toList
      (r.classOrder key').items.toList :=
  Pool.forall₂_discover (biUnique_classesAlike hl hr)
    (fun _ _ => classSuccessors_alike hl hr)
    ⟨_, entry_mem_reachable hl, _, entry_mem_reachable hr, h, rfl, rfl⟩
    (bounded_classes key hl) (bounded_classes key' hr)

theorem renumbered_alike (h : Alike l r l.entry r.entry) {c c' : Nat}
    (hc : ClassesAlike key key' l r c c') :
    (l.row (l.leader key c)).map (l.renumbered key) =
      (r.row (r.leader key' c')).map (r.renumbered key') := by
  obtain ⟨s, hs, t, ht, hst, rfl, rfl⟩ := hc
  have halike := (alike_leader key hl hs).trans (hst.trans (alike_leader key' hr ht).symm)
  have hnumber : ∀ a ∈ l.reachable, ∀ b ∈ r.reachable, Alike l r a b →
      (l.classOrder key).find? ((l.classes key).classOf a) =
        (r.classOrder key').find? ((r.classes key').classOf b) := fun a ha b hb hab =>
    Pool.find?_eq_of_forall₂ (biUnique_classesAlike hl hr) (classOrder_alike hl hr h)
      ⟨a, ha, b, hb, hab, rfl, rfl⟩
  have hrows := (closed_reachable hl).rows_imp (closed_reachable hr) (leader_spec key hl hs).1
    (leader_spec key' hr ht).1 hnumber halike.rows
  rw [← Array.toList_inj, Array.toList_map, Array.toList_map, ← List.forall₂_eq_eq_eq,
    List.forall₂_map_left_iff, List.forall₂_map_right_iff]
  refine hrows.imp fun a b hab => ?_
  rw [renumbered, renumbered, hab.1, hab.2]

/-- **Equivalent machines have one minimized form**, whatever the keys. -/
theorem minimizeBy_eq_of_equivalent (h : Equivalent l r) :
    (l.minimizeBy key).1 = (r.minimizeBy key').1 := by
  have hstates : (l.classOrder key).items.map
        (fun c => (l.row (l.leader key c)).map (l.renumbered key)) =
      (r.classOrder key').items.map
        fun c => (r.row (r.leader key' c)).map (r.renumbered key') := by
    rw [← Array.toList_inj, Array.toList_map, Array.toList_map, ← List.forall₂_eq_eq_eq,
      List.forall₂_map_left_iff, List.forall₂_map_right_iff]
    exact (classOrder_alike hl hr h.2).imp fun c c' hc => renumbered_alike hl hr h.2 hc
  rw [minimizeBy_fst, minimizeBy_fst, hstates, h.1]

end Quotient

end Shaping.Machine
