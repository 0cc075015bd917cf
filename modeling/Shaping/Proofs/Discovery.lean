import Mathlib.Data.List.Perm.Subperm
import Mathlib.Logic.Relation
import Shaping.Proofs.Numbering

/-!
Breadth-first discovery finds exactly the nodes that the start leads to, each once. What holds
throughout is that the items begin with those there were, that no item is there twice, and that the
successors of every item whose turn has come are items. When the bound is at least the number of
nodes there are to find, every item has had its turn, so the items are closed under successors, and
a greater bound finds nothing more.

Two discoveries in graphs that correspond node by node find corresponding nodes in the same order.
-/

namespace Shaping.Pool

open Numbered

/-- `b` is a successor of `a`. -/
def Succ {α : Type} (succ : α → List α) (a b : α) : Prop := b ∈ succ a

/-- The nodes that `start` leads to. -/
def Reach {α : Type} (succ : α → List α) (start : α) : α → Prop :=
  Relation.ReflTransGen (Succ succ) start

/-- At most `bound` nodes are there to find. -/
def Bounded {α : Type} (succ : α → List α) (bound : Nat) (start : α) : Prop :=
  ∃ nodes : List α, nodes.length ≤ bound ∧ ∀ a, Reach succ start a → a ∈ nodes

section Search

variable {α : Type} [BEq α] [LawfulBEq α] {succ : α → List α} {l : List α} {fuel next : Nat}

/-! ### The search on a list -/

/-- The items of a search as a list: those from place `next` on have their successors added, in
order, for at most `fuel` of them. -/
def visit (succ : α → List α) : (fuel next : Nat) → List α → List α
  | 0, _, l => l
  | fuel + 1, next, l =>
    match l[next]? with
    | none => l
    | some a => visit succ fuel (next + 1) (addAll l (succ a))

lemma visit_of_length_le (h : l.length ≤ next) : visit succ fuel next l = l := by
  cases fuel with
  | zero => rfl
  | succ fuel => simp only [visit, List.getElem?_eq_none h]

lemma visit_succ {a : α} (h : l[next]? = some a) :
    visit succ (fuel + 1) next l = visit succ fuel (next + 1) (addAll l (succ a)) := by
  simp only [visit, h]

theorem forall_mem_visit {P : α → Prop} (hP : ∀ a, P a → ∀ b ∈ succ a, P b)
    (hl : ∀ a ∈ l, P a) : ∀ a ∈ visit succ fuel next l, P a := by
  induction fuel generalizing next l with
  | zero => exact hl
  | succ fuel ih =>
    cases h : l[next]? with
    | none => rwa [visit_of_length_le (List.getElem?_eq_none_iff.1 h)]
    | some a =>
      rw [visit_succ h]
      refine ih fun b hb => ?_
      rcases mem_addAll.1 hb with hb | hb
      · exact hl b hb
      · exact hP a (hl a (List.mem_of_getElem? h)) b hb

theorem nodup_visit (h : l.Nodup) : (visit succ fuel next l).Nodup := by
  induction fuel generalizing next l with
  | zero => exact h
  | succ fuel ih =>
    cases ha : l[next]? with
    | none => rwa [visit_of_length_le (List.getElem?_eq_none_iff.1 ha)]
    | some a => rw [visit_succ ha]; exact ih (nodup_addAll h _)

theorem prefix_visit : l <+: visit succ fuel next l := by
  induction fuel generalizing next l with
  | zero => exact List.prefix_rfl
  | succ fuel ih =>
    cases h : l[next]? with
    | none =>
      exact ⟨[], by rw [visit_of_length_le (List.getElem?_eq_none_iff.1 h), List.append_nil]⟩
    | some a =>
      rw [visit_succ h]
      exact (prefix_addAll l _).trans ih

/-- **The exit argument.** If every item had its turn within the fuel, the items are closed under
successors. -/
theorem visit_closed (hdone : ∀ i < next, ∀ a, l[i]? = some a → succ a ⊆ l)
    (hfuel : (visit succ fuel next l).length ≤ next + fuel) :
    ∀ a ∈ visit succ fuel next l, succ a ⊆ visit succ fuel next l := by
  have hstop : ∀ {l : List α} {next}, (∀ i < next, ∀ a, l[i]? = some a → succ a ⊆ l) →
      l.length ≤ next → ∀ a ∈ l, succ a ⊆ l := by
    intro l next hdone hle a ha
    obtain ⟨i, hi⟩ := List.mem_iff_getElem?.1 ha
    exact hdone i (Nat.lt_of_lt_of_le (List.getElem?_eq_some_iff.1 hi).1 hle) a hi
  induction fuel generalizing next l with
  | zero => exact hstop hdone hfuel
  | succ fuel ih =>
    cases h : l[next]? with
    | none =>
      have hle := List.getElem?_eq_none_iff.1 h
      rw [visit_of_length_le hle]
      exact hstop hdone hle
    | some a =>
      rw [visit_succ h] at hfuel ⊢
      refine ih (fun i hi b hb => ?_) (by omega)
      -- the item whose turn it was has its successors now, the earlier ones had theirs
      have hold : ∀ j ≤ next, (addAll l (succ a))[j]? = l[j]? := by
        intro j hj
        obtain ⟨rest, hrest⟩ := prefix_addAll l (succ a)
        have hn := (List.getElem?_eq_some_iff.1 h).1
        rw [← hrest, List.getElem?_append_left (by omega)]
      rw [hold i (by omega)] at hb
      intro c hc
      rcases Nat.lt_succ_iff_lt_or_eq.1 hi with hi | rfl
      · exact mem_addAll.2 (Or.inl (hdone i hi b hb hc))
      · obtain rfl : a = b := Option.some.inj (h.symm.trans hb)
        exact mem_addAll.2 (Or.inr hc)

theorem visit_add (hfuel : (visit succ fuel next l).length ≤ next + fuel) (more : Nat) :
    visit succ (fuel + more) next l = visit succ fuel next l := by
  induction fuel generalizing next l with
  | zero => exact visit_of_length_le hfuel
  | succ fuel ih =>
    cases h : l[next]? with
    | none =>
      have hle := List.getElem?_eq_none_iff.1 h
      rw [visit_of_length_le hle, visit_of_length_le hle]
    | some a =>
      rw [visit_succ h] at hfuel ⊢
      rw [Nat.add_right_comm, visit_succ h]
      exact ih (by omega)

end Search

/-! ### Discovery -/

section Discover

variable {α : Type} [BEq α] [LawfulBEq α] [Hashable α] {succ : α → List α} {bound : Nat} {start : α}

theorem items_discoverFrom (fuel next : Nat) (p : Pool α) :
    (discoverFrom succ fuel next p).items.toList = visit succ fuel next p.items.toList := by
  induction fuel generalizing next p with
  | zero => rfl
  | succ fuel ih =>
    rw [discoverFrom, visit, Array.getElem?_toList]
    cases p.items[next]? with
    | none => rfl
    | some a => exact (ih _ _).trans (by rw [items_foldl_intern])

theorem items_discover (succ : α → List α) (bound : Nat) (start : α) :
    (discover succ bound start).items.toList = visit succ bound 0 [start] := by
  rw [discover, items_discoverFrom, items_intern]
  rfl

theorem nodup_discover : (discover succ bound start).items.toList.Nodup := by
  rw [items_discover]
  exact nodup_visit (List.nodup_singleton _)

theorem start_mem_discover : start ∈ (discover succ bound start).items.toList := by
  rw [items_discover]
  exact prefix_visit.subset (List.mem_singleton_self _)

theorem reach_of_mem_discover {a : α} (h : a ∈ (discover succ bound start).items.toList) :
    Reach succ start a := by
  rw [items_discover] at h
  refine forall_mem_visit (P := Reach succ start) (fun _ ha b hb => ha.tail hb) ?_ a h
  intro b hb
  rw [List.mem_singleton.1 hb]
  exact .refl

theorem length_discover_le (hb : Bounded succ bound start) :
    (discover succ bound start).items.toList.length ≤ bound := by
  obtain ⟨nodes, hlen, hnodes⟩ := hb
  have hsub : (discover succ bound start).items.toList ⊆ nodes :=
    fun a ha => hnodes a (reach_of_mem_discover ha)
  exact Nat.le_trans (nodup_discover.subperm hsub).length_le hlen

theorem discover_closed (hb : Bounded succ bound start) {a b : α}
    (ha : a ∈ (discover succ bound start).items.toList) (hab : b ∈ succ a) :
    b ∈ (discover succ bound start).items.toList := by
  have hlen := length_discover_le hb
  rw [items_discover] at ha hlen ⊢
  exact visit_closed (by omega) (by omega) a ha hab

/-- **Discovery is exact**: the items are the nodes that the start leads to. -/
theorem mem_discover_iff (hb : Bounded succ bound start) {a : α} :
    a ∈ (discover succ bound start).items.toList ↔ Reach succ start a := by
  refine ⟨reach_of_mem_discover, fun h => ?_⟩
  induction h with
  | refl => exact start_mem_discover
  | tail _ hstep ih => exact discover_closed hb ih hstep

theorem items_discover_of_le (hb : Bounded succ bound start) {more : Nat} (h : bound ≤ more) :
    (discover succ more start).items.toList = (discover succ bound start).items.toList := by
  have hlen := length_discover_le hb
  obtain ⟨k, rfl⟩ := Nat.exists_eq_add_of_le h
  rw [items_discover] at hlen
  rw [items_discover, items_discover, visit_add (by omega)]

theorem find?_discover {a : α} {i : Nat} :
    (discover succ bound start).find? a = some i ↔
      (discover succ bound start).items.toList[i]? = some a := by
  rw [find?_eq_some_iff, Array.getElem?_toList]

end Discover

/-! ### Two graphs that correspond -/

section Related

variable {α β : Type} [BEq α] [LawfulBEq α] [BEq β] [LawfulBEq β] {R : α → β → Prop}
  {succ : α → List α} {succ' : β → List β}

theorem forall₂_visit (hR : Relator.BiUnique R)
    (hsucc : ∀ a b, R a b → List.Forall₂ R (succ a) (succ' b)) {fuel next : Nat} {l : List α}
    {l' : List β} (h : List.Forall₂ R l l') :
    List.Forall₂ R (visit succ fuel next l) (visit succ' fuel next l') := by
  induction fuel generalizing next l l' with
  | zero => exact h
  | succ fuel ih =>
    have hlen := h.length_eq
    by_cases hn : next < l.length
    · have hn' : next < l'.length := by omega
      rw [visit_succ (List.getElem?_eq_getElem hn), visit_succ (List.getElem?_eq_getElem hn')]
      exact ih (forall₂_addAll hR h (hsucc _ _ (List.forall₂_iff_get.1 h |>.2 next hn hn')))
    · rwa [visit_of_length_le (by omega), visit_of_length_le (by omega)]

/-- **Discovery respects correspondence**: from corresponding starts, corresponding nodes are found
in the same order. -/
theorem forall₂_discover [Hashable α] [Hashable β] (hR : Relator.BiUnique R)
    (hsucc : ∀ a b, R a b → List.Forall₂ R (succ a) (succ' b)) {bound bound' : Nat} {start : α}
    {start' : β} (hstart : R start start') (hb : Bounded succ bound start)
    (hb' : Bounded succ' bound' start') :
    List.Forall₂ R (discover succ bound start).items.toList
      (discover succ' bound' start').items.toList := by
  rw [← items_discover_of_le hb (Nat.le_max_left bound bound'),
    ← items_discover_of_le hb' (Nat.le_max_right bound bound'), items_discover, items_discover]
  exact forall₂_visit hR hsucc (.cons hstart .nil)

/-- Where the items of two pools correspond, corresponding nodes have one number. -/
theorem find?_eq_of_forall₂ [Hashable α] [Hashable β] (hR : Relator.BiUnique R) {p : Pool α}
    {q : Pool β} (h : List.Forall₂ R p.items.toList q.items.toList) {a : α} {b : β} (hab : R a b) :
    p.find? a = q.find? b := by
  refine Option.ext fun i => ?_
  rw [find?_eq_some_iff, find?_eq_some_iff, ← Array.getElem?_toList, ← Array.getElem?_toList]
  have hi := getElem?_of_forall₂ h i
  generalize p.items.toList[i]? = x, q.items.toList[i]? = y at hi ⊢
  cases hi with
  | none => simp
  | some hxy =>
    rw [Option.some_inj, Option.some_inj]
    refine ⟨?_, ?_⟩
    · rintro rfl
      exact hR.2 hxy hab
    · rintro rfl
      exact hR.1 hxy hab

end Related

end Shaping.Pool
