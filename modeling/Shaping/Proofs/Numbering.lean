import Mathlib.Data.List.Forall2
import Mathlib.Data.List.Nodup
import Shaping.Pool

/-!
Numbering by first appearance, on lists: a value that is new goes behind those that are there, and
its number is its place. Both tables of the library that hand out numbers, the pool and the buckets
of signatures, are read as such a list.
-/

namespace Shaping.Numbered

lemma getElem?_of_begins {α : Type} {l l' : List α} (h : l <+: l') {i : Nat} {a : α}
    (hi : l[i]? = some a) : l'[i]? = some a := by
  obtain ⟨rest, rfl⟩ := h
  rwa [List.getElem?_append_left (List.getElem?_eq_some_iff.1 hi).1]

lemma place_unique {α : Type} {l : List α} (h : l.Nodup) {i j : Nat} {a : α}
    (hi : l[i]? = some a) (hj : l[j]? = some a) : i = j :=
  (List.getElem?_inj (List.getElem?_eq_some_iff.1 hi).1 h).1 (hi.trans hj.symm)

lemma getElem?_of_forall₂ {α β : Type} {R : α → β → Prop} {as : List α} {bs : List β}
    (h : List.Forall₂ R as bs) (i : Nat) : Option.Rel R as[i]? bs[i]? := by
  induction h generalizing i with
  | nil => exact .none
  | cons hab _ ih =>
    cases i with
    | zero => exact .some hab
    | succ i => exact ih i

lemma exists_of_mem_forall₂ {α β : Type} {R : α → β → Prop} {as : List α} {bs : List β}
    (h : List.Forall₂ R as bs) {b : β} (hb : b ∈ bs) : ∃ a ∈ as, R a b := by
  induction h with
  | nil => exact absurd hb List.not_mem_nil
  | @cons a _ _ _ hab _ ih =>
    obtain rfl | hb := List.mem_cons.1 hb
    · exact ⟨a, List.mem_cons_self, hab⟩
    · obtain ⟨a, ha, hab⟩ := ih hb
      exact ⟨a, List.mem_cons_of_mem _ ha, hab⟩

lemma forall₂_concat_iff {α β : Type} {S : α → β → Prop} {as : List α} {bs : List β} {a : α}
    {b : β} : List.Forall₂ S (as ++ [a]) (bs ++ [b]) ↔ List.Forall₂ S as bs ∧ S a b := by
  rw [← List.forall₂_reverse_iff, List.reverse_concat, List.reverse_concat, List.forall₂_cons,
    List.forall₂_reverse_iff, and_comm]

/-- A list whose items all have results is mapped to these. -/
lemma mapM_eq_pure_of_forall₂ {m : Type → Type} [Monad m] [LawfulMonad m] {α β : Type} {f : α → m β}
    {as : List α} {bs : List β} (h : List.Forall₂ (fun a b => f a = pure b) as bs) :
    as.mapM f = pure bs := by
  induction h with
  | nil => exact List.mapM_nil
  | cons hab _ ih => rw [List.mapM_cons, hab, ih, pure_bind, pure_bind]

variable {α β : Type} [BEq α] [LawfulBEq α] [BEq β] [LawfulBEq β]

/-- The list with `a` behind its items, if it is not among them. -/
def addNew (l : List α) (a : α) : List α := if a ∈ l then l else l ++ [a]

/-- The list with the items of another behind its own, each once. -/
def addAll (l as : List α) : List α := as.foldl addNew l

lemma addNew_of_mem {l : List α} {a : α} (h : a ∈ l) : addNew l a = l := if_pos h

lemma addNew_of_notMem {l : List α} {a : α} (h : a ∉ l) : addNew l a = l ++ [a] := if_neg h

@[simp] lemma addAll_nil (l : List α) : addAll l [] = l := rfl

@[simp] lemma addAll_cons (l as : List α) (a : α) :
    addAll l (a :: as) = addAll (addNew l a) as := rfl

lemma addAll_append (l as bs : List α) : addAll l (as ++ bs) = addAll (addAll l as) bs :=
  List.foldl_append

@[simp] theorem mem_addNew {l : List α} {a b : α} : b ∈ addNew l a ↔ b ∈ l ∨ b = a := by
  by_cases h : a ∈ l
  · rw [addNew_of_mem h]
    refine ⟨Or.inl, ?_⟩
    rintro (hb | rfl)
    · exact hb
    · exact h
  · simp [addNew_of_notMem h]

@[simp] theorem mem_addAll {l as : List α} {b : α} : b ∈ addAll l as ↔ b ∈ l ∨ b ∈ as := by
  induction as generalizing l with
  | nil => simp
  | cons a as ih => rw [addAll_cons, ih, mem_addNew, List.mem_cons, or_assoc]

theorem nodup_addNew {l : List α} (h : l.Nodup) (a : α) : (addNew l a).Nodup := by
  by_cases ha : a ∈ l
  · rwa [addNew_of_mem ha]
  · rw [addNew_of_notMem ha]
    exact List.nodup_append.2 ⟨h, by simp, fun b hb c hc => by
      rintro rfl
      exact ha (List.mem_singleton.1 hc ▸ hb)⟩

theorem nodup_addAll {l : List α} (h : l.Nodup) (as : List α) : (addAll l as).Nodup := by
  induction as generalizing l with
  | nil => exact h
  | cons a as ih => exact ih (nodup_addNew h a)

theorem prefix_addNew (l : List α) (a : α) : l <+: addNew l a := by
  by_cases ha : a ∈ l
  · exact ⟨[], by rw [addNew_of_mem ha, List.append_nil]⟩
  · rw [addNew_of_notMem ha]
    exact List.prefix_append _ _

theorem exists_addAll_eq (l as : List α) : ∃ new, new ⊆ as ∧ addAll l as = l ++ new := by
  induction as generalizing l with
  | nil => exact ⟨[], List.Subset.refl [], (List.append_nil l).symm⟩
  | cons a as ih =>
    obtain ⟨new, hnew, heq⟩ := ih (addNew l a)
    rw [addAll_cons, heq]
    by_cases ha : a ∈ l
    · exact ⟨new, List.subset_cons_of_subset a hnew, by rw [addNew_of_mem ha]⟩
    · exact ⟨a :: new, List.cons_subset_cons a hnew, by
        rw [addNew_of_notMem ha, List.append_assoc, List.singleton_append]⟩

theorem prefix_addAll (l as : List α) : l <+: addAll l as := by
  obtain ⟨new, -, heq⟩ := exists_addAll_eq l as
  exact ⟨new, heq.symm⟩

/-! ### Two numberings side by side -/

section Related

variable {R : α → β → Prop}

theorem forall₂_addNew (hR : Relator.BiUnique R) {l : List α} {l' : List β}
    (h : List.Forall₂ R l l') {a : α} {b : β} (hab : R a b) :
    List.Forall₂ R (addNew l a) (addNew l' b) := by
  have hmem : a ∈ l ↔ b ∈ l' := List.rel_mem hR hab h
  by_cases ha : a ∈ l
  · rwa [addNew_of_mem ha, addNew_of_mem (hmem.1 ha)]
  · rw [addNew_of_notMem ha, addNew_of_notMem (mt hmem.2 ha)]
    exact List.rel_append h (.cons hab .nil)

theorem forall₂_addAll (hR : Relator.BiUnique R) {l as : List α} {l' bs : List β}
    (h : List.Forall₂ R l l') (hs : List.Forall₂ R as bs) :
    List.Forall₂ R (addAll l as) (addAll l' bs) := by
  induction hs generalizing l l' with
  | nil => exact h
  | cons hab _ ih => exact ih (forall₂_addNew hR h hab)

end Related

end Shaping.Numbered

namespace Shaping.Pool

open Numbered

variable {α : Type} [BEq α] [LawfulBEq α] [Hashable α]

/-! ### The pool as a list -/

theorem mem_items_iff {p : Pool α} {a : α} : a ∈ p.items.toList ↔ (p.find? a).isSome := by
  rw [Option.isSome_iff_exists, List.mem_iff_getElem?]
  refine exists_congr fun i => ?_
  rw [find?_eq_some_iff, Array.getElem?_toList]

theorem items_intern (p : Pool α) (a : α) :
    (p.intern a).2.items.toList = addNew p.items.toList a := by
  unfold intern
  split
  · rename_i i h
    rw [addNew_of_mem (mem_items_iff.2 (by rw [h]; rfl))]
  · rename_i h
    rw [addNew_of_notMem (fun ha => by rw [mem_items_iff, h] at ha; cases ha)]
    simp [push]

theorem items_foldl_intern (p : Pool α) (as : List α) :
    (as.foldl (fun q b => (q.intern b).2) p).items.toList = addAll p.items.toList as := by
  induction as generalizing p with
  | nil => rfl
  | cons a as ih => rw [List.foldl_cons, ih, items_intern, addAll_cons]

end Shaping.Pool
