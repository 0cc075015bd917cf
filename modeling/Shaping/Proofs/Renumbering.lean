import Shaping.Proofs.Quotient

/-!
Machines numbered breadth first. The reachable part of a machine, with its states numbered in the
order in which they are found, is equivalent to the machine, and to number it again changes nothing.
A minimized machine is numbered like this from the start. Main statements: `Renumbers.equivalent`,
`Renumbers.reachable_eq`, `reachable_minimizeBy`.
-/

namespace Shaping

open Numbered

namespace Pool

/-! ### Discovery among the places of a discovery -/

section Places

variable {α : Type} [BEq α] [LawfulBEq α] [Hashable α] {succ : α → List α} {bound : Nat} {start : α}

lemma getElem?_zero_discover : (discover succ bound start).items.toList[0]? = some start := by
  rw [items_discover]
  exact getElem?_of_begins prefix_visit rfl

/-- **Places are found in order**: where each node of a discovery is named by its place, and the
successors of places are the places of successors, a second discovery finds `0`, `1`, `2`, … -/
theorem items_discover_places {succ' : Nat → List Nat} {bound' : Nat}
    (hb : Bounded succ bound start) (hb' : Bounded succ' bound' 0)
    (hsucc : ∀ i a, (discover succ bound start).items.toList[i]? = some a →
      List.Forall₂ (fun j b => (discover succ bound start).items.toList[j]? = some b)
        (succ' i) (succ a)) :
    (discover succ' bound' 0).items.toList =
      List.range (discover succ bound start).items.toList.length := by
  have hR : Relator.BiUnique
      fun (j : Nat) b => (discover succ bound start).items.toList[j]? = some b := by
    refine ⟨fun i a j hi hj => place_unique nodup_discover hi hj, fun i a b ha hb => ?_⟩
    exact Option.some.inj (ha.symm.trans hb)
  have hsame := forall₂_discover hR hsucc getElem?_zero_discover hb' hb
  have hlen := hsame.length_eq
  refine List.ext_getElem (by rw [hlen, List.length_range]) fun i hi hi' => ?_
  rw [List.getElem_range]
  have hplace := (List.forall₂_iff_get.1 hsame).2 i hi (by omega)
  exact place_unique nodup_discover hplace (List.getElem?_eq_getElem _)

end Places

end Pool

namespace Machine

variable {ℓ : Type} {m m' : Machine ℓ} {s : StateId} {i : Nat}

/-! ### The reachable part -/

/-- The number of a reachable state in breadth-first order. -/
def number (m : Machine ℓ) (s : StateId) : Nat := (m.discovery.find? s).getD 0

/-- The reachable part of a machine, numbered breadth first. -/
def compact (m : Machine ℓ) : Machine ℓ where
  states := m.reachable.map fun s => (m.row s).map fun a => ⟨a.label, m.number a.target⟩
  direction := m.direction

/-- `m'` is the reachable part of `m`, numbered breadth first: its states are the places of the
states that the entry of `m` leads to, and the entry has the first place. -/
structure Renumbers (m' m : Machine ℓ) : Prop where
  direction : m'.direction = m.direction
  entry : m'.entry = 0
  first : m.reachable[0]? = some m.entry
  size : m'.states.size = m.reachable.size
  row : ∀ i s, m.reachable[i]? = some s →
    List.Forall₂ (Matches fun j t => m.reachable[j]? = some t) (m'.row i).toList (m.row s).toList

lemma getElem?_reachable : m.reachable[i]? = m.discovery.items.toList[i]? := by
  rw [Array.getElem?_toList]
  rfl

lemma getElem?_zero_reachable : m.reachable[0]? = some m.entry := by
  rw [getElem?_reachable]
  exact Pool.getElem?_zero_discover

lemma getElem?_number (hs : s ∈ m.reachable) : m.reachable[m.number s]? = some s := by
  obtain ⟨i, hi⟩ := Array.mem_iff_getElem?.1 hs
  have hfind : m.discovery.find? s = some i := Pool.find?_eq_some_iff.2 hi
  rw [number, hfind, Option.getD_some]
  exact hi

lemma number_eq (h : m.reachable[i]? = some s) : m.number s = i := by
  have hfind : m.discovery.find? s = some i := Pool.find?_eq_some_iff.2 h
  rw [number, hfind, Option.getD_some]

lemma row_compact (h : m.reachable[i]? = some s) :
    m.compact.row i = (m.row s).map fun a => ⟨a.label, m.number a.target⟩ := by
  rw [row, Array.getD_eq_getD_getElem?, compact, Array.getElem?_map, h]
  rfl

theorem renumbers_compact (hm : m.WellFormed) : m.compact.Renumbers m := by
  refine ⟨rfl, rfl, getElem?_zero_reachable, Array.size_map, fun i s h => ?_⟩
  have hs : s ∈ m.reachable := Array.mem_of_getElem? h
  rw [row_compact h, Array.toList_map, List.forall₂_map_left_iff, List.forall₂_same]
  intro a ha
  exact ⟨rfl, getElem?_number ((closed_reachable hm).target_mem hs ha)⟩

namespace Renumbers

variable (h : m'.Renumbers m)
include h

lemma lt_of_place (hi : m.reachable[i]? = some s) : i < m'.states.size := by
  rw [h.size]
  exact (Array.getElem?_eq_some_iff.1 hi).1

theorem wellFormed : m'.WellFormed := by
  have hplace : ∀ i, i < m'.states.size → ∃ s, m.reachable[i]? = some s := fun i hi =>
    ⟨_, Array.getElem?_eq_getElem (h.size ▸ hi)⟩
  refine ⟨?_, fun row hrow b hb => ?_⟩
  · rw [h.entry]
    exact h.lt_of_place h.first
  · obtain ⟨i, hi, rfl⟩ := Array.getElem_of_mem hrow
    obtain ⟨s, hs⟩ := hplace i hi
    have hb : b ∈ (m'.row i).toList := by
      rw [Machine.row, Array.getD_eq_getD_getElem?, Array.getElem?_eq_getElem hi]
      exact Array.mem_toList_iff.2 hb
    obtain ⟨a, -, hba⟩ := exists_of_mem_forall₂ (h.row i s hs).flip hb
    exact h.lt_of_place hba.2

/-- **Renumbering keeps a machine's behaviour.** -/
theorem equivalent : Equivalent m m' := by
  refine ⟨h.direction.symm, fun s i => m.reachable[i]? = some s, fun s i hi => ?_, ?_⟩
  · exact .flip ((h.row i s hi).imp fun b a hba => ⟨hba.1.symm, hba.2⟩)
  · rw [h.entry]
    exact h.first

/-- **The renumbered machine is numbered breadth first**, and all of its states are reachable. -/
theorem reachable_eq (hm : m.WellFormed) : m'.reachable = Array.range m'.states.size := by
  have hb' := bounded_successors h.wellFormed
  rw [h.entry] at hb'
  have hplaces := Pool.items_discover_places (bounded_successors hm) hb' fun i s hi => by
    have hrow := h.row i s (getElem?_reachable.trans hi)
    rw [successors, successors, List.forall₂_map_left_iff, List.forall₂_map_right_iff]
    exact hrow.imp fun b a hba => getElem?_reachable.symm.trans hba.2
  rw [← Array.toList_inj, Array.toList_range, h.size, reachable, discovery, h.entry, hplaces]
  rfl

end Renumbers

theorem compact_eq_self (hentry : m.entry = 0)
    (hreachable : m.reachable = Array.range m.states.size) (hm : m.WellFormed) :
    m.compact = m := by
  have hnumber : ∀ t < m.states.size, m.number t = t := fun t ht => by
    refine number_eq ?_
    rw [hreachable, Array.getElem?_range, if_pos ht]
  have hstates : m.compact.states = m.states := by
    refine Array.ext (by rw [compact, Array.size_map, hreachable, Array.size_range]) ?_
    intro i hi hi'
    have hrow : m.compact.row i = m.compact.states[i] := by
      rw [row, Array.getD_eq_getD_getElem?, Array.getElem?_eq_getElem hi, Option.getD_some]
    have hrow' : m.row i = m.states[i] := by
      rw [row, Array.getD_eq_getD_getElem?, Array.getElem?_eq_getElem hi', Option.getD_some]
    have hplace : m.reachable[i]? = some i := by
      rw [hreachable, Array.getElem?_range, if_pos hi']
    have hsame : ∀ a ∈ m.row i, (⟨a.label, m.number a.target⟩ : Transition ℓ) = id a :=
      fun a ha => by rw [hnumber _ (hm.target_lt ha), id]
    rw [← hrow, ← hrow', row_compact hplace, Array.map_congr_left hsame, Array.map_id]
  calc m.compact = ⟨m.compact.states, 0, m.direction⟩ := rfl
    _ = ⟨m.states, m.entry, m.direction⟩ := by rw [hstates, hentry]

/-! ### Minimized machines -/

section Minimized

variable [DecidableEq ℓ] (key : Signature ℓ → UInt64)

lemma size_minimizeBy :
    (m.minimizeBy key).1.states.size = (m.classOrder key).items.toList.length := by
  rw [minimizeBy_fst, Array.size_map, Array.length_toList]

/-- **A minimized machine is numbered breadth first**, and all of its states are reachable. -/
theorem reachable_minimizeBy (hm : m.WellFormed) :
    (m.minimizeBy key).1.reachable = Array.range (m.minimizeBy key).1.states.size := by
  have hplaces := Pool.items_discover_places (bounded_classes key hm)
    (bounded_successors (wellFormed_minimizeBy key hm)) fun i c hi => by
      -- the class is that of a reachable state, so its leader's targets have classes with places
      obtain ⟨s, hs, rfl⟩ := exists_classOf_eq key hm
        (Pool.reach_of_mem_discover (List.mem_of_getElem? hi))
      rw [successors, row_minimizeBy key hi, classSuccessors, Array.toList_map, List.map_map,
        List.forall₂_map_left_iff, List.forall₂_map_right_iff, List.forall₂_same]
      intro a ha
      have htarget := (closed_reachable hm).target_mem (leader_spec key hm hs).1 ha
      obtain ⟨j, hfind, hj⟩ := exists_number key hm htarget
      rw [Function.comp_apply, renumbered, hfind]
      exact hj
  rw [← Array.toList_inj, Array.toList_range, size_minimizeBy]
  exact hplaces

end Minimized

end Machine

end Shaping
