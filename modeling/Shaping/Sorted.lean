/-!
Data kept in ascending order: halving search in an array, and insertion into lists of distinct
16-bit keys. Main statements: `partitionPoint_spec`, halving finds where the leading entries that
satisfy a predicate end, `pairwise_insert`, `mem_insert`, insertion adds a key to a strictly
ascending list and keeps it so, and `filter_byKey`, arranging by key keeps the order of the entries
of each key.
-/

namespace Shaping.Sorted

/-! ### Halving search -/

/-- Halves the stretch from `lo` to `hi` at most `fuel` times. -/
def halve {α : Type} (p : α → Bool) (xs : Array α) : (fuel lo hi : Nat) → Nat
  | 0, lo, _ => lo
  | fuel + 1, lo, hi =>
    if lo < hi then
      let mid := (lo + hi) / 2
      if xs[mid]?.any p then halve p xs fuel (mid + 1) hi else halve p xs fuel lo mid
    else lo

/-- The number of leading entries that satisfy `p`, for an array where no entry that satisfies `p`
follows one that does not. -/
def partitionPoint {α : Type} (p : α → Bool) (xs : Array α) : Nat := halve p xs xs.size 0 xs.size

section
variable {α : Type} {p : α → Bool} {xs : Array α}

theorem halve_spec (hp : ∀ i j : Nat, i ≤ j → xs[j]?.any p → xs[i]?.any p) (fuel lo hi : Nat)
    (hlo : ∀ i, i < lo → xs[i]?.any p) (hhi : ∀ i, hi ≤ i → ¬ xs[i]?.any p) (hle : lo ≤ hi)
    (hf : hi ≤ lo + fuel) (i : Nat) : xs[i]?.any p ↔ i < halve p xs fuel lo hi := by
  induction fuel generalizing lo hi with
  | zero =>
    simp only [halve]
    exact ⟨fun h => Nat.lt_of_not_le fun hn => hhi i (by omega) h, hlo i⟩
  | succ fuel ih =>
    simp only [halve]
    split
    · split
      · rename_i hm
        exact ih _ _ (fun k hk => hp k _ (by omega) hm) hhi (by omega) (by omega)
      · rename_i hm
        exact ih _ _ hlo (fun k hk h => hm (hp _ k hk h)) (by omega) (by omega)
    · exact ⟨fun h => Nat.lt_of_not_le fun hn => hhi i (by omega) h, hlo i⟩

theorem partitionPoint_spec (hp : ∀ i j : Nat, i ≤ j → xs[j]?.any p → xs[i]?.any p) (i : Nat) :
    xs[i]?.any p ↔ i < partitionPoint p xs :=
  halve_spec hp _ _ _ (by omega) (fun k hk => by simp [Array.getElem?_eq_none hk]) (by omega)
    (by omega) i

end

/-! ### Distinct keys in ascending order -/

/-- Adds a key to a list of ascending keys. -/
def insert (k : UInt16) : List UInt16 → List UInt16
  | [] => [k]
  | a :: rest => if k < a then k :: a :: rest else if k = a then a :: rest else a :: insert k rest

theorem mem_insert {k a : UInt16} {l : List UInt16} : a ∈ insert k l ↔ a = k ∨ a ∈ l := by
  induction l with
  | nil => simp [insert]
  | cons b rest ih =>
    rw [insert]
    split
    · simp
    · split
      · subst_vars; simp
      · simp only [List.mem_cons, ih]; exact or_left_comm

theorem pairwise_insert {k : UInt16} {l : List UInt16} (h : l.Pairwise (· < ·)) :
    (insert k l).Pairwise (· < ·) := by
  induction l with
  | nil => simp [insert]
  | cons b rest ih =>
    obtain ⟨hb, hrest⟩ := List.pairwise_cons.1 h
    rw [insert]
    split
    · rename_i hk
      exact List.pairwise_cons.2 ⟨fun a ha => by
        rcases List.mem_cons.1 ha with rfl | ha
        · exact hk
        · exact UInt16.lt_trans hk (hb a ha), h⟩
    · split
      · exact h
      · rename_i hk hne
        refine List.pairwise_cons.2 ⟨fun a ha => ?_, ih hrest⟩
        rcases mem_insert.1 ha with rfl | ha
        · exact UInt16.lt_of_le_of_ne (UInt16.not_lt.1 hk) (Ne.symm hne)
        · exact hb a ha

/-- Changes the entry of a key in a list of entries with ascending keys; `f` gets what is stored. -/
def upsert {β : Type} (k : UInt16) (f : Option β → β) : List (UInt16 × β) → List (UInt16 × β)
  | [] => [(k, f none)]
  | (a, b) :: rest =>
    if k < a then (k, f none) :: (a, b) :: rest
    else if k = a then (a, f (some b)) :: rest
    else (a, b) :: upsert k f rest

theorem map_fst_upsert {β : Type} (k : UInt16) (f : Option β → β) (l : List (UInt16 × β)) :
    (upsert k f l).map Prod.fst = insert k (l.map Prod.fst) := by
  induction l with
  | nil => rfl
  | cons b rest ih =>
    rw [upsert, List.map_cons, insert]
    split
    · rfl
    · split
      · rfl
      · simp [ih]

/-! ### Arranging by key -/

/-- The entries whose key does not have bit `i`, and then those whose key has it. -/
def splitBit {α : Type} (key : α → UInt16) (l : List α) (i : UInt16) : List α :=
  l.filter (fun a => key a >>> i &&& 1 = 0) ++ l.filter fun a => key a >>> i &&& 1 ≠ 0

/-- The entries in the order of their keys, those of one key in the order they have. One pass for
each bit, the lowest first, is enough. Insertion in this order never has to look far. -/
def byKey {α : Type} (key : α → UInt16) (l : List α) : List α :=
  [0, 1, 2, 3, 4, 5, 6, 7, 8, 9, 10, 11, 12, 13, 14, 15].foldl (splitBit key) l

theorem mem_splitBit {α : Type} {key : α → UInt16} {l : List α} {i : UInt16} {a : α} :
    a ∈ splitBit key l i ↔ a ∈ l := by
  by_cases h : key a >>> i &&& 1 = 0 <;> simp [splitBit, h]

theorem filter_splitBit {α : Type} (key : α → UInt16) (l : List α) (i k : UInt16) :
    (splitBit key l i).filter (key · = k) = l.filter (key · = k) := by
  rw [splitBit, List.filter_append, List.filter_filter, List.filter_filter]
  by_cases h : k >>> i &&& 1 = 0
  · have hset : l.filter (fun a => decide (key a = k) && decide (key a >>> i &&& 1 ≠ 0)) = [] :=
      List.filter_eq_nil_iff.2 fun a _ ha => by
        simp only [Bool.and_eq_true, decide_eq_true_eq] at ha
        exact ha.2 (ha.1 ▸ h)
    rw [hset, List.append_nil]
    refine List.filter_congr fun a _ => ?_
    by_cases hk : key a = k
    · subst hk; simp [h]
    · simp [hk]
  · have hclear : l.filter (fun a => decide (key a = k) && decide (key a >>> i &&& 1 = 0)) = [] :=
      List.filter_eq_nil_iff.2 fun a _ ha => by
        simp only [Bool.and_eq_true, decide_eq_true_eq] at ha
        exact h (ha.1 ▸ ha.2)
    rw [hclear, List.nil_append]
    refine List.filter_congr fun a _ => ?_
    by_cases hk : key a = k
    · subst hk; simp [h]
    · simp [hk]

theorem mem_byKey {α : Type} {key : α → UInt16} {l : List α} {a : α} : a ∈ byKey key l ↔ a ∈ l := by
  simp only [byKey, List.foldl_cons, List.foldl_nil, mem_splitBit]

theorem filter_byKey {α : Type} (key : α → UInt16) (l : List α) (k : UInt16) :
    (byKey key l).filter (key · = k) = l.filter (key · = k) := by
  simp only [byKey, List.foldl_cons, List.foldl_nil, filter_splitBit]

/-- Entries gathered by key, with the keys ascending; each group keeps the order of its entries. -/
def group {β : Type} (entries : List (UInt16 × β)) : List (UInt16 × List β) :=
  (byKey Prod.fst entries).foldr
    (fun e groups => upsert e.1 (fun g => e.2 :: g.getD []) groups) []

/-- One entry for each key, with the keys ascending; of several entries the last one counts. -/
def latest {β : Type} (entries : List (UInt16 × β)) : List (UInt16 × β) :=
  (byKey Prod.fst entries).foldr (fun e kept => upsert e.1 (fun later => later.getD e.2) kept) []

theorem pairwise_foldr_upsert {β γ : Type} (key : γ → UInt16) (f : γ → Option β → β) (l : List γ) :
    ((l.foldr (fun e kept => upsert (key e) (f e) kept) []).map Prod.fst).Pairwise (· < ·) := by
  induction l with
  | nil => simp
  | cons e rest ih => rw [List.foldr_cons, map_fst_upsert]; exact pairwise_insert ih

theorem pairwise_group {β : Type} (entries : List (UInt16 × β)) :
    ((group entries).map Prod.fst).Pairwise (· < ·) := pairwise_foldr_upsert ..

theorem pairwise_latest {β : Type} (entries : List (UInt16 × β)) :
    ((latest entries).map Prod.fst).Pairwise (· < ·) := pairwise_foldr_upsert ..

end Shaping.Sorted
