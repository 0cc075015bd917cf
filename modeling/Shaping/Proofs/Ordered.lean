import Mathlib.Data.List.Infix
import Mathlib.Data.List.Sort
import Shaping.Rule.GlyphSet

/-!
What is kept in ascending order is found by halving: the search ends at the first entry whose key is
not below the one that is looked for. So a set of glyphs contains what it was made from, and a map
finds it. Grouping by key loses no entry and makes one group for each key. Main statements:
`getElem?_partitionPoint`, `mem_group_iff`, `GlyphSet.contains_ofList`,
`GlyphSet.ofList_eq_ofList_iff`, `GlyphMap.find?_ofList`.
-/

namespace Shaping

/-! ### Halving -/

/-- In a list where an entry that comes before another rules it out, a search finds the entry that
satisfies the test. -/
theorem find?_eq_some_of_pairwise {α : Type} {R : α → α → Prop} {p : α → Bool} {l : List α} {a : α}
    (hl : l.Pairwise R) (ha : a ∈ l) (hp : p a) (hfront : ∀ b ∈ l, R b a → ¬ p b) :
    l.find? p = some a := by
  induction l with
  | nil => exact absurd ha List.not_mem_nil
  | cons b rest ih =>
    obtain ⟨hb, hrest⟩ := List.pairwise_cons.1 hl
    obtain rfl | hmem := List.mem_cons.1 ha
    · exact List.find?_cons_of_pos hp
    · have hnot : ¬ p b := hfront b List.mem_cons_self (hb a hmem)
      rw [List.find?_cons_of_neg hnot]
      exact ih hrest hmem fun c hc => hfront c (List.mem_cons_of_mem b hc)

namespace Sorted

/-- **Halving finds the first entry whose key is not below `k`.** -/
theorem getElem?_partitionPoint {α : Type} {key : α → UInt16} {xs : Array α}
    (h : (xs.toList.map key).Pairwise (· < ·)) (k : UInt16) :
    xs[partitionPoint (key · < k) xs]? = xs.toList.find? (k ≤ key ·) := by
  have hlt : ∀ i j : Nat, i ≤ j → xs[j]?.any (key · < k) → xs[i]?.any (key · < k) := by
    intro i j hij hj
    obtain ⟨b, hb, hbk⟩ := (Option.any_eq_true _ _).1 hj
    obtain ⟨hjlt, rfl⟩ := Array.getElem?_eq_some_iff.1 hb
    rw [Array.getElem?_eq_getElem (hij.trans_lt hjlt)]
    rcases Nat.eq_or_lt_of_le hij with rfl | hij
    · simpa using hbk
    · have hkeys : key xs[i] < key xs[j] := by
        have hpair := List.pairwise_iff_getElem.1 h i j (by simpa using hij.trans hjlt)
          (by simpa using hjlt) hij
        simpa using hpair
      simp only [decide_eq_true_eq] at hbk
      simpa using UInt16.lt_trans hkeys hbk
  have hspec := partitionPoint_spec (p := fun a => decide (key a < k)) hlt
  generalize partitionPoint (key · < k) xs = point at hspec ⊢
  have hbelow : ∀ i, (hi : i < xs.size) → i < point → key xs[i] < k := by
    intro i hi hpoint
    have hany := (hspec i).2 hpoint
    rw [Array.getElem?_eq_getElem hi] at hany
    simpa using hany
  symm
  by_cases hpoint : point < xs.size
  · have hat : ¬ key xs[point] < k := by
      have hany := mt (hspec point).1 (Nat.lt_irrefl point)
      rw [Array.getElem?_eq_getElem hpoint] at hany
      simpa using hany
    rw [Array.getElem?_eq_getElem hpoint, List.find?_eq_some_iff_getElem]
    refine ⟨decide_eq_true (UInt16.not_lt.1 hat), point, by simpa using hpoint, by simp, ?_⟩
    intro j hj
    have hjk := hbelow j (hj.trans hpoint) hj
    simpa using hjk
  · rw [Array.getElem?_eq_none (Nat.le_of_not_lt hpoint), List.find?_eq_none]
    intro a ha
    obtain ⟨i, hi, rfl⟩ := List.mem_iff_getElem.1 ha
    have hik := hbelow i (by simpa using hi) (by simp at hi; omega)
    simpa using hik

/-! ### Groups -/

section Groups

variable {β γ : Type} {k k' : UInt16} {f : Option β → β} {l : List (UInt16 × β)} {b : β}

/-- The entry that is stored for a key. -/
def lookup? (k : UInt16) (l : List (UInt16 × β)) : Option β := (l.find? (·.1 = k)).map (·.2)

theorem mem_iff_lookup? (h : (l.map Prod.fst).Pairwise (· < ·)) :
    (k, b) ∈ l ↔ lookup? k l = some b := by
  rw [lookup?, Option.map_eq_some_iff]
  constructor
  · intro hmem
    have hl : l.Pairwise fun a b => a.1 < b.1 := List.pairwise_map.1 h
    refine ⟨(k, b), find?_eq_some_of_pairwise hl hmem (by simp) fun c _ hc => ?_, rfl⟩
    simpa using UInt16.ne_of_lt hc
  · rintro ⟨⟨k', b'⟩, hfind, rfl⟩
    have hk : k' = k := by simpa using List.find?_some hfind
    rw [← hk]
    exact List.mem_of_find?_eq_some hfind

lemma lookup?_cons (k : UInt16) (e : UInt16 × β) (l : List (UInt16 × β)) :
    lookup? k (e :: l) = if e.1 = k then some e.2 else lookup? k l := by
  by_cases h : e.1 = k <;> simp [lookup?, h]

lemma lookup?_eq_none (h : ∀ a ∈ l.map Prod.fst, k < a) : lookup? k l = none := by
  rw [lookup?, Option.map_eq_none_iff, List.find?_eq_none]
  intro e he
  have hk := h e.1 (List.mem_map_of_mem he)
  simpa using (UInt16.ne_of_lt hk).symm

theorem lookup?_upsert (h : (l.map Prod.fst).Pairwise (· < ·)) :
    lookup? k' (upsert k f l) = if k = k' then some (f (lookup? k l)) else lookup? k' l := by
  induction l with
  | nil => rw [upsert, lookup?_cons]; rfl
  | cons e rest ih =>
    obtain ⟨a, c⟩ := e
    obtain ⟨ha, hrest⟩ := List.pairwise_cons.1 h
    rw [upsert]
    by_cases hlt : k < a
    · -- the key comes in front of all that is stored
      have hnone : lookup? k ((a, c) :: rest) = none := by
        refine lookup?_eq_none (List.forall_mem_cons.2 ⟨hlt, fun b hb => ?_⟩)
        exact UInt16.lt_trans hlt (ha b hb)
      rw [if_pos hlt, lookup?_cons, hnone]
    · rw [if_neg hlt]
      by_cases hka : k = a
      · subst hka
        rw [if_pos rfl, lookup?_cons, lookup?_cons k, lookup?_cons k', if_pos rfl]
        by_cases hkey : k = k'
        · rw [if_pos hkey, if_pos hkey]
        · rw [if_neg hkey, if_neg hkey, if_neg hkey]
      · rw [if_neg hka, lookup?_cons, ih hrest, lookup?_cons k, if_neg (Ne.symm hka),
          lookup?_cons k']
        by_cases hkey : k = k'
        · subst hkey
          rw [if_neg (Ne.symm hka), if_pos rfl, if_pos rfl]
        · rw [if_neg hkey, if_neg hkey]

theorem lookup?_foldr_upsert (entries : List (UInt16 × β)) (k : UInt16) :
    lookup? k (entries.foldr
      (fun e groups => upsert e.1 (fun g => e.2 :: g.getD []) groups) []) =
      if (entries.filter (·.1 = k)).isEmpty then none
      else some ((entries.filter (·.1 = k)).map (·.2)) := by
  induction entries with
  | nil => rfl
  | cons e rest ih =>
    rw [List.foldr_cons, lookup?_upsert (pairwise_foldr_upsert Prod.fst
      (fun e (g : Option (List β)) => e.2 :: g.getD []) rest)]
    by_cases hk : e.1 = k
    · subst hk
      rw [if_pos rfl, ih, List.filter_cons_of_pos (by simp)]
      cases rest.filter (·.1 = e.1) <;> rfl
    · rw [if_neg hk, ih, List.filter_cons_of_neg (by simpa using hk)]

theorem lookup?_latest (entries : List (UInt16 × β)) (k : UInt16) :
    lookup? k (latest entries) = (entries.filter (·.1 = k)).getLast?.map (·.2) := by
  have hfold : ∀ l : List (UInt16 × β), lookup? k
      (l.foldr (fun e kept => upsert e.1 (fun later => later.getD e.2) kept) []) =
        (l.filter (·.1 = k)).getLast?.map (·.2) := by
    intro l
    induction l with
    | nil => rfl
    | cons e rest ih =>
      rw [List.foldr_cons, lookup?_upsert (pairwise_foldr_upsert Prod.fst
        (fun e (later : Option β) => later.getD e.2) rest), ih]
      by_cases hk : e.1 = k
      · subst hk
        rw [if_pos rfl, ih, List.filter_cons_of_pos (by simp), List.getLast?_cons]
        cases (rest.filter (·.1 = e.1)).getLast? <;> rfl
      · rw [if_neg hk, List.filter_cons_of_neg (by simpa using hk)]
  rw [latest, hfold, filter_byKey]

theorem ext_lookup? {l' : List (UInt16 × β)} (h : (l.map Prod.fst).Pairwise (· < ·))
    (h' : (l'.map Prod.fst).Pairwise (· < ·)) (heq : ∀ k, lookup? k l = lookup? k l') : l = l' := by
  have hirrefl : Std.Irrefl fun a b : UInt16 × β => a.1 < b.1 := ⟨fun a => UInt16.lt_irrefl a.1⟩
  have hantisymm : Std.Antisymm fun a b : UInt16 × β => a.1 < b.1 :=
    ⟨fun a _ hab hba => absurd (UInt16.lt_trans hab hba) (UInt16.lt_irrefl a.1)⟩
  refine (List.pairwise_map.1 h).eq_of_mem_iff (List.pairwise_map.1 h') fun e => ?_
  rw [mem_iff_lookup? h, mem_iff_lookup? h', heq]

lemma filter_key_eq (h : (l.map Prod.fst).Pairwise (· < ·)) (k : UInt16) :
    l.filter (·.1 = k) = (l.find? (·.1 = k)).toList := by
  induction l with
  | nil => rfl
  | cons e rest ih =>
    obtain ⟨he, hrest⟩ := List.pairwise_cons.1 h
    by_cases hk : e.1 = k
    · subst hk
      have hnone := lookup?_eq_none he
      rw [lookup?, Option.map_eq_none_iff] at hnone
      rw [List.filter_cons_of_pos (by simp), List.find?_cons_of_pos (by simp), ih hrest, hnone]
      rfl
    · rw [List.filter_cons_of_neg (by simpa using hk), List.find?_cons_of_neg (by simpa using hk),
        ih hrest]

theorem latest_eq_self (h : (l.map Prod.fst).Pairwise (· < ·)) : latest l = l := by
  refine ext_lookup? (pairwise_latest l) h fun k => ?_
  rw [lookup?_latest, filter_key_eq h, lookup?]
  cases l.find? (·.1 = k) <;> rfl

/-- **The group of a key** is made of the entries of the key, in their order. -/
theorem mem_group_iff {entries : List (UInt16 × β)} {bs : List β} : (k, bs) ∈ group entries ↔
    bs ≠ [] ∧ bs = (entries.filter (·.1 = k)).map (·.2) := by
  rw [mem_iff_lookup? (pairwise_group entries), group, lookup?_foldr_upsert, filter_byKey]
  cases hfilter : entries.filter (·.1 = k) with
  | nil =>
    simp only [List.isEmpty_nil, if_true, List.map_nil, reduceCtorEq, false_iff, not_and]
    exact fun hne => hne
  | cons e rest =>
    simp only [List.isEmpty_cons, Bool.false_eq_true, if_false, Option.some.injEq]
    constructor
    · rintro rfl
      exact ⟨by simp, rfl⟩
    · rintro ⟨-, rfl⟩
      rfl

end Groups

end Sorted

/-! ### Sets of glyphs -/

namespace GlyphSet

variable {glyph : GlyphId}

theorem mem_sort {l : List GlyphId} : glyph ∈ sort l ↔ glyph ∈ l := by
  have hfold : ∀ sorted : List GlyphId, glyph ∈ sorted.foldr Sorted.insert [] ↔ glyph ∈ sorted := by
    intro sorted
    induction sorted with
    | nil => rfl
    | cons g rest ih => rw [List.foldr_cons, Sorted.mem_insert, ih, List.mem_cons]
  rw [sort, hfold, Sorted.mem_byKey]

theorem contains_iff {s : GlyphSet} : s.contains glyph ↔ glyph ∈ s.glyphs := by
  have hpoint : s.glyphs[Sorted.partitionPoint (· < glyph) s.glyphs]? =
      s.glyphs.toList.find? (glyph ≤ ·) :=
    Sorted.getElem?_partitionPoint (by simpa using s.ascending) glyph
  rw [contains, hpoint, decide_eq_true_eq]
  constructor
  · intro h
    simpa using List.mem_of_find?_eq_some h
  · intro h
    refine find?_eq_some_of_pairwise s.ascending (by simpa using h) (by simp) fun g _ hlt => ?_
    simpa using hlt

/-- **A set contains the glyphs it was made from**, and no others. -/
@[simp] theorem contains_ofList {l : List GlyphId} : (ofList l).contains glyph ↔ glyph ∈ l := by
  rw [contains_iff, ofList, List.mem_toArray, mem_sort]

/-- **A set is determined by what it contains.** -/
theorem eq_iff_contains {s s' : GlyphSet} : s = s' ↔ ∀ g, s.contains g ↔ s'.contains g := by
  constructor
  · rintro rfl g
    rfl
  · intro h
    have hsame : s.glyphs.toList = s'.glyphs.toList :=
      s.ascending.eq_of_mem_iff s'.ascending fun g => by
        simpa [contains_iff] using h g
    cases s
    cases s'
    simpa using hsame

/-- **Sets are equal if they are made from the same glyphs**, in any order and any number. -/
theorem ofList_eq_ofList_iff {l l' : List GlyphId} :
    ofList l = ofList l' ↔ ∀ g, g ∈ l ↔ g ∈ l' := by
  simp only [eq_iff_contains, contains_ofList]

end GlyphSet

/-! ### Maps of glyphs -/

namespace GlyphMap

/-- **A map finds the pairs it was made from**, and of several pairs for one glyph the last. -/
theorem find?_ofList (l : List (GlyphId × GlyphId)) (glyph : GlyphId) :
    (ofList l).find? glyph = (l.filter (·.1 = glyph)).getLast?.map (·.2) := by
  rw [← Sorted.lookup?_latest, Sorted.lookup?]
  have hsorted := Sorted.pairwise_latest l
  have hlist : (ofList l).entries = (Sorted.latest l).toArray := rfl
  rw [find?, hlist]
  generalize Sorted.latest l = entries at hsorted ⊢
  have hpoint : entries.toArray[Sorted.partitionPoint (·.1 < glyph) entries.toArray]? =
      entries.find? (glyph ≤ ·.1) := Sorted.getElem?_partitionPoint hsorted glyph
  rw [hpoint]
  cases hfind : entries.find? (·.1 = glyph) with
  | some e =>
    have hkey : e.1 = glyph := by simpa using List.find?_some hfind
    have hle : entries.find? (glyph ≤ ·.1) = some e := by
      refine find?_eq_some_of_pairwise (List.pairwise_map.1 hsorted)
        (List.mem_of_find?_eq_some hfind) (by simp [hkey]) fun c _ hc => ?_
      simpa [hkey] using hc
    simp [hle, hkey]
  | none =>
    cases hle : entries.find? (glyph ≤ ·.1) with
    | none => rfl
    | some e =>
      have hne := List.find?_eq_none.1 hfind e (List.mem_of_find?_eq_some hle)
      simpa using hne

end GlyphMap

end Shaping
