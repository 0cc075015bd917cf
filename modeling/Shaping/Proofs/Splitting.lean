import Mathlib.Data.Fintype.EquivFin
import Shaping.Machine.Minimal
import Shaping.Proofs.Bisimulation

/-!
Splitting the classes of a machine's states until their number stays the same. What holds
throughout is that the classes are numbered without gaps and that states that are alike share a
class. A round never joins classes, so their number grows until a round splits none; then states of
one class have matching rows, and sharing a class is a bisimulation. So at the end two states share
a class exactly if they are alike. In every round a class is the place of a signature among those
met so far, however the signatures are spread over buckets, so no key makes a difference. Main
statements: `Machine.Classed.classOf_eq_iff`, `Machine.minimizeBy_congr_key`.
-/

namespace Shaping

open Numbered

/-! ### The buckets as a list -/

namespace Buckets

variable {ℓ : Type} {key : Signature ℓ → UInt64} {b : Buckets ℓ} {sigs : List (Signature ℓ)}

/-- The buckets number the signatures of a list by their places. -/
structure Holds (key : Signature ℓ → UInt64) (b : Buckets ℓ) (sigs : List (Signature ℓ)) :
    Prop where
  count : b.count = sigs.length
  bucket : ∀ sig n, (sig, n) ∈ b.table.getD (key sig) [] ↔ sigs[n]? = some sig

lemma holds_empty : Holds key {} [] := ⟨rfl, fun sig n => by simp⟩

/-- **Whatever the key**, a signature gets the number of its first appearance. -/
theorem Holds.number [DecidableEq ℓ] (h : Holds key b sigs) (sig : Signature ℓ) :
    (addNew sigs sig)[(b.number key sig).1]? = some sig ∧
      Holds key (b.number key sig).2 (addNew sigs sig) := by
  unfold Buckets.number
  dsimp only
  split
  · rename_i sig' n hfind
    obtain rfl : sig' = sig := by simpa using List.find?_some hfind
    have hn := (h.bucket sig' n).1 (List.mem_of_find?_eq_some hfind)
    rw [addNew_of_mem (List.mem_of_getElem? hn)]
    exact ⟨hn, h⟩
  · rename_i hfind
    have hnew : sig ∉ sigs := by
      intro hmem
      obtain ⟨n, hn⟩ := List.mem_iff_getElem?.1 hmem
      exact absurd (List.find?_eq_none.1 hfind _ ((h.bucket sig n).2 hn)) (by simp)
    rw [addNew_of_notMem hnew]
    refine ⟨by simp [h.count], by simp [h.count], fun sig' n => ?_⟩
    have hplace : (sigs ++ [sig])[n]? = some sig' ↔
        (sig' = sig ∧ n = b.count) ∨ sigs[n]? = some sig' := by
      rw [List.getElem?_append, h.count]
      by_cases hn : n < sigs.length
      · simp [hn, Nat.ne_of_lt hn]
      · rw [if_neg hn, List.getElem?_eq_none (Nat.le_of_not_lt hn), List.getElem?_singleton]
        by_cases hn' : n = sigs.length
        · simp [hn', eq_comm]
        · simp [hn', show n - sigs.length ≠ 0 by omega]
    rw [hplace, Std.HashMap.getD_insert, ← h.bucket]
    by_cases hkey : key sig = key sig'
    · simp [hkey]
    · have hne : sig' ≠ sig := fun h => hkey (by rw [h])
      simp [hkey, hne]

/-- Buckets of the same signatures hand out the same number, each under its own key. -/
theorem Holds.number_eq [DecidableEq ℓ] {key' : Signature ℓ → UInt64} {b' : Buckets ℓ}
    (h : Holds key b sigs) (h' : Holds key' b' sigs) (hsigs : sigs.Nodup) (sig : Signature ℓ) :
    (b.number key sig).1 = (b'.number key' sig).1 :=
  place_unique (nodup_addNew hsigs sig) (h.number sig).1 (h'.number sig).1

end Buckets

namespace Machine

variable {ℓ : Type} {m : Machine ℓ} {states : Array StateId} {p q : Partition} {s t : StateId}

/-! ### Classes of states -/

theorem signature_eq_iff : m.signature p s = m.signature p t ↔ p.classOf s = p.classOf t ∧
    List.Forall₂ (Matches fun a b => p.classOf a = p.classOf b) (m.row s).toList
      (m.row t).toList := by
  rw [signature, signature, Signature.mk.injEq, ← List.forall₂_eq_eq_eq,
    List.forall₂_map_left_iff, List.forall₂_map_right_iff]
  simp only [Prod.mk.injEq]
  rfl

/-- The states have their successors among them. -/
def Closed (m : Machine ℓ) (states : Array StateId) : Prop :=
  ∀ s ∈ states, ∀ t ∈ m.successors s, t ∈ states

lemma Closed.target_mem (hm : Closed m states) (hs : s ∈ states) {a : Transition ℓ}
    (ha : a ∈ (m.row s).toList) : a.target ∈ states :=
  hm s hs _ (mem_successors.2 ⟨a, Array.mem_toList_iff.1 ha, rfl⟩)

lemma Closed.rows_imp {l r : Machine ℓ} {states' : Array StateId} (hl : Closed l states)
    (hr : Closed r states') (hs : s ∈ states) (ht : t ∈ states') {R S : StateId → StateId → Prop}
    (hRS : ∀ a ∈ states, ∀ b ∈ states', R a b → S a b)
    (h : List.Forall₂ (Matches R) (l.row s).toList (r.row t).toList) :
    List.Forall₂ (Matches S) (l.row s).toList (r.row t).toList := by
  obtain ⟨hlen, hget⟩ := List.forall₂_iff_get.1 h
  refine List.forall₂_iff_get.2 ⟨hlen, fun i hi hi' => ?_⟩
  obtain ⟨hlabel, htargets⟩ := hget i hi hi'
  exact ⟨hlabel, hRS _ (hl.target_mem hs (List.getElem_mem hi)) _
    (hr.target_mem ht (List.getElem_mem hi')) htargets⟩

/-- What holds of the classes throughout: they are numbered without gaps, and states that are alike
share a class. -/
structure Classed (m : Machine ℓ) (states : Array StateId) (p : Partition) : Prop where
  inRange : ∀ s ∈ states, s < p.classes.size
  lt : ∀ s ∈ states, p.classOf s < p.count
  onto : ∀ c < p.count, ∃ s ∈ states, p.classOf s = c
  alike : ∀ s ∈ states, ∀ t ∈ states, Alike m m s t → p.classOf s = p.classOf t

/-- The rows of two states of one class match up to classes. -/
def Stable (m : Machine ℓ) (states : Array StateId) (p : Partition) : Prop :=
  ∀ s ∈ states, ∀ t ∈ states, p.classOf s = p.classOf t →
    List.Forall₂ (Matches fun a b => p.classOf a = p.classOf b) (m.row s).toList (m.row t).toList

/-- States of one class of `q` share a class of `p`. -/
def Splits (states : Array StateId) (q p : Partition) : Prop :=
  ∀ s ∈ states, ∀ t ∈ states, q.classOf s = q.classOf t → p.classOf s = p.classOf t

theorem Classed.signature_eq (h : Classed m states p) (hm : Closed m states) (hs : s ∈ states)
    (ht : t ∈ states) (hst : Alike m m s t) : m.signature p s = m.signature p t :=
  signature_eq_iff.2 ⟨h.alike s hs t ht hst, hm.rows_imp hm hs ht h.alike hst.rows⟩

theorem Classed.count_le (h : Classed m states p) : p.count ≤ states.size := by
  have hsub : List.range p.count ⊆ states.toList.map p.classOf := by
    intro c hc
    obtain ⟨s, hs, rfl⟩ := h.onto c (List.mem_range.1 hc)
    exact List.mem_map_of_mem (Array.mem_toList_iff.2 hs)
  simpa using (List.nodup_range.subperm hsub).length_le

theorem Splits.exists_map (h : Splits states q p) (hp : Classed m states p)
    (hq : Classed m states q) : ∃ f : Fin q.count → Fin p.count, f.Surjective ∧
      ∀ s (hs : s ∈ states), f ⟨q.classOf s, hq.lt s hs⟩ = ⟨p.classOf s, hp.lt s hs⟩ := by
  have hmember : ∀ c : Fin q.count, ∃ s ∈ states, q.classOf s = c := fun c => hq.onto c c.2
  choose member hmem hclass using hmember
  have hf : ∀ s (hs : s ∈ states), p.classOf (member ⟨q.classOf s, hq.lt s hs⟩) = p.classOf s :=
    fun s hs => h _ (hmem _) s hs (hclass _)
  refine ⟨fun c => ⟨p.classOf (member c), hp.lt _ (hmem c)⟩, fun c => ?_,
    fun s hs => Fin.ext (hf s hs)⟩
  obtain ⟨s, hs, hsc⟩ := hp.onto c c.2
  exact ⟨⟨q.classOf s, hq.lt s hs⟩, Fin.ext ((hf s hs).trans hsc)⟩

theorem Splits.count_le (h : Splits states q p) (hp : Classed m states p)
    (hq : Classed m states q) : p.count ≤ q.count := by
  obtain ⟨f, hf, -⟩ := h.exists_map hp hq
  simpa using Fintype.card_le_of_surjective f hf

/-- A partition that splits another into no more classes has the same classes. -/
theorem Splits.of_count_eq (h : Splits states q p) (hp : Classed m states p)
    (hq : Classed m states q) (hcount : q.count = p.count) : Splits states p q := by
  obtain ⟨f, hf, hfs⟩ := h.exists_map hp hq
  have hinj : f.Injective :=
    ((Fintype.bijective_iff_surjective_and_card f).2 ⟨hf, by simpa using hcount⟩).1
  intro s hs t ht hst
  have hfst : f ⟨_, hq.lt s hs⟩ = f ⟨_, hq.lt t ht⟩ := by
    rw [hfs s hs, hfs t ht]
    exact Fin.ext hst
  exact congrArg Fin.val (hinj hfst)

/-- **At the end, two states share a class exactly if they are alike.** -/
theorem Classed.classOf_eq_iff (h : Classed m states p) (hm : Closed m states)
    (hstable : Stable m states p) (hs : s ∈ states) (ht : t ∈ states) :
    p.classOf s = p.classOf t ↔ Alike m m s t := by
  refine ⟨fun hst => ?_, h.alike s hs t ht⟩
  refine ⟨fun s t => s ∈ states ∧ t ∈ states ∧ p.classOf s = p.classOf t, ?_, hs, ht, hst⟩
  rintro s t ⟨hs, ht, hst⟩
  exact hm.rows_imp hm hs ht (fun a ha b hb hab => ⟨ha, hb, hab⟩) (hstable s hs t ht hst)

theorem Classed.classOf_eq_iff_rows (h : Classed m states p) (hm : Closed m states)
    (hstable : Stable m states p) (hs : s ∈ states) (ht : t ∈ states) :
    p.classOf s = p.classOf t ↔
      List.Forall₂ (Matches fun a b => p.classOf a = p.classOf b) (m.row s).toList
        (m.row t).toList := by
  refine ⟨hstable s hs t ht, fun hrows => ?_⟩
  -- states share a class if they are alike, and the targets, which share a class, are
  have halike := hm.rows_imp hm hs ht
    (fun a ha b hb => (h.classOf_eq_iff hm hstable ha hb).1) hrows
  exact h.alike s hs t ht (Alike.of_rows halike)

section Rounds

variable [DecidableEq ℓ] {key : Signature ℓ → UInt64}

/-! ### One round -/

/-- The classes number the values of `f` on the states in the order of their first appearance. -/
structure Numbers (f : StateId → Signature ℓ) (states : Array StateId) (p : Partition) : Prop where
  count : p.count = (addAll [] (states.toList.map f)).length
  place : ∀ s ∈ states, (addAll [] (states.toList.map f))[p.classOf s]? = some (f s)

section Numbers

variable {f : StateId → Signature ℓ}

theorem Numbers.classOf_eq_iff (h : Numbers f states p) (hs : s ∈ states) (ht : t ∈ states) :
    p.classOf s = p.classOf t ↔ f s = f t := by
  have hps := h.place s hs
  have hpt := h.place t ht
  refine ⟨fun hst => ?_, fun hst => ?_⟩
  · rw [hst, hpt] at hps
    exact (Option.some.inj hps).symm
  · rw [← hst] at hpt
    exact place_unique (nodup_addAll List.nodup_nil _) hps hpt

theorem Numbers.lt (h : Numbers f states p) (hs : s ∈ states) : p.classOf s < p.count := by
  rw [h.count]
  exact (List.getElem?_eq_some_iff.1 (h.place s hs)).1

theorem Numbers.onto (h : Numbers f states p) {c : Nat} (hc : c < p.count) :
    ∃ s ∈ states, p.classOf s = c := by
  rw [h.count] at hc
  have hmem : (addAll [] (states.toList.map f))[c] ∈ addAll [] (states.toList.map f) :=
    List.getElem_mem hc
  obtain ⟨s, hs, hfs⟩ := List.mem_map.1 ((mem_addAll.1 hmem).resolve_left List.not_mem_nil)
  have hs := Array.mem_toList_iff.1 hs
  refine ⟨s, hs, place_unique (nodup_addAll List.nodup_nil _) (h.place s hs) ?_⟩
  rw [hfs, List.getElem?_eq_getElem hc]

end Numbers

theorem fold_number (f : StateId → Signature ℓ) {b : Buckets ℓ} {sigs : List (Signature ℓ)}
    (h : b.Holds key sigs) (ss : List StateId) (classes : Array Nat) :
    let r := ss.foldl (fun (x : Buckets ℓ × Array Nat) s =>
      ((x.1.number key (f s)).2, x.2.setIfInBounds s (x.1.number key (f s)).1)) (b, classes)
    r.1.Holds key (addAll sigs (ss.map f)) ∧ r.2.size = classes.size ∧
      ∀ s < classes.size, if s ∈ ss then (addAll sigs (ss.map f))[r.2.getD s 0]? = some (f s)
        else r.2.getD s 0 = classes.getD s 0 := by
  induction ss generalizing b sigs classes with
  | nil => exact ⟨h, rfl, fun s _ => by simp⟩
  | cons a ss ih =>
    obtain ⟨hplace, hnext⟩ := h.number (f a)
    obtain ⟨hholds, hsize, hclass⟩ := ih hnext (classes.setIfInBounds a (b.number key (f a)).1)
    rw [Array.size_setIfInBounds] at hsize hclass
    refine ⟨hholds, hsize, fun s hs => ?_⟩
    have hs' := hclass s hs
    by_cases hmem : s ∈ ss
    · rw [if_pos hmem] at hs'
      rw [if_pos (List.mem_cons_of_mem a hmem)]
      exact hs'
    · rw [if_neg hmem] at hs'
      by_cases ha : s = a
      · subst ha
        rw [if_pos List.mem_cons_self, List.foldl_cons, hs', List.map_cons, addAll_cons]
        rw [Array.getD_eq_getD_getElem?, Array.getElem?_setIfInBounds_self_of_lt hs,
          Option.getD_some]
        exact getElem?_of_begins (prefix_addAll _ _) hplace
      · rw [if_neg (by simp [ha, hmem]), List.foldl_cons, hs', Array.getD_eq_getD_getElem?,
          Array.getElem?_setIfInBounds_ne (Ne.symm ha), Array.getD_eq_getD_getElem?]

lemma refine_eq_fold (key : Signature ℓ → UInt64) (m : Machine ℓ) (states : Array StateId)
    (p : Partition) :
    let r := states.toList.foldl (fun (x : Buckets ℓ × Array Nat) s =>
      ((x.1.number key (m.signature p s)).2,
        x.2.setIfInBounds s (x.1.number key (m.signature p s)).1)) ({}, p.classes)
    m.refine key states p = ⟨r.2, r.1.count⟩ := by
  rw [refine, ← Array.foldl_toList]

lemma size_refine : (m.refine key states p).classes.size = p.classes.size := by
  rw [refine_eq_fold]
  exact (fold_number (m.signature p) Buckets.holds_empty states.toList p.classes).2.1

theorem refine_numbers (h : ∀ s ∈ states, s < p.classes.size) :
    Numbers (m.signature p) states (m.refine key states p) := by
  rw [refine_eq_fold]
  obtain ⟨hholds, -, hclass⟩ :=
    fold_number (m.signature p) (Buckets.holds_empty : Buckets.Holds key {} []) states.toList
      p.classes
  refine ⟨hholds.count, fun s hs => ?_⟩
  have := hclass s (h s hs)
  rwa [if_pos (Array.mem_toList_iff.2 hs)] at this

theorem Classed.numbers (h : Classed m states p) :
    Numbers (m.signature p) states (m.refine key states p) := refine_numbers h.inRange

theorem Classed.splits_refine (h : Classed m states p) :
    Splits states (m.refine key states p) p := by
  intro s hs t ht hst
  rw [h.numbers.classOf_eq_iff hs ht] at hst
  exact (signature_eq_iff.1 hst).1

theorem Classed.refine (h : Classed m states p) (hm : Closed m states) :
    Classed m states (m.refine key states p) where
  inRange s hs := by
    rw [size_refine]
    exact h.inRange s hs
  lt _ hs := h.numbers.lt hs
  onto _ hc := h.numbers.onto hc
  alike _ hs _ ht hst := (h.numbers.classOf_eq_iff hs ht).2 (h.signature_eq hm hs ht hst)

/-- **A round that splits no class has ended the splitting.** -/
theorem Classed.stable_refine (h : Classed m states p) (hm : Closed m states)
    (hcount : (m.refine key states p).count = p.count) :
    Stable m states (m.refine key states p) := by
  have hsame := h.splits_refine.of_count_eq h (h.refine hm) hcount
  intro s hs t ht hst
  rw [h.numbers.classOf_eq_iff hs ht] at hst
  exact hm.rows_imp hm hs ht hsame (signature_eq_iff.1 hst).2

/-! ### All rounds -/

/-- What holds of the classes at the end. -/
structure Settled (m : Machine ℓ) (states : Array StateId) (p : Partition) : Prop
    extends Classed m states p where
  stable : Stable m states p
  numbered : ∃ f : StateId → Signature ℓ, Numbers f states p

/-- **The rounds settle the classes.** Each of them but the last adds a class, and there are no more
classes than states, so the fuel lasts. -/
theorem Classed.refineAll (h : Classed m states p) (hm : Closed m states) {fuel : Nat}
    (hfuel : states.size < fuel + p.count) :
    Settled m states (m.refineAll key states fuel p).1 := by
  induction fuel generalizing p with
  | zero => exact absurd h.count_le (by omega)
  | succ fuel ih =>
    have hle : p.count ≤ (m.refine key states p).count :=
      h.splits_refine.count_le h (h.refine hm)
    simp only [Machine.refineAll]
    split
    · rename_i hcount
      exact ⟨h.refine hm, h.stable_refine hm hcount, _, h.numbers⟩
    · exact ih (h.refine hm) (by omega)

/-! ### The choice of the key -/

section Keys

variable {key' : Signature ℓ → UInt64}

/-- Two keys give the states of a list the same numbers, as long as both have numbered the same
signatures before. -/
lemma classes_fold_number (f : StateId → Signature ℓ) {b b' : Buckets ℓ}
    {sigs : List (Signature ℓ)} (h : b.Holds key sigs) (h' : b'.Holds key' sigs)
    (hsigs : sigs.Nodup) (ss : List StateId) (classes : Array Nat) :
    (ss.foldl (fun (x : Buckets ℓ × Array Nat) s =>
      ((x.1.number key (f s)).2, x.2.setIfInBounds s (x.1.number key (f s)).1)) (b, classes)).2 =
    (ss.foldl (fun (x : Buckets ℓ × Array Nat) s =>
      ((x.1.number key' (f s)).2, x.2.setIfInBounds s (x.1.number key' (f s)).1))
        (b', classes)).2 := by
  induction ss generalizing b b' sigs classes with
  | nil => rfl
  | cons a ss ih =>
    have hnext := ih (h.number (f a)).2 (h'.number (f a)).2 (nodup_addNew hsigs (f a))
      (classes.setIfInBounds a (b.number key (f a)).1)
    rw [List.foldl_cons, List.foldl_cons, hnext, h.number_eq h' hsigs (f a)]

theorem refine_congr_key (m : Machine ℓ) (states : Array StateId) (p : Partition) :
    m.refine key states p = m.refine key' states p := by
  have hempty : Buckets.Holds key {} [] := Buckets.holds_empty
  have hempty' : Buckets.Holds key' {} [] := Buckets.holds_empty
  obtain ⟨hholds, -, -⟩ := fold_number (m.signature p) hempty states.toList p.classes
  obtain ⟨hholds', -, -⟩ := fold_number (m.signature p) hempty' states.toList p.classes
  rw [refine_eq_fold, refine_eq_fold, hholds.count, hholds'.count,
    classes_fold_number (m.signature p) hempty hempty' List.nodup_nil states.toList p.classes]

theorem refineAll_congr_key (m : Machine ℓ) (states : Array StateId) (fuel : Nat)
    (p : Partition) : m.refineAll key states fuel p = m.refineAll key' states fuel p := by
  induction fuel generalizing p with
  | zero => rfl
  | succ fuel ih =>
    rw [Machine.refineAll, Machine.refineAll, refine_congr_key m states p, ih]

end Keys

/-- **The key never matters.** Whatever machine is minimized, and by whatever key the signatures are
gathered in buckets, also if all of them fall into one bucket or unequal ones collide, the minimized
machine is the same, and so is the report: the states before and after, and the rounds. -/
theorem minimizeBy_congr_key (m : Machine ℓ) (key key' : Signature ℓ → UInt64) :
    m.minimizeBy key = m.minimizeBy key' := by
  rw [minimizeBy, minimizeBy, refineAll_congr_key m]

end Rounds

end Machine

end Shaping
