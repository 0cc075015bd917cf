import Shaping.Proofs.Following
import Shaping.Proofs.Rules

/-!
The glyphs in front of an index that are not skipped, the nearest first. A probe tests one of them,
or one of those that follow the index. It records no consumed glyph, so the context of a rule can be
checked before anything else. Main statements: `GlyphRun.stepFiltered_backward`, `View.test_probe`,
`View.map_plan_evaluate?_context`.
-/

namespace Shaping

namespace GlyphRun

variable {run run' : GlyphRun} {skip : ShapedGlyph → Bool} {i j k count : Nat} {g : ShapedGlyph}
  {glyphs rest : List ShapedGlyph}

/-! ### Glyphs in front of an index -/

lemma unskipped_append : unskipped skip k (glyphs ++ rest) =
    unskipped skip k glyphs ++ unskipped skip (k + glyphs.length) rest := by
  rw [unskipped, List.zipIdx_append, List.filter_append]
  rfl

lemma mem_unskipped_iff : (g, j) ∈ unskipped skip k glyphs ↔
    k ≤ j ∧ glyphs[j - k]? = some g ∧ skip g = false := by
  rw [unskipped, List.mem_filter, List.mk_mem_zipIdx_iff_le_and_getElem?_sub]
  simp [and_assoc]

/-- The glyphs in front of an index that are not skipped, the nearest first, each with its
index. -/
def preceding (run : GlyphRun) (skip : ShapedGlyph → Bool) (i : Nat) : List (ShapedGlyph × Nat) :=
  (unskipped skip 0 (run.toList.take i)).reverse

@[simp] lemma preceding_zero : run.preceding skip 0 = [] := by
  rw [preceding, List.take_zero]
  rfl

theorem preceding_succ (h : i < run.size) : run.preceding skip (i + 1) =
    if skip run[i] then run.preceding skip i else (run[i], i) :: run.preceding skip i := by
  have hlen : i < run.toList.length := by simpa using h
  have htake : run.toList.take (i + 1) = run.toList.take i ++ [run[i]] := by
    rw [← List.take_append_getElem hlen, Array.getElem_toList]
  have hlength : 0 + (run.toList.take i).length = i := by
    rw [Nat.zero_add, List.length_take, Nat.min_eq_left (Nat.le_of_lt hlen)]
  rw [preceding, htake, unskipped_append, hlength, unskipped_cons, unskipped_nil, preceding]
  split_ifs <;> simp

lemma preceding_congr (h : ∀ k < i, run[k]? = run'[k]?) :
    run.preceding skip i = run'.preceding skip i := by
  have htake : run.toList.take i = run'.toList.take i := by
    refine List.ext_getElem? fun k => ?_
    rw [List.getElem?_take, List.getElem?_take, Array.getElem?_toList, Array.getElem?_toList]
    split_ifs with hk
    · exact h k hk
    · rfl
  rw [preceding, htake, preceding]

theorem of_mem_preceding (h : (g, j) ∈ run.preceding skip i) :
    j < i ∧ run[j]? = some g ∧ skip g = false := by
  rw [preceding, List.mem_reverse, mem_unskipped_iff] at h
  obtain ⟨-, hg, hskip⟩ := h
  rw [Nat.sub_zero, List.getElem?_take] at hg
  split_ifs at hg with hj
  exact ⟨hj, by simpa using hg, hskip⟩

theorem mem_following_iff : (g, j) ∈ run.following skip i ↔
    i < j ∧ run[j]? = some g ∧ skip g = false := by
  rw [following, mem_unskipped_iff, List.getElem?_drop, Nat.succ_le_iff]
  refine and_congr_right fun hj => ?_
  rw [Nat.add_sub_cancel' hj, Array.getElem?_toList]

theorem le_of_head?_following {g' : ShapedGlyph}
    (h : (run.following skip i).head? = some (g, j)) (hik : i < k) (hk : run[k]? = some g')
    (hskip : skip g' = false) : j ≤ k := by
  have hsorted : (run.following skip i).Pairwise fun p q => p.2 < q.2 := by
    refine List.Pairwise.filter _ (List.pairwise_map.1 ?_)
    rw [List.zipIdx_map_snd]
    exact List.pairwise_lt_range'
  obtain ⟨rest, hrest⟩ := List.head?_eq_some_iff.1 h
  have hmem := mem_following_iff.2 ⟨hik, hk, hskip⟩
  rw [hrest] at hsorted hmem
  rcases List.mem_cons.1 hmem with heq | hmem
  · rw [(Prod.mk.inj heq).2]
  · exact Nat.le_of_lt ((List.pairwise_cons.1 hsorted).1 _ hmem)

theorem walk_backward (h : i ≤ run.size) : run.walk skip .backward i (count + 1) i =
    (run.preceding skip i)[count]?.map (·.2) := by
  induction i generalizing count with
  | zero =>
    rw [preceding_zero]
    rfl
  | succ i ih =>
    have hi : i < run.size := h
    have hnext : neighbour .backward (i + 1) = i := rfl
    rw [walk, hnext, preceding_succ hi, Array.getElem?_eq_getElem hi, Option.any_some]
    split_ifs with hskip
    · exact ih (Nat.le_of_lt hi)
    · cases count with
      | zero =>
        rw [walk]
        rfl
      | succ count =>
        rw [List.getElem?_cons_succ]
        exact ih (Nat.le_of_lt hi)

/-- **To count glyphs backward** is to look them up among those that precede. -/
theorem stepFiltered_backward (hi : i < run.size) :
    run.stepFiltered skip .backward (count + 1) i = (run.preceding skip i)[count]?.map (·.2) := by
  rw [stepFiltered, if_pos hi]
  exact walk_backward (Nat.le_of_lt hi)

end GlyphRun

/-! ### Probes -/

namespace View

variable {v : View} {f : Finding} {matcher : Matcher} {flags : LookupFlags} {action : Action}
  {offset : Int16} {consumed : Array Nat} {probes : List Step} {k : Nat}

lemma test_probe_of_probeIndex? {glyphs : List (ShapedGlyph × Nat)}
    (hindex : v.probeIndex? offset flags = glyphs[k]?.map (·.2))
    (hglyphs : ∀ g i, (g, i) ∈ glyphs →
      v.run[i]? = some g ∧ skips v.categories flags g = false) :
    v.test consumed (.probe offset matcher flags) =
      (glyphs[k]?.filter fun p => matcher.accepts p.1.id).map fun p => .probed offset p.2 := by
  rw [test, hindex]
  cases hp : glyphs[k]? with
  | none => rfl
  | some p =>
    obtain ⟨hg, hskip⟩ := hglyphs p.1 p.2 (List.mem_of_getElem? hp)
    have haccepts : v.accepts p.2 matcher flags = matcher.accepts p.1.id := by
      simp [accepts, hg, hskip]
    rw [Option.map_some, Option.filter_some, Option.filter_some, haccepts]
    split_ifs <;> rfl

/-- **A probe tests a glyph in front of the cursor or behind it**, by the sign of its offset. -/
theorem test_probe (hcursor : v.cursor < v.run.size) :
    (offset.toInt = k + 1 → v.test consumed (.probe offset matcher flags) =
      ((v.run.following (skips v.categories flags) v.cursor)[k]?.filter fun p =>
        matcher.accepts p.1.id).map fun p => .probed offset p.2) ∧
    (offset.toInt = -(k + 1) → v.test consumed (.probe offset matcher flags) =
      ((v.run.preceding (skips v.categories flags) v.cursor)[k]?.filter fun p =>
        matcher.accepts p.1.id).map fun p => .probed offset p.2) := by
  have hsign : offset < 0 ↔ offset.toInt < 0 := Int16.lt_iff_toInt_lt
  constructor
  · intro hoffset
    have hcount : offset.toInt.natAbs = k + 1 := by omega
    refine test_probe_of_probeIndex? ?_ fun g i h => (GlyphRun.mem_following_iff.1 h).2
    rw [probeIndex?, if_neg (hsign.not.2 (by omega)), hcount, GlyphRun.stepFiltered_forward hcursor]
  · intro hoffset
    have hcount : offset.toInt.natAbs = k + 1 := by omega
    refine test_probe_of_probeIndex? ?_ fun g i h => (GlyphRun.of_mem_preceding h).2
    rw [probeIndex?, if_pos (hsign.2 (by omega)), hcount, GlyphRun.stepFiltered_backward hcursor]

/-- Probes consume nothing, and whether they hold does not depend on what was found before. -/
lemma map_plan_foldlM_probes (hprobes : ∀ step ∈ probes, step.IsProbe) :
    (probes.foldlM v.find? f).map (·.plan) =
      if probes.all fun step => (v.test #[] step.predicate).isSome then some f.plan else none := by
  induction probes generalizing f with
  | nil => rfl
  | cons step probes ih =>
    obtain ⟨⟨offset, matcher, flags, rfl⟩, hrest⟩ := List.forall_mem_cons.1 hprobes
    have htest : v.test f.consumed (.probe offset matcher flags) =
        v.test #[] (.probe offset matcher flags) := rfl
    have hhit : ∀ hit, v.test #[] (.probe offset matcher flags) = some hit →
        (f.record none hit).plan = f.plan := by
      intro hit h
      obtain ⟨index, -, rfl⟩ := Option.map_eq_some_iff.1 h
      rfl
    rw [List.foldlM_cons, List.all_cons, find?, Label.probe]
    dsimp only
    rw [htest]
    cases hprobe : v.test #[] (.probe offset matcher flags) with
    | none => rfl
    | some hit =>
      rw [Option.map_some, Option.bind_eq_bind, Option.bind_some, ih hrest, hhit hit hprobe]
      rfl

/-- **A rule with a context** consumes the glyph at the cursor if all its probes hold. -/
theorem map_plan_evaluate?_context (hprobes : ∀ step ∈ probes, step.IsProbe) :
    (v.evaluate? (probes ++ .single matcher flags action)).map (·.plan) =
      if (probes.all fun step => (v.test #[] step.predicate).isSome) ∧
          v.accepts v.cursor matcher flags then
        some [(v.cursor, some action)]
      else none := by
  have hrule : probes ++ Rule.single matcher flags action =
      probes ++ [⟨.consume matcher flags, some action⟩] ++ [.accept] := by
    simp [Rule.single, Label.consume]
  have hplans := v.map_plan_foldlM_probes (f := {}) hprobes
  rw [hrule, evaluate?_concat_accept rfl, evaluate?_concat, evaluate?]
  by_cases hall : probes.all fun step => (v.test #[] step.predicate).isSome
  · rw [if_pos hall] at hplans
    obtain ⟨f, hfold, hplan⟩ := Option.map_eq_some_iff.1 hplans
    rw [hfold, Option.bind_some, find?_consume_first hplan]
    simp only [hall, true_and]
    split_ifs <;> rfl
  · rw [if_neg hall, Option.map_eq_none_iff] at hplans
    rw [hplans, if_neg fun h => hall h.1]
    rfl

end View

end Shaping
