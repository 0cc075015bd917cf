import Shaping.Proofs.Alone
import Shaping.Proofs.Edits
import Shaping.Proofs.Following

/-!
Ligature lookups, compiled alone, against a rewriting of the list of glyphs from left to right. At
each glyph the first ligature of its set is formed whose components follow, skipped glyphs not
counted. The glyph becomes the ligature, the components are due to be deleted, and what is skipped
on the way to the last of them stays. Main statement: `LigatureSubst.simulate_eq_rewrite`.
-/

namespace Shaping

namespace LigatureSubst

/-! ### The rewriting -/

/-- The ligature that a glyph forms with the glyphs behind it. -/
def ligature? (t : LigatureSubst) (skip : ShapedGlyph → Bool) (g : ShapedGlyph)
    (rest : List ShapedGlyph) : Option Ligature :=
  if skip g then none
  else ((t.coverage.entry? t.sets g.id).getD []).find? fun l =>
    l.components.isPrefixOf ((rest.filter (!skip ·)).map (·.id))

/-- Rewrites a list of glyphs in which so many components are still due to be deleted. The result
comes with the ligatures that are formed. -/
def rewrite (t : LigatureSubst) (skip : ShapedGlyph → Bool) :
    (due : Nat) → List ShapedGlyph → List ShapedGlyph × List Ligature
  | _, [] => ([], [])
  | 0, g :: rest =>
    match t.ligature? skip g rest with
    | some l =>
      let (out, formed) := rewrite t skip l.components.length rest
      (.ofId l.glyph :: out, l :: formed)
    | none =>
      let (out, formed) := rewrite t skip 0 rest
      (g :: out, formed)
  | due + 1, g :: rest =>
    if skip g then
      let (out, formed) := rewrite t skip (due + 1) rest
      (g :: out, formed)
    else rewrite t skip due rest

/-- How many glyphs the formed ligatures have taken out. -/
def deleted (formed : List Ligature) : Nat := (formed.flatMap (·.components)).length

variable {t : LigatureSubst} {skip : ShapedGlyph → Bool} {g : ShapedGlyph}
  {front rest : List ShapedGlyph} {due : Nat} {l : Ligature}

lemma rewrite_of_none (h : t.ligature? skip g rest = none) : t.rewrite skip 0 (g :: rest) =
    (g :: (t.rewrite skip 0 rest).1, (t.rewrite skip 0 rest).2) := by
  rw [rewrite, h]

lemma rewrite_of_some (h : t.ligature? skip g rest = some l) : t.rewrite skip 0 (g :: rest) =
    (.ofId l.glyph :: (t.rewrite skip l.components.length rest).1,
      l :: (t.rewrite skip l.components.length rest).2) := by
  rw [rewrite, h]

lemma length_le_of_ligature? (h : t.ligature? skip g rest = some l) :
    l.components.length ≤ (rest.filter (!skip ·)).length := by
  rw [ligature?] at h
  split_ifs at h
  have hcomponents := List.find?_some h
  simpa using (List.isPrefixOf_iff_prefix.1 hcomponents).length_le

theorem length_rewrite (hdue : due ≤ (rest.filter (!skip ·)).length) :
    (t.rewrite skip due rest).1.length + due + deleted (t.rewrite skip due rest).2 =
      rest.length := by
  induction rest generalizing due with
  | nil =>
    obtain rfl : due = 0 := Nat.le_zero.1 hdue
    rfl
  | cons g rest ih =>
    cases due with
    | zero =>
      cases hl : t.ligature? skip g rest with
      | some l =>
        have hrest := ih (length_le_of_ligature? hl)
        rw [rewrite_of_some hl]
        simp only [deleted, List.length_cons, List.flatMap_cons, List.length_append] at hrest ⊢
        omega
      | none =>
        have hrest := ih (Nat.zero_le _)
        rw [rewrite_of_none hl]
        simp only [deleted, List.length_cons] at hrest ⊢
        omega
    | succ due =>
      rw [rewrite]
      split_ifs with hskip
      · rw [List.filter_cons_of_neg (by simp [hskip])] at hdue
        have hrest := ih hdue
        simp only [deleted, List.length_cons] at hrest ⊢
        omega
      · rw [List.filter_cons_of_pos (by simp [hskip]), List.length_cons] at hdue
        have hrest := ih (Nat.le_of_succ_le_succ hdue)
        simp only [List.length_cons] at hrest ⊢
        omega

lemma removeAll_append {run run' : GlyphRun} {indices more : List Nat}
    (h : GlyphRun.removeAll run indices = .ok run') :
    GlyphRun.removeAll run (indices ++ more) = GlyphRun.removeAll run' more := by
  induction indices generalizing run with
  | nil =>
    obtain rfl : run = run' := Except.ok.inj h
    rfl
  | cons i indices ih =>
    rw [GlyphRun.removeAll] at h
    split_ifs at h with hi
    rw [List.cons_append, GlyphRun.removeAll, dif_pos hi]
    exact ih h

/-- **What is due is taken out**, up to the last component; skipped glyphs in front of that stay. -/
theorem exists_removeAll_due (t : LigatureSubst) {i : Nat} (hfront : front.length = i + 1)
    (hdue : due ≤ (rest.filter (!skip ·)).length) :
    ∃ kept rest' : List ShapedGlyph,
      GlyphRun.removeAll (front ++ rest).toArray
        (((GlyphRun.unskipped skip front.length rest).map (·.2)).take due).reverse =
          .ok (front ++ kept ++ rest').toArray ∧
      t.rewrite skip due rest =
        (kept ++ (t.rewrite skip 0 rest').1, (t.rewrite skip 0 rest').2) ∧
      rest.length = kept.length + due + rest'.length ∧
      ((((GlyphRun.unskipped skip front.length rest).map (·.2)).take due).getLast?.getD i) + 1 =
        front.length + kept.length + due := by
  induction rest generalizing due front i with
  | nil =>
    obtain rfl : due = 0 := Nat.le_zero.1 hdue
    exact ⟨[], [], by simp [GlyphRun.removeAll], rfl, rfl, by simp [hfront]⟩
  | cons g rest ih =>
    cases due with
    | zero =>
      exact ⟨[], g :: rest, by simp [GlyphRun.removeAll], by simp, by simp, by simp [hfront]⟩
    | succ due =>
      have hgrown : (front ++ [g]).length = front.length + 1 := by simp
      rw [rewrite, GlyphRun.unskipped_cons]
      split_ifs with hskip
      · rw [List.filter_cons_of_neg (by simp [hskip])] at hdue
        obtain ⟨kept, rest', hremove, hrewrite, hlength, hlast⟩ := ih hgrown hdue
        rw [hgrown] at hremove hlast
        refine ⟨g :: kept, rest', ?_, ?_, ?_, ?_⟩
        · simpa using hremove
        · rw [hrewrite]
          rfl
        · simp only [List.length_cons, hlength]
          omega
        · -- something is due, so the default is not used
          have hlen : 0 < (((GlyphRun.unskipped skip (front.length + 1) rest).map (·.2)).take
              (due + 1)).length := by
            rw [← GlyphRun.map_fst_unskipped (k := front.length + 1), List.length_map] at hdue
            rw [List.length_take, List.length_map]
            omega
          obtain ⟨last, hlast'⟩ := List.getLast?_isSome.2 (List.length_pos_iff.1 hlen) |>
            Option.isSome_iff_exists.1
          rw [hlast'] at hlast ⊢
          simp only [Option.getD_some, List.length_cons] at hlast ⊢
          omega
      · rw [List.filter_cons_of_pos (by simp [hskip]), List.length_cons] at hdue
        obtain ⟨kept, rest', hremove, hrewrite, hlength, hlast⟩ :=
          ih hgrown (Nat.le_of_succ_le_succ hdue)
        rw [hgrown] at hremove hlast
        refine ⟨kept, rest', ?_, hrewrite, ?_, ?_⟩
        · rw [List.map_cons, List.take_succ_cons, List.reverse_cons]
          have hwhole : (front ++ g :: rest).toArray = (front ++ [g] ++ rest).toArray := by simp
          rw [hwhole, removeAll_append hremove]
          simp [GlyphRun.removeAll, List.eraseIdx_append_of_length_le]
        · simp only [List.length_cons, hlength]
          omega
        · rw [List.map_cons, List.take_succ_cons, List.getLast?_cons, Option.getD_some]
          dsimp only
          omega

/-! ### The rules -/

variable {flags : LookupFlags} {action : Action} {v : View} {first : GlyphId}
  {components : List GlyphId}

lemma sequence_eq : Rule.sequence flags action (first :: components) =
    ((first :: components).zip (List.replicate components.length none ++ [some action])).map
      (View.glyphStep flags) ++ [.accept] := by
  induction components generalizing first with
  | nil => rfl
  | cons c components ih =>
    rw [Rule.sequence, ih, List.length_cons, List.replicate_succ, List.cons_append,
      List.zip_cons_cons, List.map_cons, List.cons_append]
    · rfl
    · exact List.cons_ne_nil _ _

theorem evaluate?_sequence : v.evaluate? (Rule.sequence flags action (first :: components)) =
    if v.accepts v.cursor (.glyph first) flags ∧ components.isPrefixOf
        ((v.run.following (skips v.categories flags) v.cursor).map (·.1.id)) then
      some { plan := (v.cursor :: (v.run.following (skips v.categories flags) v.cursor).map
        (·.2)).zip (List.replicate components.length none ++ [some action]) }
    else none := by
  obtain ⟨action?, actions, hactions⟩ : ∃ action? actions,
      List.replicate components.length none ++ [some action] = action? :: actions :=
    List.exists_cons_of_ne_nil (by simp)
  have hlength : components.length = actions.length := by
    simpa using congrArg List.length hactions
  rw [sequence_eq, View.evaluate?_concat_accept rfl, hactions, List.zip_cons_cons,
    List.map_cons, View.evaluate?, List.foldlM_cons, View.glyphStep, View.find?_consume_first rfl]
  by_cases hfirst : v.accepts v.cursor (.glyph first) flags
  · have hcursor : v.cursor < v.run.size := View.lt_size_of_accepts hfirst
    rw [if_pos hfirst, Option.bind_eq_bind, Option.bind_some, View.foldlM_glyphStep rfl hcursor,
      List.map_fst_zip (Nat.le_of_eq hlength), List.map_snd_zip (Nat.le_of_eq hlength.symm)]
    simp [hfirst]
  · rw [if_neg hfirst, if_neg fun h => hfirst h.1]
    rfl

/-- What the rule of a ligature finds at the cursor. -/
def found (v : View) (flags : LookupFlags) (l : Ligature) : Finding where
  plan := (v.cursor :: (v.run.following (skips v.categories flags) v.cursor).map (·.2)).zip
    (List.replicate l.components.length none ++
      [some (.ligate l.glyph (UInt16.ofNat l.componentCount))])

theorem first?_rules (t : LigatureSubst) (flags : LookupFlags) (hg : v.run[v.cursor]? = some g) :
    v.first? (t.rules flags) =
    (t.ligature? (skips v.categories flags) g (v.run.toList.drop (v.cursor + 1))).map
      (found v flags) := by
  have haccepts : ∀ first, v.accepts v.cursor (.glyph first) flags =
      (!skips v.categories flags g && decide (first = g.id)) := by
    intro first
    rw [View.accepts, hg]
    rfl
  have hnone : ∀ first (ligatures : List Ligature),
      v.accepts v.cursor (.glyph first) flags = false →
        v.first? (ligatures.map fun l => .sequence flags
          (.ligate l.glyph (UInt16.ofNat l.componentCount)) (first :: l.components)) = none := by
    intro first ligatures hfirst
    refine List.findSome?_eq_none_iff.2 fun rule hrule => ?_
    obtain ⟨l, -, rfl⟩ := List.mem_map.1 hrule
    rw [evaluate?_sequence, if_neg (by simp [hfirst])]
  rw [rules, pairs, View.first?_zip (g := g.id)]
  · rw [ligature?]
    split_ifs with hskip
    · rw [Option.map_none, Option.bind_eq_none_iff]
      exact fun ligatures _ => hnone g.id ligatures (by simp [haccepts, hskip])
    · have hfirst : v.accepts v.cursor (.glyph g.id) flags = true := by simp [haccepts, hskip]
      cases t.coverage.entry? t.sets g.id with
      | none => rfl
      | some ligatures =>
        rw [Option.bind_some, Option.getD_some, View.first?, List.findSome?_map,
          ← List.findSome?_guard, List.map_findSome?]
        congr 1
        funext l
        rw [Function.comp_apply, Function.comp_apply, evaluate?_sequence,
          GlyphRun.map_id_following, Option.guard]
        split_ifs with hl hprefix hprefix
        · rfl
        · exact absurd hl.2 hprefix
        · exact absurd ⟨hfirst, hprefix⟩ hl
        · rfl
  · exact fun first ligatures hne => hnone first ligatures (by simp [haccepts, hne])

/-! ### Carrying out a ligature -/

/-- A ligature of all placed glyphs leaves the first of them. -/
lemma ligate_all {run run' : GlyphRun} {cursor : Nat} {glyph : GlyphId} {placed : List Nat}
    (h : GlyphRun.removeAll (run.modify cursor fun _ => .ofId glyph) placed = .ok run') :
    Edit.ligate ⟨run, placed ++ [cursor], 0⟩ glyph (placed.length + 1) =
      .ok ⟨run', [cursor], -placed.length⟩ := by
  have hmerged : max 1 (min (placed.length + 1) (placed ++ [cursor]).length) - 1 =
      placed.length := by
    rw [List.length_append, List.length_singleton]
    omega
  rw [Edit.ligate]
  dsimp only
  rw [hmerged, List.drop_left, List.take_left]
  dsimp only
  rw [h]
  simp [bind, Except.bind, pure, Except.pure]

/-- Only the last of these indices has an action. -/
lemma exists_zip_eq (i : Nat) (indices : List Nat) (action : Action) : ∃ body : List Nat,
    (i :: indices).zip (List.replicate indices.length none ++ [some action]) =
      body.map (·, none) ++ [(indices.getLast?.getD i, some action)] ∧
    indices.getLast?.getD i :: body.reverse = indices.reverse ++ [i] := by
  have hplain : ∀ l : List Nat,
      l.zip (List.replicate l.length (none : Option Action)) = l.map (·, none) := by
    intro l
    induction l with
    | nil => rfl
    | cons j l ih =>
      rw [List.length_cons, List.replicate_succ, List.zip_cons_cons, ih, List.map_cons]
  cases indices using List.reverseRecOn with
  | nil => exact ⟨[], rfl, rfl⟩
  | append_singleton indices j =>
    refine ⟨i :: indices, ?_, by simp⟩
    rw [← List.cons_append, List.length_append, List.length_singleton,
      List.zip_append (by simp), ← List.length_cons (a := i), hplain]
    simp

lemma zip_take {α β : Type} {l : List α} {actions : List β} (h : actions.length ≤ l.length) :
    l.zip actions = (l.take actions.length).zip actions := by
  rw [List.zip_eq_zip_take_min, Nat.min_eq_right h, List.take_length]

theorem perform_ligate (a : Arithmetic) (base? : Option Nat) {glyph : GlyphId}
    {indices : List Nat} {run' : GlyphRun} (hcount : indices.length + 1 ≤ 65535)
    (hremove : GlyphRun.removeAll (front ++ .ofId glyph :: rest).toArray indices.reverse =
      .ok run') :
    Edit.perform a base? { run := (front ++ g :: rest).toArray }
      ((front.length :: indices).zip (List.replicate indices.length none ++
        [some (.ligate glyph (UInt16.ofNat (indices.length + 1)))])) =
          .ok (.done ⟨run', [front.length], -indices.length⟩) := by
  obtain ⟨body, hplan, hplaced⟩ := exists_zip_eq front.length indices
    (.ligate glyph (UInt16.ofNat (indices.length + 1)))
  have hcomponents : (UInt16.ofNat (indices.length + 1)).toNat = indices.reverse.length + 1 := by
    rw [UInt16.toNat_ofNat', List.length_reverse]
    exact Nat.mod_eq_of_lt (by omega)
  have hmodify : (front ++ g :: rest).toArray.modify front.length (fun _ => .ofId glyph) =
      (front ++ .ofId glyph :: rest).toArray := by
    rw [List.modify_toArray, List.modify_eq_take_cons_drop (by simp)]
    simp
  rw [hplan, Edit.perform_last, Edit.act]
  dsimp only
  rw [hplaced, hcomponents, ligate_all (by rw [hmodify]; exact hremove), List.length_reverse]
  rfl

/-- **To form a ligature** is to put it in the place of its first glyph and to take out what is
due. The cursor goes behind the last component. -/
theorem exists_carryOut_found (a : Arithmetic) (base? : Option Nat) (t : LigatureSubst)
    {categories : Option ClassDef} (hcount : l.componentCount ≤ 65535)
    (hdue : l.components.length ≤ (rest.filter (!skips categories flags ·)).length) :
    ∃ kept rest' : List ShapedGlyph,
      Edit.carryOut a base? .forward front.length (front ++ g :: rest).toArray
        (found ⟨categories, (front ++ g :: rest).toArray, front.length⟩ flags l).plan =
          .ok ((front ++ .ofId l.glyph :: (kept ++ rest')).toArray,
            if rest' = [] then none else some (front.length + 1 + kept.length)) ∧
      t.rewrite (skips categories flags) l.components.length rest =
        (kept ++ (t.rewrite (skips categories flags) 0 rest').1,
          (t.rewrite (skips categories flags) 0 rest').2) ∧
      rest'.length ≤ rest.length := by
  have hgrown : (front ++ [ShapedGlyph.ofId l.glyph]).length = front.length + 1 := by simp
  obtain ⟨kept, rest', hremove, hrewrite, hlength, hlast⟩ :=
    exists_removeAll_due t hgrown hdue
  refine ⟨kept, rest', ?_, hrewrite, by omega⟩
  rw [hgrown] at hremove hlast
  rw [← GlyphRun.map_fst_unskipped (k := front.length + 1), List.length_map] at hdue
  have hplan : (found ⟨categories, (front ++ g :: rest).toArray, front.length⟩ flags l).plan =
      (front.length :: ((GlyphRun.unskipped (skips categories flags) (front.length + 1) rest).map
        (·.2)).take l.components.length).zip (List.replicate l.components.length none ++
          [some (.ligate l.glyph (UInt16.ofNat l.componentCount))]) := by
    rw [found, GlyphRun.following_append, zip_take (by simpa using hdue)]
    simp
  rw [Edit.carryOut, hplan]
  generalize hindices : ((GlyphRun.unskipped (skips categories flags) (front.length + 1) rest).map
    (·.2)).take l.components.length = indices at hremove hlast ⊢
  have hsize : indices.length = l.components.length := by
    rw [← hindices, List.length_take, List.length_map]
    exact Nat.min_eq_left hdue
  have hwhole : front ++ [.ofId l.glyph] ++ rest = front ++ .ofId l.glyph :: rest := by simp
  have hwhole' : front ++ [.ofId l.glyph] ++ kept ++ rest' =
      front ++ .ofId l.glyph :: (kept ++ rest') := by simp
  rw [hwhole, hwhole'] at hremove
  rw [Ligature.componentCount, ← hsize] at hcount ⊢
  rw [perform_ligate a base? hcount hremove]
  obtain ⟨body, hplan, -⟩ := exists_zip_eq front.length indices
    (.ligate l.glyph (UInt16.ofNat (indices.length + 1)))
  rw [hplan]
  have hstop : (Edit.lastConsumed front.length (body.map (·, none) ++
      [(indices.getLast?.getD front.length,
        some (.ligate l.glyph (UInt16.ofNat (indices.length + 1))))]) : Int) + 1 +
          -(indices.length : Int) = (front.length + 1 + kept.length : Nat) := by
    rw [Edit.lastConsumed, List.getLast?_concat]
    dsimp only [Option.map_some, Option.getD_some]
    omega
  have hlength : (front ++ .ofId l.glyph :: (kept ++ rest')).length =
      front.length + 1 + kept.length + rest'.length := by
    simp
    omega
  dsimp only [bind, Except.bind, pure, Except.pure]
  rw [Edit.nextForward_eq hstop hlength, Edit.retains, List.getLast?_concat]
  simp [Action.retainsLast]

/-! ### Runs -/

lemma componentCount_le {first : GlyphId} {ligatures : List Ligature}
    (h : t.coverage.entry? t.sets first = some ligatures) (hl : l ∈ ligatures) :
    l.componentCount ≤ 65535 := by
  obtain ⟨index, -, hset⟩ := Option.bind_eq_some_iff.1 h
  have hset : ligatures ∈ t.sets := Array.mem_of_getElem? hset
  have hvalid := t.valid
  simp only [Option.orElse_eq_orElse, Option.orElse_eq_or, Option.or_eq_none_iff,
    Option.map_eq_none_iff, List.find?_eq_none, decide_eq_true_eq, Nat.not_lt] at hvalid
  exact hvalid.2 l (List.mem_flatten.2 ⟨ligatures, Array.mem_toList_iff.2 hset, hl⟩)

lemma componentCount_le_of_ligature? (h : t.ligature? skip g rest = some l) :
    l.componentCount ≤ 65535 := by
  rw [ligature?] at h
  split_ifs at h
  have hmem := List.mem_of_find?_eq_some h
  cases hentry : t.coverage.entry? t.sets g.id with
  | none =>
    rw [hentry] at hmem
    exact absurd hmem List.not_mem_nil
  | some ligatures =>
    rw [hentry, Option.getD_some] at hmem
    exact componentCount_le hentry hmem

theorem exists_advance_rewrite {it : Interpreter} (hrules : it.rules = t.rules flags)
    (hdirection : it.direction = .forward) {s : Simulation}
    (hrun : s.run = (front ++ g :: rest).toArray) :
    ∃ (done todo : List ShapedGlyph) (formed : List Ligature),
      it.advance s front.length = .ok { s with
        run := (front ++ done ++ todo).toArray
        cursor := if todo = [] then none else some (front ++ done).length
        applied := s.applied + formed.length } ∧
      t.rewrite (skips it.categories flags) 0 (g :: rest) =
        (done ++ (t.rewrite (skips it.categories flags) 0 todo).1,
          formed ++ (t.rewrite (skips it.categories flags) 0 todo).2) ∧
      todo.length ≤ rest.length := by
  have hg : (front ++ g :: rest).toArray[front.length]? = some g := by simp
  have hdrop : (front ++ g :: rest).toArray.toList.drop (front.length + 1) = rest := by
    simp [List.drop_append]
  have hfirst := first?_rules (v := ⟨it.categories, (front ++ g :: rest).toArray, front.length⟩)
    t flags hg
  rw [hdrop, ← hrun, ← hrules] at hfirst
  cases hl : t.ligature? (skips it.categories flags) g rest with
  | none =>
    rw [hl, Option.map_none] at hfirst
    have hgrown : s.run = (front ++ [g] ++ rest).toArray := by simp [hrun]
    have hstep : s.run.step it.direction 1 front.length =
        if rest = [] then none else some (front ++ [g]).length := by
      cases rest <;> simp [hrun, hdirection, GlyphRun.step]
    refine ⟨[g], rest, [], ?_, rewrite_of_none hl, Nat.le_refl _⟩
    rw [Interpreter.advance_of_none hfirst, hstep, ← hgrown]
    rfl
  | some l =>
    rw [hl, Option.map_some] at hfirst
    obtain ⟨kept, todo, hcarry, hrewrite, hlength⟩ :=
      exists_carryOut_found (g := g) it.arithmetic none t (componentCount_le_of_ligature? hl)
        (length_le_of_ligature? hl)
    rw [← hrun, ← hdirection] at hcarry
    refine ⟨.ofId l.glyph :: kept, todo, [l], ?_, ?_, hlength⟩
    · rw [Interpreter.advance_of_some hfirst hcarry]
      simp [Nat.add_assoc, Nat.add_comm 1]
    · rw [rewrite_of_some hl, hrewrite]
      rfl

lemma loop_eq_rewrite_nil {it : Interpreter} (fuel : Nat) {s : Simulation}
    (skip : ShapedGlyph → Bool) (hrun : s.run = (front ++ []).toArray) (hcursor : s.cursor = none) :
    it.loop fuel s = .ok { s with
      run := (front ++ (t.rewrite skip 0 []).1).toArray
      cursor := none
      applied := s.applied + (t.rewrite skip 0 []).2.length } := by
  rw [Interpreter.loop_of_none hcursor, rewrite, ← hcursor, ← hrun]
  rfl

/-- **The interpreter rewrites the glyphs from its cursor on.** -/
theorem loop_eq_rewrite {it : Interpreter} (hrules : it.rules = t.rules flags)
    (hdirection : it.direction = .forward) {fuel : Nat} {s : Simulation}
    {todo : List ShapedGlyph} (hrun : s.run = (front ++ todo).toArray)
    (hcursor : s.cursor = if todo = [] then none else some front.length)
    (hfuel : todo.length ≤ fuel) :
    it.loop fuel s = .ok { s with
      run := (front ++ (t.rewrite (skips it.categories flags) 0 todo).1).toArray
      cursor := none
      applied := s.applied + (t.rewrite (skips it.categories flags) 0 todo).2.length } := by
  induction fuel generalizing s front todo with
  | zero =>
    obtain rfl := List.eq_nil_of_length_eq_zero (Nat.le_zero.1 hfuel)
    exact loop_eq_rewrite_nil 0 _ hrun hcursor
  | succ fuel ih =>
    cases todo with
    | nil => exact loop_eq_rewrite_nil _ _ hrun hcursor
    | cons g rest =>
      rw [if_neg (List.cons_ne_nil _ _)] at hcursor
      obtain ⟨done, todo, formed, hadvance, hrewrite, hlength⟩ :=
        exists_advance_rewrite hrules hdirection hrun
      rw [Interpreter.loop_of_some hcursor hadvance]
      refine Eq.trans (ih rfl rfl ?_) ?_
      · rw [List.length_cons] at hfuel
        omega
      · rw [hrewrite]
        simp [Nat.add_assoc]

lemma substitutes_of_mem_rules {rule : Rule} (h : rule ∈ t.rules flags) : rule.Substitutes := by
  obtain ⟨⟨first, ligatures⟩, -, hrule⟩ := List.mem_flatMap.1 h
  obtain ⟨l, -, rfl⟩ := List.mem_map.1 hrule
  rw [← List.dropLast_concat_getLast (List.cons_ne_nil first l.components), Rule.sequence_concat]
  refine (Rule.substitutes_single rfl _ _).append fun step hstep => ?_
  obtain ⟨g, -, rfl⟩ := List.mem_map.1 hstep
  rfl

/-- **Ligature lookups do what the table says.** Whatever the flags, the options, the categories and
the run, a ligature lookup compiles alone and processes the run. If no search gives up, the result
is the run rewritten from left to right, as many rules are carried out as ligatures are formed, and
the run is shorter by their components. -/
theorem simulate_eq_rewrite (t : LigatureSubst) (flags : LookupFlags) (options : CompileOptions)
    (categories : Option ClassDef) (limits : SimulatorOptions) (arithmetic : Arithmetic)
    (run : GlyphRun) :
    ∃ compiled s, compile [⟨flags, .ligature t⟩] options = .ok compiled ∧
      Simulator.simulate ⟨compiled.machine, categories, limits, arithmetic⟩ run = .ok s ∧
      (s.limitHits = 0 →
        s.run.toList = (t.rewrite (skips categories flags) 0 run.toList).1 ∧
        s.applied = (t.rewrite (skips categories flags) 0 run.toList).2.length ∧
        s.run.size + deleted (t.rewrite (skips categories flags) 0 run.toList).2 = run.size) := by
  obtain ⟨compiled, s, hcompile, hs, hinterpreter⟩ :=
    Lookup.exists_run_substitutes ⟨flags, .ligature t⟩ options categories limits arithmetic run
      fun rule => substitutes_of_mem_rules
  refine ⟨compiled, s, hcompile, hs, fun hlimit => ?_⟩
  have hloop := hinterpreter hlimit
  have hrun : run = ([] ++ run.toList).toArray := by simp
  have hcursor : run.start .forward =
      if run.toList = [] then none else some ([] : List ShapedGlyph).length := by
    simp [GlyphRun.start]
  have hrewrite : Interpreter.simulate ⟨t.rules flags, .forward, categories, arithmetic⟩ run = _ :=
    loop_eq_rewrite rfl rfl hrun hcursor (Nat.le_of_eq Array.length_toList)
  obtain rfl := Except.ok.inj (hloop.symm.trans hrewrite)
  have hlength := length_rewrite (t := t) (Nat.zero_le
    (run.toList.filter (!skips categories flags ·)).length)
  exact ⟨by simp, by simp, by simpa using hlength⟩

/-- A table in which the longer of two ligatures comes first. -/
def overlapping : LigatureSubst :=
  ⟨.ofGlyph 1, #[[⟨9, [2, 3]⟩, ⟨8, [2]⟩]], rfl⟩

theorem simulate_eq_rewrite_overlapping : ∃ compiled s,
    compile [⟨.ignoreMarks, .ligature overlapping⟩] { optimize := false } = .ok compiled ∧
    Simulator.simulate ⟨compiled.machine, some ⟨.list 5 #[3], rfl⟩, {}, .checked⟩
      (.ofIds [1, 5, 2, 5, 3, 4, 1, 2]) = .ok s ∧
    s.limitHits = 0 ∧ s.run = .ofIds [9, 5, 5, 4, 8] ∧ s.applied = 2 := by
  obtain ⟨compiled, s, hcompile, hs, hrewrite⟩ := simulate_eq_rewrite overlapping .ignoreMarks
    { optimize := false } (some ⟨.list 5 #[3], rfl⟩) {} .checked (.ofIds [1, 5, 2, 5, 3, 4, 1, 2])
  have hcompile' : compile [⟨.ignoreMarks, .ligature overlapping⟩] { optimize := false } =
      .ok ⟨(Lookup.trie ⟨.ignoreMarks, .ligature overlapping⟩).machine, 2, none⟩ := by rfl
  obtain rfl := Except.ok.inj (hcompile.symm.trans hcompile')
  have hlimit : s.limitHits = 0 := by
    have hrun : (Simulator.simulate ⟨(Lookup.trie ⟨.ignoreMarks, .ligature overlapping⟩).machine,
        some ⟨.list 5 #[3], rfl⟩, {}, .checked⟩ (.ofIds [1, 5, 2, 5, 3, 4, 1, 2])).map
          (·.limitHits) = .ok 0 := by
      decide +kernel
    rw [hs] at hrun
    exact Except.ok.inj hrun
  obtain ⟨hlist, happlied, -⟩ := hrewrite hlimit
  have hout : overlapping.rewrite (skips (some ⟨.list 5 #[3], rfl⟩) .ignoreMarks) 0
      (GlyphRun.ofIds [1, 5, 2, 5, 3, 4, 1, 2]).toList =
        ((GlyphRun.ofIds [9, 5, 5, 4, 8]).toList, [⟨9, [2, 3]⟩, ⟨8, [2]⟩]) := by
    decide +kernel
  rw [hout] at hlist happlied
  exact ⟨_, s, hcompile, hs, hlimit, Array.toList_inj.1 hlist, happlied⟩

end LigatureSubst

end Shaping
