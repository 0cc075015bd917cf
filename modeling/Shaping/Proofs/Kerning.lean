import Shaping.Proofs.Alone
import Shaping.Proofs.ClassPairs
import Shaping.Proofs.Edits
import Shaping.Proofs.Following
import Shaping.Proofs.Shallow

/-!
Pair positioning, compiled alone, against a recursion along the run. A glyph is looked up together
with the next one that is not skipped. Where the table has the pair, both are adjusted, and the
second glyph begins the next pair if its own record is zero. The recursion forms the same sums of
positions as the machine, and stops where it stops. Main statement: `GlyphRun.simulate_eq_kern`.
-/

namespace Shaping

namespace GlyphRun

variable {run run' : GlyphRun} {skip : ShapedGlyph → Bool} {i j : Nat} {a b : GlyphId}
  {arithmetic : Arithmetic} {pair? : GlyphId → GlyphId → Option (ValueRecord × ValueRecord)}
  {first second : ValueRecord}

/-! ### The recursion -/

/-- The pair of glyphs that begins at an index: the glyph there, which is not skipped, and the next
one that is not skipped, with the index of the latter. -/
def pairAt? (run : GlyphRun) (skip : ShapedGlyph → Bool) (i : Nat) :
    Option (GlyphId × GlyphId × Nat) :=
  (run[i]?.filter (!skip ·)).bind fun a =>
    (run.following skip i).head?.map fun p => (a.id, p.1.id, p.2)

theorem lt_of_pairAt? (h : run.pairAt? skip i = some (a, b, j)) : i < j ∧ j < run.size := by
  rw [pairAt?, Option.bind_eq_some_iff] at h
  obtain ⟨g, -, h⟩ := h
  obtain ⟨⟨g', k⟩, hhead, heq⟩ := Option.map_eq_some_iff.1 h
  obtain ⟨rest, hrest⟩ := List.head?_eq_some_iff.1 hhead
  obtain ⟨hlt, hget, -⟩ := of_following_eq_cons hrest
  simp only [Prod.mk.injEq] at heq
  obtain ⟨-, -, rfl⟩ := heq
  exact ⟨hlt, (Array.getElem?_eq_some_iff.1 hget).1⟩

/-- The records of the pair that begins at an index, with the index of its second glyph. -/
def recordsAt? (run : GlyphRun) (skip : ShapedGlyph → Bool)
    (pair? : GlyphId → GlyphId → Option (ValueRecord × ValueRecord)) (i : Nat) :
    Option (Nat × ValueRecord × ValueRecord) :=
  (run.pairAt? skip i).bind fun (a, b, j) => (pair? a b).map (j, ·)

theorem lt_of_recordsAt? (h : run.recordsAt? skip pair? i = some (j, first, second)) :
    i < j ∧ j < run.size := by
  rw [recordsAt?, Option.bind_eq_some_iff] at h
  obtain ⟨⟨a, b, k⟩, hpair, h⟩ := h
  obtain ⟨records, -, heq⟩ := Option.map_eq_some_iff.1 h
  obtain ⟨rfl, -⟩ := Prod.mk.inj heq
  exact lt_of_pairAt? hpair

/-- Adds the records of a pair to the glyphs at two indices. -/
def adjustPair (arithmetic : Arithmetic) (run : GlyphRun) (i j : Nat)
    (first second : ValueRecord) : Except Fault GlyphRun := do
  let run ← run.adjust arithmetic first i
  run.adjust arithmetic second j

lemma ids_reposition (run : GlyphRun) (i : Nat) (f : Position → Position) :
    (run.reposition i f).ids = run.ids := by
  rw [ids, ids, reposition, Array.toList_modify]
  refine List.ext_getElem? fun k => ?_
  rw [List.getElem?_map, List.getElem?_map, List.getElem?_modify]
  split_ifs <;> cases run.toList[k]? <;> rfl

lemma exists_of_adjustPair (h : run.adjustPair arithmetic i j first second = .ok run') :
    ∃ f g, run' = (run.reposition i f).reposition j g := by
  obtain ⟨mid, hfirst, hsecond⟩ := Fault.bind_eq_ok h
  obtain ⟨f, rfl⟩ := exists_reposition_of_adjust hfirst
  obtain ⟨g, rfl⟩ := exists_reposition_of_adjust hsecond
  exact ⟨f, g, rfl⟩

lemma size_of_adjustPair (h : run.adjustPair arithmetic i j first second = .ok run') :
    run'.size = run.size := by
  obtain ⟨f, g, rfl⟩ := exists_of_adjustPair h
  rw [size_reposition, size_reposition]

lemma ids_of_adjustPair (h : run.adjustPair arithmetic i j first second = .ok run') :
    run'.ids = run.ids := by
  obtain ⟨f, g, rfl⟩ := exists_of_adjustPair h
  rw [ids_reposition, ids_reposition]

/-- Adjusts the pairs of a run from an index on, and counts them. The second glyph of a pair begins
the next one if its own record is zero. -/
def kern (arithmetic : Arithmetic) (skip : ShapedGlyph → Bool)
    (pair? : GlyphId → GlyphId → Option (ValueRecord × ValueRecord)) (run : GlyphRun) (i : Nat) :
    Except Fault (GlyphRun × Nat) :=
  if i < run.size then
    match h : run.recordsAt? skip pair? i with
    | some (j, first, second) =>
      match h' : run.adjustPair arithmetic i j first second with
      | .ok run' =>
        (kern arithmetic skip pair? run' (if second.isZero then j else j + 1)).map
          fun (out, count) => (out, count + 1)
      | .error fault => .error fault
    | none => kern arithmetic skip pair? run (i + 1)
  else .ok (run, 0)
termination_by run.size - i
decreasing_by
  · have hj := lt_of_recordsAt? h
    rw [size_of_adjustPair h']
    split_ifs <;> omega
  · omega

theorem kern_of_le (h : run.size ≤ i) : kern arithmetic skip pair? run i = .ok (run, 0) := by
  rw [kern, if_neg (Nat.not_lt.2 h)]

theorem kern_of_none (hi : i < run.size) (h : run.recordsAt? skip pair? i = none) :
    kern arithmetic skip pair? run i = kern arithmetic skip pair? run (i + 1) := by
  rw [kern, if_pos hi]
  split
  · rename_i hsome
    rw [h] at hsome
    cases hsome
  · rfl

theorem kern_of_some (h : run.recordsAt? skip pair? i = some (j, first, second)) :
    kern arithmetic skip pair? run i =
      (run.adjustPair arithmetic i j first second >>= fun run' =>
        (kern arithmetic skip pair? run' (if second.isZero then j else j + 1)).map
          fun (out, count) => (out, count + 1)) := by
  obtain ⟨hij, hj⟩ := lt_of_recordsAt? h
  rw [kern, if_pos (hij.trans hj)]
  split
  · rename_i hsome
    rw [h] at hsome
    obtain ⟨rfl, rfl, rfl⟩ := Option.some.inj hsome
    split <;> (rename_i hadjust; rw [hadjust]; rfl)
  · rename_i hnone
    rw [h] at hnone
    cases hnone

lemma ends_adjustPair (arithmetic : Arithmetic) (run : GlyphRun) (i j : Nat)
    (first second : ValueRecord) :
    arithmetic.Ends (fun _ => True) (run.adjustPair arithmetic i j first second) :=
  (ends_adjust arithmetic run first i).bind fun run' _ _ => ends_adjust arithmetic run' second j

theorem ends_kern (arithmetic : Arithmetic) (run : GlyphRun) (i : Nat) :
    arithmetic.Ends (fun out => out.1.ids = run.ids) (kern arithmetic skip pair? run i) := by
  induction hroom : run.size - i using Nat.strongRecOn generalizing run i with
  | ind room ih =>
    by_cases hi : i < run.size
    · cases h : run.recordsAt? skip pair? i with
      | none =>
        rw [kern_of_none hi h]
        exact ih _ (by omega) run (i + 1) rfl
      | some found =>
        obtain ⟨j, first, second⟩ := found
        obtain ⟨hij, hj⟩ := lt_of_recordsAt? h
        rw [kern_of_some h]
        refine (ends_adjustPair arithmetic run i j first second).bind fun run' hrun' _ => ?_
        have hsize := size_of_adjustPair hrun'
        refine (ih _ ?_ run' _ rfl).map fun out _ hids => hids.trans (ids_of_adjustPair hrun')
        split_ifs <;> omega
    · rw [kern_of_le (Nat.le_of_not_lt hi)]
      exact Arithmetic.ends_ok rfl

end GlyphRun

/-! ### The rules -/

/-- The records by which a rule for a pair adjusts its glyphs. -/
def Rule.records? : Rule → Option (ValueRecord × ValueRecord)
  | [_, ⟨_, some (.adjustPair first second)⟩, _] => some (first, second)
  | _ => none

/-- The rules adjust pairs with these flags, and the first rule that takes a pair has the records
that `pair?` has for it. -/
structure Rule.AdjustPairs (rules : List Rule) (flags : LookupFlags)
    (pair? : GlyphId → GlyphId → Option (ValueRecord × ValueRecord)) : Prop where
  isPair : ∀ rule ∈ rules, ∃ first second firstRecord secondRecord,
    rule = .pair first second flags (.adjustPair firstRecord secondRecord)
  records? : ∀ a b, (rules.find? (Rule.takes a b)).bind Rule.records? = pair? a b

namespace View

variable {v : View} {rules : List Rule} {flags : LookupFlags} {action : Action}
  {first second : Matcher} {a b : GlyphId} {j : Nat}
  {pair? : GlyphId → GlyphId → Option (ValueRecord × ValueRecord)}

theorem evaluate?_pair : v.evaluate? (.pair first second flags action) =
    (v.run.pairAt? (skips v.categories flags) v.cursor).bind fun (a, b, j) =>
      if first.accepts a && second.accepts b then
        some { plan := [(v.cursor, none), (j, some action)] }
      else none := by
  have hrule : Rule.pair first second flags action =
      [⟨.consume first flags, none⟩, ⟨.consume second flags, some action⟩] ++ [.accept] := rfl
  rw [hrule, evaluate?_concat_accept rfl, evaluate?, List.foldlM_cons, find?_consume_first rfl,
    GlyphRun.pairAt?, accepts]
  cases hg : v.run[v.cursor]? with
  | none => rfl
  | some g =>
    obtain ⟨hcursor, -⟩ := Array.getElem?_eq_some_iff.1 hg
    rw [Option.any_some, Option.filter_some]
    cases skips v.categories flags g with
    | true => rfl
    | false =>
      simp only [Bool.not_false, Bool.true_and, if_true, Option.bind_some]
      by_cases hfirst : first.accepts g.id
      · rw [if_pos hfirst, Option.bind_eq_bind, Option.bind_some, List.foldlM_cons,
          find?_consume rfl hcursor]
        cases (v.run.following (skips v.categories flags) v.cursor).head? with
        | none => rfl
        | some p =>
          rw [Option.filter_some]
          cases hsecond : second.accepts p.1.id <;> simp [hfirst, hsecond]
      · rw [if_neg hfirst]
        cases (v.run.following (skips v.categories flags) v.cursor).head? <;> simp [hfirst]

theorem first?_of_adjustPairs (h : Rule.AdjustPairs rules flags pair?) : v.first? rules =
    (v.run.recordsAt? (skips v.categories flags) pair? v.cursor).map fun (j, records) =>
      { plan := [(v.cursor, none), (j, some (.adjustPair records.1 records.2))] } := by
  rw [GlyphRun.recordsAt?]
  cases hpair : v.run.pairAt? (skips v.categories flags) v.cursor with
  | none =>
    refine List.findSome?_eq_none_iff.2 fun rule hrule => ?_
    obtain ⟨first, second, firstRecord, secondRecord, rfl⟩ := h.isPair rule hrule
    rw [evaluate?_pair, hpair, Option.bind_none]
  | some found =>
    obtain ⟨a, b, j⟩ := found
    have hskip : ∀ rule ∈ rules, ¬ rule.takes a b → v.evaluate? rule = none := by
      intro rule hrule htakes
      obtain ⟨first, second, firstRecord, secondRecord, rfl⟩ := h.isPair rule hrule
      rw [evaluate?_pair, hpair, Option.bind_some]
      exact if_neg htakes
    rw [Option.bind_some]
    dsimp only
    rw [← h.records? a b]
    cases hrule : rules.find? (Rule.takes a b) with
    | none =>
      exact List.findSome?_eq_none_iff.2 fun rule hmem =>
        hskip rule hmem (List.find?_eq_none.1 hrule rule hmem)
    | some rule =>
      obtain ⟨htakes, front, back, rfl, hfront⟩ := List.find?_eq_some_iff_append.1 hrule
      obtain ⟨first, second, firstRecord, secondRecord, rfl⟩ := h.isPair rule (by simp)
      have hnone : front.findSome? v.evaluate? = none :=
        List.findSome?_eq_none_iff.2 fun rule hmem =>
          hskip rule (List.mem_append_left _ hmem) (by simpa using hfront rule hmem)
      rw [Rule.takes_pair] at htakes
      rw [first?, List.findSome?_append, hnone, Option.none_or, List.findSome?_cons, evaluate?_pair,
        hpair, Option.bind_some]
      dsimp only
      rw [if_pos htakes]
      rfl

end View

/-! ### Runs -/

section Runs

variable {flags : LookupFlags} {rules : List Rule}
  {pair? : GlyphId → GlyphId → Option (ValueRecord × ValueRecord)}

theorem Edit.carryOut_adjustPair (a : Arithmetic) (base? : Option Nat) {run : GlyphRun} {i j : Nat}
    (hij : i < j) (hj : j < run.size) (first second : ValueRecord) :
    carryOut a base? .forward i run [(i, none), (j, some (.adjustPair first second))] =
      (run.adjustPair a i j first second).map fun run' =>
        (run', if (if second.isZero then j else j + 1) < run.size then
            some (if second.isZero then j else j + 1)
          else none) := by
  have hperform : perform a base? { run } [(i, none), (j, some (.adjustPair first second))] =
      (run.adjustPair a i j first second).map fun run' => .done ⟨run', [j, i], 0⟩ := by
    refine (perform_last a base? [i] j (.adjustPair first second)).trans ?_
    rw [act, List.reverse_singleton, GlyphRun.adjustPair]
    dsimp only
    cases run.adjust a first i with
    | error fault => rfl
    | ok mid =>
      rw [Fault.ok_bind, Fault.ok_bind]
      cases mid.adjust a second j <;> rfl
  cases hadjust : run.adjustPair a i j first second with
  | error fault =>
    rw [hadjust] at hperform
    rw [carryOut, hperform]
    rfl
  | ok run' =>
    rw [hadjust] at hperform
    have hsize : run'.size = (j + 1) + (run.size - (j + 1)) := by
      rw [GlyphRun.size_of_adjustPair hadjust]
      omega
    have hretains : (some (Action.adjustPair first second)).any (·.retainsLast) =
        second.isZero := rfl
    rw [carryOut_forward_eq rfl hperform (by simp) hsize, hretains]
    refine congrArg (fun next => Except.ok (run', next)) ?_
    cases second.isZero with
    | true => simp [hij, hj]
    | false =>
      simp only [Bool.false_eq_true, false_and, if_false]
      by_cases hrest : j + 1 < run.size
      · rw [if_pos hrest, if_neg (by omega : ¬ run.size - (j + 1) = 0)]
      · rw [if_neg hrest, if_pos (by omega : run.size - (j + 1) = 0)]

lemma Interpreter.loop_eq_kern_of_le {it : Interpreter} (fuel : Nat) {i : Nat} {s : Simulation}
    (skip : ShapedGlyph → Bool) (hcursor : s.cursor = none) (hi : s.run.size ≤ i) :
    it.loop fuel s = (s.run.kern it.arithmetic skip pair? i).map fun (out, count) =>
      { s with run := out, cursor := none, applied := s.applied + count } := by
  rw [loop_of_none hcursor, GlyphRun.kern_of_le hi, ← hcursor]
  rfl

/-- **The interpreter adjusts the pairs** from its cursor on. At a position where a pair begins it
adjusts that pair, and the recursion goes on where the cursor goes. -/
theorem Interpreter.loop_eq_kern {it : Interpreter} (h : Rule.AdjustPairs it.rules flags pair?)
    (hdirection : it.direction = .forward) {fuel i : Nat} {s : Simulation}
    (hcursor : s.cursor = if i < s.run.size then some i else none) (hfuel : s.run.size ≤ i + fuel) :
    it.loop fuel s =
      (s.run.kern it.arithmetic (skips it.categories flags) pair? i).map fun (out, count) =>
        { s with run := out, cursor := none, applied := s.applied + count } := by
  induction fuel generalizing s i with
  | zero =>
    rw [if_neg (by omega)] at hcursor
    exact loop_eq_kern_of_le 0 _ hcursor hfuel
  | succ fuel ih =>
    by_cases hi : i < s.run.size
    · rw [if_pos hi] at hcursor
      have hfirst := View.first?_of_adjustPairs (v := ⟨it.categories, s.run, i⟩) h
      cases hrecords : s.run.recordsAt? (skips it.categories flags) pair? i with
      | none =>
        rw [hrecords, Option.map_none] at hfirst
        rw [loop_of_some hcursor (advance_forward_of_none hdirection hfirst hi),
          GlyphRun.kern_of_none hi hrecords]
        exact ih rfl (by dsimp only; omega)
      | some found =>
        obtain ⟨j, first, second⟩ := found
        rw [hrecords, Option.map_some] at hfirst
        obtain ⟨hij, hj⟩ := GlyphRun.lt_of_recordsAt? hrecords
        rw [GlyphRun.kern_of_some hrecords, loop, hcursor]
        dsimp only
        rw [advance_of_first hfirst, hdirection, Edit.carryOut_adjustPair _ _ hij hj]
        cases hadjust : s.run.adjustPair it.arithmetic i j first second with
        | error fault => rfl
        | ok run' =>
          have hsize := GlyphRun.size_of_adjustPair hadjust
          dsimp only [Except.map]
          rw [Fault.ok_bind, Fault.ok_bind, ih (i := if second.isZero then j else j + 1)
            (by rw [hsize]) (by dsimp only; rw [hsize]; split_ifs <;> omega)]
          cases run'.kern it.arithmetic (skips it.categories flags) pair?
              (if second.isZero then j else j + 1) with
          | error fault => rfl
          | ok out =>
            dsimp only [Except.map]
            rw [Nat.add_right_comm s.applied, Nat.add_assoc]
    · rw [if_neg hi] at hcursor
      exact loop_eq_kern_of_le _ _ hcursor (Nat.le_of_not_lt hi)

lemma Lookup.parted_trie (l : Lookup) : l.trie.machine.Parted := by
  have hempty : ({ machine := { direction := l.direction } } : Trie Step).machine.Parted := by
    intro s i a b ha
    cases s <;> simp [Machine.row] at ha
  have hwell : ({ machine := { direction := l.direction } } : Trie Step).machine.WellFormed :=
    ⟨Nat.zero_lt_one, by simp⟩
  exact Trie.parted_addPaths hempty hwell l.rules

/-- **A lookup whose rules adjust pairs**, compiled alone, adjusts the pairs of every run. Where its
rules are entered once, no search gives up. -/
theorem Lookup.exists_run_kern (l : Lookup) (h : Rule.AdjustPairs l.rules flags pair?)
    (hdirection : l.direction = .forward) (honce : ∀ v : View, v.EntersOnce l.rules)
    (options : CompileOptions) (categories : Option ClassDef) {limits : SimulatorOptions}
    (hdepth : 3 ≤ limits.maxMatchDepth) (arithmetic : Arithmetic) (run : GlyphRun) :
    ∃ compiled, compile [l] options = .ok compiled ∧
      Simulator.simulate ⟨compiled.machine, categories, limits, arithmetic⟩ run =
        (run.kern arithmetic (skips categories flags) pair? 0).map fun (out, count) =>
          { run := out, cursor := none, applied := count, limitHits := 0 } := by
  obtain ⟨⟨spots, hspells⟩, -⟩ := l.exists_spells_trie
  have hlength : ∀ rule ∈ l.rules, rule.length = 3 := by
    intro rule hrule
    obtain ⟨first, second, firstRecord, secondRecord, rfl⟩ := h.isPair rule hrule
    rfl
  have hdepth : 3 ≤ limits.maxMatchDepth.toNat := UInt64.le_iff_toNat_le.1 hdepth
  obtain ⟨compiled, hcompile, hsimulate⟩ :=
    l.exists_run_settled options categories limits arithmetic run fun v =>
      hspells.search_pairs_ne_limitReached l.parted_trie (fun rule => endsIn_rules) hlength
        (honce v) hdepth
  have hkern : Interpreter.simulate ⟨l.rules, .forward, categories, arithmetic⟩ run = _ :=
    Interpreter.loop_eq_kern h rfl run.start_forward (Nat.le_of_eq (Nat.zero_add _).symm)
  simp only [Nat.zero_add] at hkern
  refine ⟨compiled, hcompile, hsimulate.trans ?_⟩
  rw [hdirection]
  exact hkern

end Runs

/-! ### The two tables -/

section Tables

variable {v : View} {first second : Matcher} {flags : LookupFlags}

/-- Of two matchers that accept no glyph together, the first glyph passes at most one. -/
lemma View.test_eq_none_or (h : ∀ g, first.accepts g → ¬ second.accepts g) :
    v.test #[] (.consume first flags) = none ∨ v.test #[] (.consume second flags) = none := by
  have htest : ∀ matcher, v.test #[] (.consume matcher flags) =
      if v.accepts v.cursor matcher flags then some (.consumed v.cursor) else none := by
    intro matcher
    have hnext : v.nextIndex? #[] flags = some v.cursor := rfl
    rw [test, hnext, Option.filter_some]
    split_ifs <;> rfl
  rw [htest, htest, accepts, accepts]
  cases v.run[v.cursor]? with
  | none => exact .inl rfl
  | some g =>
    cases hfirst : first.accepts g.id with
    | true =>
      right
      simp [h g.id hfirst]
    | false =>
      left
      simp [hfirst]

/-- The records that a table has for a pair: those of the first entry of the first glyph's set with
this second glyph. -/
def PairPosition.pair? (t : PairPosition) (a b : GlyphId) : Option (ValueRecord × ValueRecord) :=
  (t.coverage.entry? t.sets a).bind fun values =>
    (values.find? (·.second = b)).map fun v => (v.firstRecord, v.secondRecord)

theorem PairPosition.adjustPairs_rules (t : PairPosition) (flags : LookupFlags) :
    Rule.AdjustPairs (t.rules flags) flags t.pair? where
  isPair := by
    intro rule hrule
    obtain ⟨⟨first, values⟩, -, hrule⟩ := List.mem_flatMap.1 hrule
    obtain ⟨value, -, rfl⟩ := List.mem_map.1 hrule
    exact ⟨_, _, _, _, rfl⟩
  records? := by
    intro a b
    rw [rules, List.find?_flatMap, pairs, Coverage.findSome?_zip (g := a), pair?]
    · cases t.coverage.entry? t.sets a with
      | none => rfl
      | some values =>
        have hsecond : (Rule.takes a b ∘ fun v : PairValue => Rule.pair (.glyph a) (.glyph v.second)
            flags (.adjustPair v.firstRecord v.secondRecord)) = fun v => decide (v.second = b) := by
          funext v
          simp [Matcher.accepts]
        rw [Option.bind_some, Option.bind_some]
        dsimp only
        rw [List.find?_map, hsecond]
        cases values.find? (·.second = b) <;> rfl
    · intro first values hne
      refine List.find?_eq_none.2 fun rule hrule => ?_
      obtain ⟨v, -, rfl⟩ := List.mem_map.1 hrule
      simp [Matcher.accepts, hne]

theorem PairPosition.entersOnce_rules (t : PairPosition) (flags : LookupFlags) (v : View) :
    v.EntersOnce (t.rules flags) := by
  rw [rules]
  refine View.entersOnce_flatMap (fun p => .consume (.glyph p.1) flags) ?_ ?_
  · rintro ⟨first, values⟩ - rule hrule
    obtain ⟨value, -, rfl⟩ := List.mem_map.1 hrule
    rfl
  · refine (t.coverage.pairwise_zip t.sets).imp fun {p q} hlt => View.test_eq_none_or ?_
    intro g hfirst hsecond
    simp only [Matcher.accepts, decide_eq_true_eq] at hfirst hsecond
    exact UInt16.ne_of_lt hlt (hfirst.trans hsecond.symm)

/-- The records that a class matrix has for a pair whose first glyph is covered: those in the cell
of the two classes. -/
def ClassPairPosition.pair? (t : ClassPairPosition) (a b : GlyphId) :
    Option (ValueRecord × ValueRecord) :=
  if t.coverage.contains a then
    (t.record? (t.firstClasses.classOf a) (t.secondClasses.classOf b)).map fun v =>
      (v.firstRecord, v.secondRecord)
  else none

lemma ClassPairPosition.mem_rules {t : ClassPairPosition} {rule : Rule}
    (h : rule ∈ t.rules flags) : ∃ cls column v,
      t.record? cls column = some v ∧ rule = t.rule flags (t.glyphsOf cls) column v := by
  obtain ⟨⟨cls, glyphs⟩, hgroup, hrule⟩ := List.mem_flatMap.1 h
  obtain ⟨-, rfl⟩ := mem_group_glyphs_iff.1 hgroup
  obtain ⟨column, -, hcell⟩ := List.mem_filterMap.1 hrule
  obtain ⟨v, hv, rfl⟩ := Option.map_eq_some_iff.1 hcell
  exact ⟨cls, _, v, hv, rfl⟩

lemma ClassPairPosition.find?_rules_takes {t : ClassPairPosition} (flags : LookupFlags)
    (hwidth : t.columnCount ≤ 65535) {a : GlyphId} (b : GlyphId) (hrows : 0 < t.rowCount)
    (ha : t.coverage.contains a) : ∃ v,
      t.record? (t.firstClasses.classOf a) (t.secondClasses.classOf b) = some v ∧
      (t.rules flags).find? (Rule.takes a b) = some
        (t.rule flags (t.glyphsOf (t.firstClasses.classOf a)) (t.secondClasses.classOf b) v) := by
  obtain ⟨v, hv, hfilter⟩ := filter_rules_takes flags b hrows ha
  obtain ⟨hcolumn, -⟩ := exists_record? hrows a b
  refine ⟨v, hv, ?_⟩
  rw [← List.head?_filter, hfilter, Nat.mod_eq_of_lt (by omega), if_pos hcolumn]
  rfl

lemma ClassPairPosition.find?_rules_takes_eq_none {t : ClassPairPosition} {a b : GlyphId}
    (h : ¬ (0 < t.rowCount ∧ t.coverage.contains a)) :
    (t.rules flags).find? (Rule.takes a b) = none := by
  refine List.find?_eq_none.2 fun rule hrule htakes => h ?_
  obtain ⟨cls, column, v, hv, rfl⟩ := mem_rules hrule
  have ha := (List.mem_filter.1 (takes_rule.1 htakes).1).1
  obtain ⟨row, hrow, -⟩ := Option.bind_eq_some_iff.1 hv
  exact ⟨Nat.zero_lt_of_lt (Array.getElem?_eq_some_iff.1 hrow).1, Coverage.mem_glyphs_iff.1 ha⟩

theorem ClassPairPosition.adjustPairs_rules (t : ClassPairPosition) (flags : LookupFlags)
    (hwidth : t.columnCount ≤ 65535) : Rule.AdjustPairs (t.rules flags) flags t.pair? where
  isPair := by
    intro rule hrule
    obtain ⟨cls, column, v, -, rfl⟩ := mem_rules hrule
    exact ⟨_, _, _, _, rfl⟩
  records? := by
    intro a b
    rw [pair?]
    by_cases h : 0 < t.rowCount ∧ t.coverage.contains a
    · obtain ⟨v, hv, hfind⟩ := find?_rules_takes flags hwidth b h.1 h.2
      rw [hfind, if_pos h.2, hv]
      rfl
    · rw [find?_rules_takes_eq_none h]
      split_ifs with ha
      · -- no rows, hence no cells
        have hrows : t.records.size = 0 := by
          by_contra hne
          exact h ⟨Nat.pos_of_ne_zero hne, ha⟩
        rw [record?, Array.getElem?_eq_none (by omega)]
        rfl
      · rfl

theorem ClassPairPosition.entersOnce_rules (t : ClassPairPosition) (flags : LookupFlags)
    (v : View) : v.EntersOnce (t.rules flags) := by
  rw [rules]
  refine View.entersOnce_flatMap (fun p => .consume (.set (GlyphSet.ofList p.2)) flags) ?_ ?_
  · rintro ⟨cls, glyphs⟩ - rule hrule
    obtain ⟨column, -, hcell⟩ := List.mem_filterMap.1 hrule
    obtain ⟨w, -, rfl⟩ := Option.map_eq_some_iff.1 hcell
    rfl
  · refine (List.pairwise_map.1 (Sorted.pairwise_group _)).imp_of_mem
      fun {p q} hp hq hlt => View.test_eq_none_or ?_
    obtain ⟨cls, glyphs⟩ := p
    obtain ⟨cls', glyphs'⟩ := q
    obtain ⟨-, rfl⟩ := mem_group_glyphs_iff.1 hp
    obtain ⟨-, rfl⟩ := mem_group_glyphs_iff.1 hq
    intro g hfirst hsecond
    have hcls := (List.mem_filter.1 (GlyphSet.contains_ofList.1 hfirst)).2
    have hcls' := (List.mem_filter.1 (GlyphSet.contains_ofList.1 hsecond)).2
    rw [decide_eq_true_eq] at hcls hcls'
    exact UInt16.ne_of_lt hlt (hcls.symm.trans hcls')

end Tables

/-- **Pair kerning does what the table says.** Whatever the flags, the options, the categories and
the run, a table of pairs, and a class matrix of at most 65535 columns, compiles alone, and if
matches may follow three transitions no search gives up. The run becomes what the recursion along it
makes of it, and as many rules are carried out as pairs are adjusted. That holds in every build:
sums of positions that do not fit wrap around in both or stop both, and nothing else stops them. No
glyph id changes. -/
theorem GlyphRun.simulate_eq_kern (flags : LookupFlags) (options : CompileOptions)
    (categories : Option ClassDef) (limits : SimulatorOptions) (hdepth : 3 ≤ limits.maxMatchDepth)
    (arithmetic : Arithmetic) (run : GlyphRun) :
    (∀ t : PairPosition, ∃ compiled, compile [⟨flags, .pairPosition t⟩] options = .ok compiled ∧
      Simulator.simulate ⟨compiled.machine, categories, limits, arithmetic⟩ run =
        ((run.kern arithmetic (skips categories flags) t.pair? 0).map fun (out, count) =>
          { run := out, cursor := none, applied := count, limitHits := 0 }) ∧
      arithmetic.Ends (fun out => out.1.ids = run.ids)
        (run.kern arithmetic (skips categories flags) t.pair? 0)) ∧
    (∀ t : ClassPairPosition, t.columnCount ≤ 65535 →
      ∃ compiled, compile [⟨flags, .classPairPosition t⟩] options = .ok compiled ∧
      Simulator.simulate ⟨compiled.machine, categories, limits, arithmetic⟩ run =
        ((run.kern arithmetic (skips categories flags) t.pair? 0).map fun (out, count) =>
          { run := out, cursor := none, applied := count, limitHits := 0 }) ∧
      arithmetic.Ends (fun out => out.1.ids = run.ids)
        (run.kern arithmetic (skips categories flags) t.pair? 0)) := by
  constructor
  · intro t
    obtain ⟨compiled, hcompile, hrun⟩ := Lookup.exists_run_kern ⟨flags, .pairPosition t⟩
      (t.adjustPairs_rules flags) rfl (t.entersOnce_rules flags) options categories hdepth
      arithmetic run
    exact ⟨compiled, hcompile, hrun, ends_kern arithmetic run 0⟩
  · intro t hwidth
    obtain ⟨compiled, hcompile, hrun⟩ := Lookup.exists_run_kern ⟨flags, .classPairPosition t⟩
      (t.adjustPairs_rules flags hwidth) rfl (t.entersOnce_rules flags) options categories hdepth
      arithmetic run
    exact ⟨compiled, hcompile, hrun, ends_kern arithmetic run 0⟩

/-- A table of pairs in which the pair of glyphs 1 and 2 occurs twice, and in which the pair of two
glyphs 1 leaves the second as it is. -/
def PairPosition.repeated : PairPosition :=
  ⟨.ofGlyph 1, #[[⟨1, .advance 3, {}⟩, ⟨2, .advance 10, .advance 5⟩, ⟨2, .advance 99, {}⟩]], rfl⟩

lemma Lookup.eq_of_simulate_trie {l : Lookup} {categories : Option ClassDef}
    {limits : SimulatorOptions} {arithmetic : Arithmetic} {run : GlyphRun} {P : Prop}
    {out : Except Fault (GlyphRun × Nat)} {out' : GlyphRun × Nat}
    (h : ∃ compiled, compile [l] { optimize := false } = .ok compiled ∧
      Simulator.simulate ⟨compiled.machine, categories, limits, arithmetic⟩ run =
        (out.map fun (out, count) =>
          { run := out, cursor := none, applied := count, limitHits := 0 }) ∧ P)
    (hrun : (Simulator.simulate ⟨l.trie.machine, categories, limits, arithmetic⟩ run).map
      (fun s => (s.run, s.applied)) = .ok out') : out = .ok out' := by
  obtain ⟨compiled, hcompile, hout, -⟩ := h
  rw [simulate_eq_trie _ _ _ run hcompile] at hout
  rw [hout] at hrun
  cases out with
  | error fault => cases hrun
  | ok out => exact hrun

theorem GlyphRun.simulate_eq_kern_repeated : (3 : UInt64) ≤ 3 ∧
    ClassPairPosition.square.columnCount ≤ 65535 ∧
    GlyphRun.kern .checked (skips (some ⟨.list 5 #[3], rfl⟩) .ignoreMarks)
      PairPosition.repeated.pair? (.ofIds [1, 1, 5, 2]) 0 =
        .ok (#[⟨1, { xAdvance := 3 }⟩, ⟨1, { xAdvance := 10 }⟩, ⟨5, {}⟩, ⟨2, { xAdvance := 5 }⟩],
          2) ∧
    GlyphRun.kern .checked (skips (some ⟨.list 5 #[3], rfl⟩) .ignoreMarks)
      ClassPairPosition.square.pair? (.ofIds [1, 2, 5, 3]) 0 =
        .ok (#[⟨1, {}⟩, ⟨2, { xAdvance := -30 }⟩, ⟨5, {}⟩, ⟨3, {}⟩], 2) := by
  have hdepth : (3 : UInt64) ≤ 3 := by decide
  have hwidth : ClassPairPosition.square.columnCount ≤ 65535 := by decide
  refine ⟨hdepth, hwidth, ?_, ?_⟩
  · have hkern := (simulate_eq_kern .ignoreMarks { optimize := false }
      (some ⟨.list 5 #[3], rfl⟩) { maxMatchDepth := 3 } hdepth .checked (.ofIds [1, 1, 5, 2])).1
        PairPosition.repeated
    exact Lookup.eq_of_simulate_trie hkern (by decide +kernel)
  · have hkern := (simulate_eq_kern .ignoreMarks { optimize := false }
      (some ⟨.list 5 #[3], rfl⟩) { maxMatchDepth := 3 } hdepth .checked (.ofIds [1, 2, 5, 3])).2
        ClassPairPosition.square hwidth
    exact Lookup.eq_of_simulate_trie hkern (by decide +kernel)

end Shaping
