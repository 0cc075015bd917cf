import Shaping.Proofs.Alone
import Shaping.Proofs.Edits
import Shaping.Proofs.Following
import Shaping.Proofs.Shallow

/-!
Lookups that act on single glyphs, in any number and order. Each glyph of a run becomes what the
first lookup that covers it makes of it, however long that is, and what has been made of it is not
looked at again. Main statement: `Lookup.simulate_eq_flatMap`.
-/

namespace Shaping

/-! ### Effects -/

/-- The lookup acts on one glyph at a time, whatever stands around it. -/
def Payload.isSingle : Payload → Bool
  | .singleDelta _ | .singleReplace _ | .multiple _ | .singlePosition _ => true
  | _ => false

/-- The record of a glyph, if it is covered. -/
def SinglePosition.record? (t : SinglePosition) (glyph : GlyphId) : Option ValueRecord :=
  match t.values with
  | .shared record => if t.coverage.contains glyph then some record else none
  | .perGlyph records => t.coverage.entry? records glyph

/-- What becomes of a covered glyph: its id plus the delta, which wraps, its substitute at the same
position, the glyphs of its sequence at their natural positions, or the glyph with its record added
to its position. A position that does not fit is a fault if the arithmetic checks sums. -/
def Payload.effect? (a : Arithmetic) :
    Payload → ShapedGlyph → Option (Except Fault (List ShapedGlyph))
  | .singleDelta t, g =>
    if t.coverage.contains g.id then
      some (.ok [{ g with id := UInt16.ofInt (g.id.toNat + t.delta.toInt) }])
    else none
  | .singleReplace t, g => (t.substitute? g.id).map fun id => .ok [{ g with id }]
  | .multiple t, g => (t.coverage.entry? t.sequences g.id).map fun ids => .ok (ids.map .ofId)
  | .singlePosition t, g => (t.record? g.id).map fun record =>
    (record.applyTo a g.position).map fun position => [{ g with position }]
  | _, _ => none

namespace Lookup

/-- Whether a lookup covers a glyph and does not skip it. -/
def covers (categories : Option ClassDef) (l : Lookup) (g : ShapedGlyph) : Bool :=
  !skips categories l.flags g && l.payload.coverage.contains g.id

/-- What becomes of a glyph that a lookup covers and does not skip. -/
def effect? (a : Arithmetic) (categories : Option ClassDef) (l : Lookup) (g : ShapedGlyph) :
    Option (Except Fault (List ShapedGlyph)) :=
  if skips categories l.flags g then none else l.payload.effect? a g

/-- What the first lookup that covers a glyph makes of it, or the glyph itself. -/
def output (a : Arithmetic) (categories : Option ClassDef) (lookups : List Lookup)
    (g : ShapedGlyph) : Except Fault (List ShapedGlyph) :=
  (lookups.findSome? (effect? a categories · g)).getD (.ok [g])

end Lookup

lemma SinglePosition.isSome_record? (t : SinglePosition) (g : GlyphId) :
    (t.record? g).isSome = t.coverage.contains g := by
  obtain ⟨coverage, values, valid⟩ := t
  cases values with
  | shared record =>
    rw [record?]
    dsimp only
    cases coverage.contains g <;> rfl
  | perGlyph records => exact Coverage.isSome_entry_eq (Coverage.size_eq_of_lengthFault? valid)

theorem Payload.isSome_effect? {a : Arithmetic} {p : Payload} (h : p.isSingle) (g : ShapedGlyph) :
    (p.effect? a g).isSome = p.coverage.contains g.id := by
  cases p with
  | singleDelta t =>
    rw [effect?, coverage]
    cases t.coverage.contains g.id <;> rfl
  | singleReplace t =>
    rw [effect?, Option.isSome_map]
    exact Coverage.isSome_entry_eq (Coverage.size_eq_of_lengthFault? t.valid)
  | multiple t =>
    rw [effect?, Option.isSome_map]
    exact Coverage.isSome_entry_eq (Coverage.size_eq_of_lengthFault? t.valid)
  | singlePosition t =>
    rw [effect?, Option.isSome_map]
    exact t.isSome_record? g.id
  | _ => cases h

theorem Lookup.isSome_effect? {a : Arithmetic} {l : Lookup} (h : l.payload.isSingle)
    (categories : Option ClassDef) (g : ShapedGlyph) :
    (l.effect? a categories g).isSome = l.covers categories g := by
  rw [effect?, covers]
  split_ifs with hskip
  · rw [hskip]
    rfl
  · rw [Payload.isSome_effect? h, Bool.not_eq_true] at *
    rw [hskip]
    rfl

/-! ### Actions -/

/-- What an action makes of a glyph, if it acts on one glyph only. -/
def Action.image? (a : Arithmetic) :
    Action → ShapedGlyph → Option (Except Fault (List ShapedGlyph))
  | .delta d, g => some (.ok [{ g with id := g.id + d.toUInt16 }])
  | .replace map, g => some (.ok [{ g with id := (map.find? g.id).getD g.id }])
  | .expand ids, _ => some (.ok (ids.map .ofId))
  | .adjust record, g =>
    some ((record.applyTo a g.position).map fun position => [{ g with position }])
  | _, _ => none

/-- The action of the rule for a glyph. -/
def Payload.action? : Payload → GlyphId → Option Action
  | .singleDelta t, g => if t.coverage.contains g then some (.delta t.delta) else none
  | .singleReplace t, g =>
    if t.coverage.contains g then some (.replace (GlyphMap.ofList t.pairs)) else none
  | .multiple t, g => (t.coverage.entry? t.sequences g).map .expand
  | .singlePosition t, g => (t.record? g).map .adjust
  | _, _ => none

/-- To add a signed word to an id is to add the number, which wraps. -/
lemma add_toUInt16 (g : GlyphId) (d : Int16) :
    g + d.toUInt16 = UInt16.ofInt (g.toNat + d.toInt) := by
  have hd : (d.toUInt16.toNat : Int) = d.toInt % 65536 := by
    have hlt := d.toUInt16.toNat_lt
    have hmod : d.toBitVec.toInt % (2 ^ 16 : Nat) = (d.toUInt16.toNat : Int) % (2 ^ 16 : Nat) := by
      rw [BitVec.toInt_eq_toNat_bmod, Int.bmod_emod]
      rfl
    rw [Int16.toInt]
    omega
  rw [UInt16.ofInt, ← UInt16.toNat_inj, UInt16.toNat_add, UInt16.toNat_ofNat']
  omega

theorem Payload.effect?_eq (a : Arithmetic) (p : Payload) (g : ShapedGlyph) :
    p.effect? a g = (p.action? g.id).bind (·.image? a g) := by
  cases p with
  | singleDelta t =>
    rw [effect?, action?, ← add_toUInt16]
    split_ifs <;> rfl
  | singleReplace t =>
    have hcovered : (t.substitute? g.id).isSome = t.coverage.contains g.id :=
      Coverage.isSome_entry_eq (Coverage.size_eq_of_lengthFault? t.valid)
    have hmap : (GlyphMap.ofList t.pairs).find? g.id = t.substitute? g.id :=
      t.coverage.find?_ofList_zip t.substitutes g.id
    rw [effect?, action?, ← hcovered]
    cases hsubstitute : t.substitute? g.id with
    | none => rfl
    | some id =>
      rw [Option.isSome_some, if_pos rfl, Option.bind_some, Action.image?, hmap, hsubstitute]
      rfl
  | multiple t =>
    rw [effect?, action?]
    cases t.coverage.entry? t.sequences g.id <;> rfl
  | singlePosition t =>
    rw [effect?, action?]
    cases t.record? g.id <;> rfl
  | _ => rfl

lemma Payload.isSome_image? {a : Arithmetic} {p : Payload} {id : GlyphId} {action : Action}
    (h : p.action? id = some action) (g : ShapedGlyph) : (action.image? a g).isSome := by
  cases p with
  | singleDelta t =>
    rw [action?] at h
    split_ifs at h
    rw [← Option.some.inj h]
    rfl
  | singleReplace t =>
    rw [action?] at h
    split_ifs at h
    rw [← Option.some.inj h]
    rfl
  | multiple t =>
    obtain ⟨ids, -, rfl⟩ := Option.map_eq_some_iff.1 h
    rfl
  | singlePosition t =>
    obtain ⟨record, -, rfl⟩ := Option.map_eq_some_iff.1 h
    rfl
  | _ => cases h

/-- The action of the first rule for a glyph in a list of lookups has the effect of the first of
them that covers it. -/
lemma Lookup.findSome?_effect? (a : Arithmetic) (categories : Option ClassDef)
    (lookups : List Lookup) (g : ShapedGlyph) :
    lookups.findSome? (effect? a categories · g) =
      (lookups.findSome? fun l =>
        if skips categories l.flags g then none else l.payload.action? g.id).bind
          (·.image? a g) := by
  induction lookups with
  | nil => rfl
  | cons l lookups ih =>
    rw [List.findSome?_cons, List.findSome?_cons, effect?]
    split_ifs
    · exact ih
    · rw [Payload.effect?_eq]
      cases haction : l.payload.action? g.id with
      | none => exact ih
      | some action =>
        obtain ⟨out, hout⟩ := Option.isSome_iff_exists.1 (Payload.isSome_image? haction g)
        rw [Option.bind_some, hout]

/-! ### Rules -/

section Rules

variable {v : View} {matcher : Matcher} {flags : LookupFlags} {action : Action}

lemma View.evaluate?_single : v.evaluate? (.single matcher flags action) =
    (v.run[v.cursor]?.filter (!skips v.categories flags ·)).bind fun g =>
      if matcher.accepts g.id then some { plan := [(v.cursor, some action)] } else none := by
  have hrule : Rule.single matcher flags action =
      [⟨.consume matcher flags, some action⟩] ++ [.accept] := rfl
  rw [hrule, evaluate?_concat_accept rfl, evaluate?, List.foldlM_cons, find?_consume_first rfl,
    accepts]
  cases v.run[v.cursor]? with
  | none => rfl
  | some g =>
    rw [Option.any_some, Option.filter_some]
    cases skips v.categories flags g with
    | true => rfl
    | false =>
      rw [Bool.not_false, Bool.true_and, if_pos rfl, Option.bind_some]
      split_ifs <;> rfl

/-- One rule for all covered glyphs. -/
lemma Coverage.first?_rules (c : Coverage) : v.first? (c.rules flags action) =
    (v.run[v.cursor]?.filter (!skips v.categories flags ·)).bind fun g =>
      (if c.contains g.id then some action else none).map fun action =>
        { plan := [(v.cursor, some action)] } := by
  have hrule : v.evaluate? (.single c.matcher flags action) =
      (v.run[v.cursor]?.filter (!skips v.categories flags ·)).bind fun g =>
        (if c.contains g.id then some action else none).map fun action =>
          { plan := [(v.cursor, some action)] } := by
    rw [View.evaluate?_single]
    refine Option.bind_congr fun g _ => ?_
    rw [accepts_matcher]
    split_ifs <;> rfl
  rw [rules]
  split_ifs with hempty
  · refine (Option.bind_eq_none_iff.2 fun g _ => ?_).symm
    rw [contains_eq_false_of_isEmpty hempty]
    rfl
  · rw [View.first?, List.findSome?_singleton, hrule]

lemma Coverage.first?_map_zip {β : Type} (c : Coverage) (payload : Array β) (f : β → Action) :
    v.first? ((c.zip payload).map fun p => .single (.glyph p.1) flags (f p.2)) =
      (v.run[v.cursor]?.filter (!skips v.categories flags ·)).bind fun g =>
        ((c.entry? payload g.id).map f).map fun action =>
          { plan := [(v.cursor, some action)] } := by
  rw [View.first?, List.findSome?_map]
  cases hg : v.run[v.cursor]?.filter (!skips v.categories flags ·) with
  | none =>
    refine List.findSome?_eq_none_iff.2 fun p _ => ?_
    rw [Function.comp_apply, View.evaluate?_single, hg, Option.bind_none]
  | some g =>
    rw [findSome?_zip (g := g.id)]
    · rw [Option.bind_some]
      cases c.entry? payload g.id with
      | none => rfl
      | some b =>
        rw [Option.bind_some, Function.comp_apply, View.evaluate?_single, hg, Option.bind_some,
          if_pos (by simp [Matcher.accepts])]
        rfl
    · intro g' b hne
      rw [Function.comp_apply, View.evaluate?_single, hg, Option.bind_some, if_neg]
      simpa [Matcher.accepts] using hne

end Rules

theorem Lookup.first?_rules {l : Lookup} (h : l.payload.isSingle) (v : View) :
    v.first? l.rules = (v.run[v.cursor]?.filter (!skips v.categories l.flags ·)).bind fun g =>
      (l.payload.action? g.id).map fun action => { plan := [(v.cursor, some action)] } := by
  obtain ⟨flags, payload⟩ := l
  cases payload with
  | singleDelta t => exact t.coverage.first?_rules
  | singleReplace t => exact t.coverage.first?_rules
  | multiple t => exact t.coverage.first?_map_zip t.sequences .expand
  | singlePosition t =>
    obtain ⟨coverage, values, valid⟩ := t
    cases values with
    | shared record =>
      refine coverage.first?_rules.trans (Option.bind_congr fun g _ => ?_)
      simp only [Payload.action?, SinglePosition.record?]
      split_ifs <;> rfl
    | perGlyph records => exact coverage.first?_map_zip records .adjust
  | _ => cases h

lemma Lookup.first?_flatMap_rules {lookups : List Lookup}
    (hsingle : ∀ l ∈ lookups, l.payload.isSingle) {v : View} {g : ShapedGlyph}
    (hg : v.run[v.cursor]? = some g) : v.first? (lookups.flatMap rules) =
      (lookups.findSome? fun l =>
        if skips v.categories l.flags g then none else l.payload.action? g.id).map fun action =>
          { plan := [(v.cursor, some action)] } := by
  rw [View.first?_flatMap]
  induction lookups with
  | nil => rfl
  | cons l lookups ih =>
    obtain ⟨hl, hlookups⟩ := List.forall_mem_cons.1 hsingle
    rw [List.findSome?_cons, List.findSome?_cons, first?_rules hl, hg, Option.filter_some,
      ih hlookups]
    cases skips v.categories l.flags g with
    | true => rfl
    | false => cases haction : l.payload.action? g.id <;> simp [haction]

/-! ### Runs -/

section Runs

variable {run : GlyphRun} {front rest done todo : List ShapedGlyph} {g : ShapedGlyph}
  {image : Except Fault (List ShapedGlyph)}
  {action : Action} {i : Nat} {lookups : List Lookup} {it : Interpreter} {s : Simulation}

lemma Edit.act_image {a : Arithmetic} (base? : Option Nat) (hi : i < run.size)
    (h : action.image? a run[i] = some image) : act a ⟨run, [i], 0⟩ base? action =
      image.map fun out =>
        ⟨(run.toList.take i ++ out ++ run.toList.drop (i + 1)).toArray, [i], out.length - 1⟩ := by
  have hreplaced : ∀ {out : List ShapedGlyph} {run' : GlyphRun}, GlyphRun.Replaced i out run run' →
      run' = (run.toList.take i ++ out ++ run.toList.drop (i + 1)).toArray := fun h => by
    rw [← h, Array.toArray_toList]
  cases action with
  | delta d =>
    obtain rfl := Option.some.inj h
    exact congrArg (fun run => Except.ok (Edit.mk run [i] 0))
      (hreplaced (GlyphRun.replaced_modify hi _))
  | replace map =>
    obtain rfl := Option.some.inj h
    exact congrArg (fun run => Except.ok (Edit.mk run [i] 0))
      (hreplaced (GlyphRun.replaced_modify hi _))
  | adjust record =>
    obtain rfl := Option.some.inj h
    have hadjust : run.adjust a record i = (record.applyTo a run[i].position).map fun position =>
        run.reposition i fun _ => position := by
      rw [GlyphRun.adjust, Array.getElem?_eq_getElem hi]
      dsimp only
      cases record.applyTo a run[i].position <;> rfl
    simp only [act, hadjust]
    cases record.applyTo a run[i].position with
    | error fault => rfl
    | ok position =>
      exact congrArg (fun run => Except.ok (Edit.mk run [i] 0))
        (hreplaced (GlyphRun.replaced_modify hi _))
  | expand ids =>
    obtain rfl := Option.some.inj h
    obtain ⟨run', hsplice⟩ := GlyphRun.exists_splice? hi (ids.map .ofId)
    rw [act]
    dsimp only
    rw [hsplice, hreplaced (GlyphRun.replaced_splice? hsplice), Int.zero_add]
    dsimp only [Except.map]
    rw [List.length_map]
  | _ => cases h

theorem Edit.carryOut_image {a : Arithmetic} (base? : Option Nat)
    (hrun : run.toList = front ++ g :: rest) (h : action.image? a g = some image) :
    carryOut a base? .forward front.length run [(front.length, some action)] =
      image.map fun out => ((front ++ out ++ rest).toArray,
        if rest = [] then none else some (front ++ out).length) := by
  have hsize : run.size = front.length + 1 + rest.length := by
    rw [← Array.length_toList, hrun, List.length_append, List.length_cons]
    omega
  have hi : front.length < run.size := by omega
  have hget : run[front.length] = g := by
    rw [← Array.getElem_toList hi]
    simp [hrun]
  have hact := act_image (a := a) base? hi (by rw [hget]; exact h)
  rw [hrun, List.take_left, List.append_cons front g rest, List.drop_left' (by simp)] at hact
  have hperform : perform a base? { run } [(front.length, some action)] = _ :=
    perform_last a base? [] front.length action
  rw [List.reverse_nil, hact] at hperform
  cases image with
  | error fault =>
    rw [carryOut]
    exact congrArg (· >>= _) hperform
  | ok out =>
    have hretains : ¬ action.retainsLast := by
      cases action <;> first | exact Bool.false_ne_true | cases h
    have hstop : (front.length : Int) + 1 + (out.length - 1) = ((front ++ out).length : Nat) := by
      rw [List.length_append]
      omega
    have hsize' : (front ++ out ++ rest).toArray.size = (front ++ out).length + rest.length := by
      rw [List.size_toArray, List.length_append]
    refine (carryOut_forward_eq rfl hperform hstop hsize').trans ?_
    rw [if_neg fun h => hretains h.1]
    cases rest <;> rfl

theorem Lookup.advance_output (hsingle : ∀ l ∈ lookups, l.payload.isSingle)
    (hrules : it.rules = lookups.flatMap rules) (hdirection : it.direction = .forward)
    (hrun : s.run.toList = done ++ g :: todo) :
    it.advance s done.length =
      (output it.arithmetic it.categories lookups g).map fun out => { s with
        run := (done ++ out ++ todo).toArray
        cursor := if todo = [] then none else some (done ++ out).length
        applied := s.applied + if lookups.any (covers it.categories · g) then 1 else 0 } := by
  have hsize : s.run.size = done.length + 1 + todo.length := by
    rw [← Array.length_toList, hrun, List.length_append, List.length_cons]
    omega
  have hget : s.run[done.length]? = some g := by
    rw [← Array.getElem?_toList, hrun]
    simp
  have hcovers : lookups.any (covers it.categories · g) =
      (lookups.findSome? (effect? it.arithmetic it.categories · g)).isSome := by
    rw [List.isSome_findSome?, Bool.eq_iff_iff, List.any_eq_true, List.any_eq_true]
    exact exists_congr fun l => and_congr_right fun hl => by
      rw [isSome_effect? (hsingle l hl)]
  have hfirst : View.first? ⟨it.categories, s.run, done.length⟩ it.rules =
      (lookups.findSome? fun l =>
        if skips it.categories l.flags g then none else l.payload.action? g.id).map fun action =>
          { plan := [(done.length, some action)] } := by
    rw [hrules]
    exact first?_flatMap_rules hsingle hget
  rw [output, hcovers, findSome?_effect?]
  cases haction : lookups.findSome? fun l =>
      if skips it.categories l.flags g then none else l.payload.action? g.id with
  | none =>
    rw [haction, Option.map_none] at hfirst
    have hwhole : s.run = (done ++ [g] ++ todo).toArray := by
      rw [List.append_assoc, List.singleton_append, ← hrun, Array.toArray_toList]
    rw [Interpreter.advance_forward_of_none hdirection hfirst (by omega), hsize]
    cases todo <;> simp [Except.map, hwhole]
  | some action =>
    rw [haction, Option.map_some] at hfirst
    obtain ⟨l, -, hl⟩ := List.exists_of_findSome?_eq_some haction
    split_ifs at hl
    obtain ⟨image, himage⟩ :=
      Option.isSome_iff_exists.1 (Payload.isSome_image? (a := it.arithmetic) hl g)
    rw [Interpreter.advance_of_first hfirst, hdirection, Edit.carryOut_image none hrun himage,
      Option.bind_some, himage]
    cases image <;> rfl

/-- **The interpreter replaces the glyphs** from its cursor to the last, one by one. -/
theorem Lookup.loop_output (hsingle : ∀ l ∈ lookups, l.payload.isSingle)
    (hrules : it.rules = lookups.flatMap rules) (hdirection : it.direction = .forward) {fuel : Nat}
    (hrun : s.run.toList = done ++ todo)
    (hcursor : s.cursor = if todo = [] then none else some done.length)
    (hfuel : todo.length ≤ fuel) :
    it.loop fuel s =
      (todo.mapM (output it.arithmetic it.categories lookups)).map fun outs => { s with
        run := (done ++ outs.flatten).toArray
        cursor := none
        applied := s.applied + todo.countP fun g => lookups.any (covers it.categories · g) } := by
  induction todo generalizing done s fuel with
  | nil =>
    have hwhole : s.run = (done ++ []).toArray := by rw [← hrun, Array.toArray_toList]
    have hnone : s.cursor = none := hcursor
    rw [Interpreter.loop_of_none hcursor, List.mapM_nil]
    dsimp only [Except.map, pure, Except.pure]
    rw [List.flatten_nil, ← hwhole, ← hnone]
    rfl
  | cons g todo ih =>
    obtain ⟨fuel, rfl⟩ := Nat.exists_eq_add_of_le' (Nat.zero_lt_of_lt hfuel)
    rw [if_neg (List.cons_ne_nil g todo)] at hcursor
    rw [Interpreter.loop, hcursor, List.mapM_cons]
    dsimp only
    rw [advance_output hsingle hrules hdirection hrun]
    cases output it.arithmetic it.categories lookups g with
    | error fault => rfl
    | ok out =>
      have hrest := ih (s := { s with
          run := (done ++ out ++ todo).toArray
          cursor := if todo = [] then none else some (done ++ out).length
          applied := s.applied + if lookups.any (covers it.categories · g) then 1 else 0 })
        (show (done ++ out ++ todo).toArray.toList = done ++ out ++ todo from rfl) rfl
        (Nat.le_of_succ_le_succ hfuel)
      dsimp only [Except.map]
      rw [Fault.ok_bind, Fault.ok_bind, hrest]
      cases todo.mapM (output it.arithmetic it.categories lookups) with
      | error fault => rfl
      | ok outs => simp [Except.map, List.countP_cons, Nat.add_assoc, Nat.add_comm]

lemma Lookup.exists_compile_forward (h : ∀ l ∈ lookups, l.direction = .forward)
    (options : CompileOptions) : ∃ compiled, compile lookups options = .ok compiled := by
  cases hadd : addAll 0 lookups {} with
  | ok trie => exact ⟨_, compile_eq_of_addAll hadd⟩
  | error e =>
    obtain ⟨j, i, k, l, hfirst, -⟩ := (addAll_eq_error_iff took_empty).1 hadd
    have hk := h k (List.mem_of_getElem? hfirst.front)
    have hl := h l (List.mem_of_getElem? hfirst.behind)
    exact absurd (hl.trans hk.symm) hfirst.direction

lemma Lookup.commonDirection_forward (h : ∀ l ∈ lookups, l.direction = .forward) :
    commonDirection lookups = .forward := by
  rw [commonDirection]
  cases hlast : lookups.getLast? with
  | none => rfl
  | some l => exact h l (List.mem_of_getLast? hlast)

lemma Lookup.length_rules_single {l : Lookup} (h : l.payload.isSingle) {rule : Rule}
    (hrule : rule ∈ l.rules) : rule.length = 2 := by
  have hcoverage : ∀ (c : Coverage) (flags : LookupFlags) (action : Action),
      rule ∈ c.rules flags action → rule.length = 2 := by
    intro c flags action hrule
    rw [Coverage.rules] at hrule
    split_ifs at hrule
    · exact absurd hrule List.not_mem_nil
    · rw [List.mem_singleton.1 hrule]
      rfl
  obtain ⟨flags, payload⟩ := l
  cases payload with
  | singleDelta t => exact hcoverage _ _ _ hrule
  | singleReplace t => exact hcoverage _ _ _ hrule
  | multiple t =>
    obtain ⟨p, -, rfl⟩ := List.mem_map.1 hrule
    rfl
  | singlePosition t =>
    obtain ⟨coverage, values, valid⟩ := t
    cases values with
    | shared record => exact hcoverage _ _ _ hrule
    | perGlyph records =>
      obtain ⟨p, -, rfl⟩ := List.mem_map.1 hrule
      rfl
  | _ => cases h

lemma Lookup.direction_single {l : Lookup} (h : l.payload.isSingle) : l.direction = .forward := by
  obtain ⟨flags, payload⟩ := l
  cases payload <;> first | rfl | cases h

lemma Payload.ends_effect? {a : Arithmetic} {p : Payload} {g : ShapedGlyph}
    {image : Except Fault (List ShapedGlyph)} (h : p.effect? a g = some image) :
    a.Ends (fun _ => True) image := by
  cases p with
  | singleDelta t =>
    rw [effect?] at h
    split_ifs at h
    obtain rfl := Option.some.inj h
    exact Arithmetic.ends_ok trivial
  | singlePosition t =>
    obtain ⟨record, -, rfl⟩ := Option.map_eq_some_iff.1 h
    exact (GlyphRun.ends_applyTo a record g.position).map fun _ _ _ => trivial
  | singleReplace t | multiple t =>
    obtain ⟨_, -, rfl⟩ := Option.map_eq_some_iff.1 h
    exact Arithmetic.ends_ok trivial
  | _ => cases h

lemma Lookup.ends_output (a : Arithmetic) (categories : Option ClassDef) (lookups : List Lookup)
    (g : ShapedGlyph) : a.Ends (fun _ => True) (output a categories lookups g) := by
  rw [output]
  cases hfound : lookups.findSome? (effect? a categories · g) with
  | none => exact Arithmetic.ends_ok trivial
  | some image =>
    obtain ⟨l, -, hl⟩ := List.exists_of_findSome?_eq_some hfound
    unfold effect? at hl
    split_ifs at hl
    exact Payload.ends_effect? hl

/-- **Lookups on single glyphs act pointwise.** Whatever their number, order and flags, the options,
the categories and the run, lookups that act on single glyphs compile, and if matches may follow two
transitions no search gives up. Each lookup has an effect on the glyphs that it covers and does not
skip. The result is the concatenation, over the glyphs of the run, of the effect of the first lookup
that has one, or of the glyph itself, and as many rules are carried out as there are glyphs with
such a lookup. That holds in every build: a position that does not fit wraps around in both, or
stops both, and nothing else stops them. -/
theorem Lookup.simulate_eq_flatMap (lookups : List Lookup)
    (hsingle : ∀ l ∈ lookups, l.payload.isSingle) (options : CompileOptions)
    (categories : Option ClassDef) (limits : SimulatorOptions) (hdepth : 2 ≤ limits.maxMatchDepth)
    (arithmetic : Arithmetic) (run : GlyphRun) :
    (∀ l ∈ lookups, ∀ g, (l.effect? arithmetic categories g).isSome = l.covers categories g) ∧
    (∀ g, arithmetic.Ends (fun _ => True)
      ((lookups.findSome? fun l => l.effect? arithmetic categories g).getD (.ok [g]))) ∧
    ∃ compiled, compile lookups options = .ok compiled ∧
      Simulator.simulate ⟨compiled.machine, categories, limits, arithmetic⟩ run =
        (run.toList.mapM fun g =>
          (lookups.findSome? (effect? arithmetic categories · g)).getD (.ok [g])).map
            fun outs =>
              { run := outs.flatten.toArray
                cursor := none
                applied := run.toList.countP fun g => lookups.any fun l => l.covers categories g
                limitHits := 0 } := by
  have hforward : ∀ l ∈ lookups, l.direction = .forward := fun l hl =>
    direction_single (hsingle l hl)
  have hlength : ∀ rule ∈ lookups.flatMap rules, rule.length = 2 := by
    intro rule hrule
    obtain ⟨l, hl, hrule⟩ := List.mem_flatMap.1 hrule
    exact length_rules_single (hsingle l hl) hrule
  have hends : ∀ rule ∈ lookups.flatMap rules, EndsIn Label.IsAccept rule := fun rule hrule =>
    (regular_flatMap_rules rule hrule).endsIn
  have hdepth : 2 ≤ limits.maxMatchDepth.toNat := UInt64.le_iff_toNat_le.1 hdepth
  obtain ⟨compiled, hcompile⟩ := exists_compile_forward hforward options
  obtain ⟨m, spots, hequivalent, hspells, hdirection⟩ := exists_spells_compile hcompile
  have hinterpreter := Interpreter.simulate_eq_of_settled ⟨m, categories, limits, arithmetic⟩
    hspells hends (fun v => hspells.search_singles_ne_limitReached hends hlength hdepth v) run
  rw [Interpreter.like, hdirection, commonDirection_forward hforward] at hinterpreter
  have hstart : run.start .forward =
      if run.toList = [] then none else some ([] : List ShapedGlyph).length := by
    simp [GlyphRun.start]
  have hrules : Interpreter.rules ⟨lookups.flatMap rules, .forward, categories, arithmetic⟩ = _ :=
    rfl
  have hloop := loop_output (s := { run, cursor := run.start .forward }) hsingle hrules rfl
    (List.nil_append run.toList).symm hstart (Nat.le_of_eq Array.length_toList)
  simp only [Nat.zero_add, List.nil_append] at hloop
  refine ⟨fun l hl => isSome_effect? (hsingle l hl) categories,
    ends_output arithmetic categories lookups, compiled, hcompile, ?_⟩
  rw [Simulator.simulate_eq hequivalent]
  exact hinterpreter.symm.trans hloop

/-- Lookups of the four kinds: the first passes over marks, the second deletes the glyph 6, and the
third makes a glyph that the first covers. -/
def Lookup.fourKinds : List Lookup :=
  [⟨.ignoreMarks, .singleDelta ⟨⟨.list #[1, 5], rfl⟩, -2⟩⟩,
    ⟨.none, .multiple ⟨⟨.list #[1, 5, 6], rfl⟩, #[[9], [1, 2], []], rfl⟩⟩,
    ⟨.none, .singleReplace ⟨.ofGlyph 2, #[1], rfl⟩⟩,
    ⟨.none, .singlePosition ⟨⟨.list #[2, 3], rfl⟩, .shared (.advance 7), rfl⟩⟩]

theorem Lookup.simulate_eq_flatMap_fourKinds : (2 : UInt64) ≤ 2 ∧
    (∀ l ∈ fourKinds, l.payload.isSingle) ∧ ∃ compiled,
      compile fourKinds { optimize := false } = .ok compiled ∧
      Simulator.simulate ⟨compiled.machine, some ⟨.list 5 #[3], rfl⟩, { maxMatchDepth := 2 },
          .checked⟩ (.ofIds [1, 5, 6, 2, 3, 4]) =
        .ok ⟨#[⟨65535, {}⟩, ⟨1, {}⟩, ⟨2, {}⟩, ⟨1, {}⟩, ⟨3, { xAdvance := 7 }⟩, ⟨4, {}⟩], none, 5,
          0⟩ ∧
      Simulator.simulate ⟨compiled.machine, none, { maxMatchDepth := 2 }, .checked⟩
          #[⟨2, { xAdvance := 9 }⟩, ⟨3, { xAdvance := 2147483641 }⟩] =
        .error (.overflow 2147483648) := by
  have hdepth : (2 : UInt64) ≤ 2 := by decide
  have hsingle : ∀ l ∈ fourKinds, l.payload.isSingle := by decide
  obtain ⟨-, -, compiled, hcompile, hs⟩ := simulate_eq_flatMap fourKinds hsingle
    { optimize := false } (some ⟨.list 5 #[3], rfl⟩) { maxMatchDepth := 2 } hdepth .checked
    (.ofIds [1, 5, 6, 2, 3, 4])
  obtain ⟨-, -, compiled', hcompile', hs'⟩ := simulate_eq_flatMap fourKinds hsingle
    { optimize := false } none { maxMatchDepth := 2 } hdepth .checked
    #[⟨2, { xAdvance := 9 }⟩, ⟨3, { xAdvance := 2147483641 }⟩]
  obtain rfl := Except.ok.inj (hcompile.symm.trans hcompile')
  refine ⟨hdepth, hsingle, compiled, hcompile, hs.trans ?_, hs'.trans ?_⟩
  · decide +kernel
  · decide +kernel

end Runs

end Shaping
