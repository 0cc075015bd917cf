import Shaping.Proofs.Edits

/-! Positions stay words. A build that keeps sums in words leaves positions that are words wherever
it starts from such: what it writes is zero, an anchor, or a sum that has been kept. So the integers
in which positions are given are never anything but words. Main statement:
`Simulator.simulate_inWords`.
-/

namespace Shaping

/-- The offsets and advances are words. -/
structure Position.InWords (p : Position) : Prop where
  xOffset : IsWord p.xOffset
  yOffset : IsWord p.yOffset
  xAdvance : IsWord p.xAdvance
  yAdvance : IsWord p.yAdvance

/-- All positions of the run are in words. -/
def GlyphRun.InWords (run : GlyphRun) : Prop := ∀ g ∈ run, g.position.InWords

lemma isWord_toInt (x : Int16) : IsWord x.toInt := by
  have hle := x.le_toInt
  have hlt := x.toInt_lt
  constructor <;> omega

lemma isWord_neg_toInt (x : Int16) : IsWord (-x.toInt) := by
  have hle := x.le_toInt
  have hlt := x.toInt_lt
  constructor <;> omega

lemma ShapedGlyph.inWords_ofId (id : GlyphId) : (ofId id).position.InWords := by
  have hzero : IsWord 0 := by decide
  exact ⟨hzero, hzero, hzero, hzero⟩

/-! ### Moves -/

section Moves

variable {a : Arithmetic} (ha : a ≠ .exact)
include ha

lemma ValueRecord.inWords_applyTo {r : ValueRecord} {p q : Position} (h : r.applyTo a p = .ok q) :
    q.InWords := by
  obtain ⟨xOffset, hxOffset, h⟩ := Fault.bind_eq_ok h
  obtain ⟨yOffset, hyOffset, h⟩ := Fault.bind_eq_ok h
  obtain ⟨xAdvance, hxAdvance, h⟩ := Fault.bind_eq_ok h
  obtain ⟨yAdvance, hyAdvance, h⟩ := Fault.bind_eq_ok h
  obtain rfl := Except.ok.inj h
  exact ⟨Arithmetic.isWord_of_keep ha hxOffset, Arithmetic.isWord_of_keep ha hyOffset,
    Arithmetic.isWord_of_keep ha hxAdvance, Arithmetic.isWord_of_keep ha hyAdvance⟩

end Moves

example : ValueRecord.applyTo .wrapping { xAdvance := 1 } { xAdvance := 2147483647 } =
    .ok { xAdvance := -2147483648 } := by decide

example : ValueRecord.applyTo .checked { xAdvance := 1 } { xAdvance := 2147483647 } =
    .error (.overflow 2147483648) := by decide

namespace GlyphRun

variable {a : Arithmetic} {run run' : GlyphRun} {front base i : Nat}

lemma InWords.modify (h : run.InWords) {f : ShapedGlyph → ShapedGlyph}
    (hf : ∀ g ∈ run, g.position.InWords → (f g).position.InWords) (i : Nat) :
    GlyphRun.InWords (run.modify i f) := by
  intro g hg
  obtain ⟨k, hk⟩ := Array.mem_iff_getElem?.1 hg
  rw [Array.getElem?_modify] at hk
  split_ifs at hk
  · obtain ⟨g', hg', rfl⟩ := Option.map_eq_some_iff.1 hk
    have hmem := Array.mem_of_getElem? hg'
    exact hf g' hmem (h g' hmem)
  · exact h g (Array.mem_of_getElem? hk)

lemma InWords.reposition (h : run.InWords) {f : Position → Position}
    (hf : ∀ p, p.InWords → (f p).InWords) (i : Nat) : (run.reposition i f).InWords :=
  h.modify (fun g _ hg => hf g.position hg) i

lemma InWords.rename (h : run.InWords) (f : GlyphId → GlyphId) (i : Nat) :
    (run.rename i f).InWords :=
  h.modify (f := fun g => { g with id := f g.id }) (fun _ _ hg => hg) i

theorem InWords.adjust (ha : a ≠ .exact) (h : run.InWords) {record : ValueRecord}
    (hadjust : run.adjust a record i = .ok run') : run'.InWords := by
  rw [GlyphRun.adjust] at hadjust
  split at hadjust
  · obtain rfl := Except.ok.inj hadjust
    exact h
  · obtain ⟨position, happly, hadjust⟩ := Fault.bind_eq_ok hadjust
    obtain rfl := Except.ok.inj hadjust
    exact h.reposition (fun _ _ => ValueRecord.inWords_applyTo ha happly) i

theorem InWords.link (ha : a ≠ .exact) (h : run.InWords) {table : CursiveAttachment}
    (hlink : run.link a table front i = .ok run') : run'.InWords := by
  rw [GlyphRun.link] at hlink
  split at hlink
  · rename_i exit entry _ _
    obtain ⟨y, -, hlink⟩ := Fault.bind_eq_ok hlink
    obtain ⟨yOffset, hy, hlink⟩ := Fault.bind_eq_ok hlink
    obtain rfl := Except.ok.inj hlink
    have hfront (p : Position) (hp : p.InWords) : { p with xAdvance := exit.x.toInt }.InWords :=
      ⟨hp.xOffset, hp.yOffset, isWord_toInt exit.x, hp.yAdvance⟩
    have hindex (p : Position) (hp : p.InWords) :
        { p with xOffset := -entry.x.toInt, yOffset }.InWords :=
      ⟨isWord_neg_toInt entry.x, Arithmetic.isWord_of_keep ha hy, hp.xAdvance, hp.yAdvance⟩
    exact (h.reposition hfront front).reposition hindex i
  · obtain rfl := Except.ok.inj hlink
    exact h

theorem InWords.attach (ha : a ≠ .exact) (h : run.InWords) {table : MarkToBase}
    (hattach : run.attach a table base i = .ok run') : run'.InWords := by
  rw [GlyphRun.attach] at hattach
  split at hattach
  · split at hattach
    · exact Except.ok.inj hattach ▸ h
    · split at hattach
      · exact Except.ok.inj hattach ▸ h
      · obtain ⟨advance, -, hattach⟩ := Fault.bind_eq_ok hattach
        obtain ⟨x, -, hattach⟩ := Fault.bind_eq_ok hattach
        obtain ⟨x, -, hattach⟩ := Fault.bind_eq_ok hattach
        obtain ⟨xOffset, hx, hattach⟩ := Fault.bind_eq_ok hattach
        obtain ⟨y, -, hattach⟩ := Fault.bind_eq_ok hattach
        obtain ⟨yOffset, hy, hattach⟩ := Fault.bind_eq_ok hattach
        obtain rfl := Except.ok.inj hattach
        have hmark (p : Position) (hp : p.InWords) : { p with xOffset, yOffset }.InWords :=
          ⟨Arithmetic.isWord_of_keep ha hx, Arithmetic.isWord_of_keep ha hy, hp.xAdvance,
            hp.yAdvance⟩
        exact h.reposition hmark i
  · exact Except.ok.inj hattach ▸ h

theorem InWords.splice? (h : run.InWords) {glyphs : List GlyphId}
    (hsplice : run.splice? i (glyphs.map .ofId) = some run') : run'.InWords := by
  intro g hg
  have hnew : run'.toList = _ := replaced_splice? hsplice
  rw [← Array.mem_toList_iff, hnew, List.append_assoc, List.mem_append, List.mem_append] at hg
  rcases hg with hg | hg | hg
  · exact h g (Array.mem_toList_iff.1 (List.mem_of_mem_take hg))
  · obtain ⟨id, -, rfl⟩ := List.mem_map.1 hg
    exact ShapedGlyph.inWords_ofId id
  · exact h g (Array.mem_toList_iff.1 (List.mem_of_mem_drop hg))

theorem InWords.removeAll (h : run.InWords) {indices : List Nat}
    (hremove : GlyphRun.removeAll run indices = .ok run') : run'.InWords := by
  induction indices generalizing run with
  | nil =>
    obtain rfl : run = run' := Except.ok.inj hremove
    exact h
  | cons j rest ih =>
    rw [GlyphRun.removeAll] at hremove
    split_ifs at hremove
    exact ih (fun g hg => h g (Array.mem_of_mem_eraseIdx hg)) hremove

end GlyphRun

namespace Edit

variable {a : Arithmetic} {e e' : Edit} {base? : Option Nat} {action : Action}

theorem inWords_act (ha : a ≠ .exact) (h : e.run.InWords) (hact : e.act a base? action = .ok e') :
    e'.run.InWords := by
  rw [act] at hact
  split at hact
  · exact Except.ok.inj hact ▸ h
  · rename_i index earlier hplaced
    cases action with
    | delta d =>
      obtain rfl := Except.ok.inj hact
      exact h.rename (· + d.toUInt16) index
    | replace map =>
      obtain rfl := Except.ok.inj hact
      exact h.rename (fun g => (map.find? g).getD g) index
    | expand glyphs =>
      dsimp only at hact
      split at hact
      · rename_i run hsplice
        obtain rfl := Except.ok.inj hact
        exact h.splice? hsplice
      · cases hact
    | ligate glyph components =>
      obtain rfl | ⟨newer, first, earlier, run, -, hremove, rfl⟩ := ligate_cases hact
      · exact h
      · exact (h.modify (fun _ _ _ => ShapedGlyph.inWords_ofId glyph) first).removeAll hremove
    | adjust record =>
      obtain ⟨run, hadjust, hact⟩ := Fault.bind_eq_ok hact
      obtain rfl := Except.ok.inj hact
      exact h.adjust ha hadjust
    | adjustPair first second =>
      dsimp only at hact
      split at hact
      · obtain ⟨run, hfirst, hact⟩ := Fault.bind_eq_ok hact
        obtain ⟨run', hsecond, hact⟩ := Fault.bind_eq_ok hact
        obtain rfl := Except.ok.inj hact
        exact (h.adjust ha hfirst).adjust ha hsecond
      · obtain ⟨run, hsecond, hact⟩ := Fault.bind_eq_ok hact
        obtain rfl := Except.ok.inj hact
        exact h.adjust ha hsecond
    | linkCursive table =>
      dsimp only at hact
      split at hact
      · obtain ⟨run, hlink, hact⟩ := Fault.bind_eq_ok hact
        obtain rfl := Except.ok.inj hact
        exact h.link ha hlink
      · exact Except.ok.inj hact ▸ h
    | attachMark table =>
      dsimp only at hact
      split at hact
      · obtain ⟨run, hattach, hact⟩ := Fault.bind_eq_ok hact
        obtain rfl := Except.ok.inj hact
        exact h.attach ha hattach
      · exact Except.ok.inj hact ▸ h

/-- The run at the end of the actions of a rule. -/
def Result.run : Result → GlyphRun
  | .done e => e.run
  | .lost run => run

theorem inWords_perform (ha : a ≠ .exact) (h : e.run.InWords) {plan : List (Nat × Option Action)}
    {result : Result} (hperform : perform a base? e plan = .ok result) : result.run.InWords := by
  induction plan generalizing e with
  | nil =>
    obtain rfl := Except.ok.inj hperform
    exact h
  | cons entry rest ih =>
    obtain ⟨found, action?⟩ := entry
    obtain ⟨-, rfl⟩ | ⟨e₁, hact, hrest⟩ := perform_cons hperform
    · exact h
    · have hplaced : (e.place found).run.InWords := h
      cases action? with
      | none =>
        obtain rfl := Except.ok.inj hact
        exact ih hplaced hrest
      | some action => exact ih (inWords_act ha hplaced hact) hrest

theorem inWords_carryOut (ha : a ≠ .exact) {d : Direction} {cursor : Nat} {run run' : GlyphRun}
    (h : run.InWords) {plan : List (Nat × Option Action)} {next : Option Nat}
    (hout : carryOut a base? d cursor run plan = .ok (run', next)) : run'.InWords := by
  obtain ⟨result, hperform, hout⟩ := Fault.bind_eq_ok hout
  have hresult := inWords_perform ha h hperform
  cases result with
  | lost run =>
    obtain ⟨rfl, -⟩ := Prod.mk.inj (Except.ok.inj hout)
    exact hresult
  | done e =>
    cases d <;>
    · obtain ⟨rfl, -⟩ := Prod.mk.inj (Except.ok.inj hout)
      exact hresult

end Edit

namespace Simulator

variable {sim : Simulator} {s s' : Simulation}

lemma inWords_advance (ha : sim.arithmetic ≠ .exact) {cursor : Nat} (h : s.run.InWords)
    (hadvance : sim.advance s cursor = .ok s') : s'.run.InWords := by
  have hcases := advance_cases hadvance
  split at hcases
  · obtain ⟨run, next, happly, rfl⟩ := hcases
    exact Edit.inWords_carryOut ha h happly
  · rw [hcases]
    exact h
  · rw [hcases]
    exact h

/-- **Positions stay words.** Whatever the machine, a build that keeps sums in words makes of a run
with positions in words another one. -/
theorem simulate_inWords (ha : sim.arithmetic ≠ .exact) {run : GlyphRun} (h : run.InWords)
    (hsim : sim.simulate run = .ok s) : s.run.InWords :=
  loop_induction (P := fun s => s.run.InWords)
    (fun _ _ _ hs _ hadvance => inWords_advance ha hs hadvance) hsim h

end Simulator

end Shaping
