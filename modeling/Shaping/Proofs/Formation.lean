import Shaping.Proofs.Cursive
import Shaping.Proofs.Kerning
import Shaping.Proofs.Ligatures
import Shaping.Proofs.Marks
import Shaping.Proofs.Payloads
import Shaping.Proofs.ReverseChains

/-!
What rules are made of. A rule tests the context that its payload names, each coverage at its own
distance, then consumes glyphs, the first of which is one that the payload starts from, acts with
the last of them, and accepts. The words that hold distances and component counts are wide enough
for every payload that exists. Main statement: `Lookup.parts_of_expand`.
-/

namespace Shaping

/-- The coverages around the glyph that a payload acts on, each with its distance from that glyph,
in the order in which they are tested. -/
def Payload.context : Payload → List (Int × Coverage)
  | .reverseChain t =>
    (t.lookahead.zipIdx.map fun (c, i) => ((i : Int) + 1, c)) ++
      t.backtrack.zipIdx.map fun (c, i) => (-((i : Int) + 1), c)
  | .markToBase t => [(-1, t.baseCoverage)]
  | _ => []

/-- The step tests the glyph at this distance for this coverage, and not the one at the cursor. -/
def Label.Tests (step : Step) (spot : Int × Coverage) : Prop :=
  ∃ offset flags, step = .probe offset spot.2.matcher flags ∧ offset.toInt = spot.1 ∧ offset ≠ 0

/-- **The parts of a rule** that comes from a payload: the steps that test its context and those
that consume. Of the latter the first starts from a glyph that the payload covers, and only the last
acts. -/
structure Rule.Parts (payload : Payload) (rule probes consumes : Rule) : Prop where
  eq_append : rule = probes ++ consumes ++ [.accept]
  context : List.Forall₂ Label.Tests probes payload.context
  acts : ∃ plains matcher flags action,
    consumes = plains ++ [.consume matcher flags (some action)] ∧ (∀ step ∈ plains, step.IsPlain) ∧
      ∀ glyph components, action = .ligate glyph components → components.toNat = consumes.length
  length_le : rule.length ≤ 65536
  covered : ∀ matcher flags action, consumes.head? = some (.consume matcher flags action) →
    ∀ glyph, matcher.accepts glyph → payload.coverage.contains glyph

variable {payload : Payload} {rule probes : Rule} {flags : LookupFlags} {action : Action}
  {matcher first second : Matcher}

namespace Rule

/-! ### Short rules -/

theorem parts_context (hcontext : List.Forall₂ Label.Tests probes payload.context)
    (hlength : probes.length ≤ 65534) (haction : ∀ glyph n, action ≠ .ligate glyph n)
    (hcovered : ∀ glyph, matcher.accepts glyph → payload.coverage.contains glyph) :
    Parts payload (probes ++ single matcher flags action) probes
      [.consume matcher flags (some action)] where
  eq_append := by simp [single]
  context := hcontext
  acts := ⟨[], matcher, flags, action, rfl, by simp, fun glyph n h => absurd h (haction glyph n)⟩
  length_le := by
    show (probes ++ [_, _]).length ≤ 65536
    rw [List.length_append, List.length_cons, List.length_singleton]
    omega
  covered := by
    rintro _ _ _ hhead
    cases hhead
    exact hcovered

theorem parts_single (hcontext : payload.context = [])
    (haction : ∀ glyph n, action ≠ .ligate glyph n)
    (hcovered : ∀ glyph, matcher.accepts glyph → payload.coverage.contains glyph) :
    Parts payload (single matcher flags action) [] [.consume matcher flags (some action)] := by
  have htests : List.Forall₂ Label.Tests [] payload.context := by
    rw [hcontext]
    exact .nil
  exact parts_context htests (Nat.zero_le _) haction hcovered

theorem parts_pair (hcontext : payload.context = []) (haction : ∀ glyph n, action ≠ .ligate glyph n)
    (hcovered : ∀ glyph, first.accepts glyph → payload.coverage.contains glyph) :
    Parts payload (pair first second flags action) []
      [.consume first flags, .consume second flags (some action)] where
  eq_append := rfl
  context := by
    rw [hcontext]
    exact .nil
  acts := by
    refine ⟨[.consume first flags], second, flags, action, rfl, ?_,
      fun glyph n h => absurd h (haction glyph n)⟩
    exact List.forall_mem_singleton.2 ⟨first, flags, rfl⟩
  length_le := by simp [pair]
  covered := by
    rintro _ _ _ hhead
    cases hhead
    exact hcovered

theorem parts_sequence {glyph : GlyphId} {glyphs : List GlyphId} (hcontext : payload.context = [])
    (haction : ∀ g n, action = .ligate g n → n.toNat = glyphs.length + 1)
    (hlength : glyphs.length ≤ 65534) (hcovered : payload.coverage.contains glyph) :
    ∃ consumes, Parts payload (sequence flags action (glyph :: glyphs)) [] consumes := by
  have haccepts : ∀ g, (Matcher.glyph glyph).accepts g → payload.coverage.contains g := by
    intro g hg
    obtain rfl : g = glyph := by simpa [Matcher.accepts, eq_comm] using hg
    exact hcovered
  cases glyphs using List.reverseRecOn with
  | nil =>
    refine ⟨[.consume (.glyph glyph) flags (some action)], rfl, ?_,
      ⟨[], _, _, _, rfl, by simp, haction⟩, by simp [sequence, single], ?_⟩
    · rw [hcontext]
      exact .nil
    · rintro _ _ _ hhead
      cases hhead
      exact haccepts
  | append_singleton front last =>
    have hsequence : sequence flags action (glyph :: (front ++ [last])) =
        ((glyph :: front).map fun g => .consume (.glyph g) flags) ++
          single (.glyph last) flags action := sequence_concat (glyph :: front) last
    refine ⟨((glyph :: front).map fun g => .consume (.glyph g) flags) ++
      [.consume (.glyph last) flags (some action)], ?_, ?_, ⟨_, _, _, _, rfl, ?_, ?_⟩, ?_, ?_⟩
    · rw [hsequence]
      simp [single]
    · rw [hcontext]
      exact .nil
    · intro step hstep
      obtain ⟨g, -, rfl⟩ := List.mem_map.1 hstep
      exact ⟨_, _, rfl⟩
    · intro g n h
      rw [haction g n h]
      simp
    · rw [hsequence]
      simp only [single, List.length_append, List.length_map, List.length_cons, List.length_nil]
        at hlength ⊢
      omega
    · rintro _ _ _ hhead
      cases hhead
      exact haccepts

end Rule

/-! ### Context -/

lemma Coverage.forall₂_tests {coverages : List Coverage} (offset : Nat → Int16)
    (distance : Nat → Int)
    (hoffset : ∀ i < coverages.length, (offset i).toInt = distance i ∧ distance i ≠ 0) :
    List.Forall₂ Label.Tests
      (coverages.zipIdx.map fun p => Label.probe (offset p.2) p.1.matcher flags)
      (coverages.zipIdx.map fun p => (distance p.2, p.1)) := by
  rw [List.forall₂_map_left_iff, List.forall₂_map_right_iff, List.forall₂_same]
  rintro ⟨c, i⟩ hmem
  obtain ⟨hi, -⟩ := List.getElem?_eq_some_iff.1 (List.mem_zipIdx_iff_getElem?.1 hmem)
  obtain ⟨heq, hne⟩ := hoffset i hi
  refine ⟨offset i, flags, rfl, heq, fun hzero => hne ?_⟩
  rw [← heq, hzero]
  rfl

theorem ReverseChainSubst.forall₂_tests (t : ReverseChainSubst) (flags : LookupFlags) :
    List.Forall₂ Label.Tests
      ((t.lookahead.zipIdx.map fun (c, i) => Label.probe (1 + Int16.ofNat i) c.matcher flags) ++
        t.backtrack.zipIdx.map fun (c, i) => Label.probe (-1 - Int16.ofNat i) c.matcher flags)
      (Payload.reverseChain t).context := by
  obtain ⟨hahead, hback⟩ := t.length_le
  refine List.rel_append ?_ ?_
  · refine Coverage.forall₂_tests (fun i => 1 + Int16.ofNat i) (fun i => i + 1) fun i hi => ?_
    exact ⟨(toInt_offset (hi.trans_le hahead)).1, by omega⟩
  · refine Coverage.forall₂_tests (fun i => -1 - Int16.ofNat i) (fun i => -(i + 1)) fun i hi => ?_
    exact ⟨(toInt_offset (hi.trans_le hback)).2, by omega⟩

/-! ### The kinds of lookup -/

lemma Coverage.parts_rules {c : Coverage} (payload : Payload)
    (h : rule ∈ c.rules flags action) (hcontext : payload.context = [])
    (hcoverage : payload.coverage = c) (haction : ∀ glyph n, action ≠ .ligate glyph n) :
    ∃ probes consumes, Rule.Parts payload rule probes consumes := by
  unfold rules at h
  split_ifs at h
  · exact absurd h List.not_mem_nil
  · rw [List.mem_singleton.1 h]
    refine ⟨[], _, Rule.parts_single hcontext haction ?_⟩
    intro glyph hglyph
    rwa [accepts_matcher, ← hcoverage] at hglyph

lemma MultipleSubst.parts_rules {t : MultipleSubst}
    (h : rule ∈ t.pairs.map fun (glyph, sequence) =>
      Rule.single (.glyph glyph) flags (.expand sequence)) :
    ∃ probes consumes, Rule.Parts (.multiple t) rule probes consumes := by
  obtain ⟨⟨glyph, sequence⟩, hpair, rfl⟩ := List.mem_map.1 h
  refine ⟨[], _, Rule.parts_single rfl (by simp) fun g hg => ?_⟩
  rw [← of_decide_eq_true hg]
  exact Coverage.contains_of_entry_eq_some (Coverage.mem_zip_iff.1 hpair)

lemma LigatureSubst.parts_rules {t : LigatureSubst} (h : rule ∈ t.rules flags) :
    ∃ probes consumes, Rule.Parts (.ligature t) rule probes consumes := by
  obtain ⟨⟨first, ligatures⟩, hpair, h⟩ := List.mem_flatMap.1 h
  obtain ⟨l, hl, rfl⟩ := List.mem_map.1 h
  have hentry := Coverage.mem_zip_iff.1 hpair
  have hcount : l.components.length + 1 ≤ 65535 := componentCount_le hentry hl
  refine ⟨[], Rule.parts_sequence rfl ?_ (by omega) (Coverage.contains_of_entry_eq_some hentry)⟩
  intro g n hn
  obtain ⟨-, rfl⟩ := Action.ligate.inj hn
  exact UInt16.toNat_ofNat_of_lt' (Nat.lt_succ_of_le hcount)

lemma ReverseChainSubst.parts_rules {t : ReverseChainSubst} (h : rule ∈ t.rules flags) :
    ∃ probes consumes, Rule.Parts (.reverseChain t) rule probes consumes := by
  unfold rules at h
  split_ifs at h
  · exact absurd h List.not_mem_nil
  · rw [List.mem_singleton.1 h]
    obtain ⟨hahead, hback⟩ := t.length_le
    refine ⟨_, _, Rule.parts_context (t.forall₂_tests flags) ?_ (by simp) ?_⟩
    · simp only [List.length_append, List.length_map, List.length_zipIdx]
      omega
    · intro glyph hglyph
      rwa [Coverage.accepts_matcher] at hglyph

lemma SinglePosition.parts_rules {t : SinglePosition} (h : rule ∈ t.rules flags) :
    ∃ probes consumes, Rule.Parts (.singlePosition t) rule probes consumes := by
  unfold rules at h
  split at h
  · exact Coverage.parts_rules (.singlePosition t) h rfl rfl (by simp)
  · obtain ⟨p, hp, rfl⟩ := List.mem_map.1 h
    refine ⟨[], _, Rule.parts_single rfl (by simp) fun g hg => ?_⟩
    have hmem : p.1 ∈ t.pairs.map Prod.fst := List.mem_map_of_mem hp
    rw [← of_decide_eq_true hg]
    rw [t.isAdequate.map_fst_pairs] at hmem
    exact Coverage.mem_glyphs_iff.1 hmem

lemma PairPosition.parts_rules {t : PairPosition} (h : rule ∈ t.rules flags) :
    ∃ probes consumes, Rule.Parts (.pairPosition t) rule probes consumes := by
  obtain ⟨⟨glyph, values⟩, hpair, h⟩ := List.mem_flatMap.1 h
  obtain ⟨v, -, rfl⟩ := List.mem_map.1 h
  refine ⟨[], _, Rule.parts_pair rfl (by simp) fun g hg => ?_⟩
  rw [← of_decide_eq_true hg]
  exact Coverage.contains_of_entry_eq_some (Coverage.mem_zip_iff.1 hpair)

lemma ClassPairPosition.parts_rules {t : ClassPairPosition} (h : rule ∈ t.rules flags) :
    ∃ probes consumes, Rule.Parts (.classPairPosition t) rule probes consumes := by
  obtain ⟨cls, column, v, -, rfl⟩ := mem_rules h
  refine ⟨[], _, Rule.parts_pair rfl (by simp) fun g hg => ?_⟩
  -- a group holds covered glyphs only
  have hmem : g ∈ t.glyphsOf cls := Matcher.accepts_set_iff.1 hg
  exact Coverage.mem_glyphs_iff.1 (List.mem_filter.1 hmem).1

lemma CursiveAttachment.parts_rules {t : CursiveAttachment} (h : rule ∈ t.rules flags) :
    ∃ probes consumes, Rule.Parts (.cursive t) rule probes consumes := by
  unfold rules at h
  simp only at h
  split_ifs at h
  · exact absurd h List.not_mem_nil
  · rw [List.mem_singleton.1 h]
    refine ⟨[], _, Rule.parts_pair rfl (by simp) fun g hg => ?_⟩
    have hany := CursiveAttachment.mem_glyphsWhere_iff.1 (Matcher.accepts_set_iff.1 hg)
    obtain ⟨e, he, -⟩ := (Option.any_eq_true _ _).1 hany
    exact Coverage.contains_of_entry_eq_some he

lemma MarkToBase.parts_rules {t : MarkToBase} (h : rule ∈ t.rules flags) :
    ∃ probes consumes, Rule.Parts (.markToBase t) rule probes consumes := by
  unfold rules at h
  split_ifs at h
  · exact absurd h List.not_mem_nil
  · rw [List.mem_singleton.1 h]
    have htests : List.Forall₂ Label.Tests
        [.probe (-1) t.baseCoverage.matcher (flags.union .ignoreMarks)]
        (Payload.markToBase t).context := .cons ⟨-1, _, rfl, rfl, by decide⟩ .nil
    refine ⟨_, _, Rule.parts_context htests (by simp) (by simp) fun g hg => ?_⟩
    rwa [Coverage.accepts_matcher] at hg

theorem Lookup.parts_rules {l : Lookup} (h : rule ∈ l.rules) :
    ∃ probes consumes, Rule.Parts l.payload rule probes consumes := by
  obtain ⟨flags, payload⟩ := l
  unfold rules at h
  cases payload with
  | singleDelta t => exact Coverage.parts_rules (.singleDelta t) h rfl rfl (by simp)
  | singleReplace t => exact Coverage.parts_rules (.singleReplace t) h rfl rfl (by simp)
  | multiple t => exact MultipleSubst.parts_rules h
  | ligature t => exact LigatureSubst.parts_rules h
  | reverseChain t => exact ReverseChainSubst.parts_rules h
  | singlePosition t => exact SinglePosition.parts_rules h
  | pairPosition t => exact PairPosition.parts_rules h
  | classPairPosition t => exact ClassPairPosition.parts_rules h
  | cursive t => exact CursiveAttachment.parts_rules h
  | markToBase t => exact MarkToBase.parts_rules h

/-- **What a lookup expands to.** Expansion fails if and only if the lookup is processed in the
other direction. Each rule that it yields tests the context of the payload, at distances that do not
wrap, then consumes one glyph or more, starting from one that the payload covers, and then accepts.
Only the last glyph is acted on, and a ligature has as many components as glyphs are consumed. -/
theorem Lookup.parts_of_expand (l : Lookup) (d : Direction) :
    ((∃ e, l.expand d = .error e) ↔ l.direction ≠ d) ∧
      ∀ rules, l.expand d = .ok rules → ∀ rule ∈ rules,
        ∃ probes consumes, Rule.Parts l.payload rule probes consumes := by
  unfold expand
  split_ifs with hdirection
  · refine ⟨⟨nofun, fun hne => absurd hdirection hne⟩, fun rules hrules rule hrule => ?_⟩
    rw [← Except.ok.inj hrules] at hrule
    exact parts_rules hrule
  · exact ⟨⟨fun _ => hdirection, fun _ => ⟨_, rfl⟩⟩, nofun⟩

end Shaping
