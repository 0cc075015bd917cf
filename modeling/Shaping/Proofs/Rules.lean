import Shaping.Proofs.Merging
import Shaping.Rule.Expansion

/-!
The shape of rules. Whatever lookup it comes from, a rule tests its context, then consumes its
glyphs, the last one with an action, and then accepts. So it accepts at its end and nowhere else,
and no rule begins another. All that it consumes, it consumes under the flags of its lookup, while
it may test its context under other ones.
-/

namespace Shaping

namespace Label

variable {μ α : Type}

/-- The step accepts. -/
def IsAccept (l : Label μ α) : Prop := l.predicate = .accept

/-- The step tests a glyph and does not consume it. -/
def IsProbe (l : Label μ α) : Prop := ∃ offset matcher flags, l = probe offset matcher flags

/-- The step consumes a glyph and leaves it as it is. -/
def IsPlain (l : Label μ α) : Prop := ∃ matcher flags, l = consume matcher flags

lemma IsProbe.not_isAccept {l : Label μ α} (h : l.IsProbe) : ¬ l.IsAccept := by
  obtain ⟨offset, matcher, flags, rfl⟩ := h
  nofun

lemma IsPlain.not_isAccept {l : Label μ α} (h : l.IsPlain) : ¬ l.IsAccept := by
  obtain ⟨matcher, flags, rfl⟩ := h
  nofun

lemma IsProbe.action_eq {l : Label μ α} (h : l.IsProbe) : l.action = none := by
  obtain ⟨offset, matcher, flags, rfl⟩ := h
  rfl

lemma IsPlain.action_eq {l : Label μ α} (h : l.IsPlain) : l.action = none := by
  obtain ⟨matcher, flags, rfl⟩ := h
  rfl

end Label

variable {flags : LookupFlags} {action : Action} {rule : Rule} {step : Step}

namespace Rule

/-- The rule tests its context, consumes some glyphs and leaves them as they are, and then consumes
one more and acts on it. -/
def Regular (rule : Rule) : Prop := ∃ probes plains matcher flags action,
  rule = probes ++ plains ++ single matcher flags action ∧
    (∀ step ∈ probes, step.IsProbe) ∧ ∀ step ∈ plains, step.IsPlain

/-- The rule is regular, and consumes all its glyphs under these flags. -/
def RegularWith (flags : LookupFlags) (rule : Rule) : Prop := ∃ probes plains matcher action,
  rule = probes ++ plains ++ single matcher flags action ∧
    (∀ step ∈ probes, step.IsProbe) ∧ ∀ step ∈ plains, ∃ m, step = .consume m flags

theorem RegularWith.regular (h : rule.RegularWith flags) : rule.Regular := by
  obtain ⟨probes, plains, matcher, action, rfl, hprobes, hplains⟩ := h
  refine ⟨probes, plains, matcher, flags, action, rfl, hprobes, fun step hstep => ?_⟩
  obtain ⟨m, rfl⟩ := hplains step hstep
  exact ⟨m, flags, rfl⟩

theorem regularWith_single (matcher : Matcher) :
    (single matcher flags action).RegularWith flags :=
  ⟨[], [], matcher, action, rfl, by simp, by simp⟩

theorem regularWith_pair (first second : Matcher) :
    (pair first second flags action).RegularWith flags := by
  refine ⟨[], [.consume first flags], second, action, rfl, by simp, ?_⟩
  exact List.forall_mem_singleton.2 ⟨first, rfl⟩

lemma sequence_concat (glyphs : List GlyphId) (last : GlyphId) :
    sequence flags action (glyphs ++ [last]) =
      (glyphs.map fun g => .consume (.glyph g) flags) ++ single (.glyph last) flags action := by
  induction glyphs with
  | nil => rfl
  | cons g rest ih =>
    rw [List.map_cons, List.cons_append, List.cons_append, ← ih]
    cases rest <;> rfl

theorem regularWith_sequence {glyphs : List GlyphId} (h : glyphs ≠ []) :
    (sequence flags action glyphs).RegularWith flags := by
  cases glyphs using List.reverseRecOn with
  | nil => exact absurd rfl h
  | append_singleton front last =>
    refine ⟨[], _, .glyph last, action, sequence_concat front last, by simp, ?_⟩
    intro step hstep
    obtain ⟨g, -, rfl⟩ := List.mem_map.1 hstep
    exact ⟨_, rfl⟩

theorem RegularWith.append {front : Rule} (hfront : ∀ step ∈ front, step.IsProbe)
    (h : rule.RegularWith flags) : RegularWith flags (front ++ rule) := by
  obtain ⟨probes, plains, matcher, action, rfl, hprobes, hplains⟩ := h
  refine ⟨front ++ probes, plains, matcher, action, by simp, ?_, hplains⟩
  exact List.forall_mem_append.2 ⟨hfront, hprobes⟩

theorem RegularWith.flags_eq {flags' : LookupFlags} {matcher : Matcher}
    (h : rule.RegularWith flags) (hstep : step ∈ rule)
    (hconsume : step.predicate = .consume matcher flags') : flags' = flags := by
  obtain ⟨probes, plains, m, action, rfl, hprobes, hplains⟩ := h
  obtain hstep | hstep := List.mem_append.1 hstep
  · obtain hstep | hstep := List.mem_append.1 hstep
    · obtain ⟨offset, m', flags₁, rfl⟩ := hprobes step hstep
      cases hconsume
    · obtain ⟨m', rfl⟩ := hplains step hstep
      cases hconsume
      rfl
  · obtain rfl | hstep := List.mem_cons.1 hstep
    · cases hconsume
      rfl
    · rw [List.mem_singleton.1 hstep] at hconsume
      cases hconsume

theorem Regular.endsIn (h : rule.Regular) : EndsIn Label.IsAccept rule := by
  obtain ⟨probes, plains, matcher, flags, action, rfl, hprobes, hplains⟩ := h
  refine ⟨probes ++ plains ++ [.consume matcher flags action], .accept, by simp [single], rfl, ?_⟩
  intro step hstep
  obtain hstep | hstep := List.mem_append.1 hstep
  · obtain hstep | hstep := List.mem_append.1 hstep
    · exact (hprobes step hstep).not_isAccept
    · exact (hplains step hstep).not_isAccept
  · rw [List.mem_singleton.1 hstep]
    nofun

end Rule

lemma Coverage.regularWith_rules {c : Coverage} (h : rule ∈ c.rules flags action) :
    rule.RegularWith flags := by
  rw [rules] at h
  split_ifs at h
  · exact absurd h List.not_mem_nil
  · rw [List.mem_singleton.1 h]
    exact Rule.regularWith_single _

/-- **All rules are regular**, whatever lookup they come from, and consume under its flags. -/
theorem Lookup.regularWith_rules {l : Lookup} (h : rule ∈ l.rules) : rule.RegularWith l.flags := by
  obtain ⟨flags, payload⟩ := l
  cases payload with
  | singleDelta t => exact Coverage.regularWith_rules h
  | singleReplace t => exact Coverage.regularWith_rules h
  | multiple t =>
    obtain ⟨p, -, rfl⟩ := List.mem_map.1 h
    exact Rule.regularWith_single _
  | ligature t =>
    obtain ⟨p, -, h⟩ := List.mem_flatMap.1 h
    obtain ⟨l, -, rfl⟩ := List.mem_map.1 h
    exact Rule.regularWith_sequence (List.cons_ne_nil _ _)
  | reverseChain t =>
    simp only [rules, ReverseChainSubst.rules] at h
    split_ifs at h
    · exact absurd h List.not_mem_nil
    · rw [List.mem_singleton.1 h]
      refine .append (fun step hstep => ?_) (Rule.regularWith_single _)
      obtain hstep | hstep := List.mem_append.1 hstep
      · obtain ⟨p, -, rfl⟩ := List.mem_map.1 hstep
        exact ⟨_, _, _, rfl⟩
      · obtain ⟨p, -, rfl⟩ := List.mem_map.1 hstep
        exact ⟨_, _, _, rfl⟩
  | singlePosition t =>
    simp only [rules, SinglePosition.rules] at h
    split at h
    · exact Coverage.regularWith_rules h
    · obtain ⟨p, -, rfl⟩ := List.mem_map.1 h
      exact Rule.regularWith_single _
  | pairPosition t =>
    obtain ⟨p, -, h⟩ := List.mem_flatMap.1 h
    obtain ⟨v, -, rfl⟩ := List.mem_map.1 h
    exact Rule.regularWith_pair _ _
  | classPairPosition t =>
    obtain ⟨p, -, h⟩ := List.mem_flatMap.1 h
    obtain ⟨column, -, h⟩ := List.mem_filterMap.1 h
    obtain ⟨v, -, rfl⟩ := Option.map_eq_some_iff.1 h
    exact Rule.regularWith_pair _ _
  | cursive t =>
    simp only [rules, CursiveAttachment.rules] at h
    split_ifs at h
    · exact absurd h List.not_mem_nil
    · rw [List.mem_singleton.1 h]
      exact Rule.regularWith_pair _ _
  | markToBase t =>
    simp only [rules, MarkToBase.rules] at h
    split_ifs at h
    · exact absurd h List.not_mem_nil
    · rw [List.mem_singleton.1 h]
      exact .append (List.forall_mem_singleton.2 ⟨_, _, _, rfl⟩) (Rule.regularWith_single _)

lemma Lookup.regular_rules {l : Lookup} (h : rule ∈ l.rules) : rule.Regular :=
  (regularWith_rules h).regular

theorem Lookup.endsIn_rules {l : Lookup} (h : rule ∈ l.rules) : EndsIn Label.IsAccept rule :=
  (regular_rules h).endsIn

theorem Lookup.regular_flatMap_rules {lookups : List Lookup} :
    ∀ rule ∈ lookups.flatMap rules, rule.Regular := by
  intro rule hrule
  obtain ⟨l, -, hrule⟩ := List.mem_flatMap.1 hrule
  exact regular_rules hrule

end Shaping
