import Shaping.Proofs.Compiling

/-!
When lookups do not compile. A trie takes any direction until it has a path, and keeps the direction
it has from then on. So the lookups compile unless one of them runs against an earlier one that has
rules, and the first that does stops the compilation. Verification never does: the minimized machine
is equivalent to the built one and is its own minimized form.
-/

namespace Shaping

variable {lookups : List Lookup} {options : CompileOptions} {trie trie' : Trie Step} {l l' : Lookup}
  {j i : Nat}

/-! ### Paths lock the direction -/

namespace Trie

lemma pathCount_addPath {path : Rule} (h : path ≠ []) :
    (trie.addPath path).pathCount = trie.pathCount + 1 := by
  rw [addPath_of_ne_nil h]

lemma pathCount_addPaths {paths : List Rule} (h : ∀ path ∈ paths, path ≠ []) :
    (trie.addPaths paths).pathCount = trie.pathCount + paths.length := by
  induction paths generalizing trie with
  | nil => rfl
  | cons path paths ih =>
    obtain ⟨hpath, hpaths⟩ := List.forall_mem_cons.1 h
    have hrest : ((trie.addPath path).addPaths paths).pathCount =
        (trie.addPath path).pathCount + paths.length := ih hpaths
    rw [pathCount_addPath hpath] at hrest
    rw [List.length_cons]
    show ((trie.addPath path).addPaths paths).pathCount = _
    omega

end Trie

namespace Lookup

theorem addTo_cases (l : Lookup) (trie : Trie Step) :
    (0 < trie.pathCount ∧ trie.machine.direction ≠ l.direction ∧
      l.addTo trie = .error (.build ⟨trie.machine.direction, l.direction⟩)) ∨
    ((0 < trie.pathCount → trie.machine.direction = l.direction) ∧
      ∃ trie', l.addTo trie = .ok trie' ∧ trie'.machine.direction = l.direction ∧
        trie'.pathCount = trie.pathCount + l.rules.length) := by
  by_cases h : 0 < trie.pathCount ∧ trie.machine.direction ≠ l.direction
  · refine .inl ⟨h.1, h.2, ?_⟩
    rw [addTo, Trie.setDirection, if_pos h]
  · refine .inr ⟨fun hpaths => by_contra fun hne => h ⟨hpaths, hne⟩, Trie.addPaths
      { trie with machine := { trie.machine with direction := l.direction } } l.rules, ?_, ?_, ?_⟩
    · rw [addTo, Trie.setDirection, if_neg h, expand_direction]
    · exact Trie.direction_addPaths l.rules
    · exact Trie.pathCount_addPaths fun rule hrule => (endsIn_rules hrule).ne_nil

/-! ### Conflicts -/

/-- Lookup `j` of the list has rules, and lookup `i`, which comes behind it, runs in the other
direction. -/
structure Conflict (lookups : List Lookup) (j i : Nat) (l l' : Lookup) : Prop where
  lt : j < i
  front : lookups[j]? = some l
  behind : lookups[i]? = some l'
  rules : l.rules ≠ []
  direction : l'.direction ≠ l.direction

/-- No conflict comes earlier in the list than the one of lookup `i`. -/
structure FirstConflict (lookups : List Lookup) (j i : Nat) (l l' : Lookup) : Prop
    extends Conflict lookups j i l l' where
  first : ∀ i' < i, ∀ j' k k', ¬ Conflict lookups j' i' k k'

/-- What is known of a trie that has taken the lookups `done`. -/
structure Took (done : List Lookup) (trie : Trie Step) : Prop where
  free : ∀ j i l l', ¬ Conflict done j i l l'
  locked : 0 < trie.pathCount ↔ ∃ l ∈ done, l.rules ≠ []
  direction : ∀ l ∈ done, l.rules ≠ [] → l.direction = trie.machine.direction

lemma took_empty : Took [] {} := by
  refine ⟨fun j i l l' h => ?_, ?_, ?_⟩
  · have hfront := h.front
    simp at hfront
  · simp
  · simp

variable {done rest : List Lookup}

lemma Conflict.of_append {k k' : Lookup} (h : Conflict (done ++ rest) j i k k')
    (hi : i < done.length) : Conflict done j i k k' := by
  obtain ⟨hlt, hfront, hbehind, hrules, hne⟩ := h
  rw [List.getElem?_append_left (by omega)] at hfront hbehind
  exact ⟨hlt, hfront, hbehind, hrules, hne⟩

lemma Conflict.concat_cases {k k' : Lookup} (h : Conflict (done ++ [l]) j i k k') :
    Conflict done j i k k' ∨ k ∈ done ∧ k.rules ≠ [] ∧ l.direction ≠ k.direction := by
  have hi : i < done.length + 1 := by
    have hlength := (List.getElem?_eq_some_iff.1 h.behind).1
    rwa [List.length_append, List.length_singleton] at hlength
  rcases Nat.lt_or_eq_of_le (Nat.le_of_lt_succ hi) with hi | rfl
  · exact .inl (h.of_append hi)
  · obtain ⟨hlt, hfront, hbehind, hrules, hne⟩ := h
    obtain rfl : l = k' := by simpa using hbehind
    rw [List.getElem?_append_left hlt] at hfront
    exact .inr ⟨List.mem_of_getElem? hfront, hrules, hne⟩

/-- A lookup that is taken adds its rules, and fixes the direction if it has any. -/
lemma Took.append (h : Took done trie) (l : Lookup)
    (hdirection : 0 < trie.pathCount → trie.machine.direction = l.direction)
    (htrie' : trie'.machine.direction = l.direction)
    (hcount : trie'.pathCount = trie.pathCount + l.rules.length) : Took (done ++ [l]) trie' := by
  have hbefore : ∀ k ∈ done, k.rules ≠ [] → k.direction = l.direction := fun k hk hrules =>
    (h.direction k hk hrules).trans (hdirection (h.locked.2 ⟨k, hk, hrules⟩))
  refine ⟨fun j i k k' hconflict => ?_, ?_, ?_⟩
  · rcases hconflict.concat_cases with hconflict | ⟨hk, hrules, hne⟩
    · exact h.free j i k k' hconflict
    · exact hne (hbefore k hk hrules).symm
  · rw [hcount]
    constructor
    · intro hpos
      by_cases hl : l.rules = []
      · rw [hl, List.length_nil] at hpos
        obtain ⟨k, hk, hrules⟩ := h.locked.1 (by omega)
        exact ⟨k, List.mem_append_left _ hk, hrules⟩
      · exact ⟨l, by simp, hl⟩
    · rintro ⟨k, hk, hrules⟩
      obtain hk | hk := List.mem_append.1 hk
      · have := h.locked.2 ⟨k, hk, hrules⟩
        omega
      · obtain rfl := List.mem_singleton.1 hk
        have := List.length_pos_iff.2 hrules
        omega
  · intro k hk hrules
    rw [htrie']
    obtain hk | hk := List.mem_append.1 hk
    · exact hbefore k hk hrules
    · rw [List.mem_singleton.1 hk]

/-- A lookup that is refused has the first conflict, with the front one of those with rules. -/
lemma Took.firstConflict (h : Took done trie) (rest : List Lookup) (hpaths : 0 < trie.pathCount)
    (hne : trie.machine.direction ≠ l.direction) :
    ∃ j k, FirstConflict (done ++ l :: rest) j done.length k l ∧
      k.direction = trie.machine.direction := by
  obtain ⟨k, hk, hrules⟩ := h.locked.1 hpaths
  obtain ⟨j, hj⟩ := List.mem_iff_getElem?.1 hk
  have hlt : j < done.length := (List.getElem?_eq_some_iff.1 hj).1
  have hdirection := h.direction k hk hrules
  refine ⟨j, k, ⟨⟨hlt, ?_, ?_, hrules, ?_⟩, fun i' hi' j' k k' hconflict => ?_⟩, hdirection⟩
  · rwa [List.getElem?_append_left hlt]
  · simp
  · rw [hdirection]
    exact hne.symm
  · exact h.free j' i' k k' (hconflict.of_append hi')

lemma FirstConflict.unique {lookups : List Lookup} {j j' i i' : Nat} {k k' l l' : Lookup}
    (h : FirstConflict lookups j i k l) (h' : FirstConflict lookups j' i' k' l') :
    i = i' ∧ l = l' ∧ k.direction = k'.direction := by
  have hi : i = i' := by
    obtain hlt | heq | hlt := Nat.lt_trichotomy i i'
    · exact absurd h.toConflict (h'.first i hlt j k l)
    · exact heq
    · exact absurd h'.toConflict (h.first i' hlt j' k' l')
  subst hi
  obtain rfl : l = l' := Option.some.inj (h.behind.symm.trans h'.behind)
  have hk := h.direction
  have hk' := h'.direction
  refine ⟨rfl, rfl, ?_⟩
  cases hd : k.direction <;> cases hd' : k'.direction <;> cases hl : l.direction <;> simp_all

/-- Among the conflicts of a list there is a first one. -/
lemma exists_firstConflict {lookups : List Lookup} {j i : Nat} {k l : Lookup}
    (h : Conflict lookups j i k l) : ∃ j i k l, FirstConflict lookups j i k l := by
  induction i using Nat.strong_induction_on generalizing j k l with
  | _ i ih =>
    by_cases hfirst : ∀ i' < i, ∀ j' k k', ¬ Conflict lookups j' i' k k'
    · exact ⟨j, i, k, l, h, hfirst⟩
    · push Not at hfirst
      obtain ⟨i', hi', j', k, k', hconflict⟩ := hfirst
      exact ih i' hi' hconflict

/-- **Building fails at the first conflict**, and nowhere else. -/
theorem addAll_eq_error_iff (h : Took done trie) {e : CompileError} :
    addAll done.length rest trie = .error e ↔ ∃ j i k l, FirstConflict (done ++ rest) j i k l ∧
      e = .lookup i l.kind (.build ⟨k.direction, l.direction⟩) := by
  induction rest generalizing done trie with
  | nil =>
    rw [addAll, List.append_nil]
    constructor
    · intro he
      cases he
    · rintro ⟨j, i, k, l, hconflict, -⟩
      exact absurd hconflict.toConflict (h.free j i k l)
  | cons l rest ih =>
    rw [addAll]
    obtain ⟨hpaths, hne, hadd⟩ | ⟨hdirection, trie', hadd, htrie', hcount⟩ := l.addTo_cases trie
    · obtain ⟨j, k, hfirst, hk⟩ := h.firstConflict rest hpaths hne
      rw [hadd]
      constructor
      · intro he
        refine ⟨j, done.length, k, l, hfirst, ?_⟩
        rw [hk]
        exact (Except.error.inj he).symm
      · rintro ⟨j', i', k', l', hfirst', rfl⟩
        obtain ⟨rfl, rfl, hk'⟩ := hfirst.unique hfirst'
        rw [← hk', hk]
    · rw [hadd]
      have hrest := ih (h.append l hdirection htrie' hcount)
      simpa using hrest

theorem Took.addAll {index : Nat} (h : Took done trie)
    (hadd : Lookup.addAll index rest trie = .ok trie') : Took (done ++ rest) trie' := by
  induction rest generalizing index done trie with
  | nil =>
    obtain rfl : trie = trie' := Except.ok.inj hadd
    rwa [List.append_nil]
  | cons l rest ih =>
    unfold Lookup.addAll at hadd
    rcases l.addTo_cases trie with ⟨-, -, hl⟩ | ⟨hdirection, trie₁, hl, htrie₁, hcount⟩
    · rw [hl] at hadd
      cases hadd
    · rw [hl] at hadd
      have hrest := ih (h.append l hdirection htrie₁ hcount) hadd
      rwa [List.append_assoc] at hrest

/-- **Lookups with rules that compile together** run in one direction. -/
theorem direction_of_compile {compiled : Compiled} (h : compile lookups options = .ok compiled)
    (hl : l ∈ lookups) (hrules : l.rules ≠ []) : l.direction = commonDirection lookups := by
  obtain ⟨trie, hadd, -⟩ := machine_compile h
  obtain ⟨-, hdirection⟩ := spells_addAll hadd Machine.spells_empty (by simp)
  exact ((took_empty.addAll hadd).direction l hl hrules).trans hdirection

end Lookup

/-! ### Verification -/

/-- What compilation makes of the trie of the lookups, verified or not. -/
def Trie.compiled (trie : Trie Step) (optimize : Bool) : Compiled :=
  if optimize then ⟨trie.machine.minimize.1, trie.pathCount, some trie.machine.minimize.2⟩
  else ⟨trie.machine, trie.pathCount, none⟩

theorem compile_eq_of_addAll (h : Lookup.addAll 0 lookups {} = .ok trie) :
    compile lookups options = .ok (trie.compiled options.optimize) := by
  obtain ⟨⟨spots, hspells⟩, -⟩ := Lookup.spells_addAll h Machine.spells_empty (by simp)
  have hm := hspells.tree.wellFormed
  have hequivalent := Machine.equivalent_minimizeBy hash hm
  have hbisimilar : trie.machine.bisimilar trie.machine.minimize.1 = true :=
    (Machine.bisimilar_iff hm (Machine.wellFormed_minimizeBy hash hm)).2 hequivalent.symm
  have hminimal : trie.machine.minimize.1.minimize.1 = trie.machine.minimize.1 :=
    Machine.minimizeBy_eq_of_equivalent (Machine.wellFormed_minimizeBy hash hm) hm hequivalent
  rw [compile, h]
  obtain ⟨optimize, verify⟩ := options
  cases optimize <;> cases verify <;>
    simp [bind, Except.bind, pure, Except.pure, Trie.compiled, hbisimilar, hminimal]

theorem compile_eq_error_iff {e : CompileError} :
    compile lookups options = .error e ↔ Lookup.addAll 0 lookups {} = .error e := by
  cases h : Lookup.addAll 0 lookups {} with
  | error e' =>
    rw [compile, h]
    simp only [bind, Except.bind, Except.error.injEq]
  | ok trie =>
    rw [compile_eq_of_addAll h]
    simp

/-- **Compilation fails exactly at a conflict of directions.** A list of lookups compiles unless one
of them runs against an earlier one that has rules; the error is the conflict of the first such
lookup, with the direction of the earlier one fixed. Verification does not change the result, and
the machine of a list that compiles runs in the direction of the last lookup. -/
theorem compile_fails_at_conflict (lookups : List Lookup) (options : CompileOptions) :
    ((∃ e, compile lookups options = .error e) ↔ ∃ j i l l', Lookup.Conflict lookups j i l l') ∧
    (∀ e, compile lookups options = .error e ↔
      ∃ j i l l', Lookup.FirstConflict lookups j i l l' ∧
        e = .lookup i l'.kind (.build ⟨l.direction, l'.direction⟩)) ∧
    compile lookups { options with verify := true } =
      compile lookups { options with verify := false } ∧
    ∀ compiled, compile lookups options = .ok compiled →
      compiled.machine.direction = (lookups.getLast?.map Lookup.direction).getD .forward := by
  have herror : ∀ e, compile lookups options = .error e ↔
      ∃ j i l l', Lookup.FirstConflict lookups j i l l' ∧
        e = .lookup i l'.kind (.build ⟨l.direction, l'.direction⟩) := fun e =>
    compile_eq_error_iff.trans (Lookup.addAll_eq_error_iff Lookup.took_empty)
  refine ⟨⟨?_, ?_⟩, herror, ?_, ?_⟩
  · rintro ⟨e, he⟩
    obtain ⟨j, i, l, l', hfirst, -⟩ := (herror e).1 he
    exact ⟨j, i, l, l', hfirst.toConflict⟩
  · rintro ⟨j, i, l, l', hconflict⟩
    obtain ⟨j, i, l, l', hfirst⟩ := Lookup.exists_firstConflict hconflict
    exact ⟨_, (herror _).2 ⟨j, i, l, l', hfirst, rfl⟩⟩
  · cases h : Lookup.addAll 0 lookups {} with
    | error e => rw [compile_eq_error_iff.2 h, compile_eq_error_iff.2 h]
    | ok trie => rw [compile_eq_of_addAll h, compile_eq_of_addAll h]
  · intro compiled hcompiled
    obtain ⟨m, -, hequivalent, -, hdirection⟩ := exists_spells_compile hcompiled
    rw [hequivalent.1, hdirection, Lookup.commonDirection]

end Shaping
