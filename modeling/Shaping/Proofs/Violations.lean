import Mathlib.Data.List.Count
import Mathlib.Data.List.Nodup
import Shaping.Job.Directive

/-!
The check of a list of directives is exact. A repetition has been reported if the directive has been
listed twice. So what is reported of a directive depends on how often it has been listed before: the
first time what it lacks, the second time that it is repeated, and then nothing more. Everything
that is wrong with the list is reported once, wherever it shows, and nothing else is. Main
statement: `Directive.violations_exact`.
-/

namespace Shaping

/-- The directive that a violation is about. That of an empty list is about none. -/
def Violation.subject? : Violation → Option Directive
  | .empty => none
  | .duplicate d | .missingDependency d _ => some d
  | .emptyInput => some .simulate

namespace Directive

variable {directives directives' front rest all : List Directive} {inputLength : Nat}
  {d required : Directive} {v : Violation} {found : List Violation}

/-- What is wrong with a list of directives, whatever its order. -/
def Violates (directives : List Directive) (inputLength : Nat) : Violation → Prop
  | .empty => directives = []
  | .duplicate d => 2 ≤ directives.count d
  | .missingDependency d required =>
    d ∈ directives ∧ required ∈ d.requires ∧ required ∉ directives
  | .emptyInput => .simulate ∈ directives ∧ inputLength = 0

instance (directives : List Directive) (inputLength : Nat) :
    DecidablePred (Violates directives inputLength)
  | .empty => inferInstanceAs (Decidable (directives = []))
  | .duplicate d => inferInstanceAs (Decidable (2 ≤ directives.count d))
  | .missingDependency d required =>
    inferInstanceAs (Decidable (d ∈ directives ∧ required ∈ d.requires ∧ required ∉ directives))
  | .emptyInput => inferInstanceAs (Decidable (.simulate ∈ directives ∧ inputLength = 0))

lemma Violates.of_perm (h : directives.Perm directives') (hv : Violates directives inputLength v) :
    Violates directives' inputLength v := by
  cases v with
  | empty =>
    obtain rfl : directives = [] := hv
    exact h.symm.eq_nil
  | duplicate d =>
    rw [Violates, ← h.count_eq d]
    exact hv
  | missingDependency d required =>
    obtain ⟨hd, hrequired, hmissing⟩ := hv
    exact ⟨h.mem_iff.1 hd, hrequired, mt h.mem_iff.2 hmissing⟩
  | emptyInput =>
    obtain ⟨hsimulate, hinput⟩ := hv
    exact ⟨h.mem_iff.1 hsimulate, hinput⟩

/-! ### One directive -/

/-- What a directive lacks: others that it needs, and an input. -/
def lacks (all : List Directive) (inputLength : Nat) (d : Directive) : List Violation :=
  (d.requires.filter (!all.contains ·)).map (.missingDependency d) ++
    if d = .simulate ∧ inputLength = 0 then [.emptyInput] else []

/-- What is reported of a directive that has been listed `seen` times before. -/
def reports (all : List Directive) (inputLength : Nat) (d : Directive) : (seen : Nat) →
    List Violation
  | 0 => lacks all inputLength d
  | 1 => [.duplicate d]
  | _ => []

/-- What is reported of the directives behind those of `front`, newest first. -/
def reportsBehind (all : List Directive) (inputLength : Nat) :
    (front : List Directive) → List Directive → List Violation
  | _, [] => []
  | front, d :: rest =>
    reports all inputLength d (front.count d) ++ reportsBehind all inputLength (d :: front) rest

/-- The repetitions that have been reported are those of the directives that have been listed
twice. -/
def RepetitionsOf (front : List Directive) (found : List Violation) : Prop :=
  ∀ d, .duplicate d ∈ found ↔ 2 ≤ front.count d

lemma addViolations_eq (h : RepetitionsOf front found) (d : Directive) :
    addViolations all inputLength front found d =
      found ++ reports all inputLength d (front.count d) := by
  have hlisted : front.contains d = true ↔ 0 < front.count d := by
    rw [List.contains_iff_mem, List.count_pos_iff]
  have hreported : found.contains (.duplicate d) = true ↔ 2 ≤ front.count d := by
    rw [List.contains_iff_mem, h d]
  simp only [addViolations, hlisted, hreported, List.append_assoc]
  match front.count d with
  | 0 => rfl
  | 1 => rfl
  | _ + 2 => simp [reports]

lemma duplicate_mem_reports_iff {e : Directive} {seen : Nat} :
    .duplicate e ∈ reports all inputLength d seen ↔ e = d ∧ seen = 1 := by
  match seen with
  | 0 => simp [reports, lacks]
  | 1 => simp [reports]
  | _ + 2 => simp [reports]

lemma RepetitionsOf.step (h : RepetitionsOf front found) (d : Directive) :
    RepetitionsOf (d :: front) (found ++ reports all inputLength d (front.count d)) := by
  intro e
  rw [List.mem_append, h e, duplicate_mem_reports_iff]
  by_cases he : e = d
  · subst he
    rw [List.count_cons_self, eq_self, true_and]
    omega
  · rw [List.count_cons_of_ne (Ne.symm he)]
    simp [he]

theorem violationsFrom_eq (h : RepetitionsOf front found) (rest : List Directive) :
    violationsFrom all inputLength front found rest =
      found ++ reportsBehind all inputLength front rest := by
  induction rest generalizing front found with
  | nil => exact (List.append_nil found).symm
  | cons d rest ih =>
    rw [violationsFrom, addViolations_eq h, ih (h.step d), reportsBehind, List.append_assoc]

lemma violations_eq (directives : List Directive) (inputLength : Nat) :
    violations directives inputLength = (if directives.isEmpty then [.empty] else []) ++
      reportsBehind directives inputLength [] directives := by
  refine violationsFrom_eq (fun d => ?_) directives
  split_ifs <;> simp

lemma subject?_of_mem_reports {seen : Nat} (h : v ∈ reports all inputLength d seen) :
    v.subject? = some d := by
  match seen with
  | 0 =>
    obtain h | h := List.mem_append.1 h
    · obtain ⟨required, -, rfl⟩ := List.mem_map.1 h
      rfl
    · split_ifs at h with hd
      · obtain rfl := List.mem_singleton.1 h
        rw [hd.1]
        rfl
      · exact absurd h List.not_mem_nil
  | 1 =>
    obtain rfl := List.mem_singleton.1 h
    rfl
  | _ + 2 => exact absurd h List.not_mem_nil

/-! ### A list of directives -/

theorem filter_reportsBehind (all : List Directive) (inputLength : Nat) (d : Directive)
    (front rest : List Directive) :
    (reportsBehind all inputLength front rest).filter (·.subject? = some d) =
      (List.range' (front.count d) (rest.count d)).flatMap (reports all inputLength d) := by
  induction rest generalizing front with
  | nil => rfl
  | cons e rest ih =>
    rw [reportsBehind, List.filter_append, ih]
    by_cases he : e = d
    · subst he
      have hall : (reports all inputLength e (front.count e)).filter (·.subject? = some e) =
          reports all inputLength e (front.count e) :=
        List.filter_eq_self.2 fun v hv => decide_eq_true (subject?_of_mem_reports hv)
      rw [hall, List.count_cons_self, List.count_cons_self, List.range'_succ, List.flatMap_cons]
    · have hnone :
          (reports all inputLength e (front.count e)).filter (·.subject? = some d) = [] := by
        refine List.filter_eq_nil_iff.2 fun v hv hsubject => he ?_
        exact Option.some.inj ((subject?_of_mem_reports hv).symm.trans (of_decide_eq_true hsubject))
      rw [hnone, List.nil_append, List.count_cons_of_ne he, List.count_cons_of_ne he]

/-- **All that is reported of one directive**: what it lacks if it is listed, and that it is
repeated if it is listed again. -/
theorem filter_violations (directives : List Directive) (inputLength : Nat) (d : Directive) :
    (violations directives inputLength).filter (·.subject? = some d) =
      (if d ∈ directives then lacks directives inputLength d else []) ++
        if 2 ≤ directives.count d then [.duplicate d] else [] := by
  have hempty : (if directives.isEmpty then [Violation.empty] else []).filter
      (·.subject? = some d) = [] := by
    split_ifs <;> rfl
  rw [violations_eq, List.filter_append, hempty, List.nil_append, filter_reportsBehind,
    List.count_nil]
  simp only [← List.count_pos_iff]
  match directives.count d with
  | 0 => rfl
  | 1 => rfl
  | n + 2 =>
    have hrest : (List.range' 2 n).flatMap (reports directives inputLength d) = [] := by
      refine List.flatMap_eq_nil_iff.2 fun seen hseen => ?_
      obtain ⟨k, rfl⟩ := Nat.exists_eq_add_of_le' (List.mem_range'_1.1 hseen).1
      rfl
    rw [List.range'_succ, List.range'_succ, List.flatMap_cons, List.flatMap_cons, hrest]
    rfl

/-! ### Exactness -/

lemma mem_lacks_iff : v ∈ lacks all inputLength d ↔
    (∃ required ∈ d.requires, required ∉ all ∧ .missingDependency d required = v) ∨
      (d = .simulate ∧ inputLength = 0) ∧ v = .emptyInput := by
  rw [lacks, List.mem_append, List.mem_map]
  refine or_congr (exists_congr fun required => ?_) ?_
  · simp [and_assoc]
  · split_ifs with h <;> simp [h]

lemma nodup_lacks (all : List Directive) (inputLength : Nat) (d : Directive) :
    (lacks all inputLength d).Nodup := by
  have hrequires : d.requires.Nodup := by
    cases d <;> decide
  refine List.nodup_append'.2 ⟨(hrequires.filter _).map fun r r' h => ?_, ?_, ?_⟩
  · injection h
  · split_ifs <;> simp
  · intro v hv hv'
    obtain ⟨required, -, rfl⟩ := List.mem_map.1 hv
    split_ifs at hv' <;> simp at hv'

lemma mem_filter_violations_iff (hv : v.subject? = some d) :
    v ∈ (if d ∈ directives then lacks directives inputLength d else []) ++
        (if 2 ≤ directives.count d then [.duplicate d] else []) ↔
      Violates directives inputLength v := by
  simp only [List.mem_append, List.mem_ite_nil_right, mem_lacks_iff, List.mem_singleton]
  cases v with
  | empty => cases hv
  | duplicate e =>
    obtain rfl : e = d := Option.some.inj hv
    simp [Violates]
  | missingDependency e required =>
    obtain rfl : e = d := Option.some.inj hv
    simp [Violates]
  | emptyInput =>
    obtain rfl : .simulate = d := Option.some.inj hv
    simp [Violates]

lemma nodup_filter_violations (directives : List Directive) (inputLength : Nat) (d : Directive) :
    ((violations directives inputLength).filter (·.subject? = some d)).Nodup := by
  rw [filter_violations]
  refine List.nodup_append'.2 ⟨?_, ?_, fun v hv hv' => ?_⟩
  · split_ifs
    · exact nodup_lacks directives inputLength d
    · exact List.nodup_nil
  · split_ifs <;> simp
  · obtain ⟨-, rfl⟩ : 2 ≤ directives.count d ∧ v = .duplicate d := by simpa using hv'
    simp [mem_lacks_iff] at hv

lemma empty_notMem_reportsBehind (all : List Directive) (inputLength : Nat)
    (front rest : List Directive) : .empty ∉ reportsBehind all inputLength front rest := by
  induction rest generalizing front with
  | nil => exact List.not_mem_nil
  | cons d rest ih =>
    rw [reportsBehind, List.mem_append]
    rintro (h | h)
    · cases subject?_of_mem_reports h
    · exact ih (d :: front) h

/-- **Each violation is reported once if the list has it, and else not at all.** -/
theorem count_violations (directives : List Directive) (inputLength : Nat) (v : Violation) :
    (violations directives inputLength).count v =
      if Violates directives inputLength v then 1 else 0 := by
  cases hv : v.subject? with
  | some d =>
    rw [← List.count_filter (p := (·.subject? = some d)) (decide_eq_true hv),
      (nodup_filter_violations directives inputLength d).count, filter_violations]
    exact if_congr (mem_filter_violations_iff hv) rfl rfl
  | none =>
    cases v with
    | duplicate | missingDependency | emptyInput => cases hv
    | empty =>
      rw [violations_eq, List.count_append,
        List.count_eq_zero.2 (empty_notMem_reportsBehind directives inputLength [] directives)]
      cases directives <;> rfl

/-- **The check of directives is exact.** For a list of any length and order, a violation is
reported once if the list has it, and else not at all: an empty list that it is empty, a directive
that is listed twice or more that it is repeated, a directive that needs another one that it lacks
it, and a simulation without an input that it has none. So a list in another order has the same
violations. -/
theorem violations_exact (directives : List Directive) (inputLength : Nat) :
    (∀ v, (violations directives inputLength).count v =
      if Violates directives inputLength v then 1 else 0) ∧
    ∀ directives', directives.Perm directives' →
      (violations directives inputLength).Perm (violations directives' inputLength) := by
  refine ⟨count_violations directives inputLength, fun directives' h => ?_⟩
  refine List.perm_iff_count.2 fun v => ?_
  rw [count_violations, count_violations]
  exact if_congr ⟨.of_perm h, .of_perm h.symm⟩ rfl rfl

theorem violations_exact_repeated :
    [verify, simulate, simulate].Perm [simulate, verify, simulate] ∧
      (violations [verify, simulate, simulate] 0).Perm
        (violations [simulate, verify, simulate] 0) ∧
      (violations [verify, simulate, simulate] 0).count (.duplicate .simulate) = 1 := by
  have h : [verify, simulate, simulate].Perm [simulate, verify, simulate] := by decide
  have hexact := violations_exact [verify, simulate, simulate] 0
  exact ⟨h, hexact.2 _ h, (hexact.1 _).trans (by decide)⟩

end Directive

end Shaping
