import Mathlib.Tactic.Lemma
import Shaping.Arithmetic

/-!
How computations on positions end. Exact sums and sums that wrap around always have a result. With
overflow checks a computation may also stop at a sum that does not fit, and in no other way.
-/

namespace Shaping

variable {α β : Type} {outcome : Except Fault α}

lemma Fault.ok_bind (x : α) (f : α → Except Fault β) : Except.ok x >>= f = f x := rfl

lemma Fault.bind_eq_ok {f : α → Except Fault β} {y : β} (h : outcome >>= f = .ok y) :
    ∃ x, outcome = .ok x ∧ f x = .ok y := by
  cases outcome with
  | error fault => cases h
  | ok x => exact ⟨x, rfl, h⟩

namespace Arithmetic

variable {a : Arithmetic} {P Q : α → Prop} {R : β → Prop} {x : α}

/-- The computation has a result with this property or, with overflow checks, it has stopped at a
sum that does not fit. -/
def Ends (a : Arithmetic) (P : α → Prop) (outcome : Except Fault α) : Prop :=
  (∃ x, outcome = .ok x ∧ P x) ∨
    a = .checked ∧ ∃ sum, outcome = .error (.overflow sum) ∧ ¬ IsWord sum

lemma ends_ok (h : P x) : a.Ends P (.ok x) := .inl ⟨x, rfl, h⟩

lemma Ends.exists_ok (h : a.Ends P outcome) (ha : a ≠ .checked) : ∃ x, outcome = .ok x ∧ P x :=
  h.resolve_right fun hchecked => ha hchecked.1

lemma Ends.imp (h : a.Ends P outcome) (hPQ : ∀ x, outcome = .ok x → P x → Q x) :
    a.Ends Q outcome := by
  obtain ⟨x, hx, hP⟩ | hfault := h
  · exact .inl ⟨x, hx, hPQ x hx hP⟩
  · exact .inr hfault

theorem Ends.bind {f : α → Except Fault β} (h : a.Ends P outcome)
    (hf : ∀ x, outcome = .ok x → P x → a.Ends R (f x)) : a.Ends R (outcome >>= f) := by
  obtain ⟨x, rfl, hP⟩ | ⟨ha, sum, rfl, hsum⟩ := h
  · exact hf x rfl hP
  · exact .inr ⟨ha, sum, rfl, hsum⟩

lemma Ends.map {f : α → β} (h : a.Ends P outcome) (hf : ∀ x, outcome = .ok x → P x → R (f x)) :
    a.Ends R (outcome.map f) := by
  obtain ⟨x, rfl, hP⟩ | ⟨ha, sum, rfl, hsum⟩ := h
  · exact ends_ok (hf x rfl hP)
  · exact .inr ⟨ha, sum, rfl, hsum⟩

theorem ends_keep (a : Arithmetic) (sum : Int) : a.Ends (fun _ => True) (a.keep sum) := by
  cases a with
  | exact => exact ends_ok trivial
  | wrapping => exact ends_ok trivial
  | checked =>
    rw [keep]
    split
    · exact ends_ok trivial
    · exact .inr ⟨rfl, sum, rfl, ‹_›⟩

end Arithmetic

end Shaping
