/-!
Sums of positions. A position is kept in signed words of 32 bits. A sum that does not fit a word
wraps around in a build without overflow checks, and is a fault in a build with them. Both give the
exact sum as long as every sum fits.
-/

namespace Shaping

/-- Why the processing of a run stops before its end. -/
inductive Fault where
  /-- The attempt to edit a run of `size` glyphs at `index`. -/
  | edit (index size : Nat)
  /-- A sum of positions that does not fit a word. -/
  | overflow (sum : Int)
deriving DecidableEq, Repr

def Fault.message : Fault → String
  | .edit index size => s!"no glyph at index {index} of a run of {size}"
  | .overflow sum => s!"the position {sum} does not fit 32 bits"

/-- Whether a number is a signed word of 32 bits. -/
def IsWord (x : Int) : Prop := -2147483648 ≤ x ∧ x < 2147483648

instance : DecidablePred IsWord := fun _ => inferInstanceAs (Decidable (_ ∧ _))

/-- How a build forms sums of positions. -/
inductive Arithmetic where
  /-- Sums are kept as they are, whatever their size. -/
  | exact
  /-- Sums wrap around, as without overflow checks. -/
  | wrapping
  /-- Sums have to fit, as with overflow checks. -/
  | checked
deriving DecidableEq, Repr

namespace Arithmetic

/-- What becomes of a sum. -/
def keep : Arithmetic → Int → Except Fault Int
  | .exact, sum => .ok sum
  | .wrapping, sum => .ok (Int32.ofInt sum).toInt
  | .checked, sum => if IsWord sum then .ok sum else .error (.overflow sum)

@[simp] theorem keep_exact (sum : Int) : exact.keep sum = .ok sum := rfl

/-- **All builds keep a sum that fits.** -/
theorem keep_of_isWord {sum : Int} (h : IsWord sum) (a : Arithmetic) : a.keep sum = .ok sum := by
  cases a with
  | exact => rfl
  | wrapping => exact congrArg Except.ok (Int32.toInt_ofInt_of_le h.1 h.2)
  | checked => exact if_pos h

/-- What is kept in a word is a word. -/
theorem isWord_of_keep {a : Arithmetic} (ha : a ≠ .exact) {sum x : Int} (h : a.keep sum = .ok x) :
    IsWord x := by
  cases a with
  | exact => exact absurd rfl ha
  | wrapping =>
    obtain rfl := Except.ok.inj h
    exact ⟨Int32.le_toInt _, Int32.toInt_lt _⟩
  | checked =>
    rw [keep] at h
    split at h
    · obtain rfl := Except.ok.inj h
      assumption
    · cases h

end Arithmetic

end Shaping
