import Shaping.Json.Reading
import Mathlib.Data.List.TakeDrop

/-!
Reading undoes writing. A value whose integers fit 64 bits, signed or unsigned, is read back from
its text as the node of the value, and nothing is left behind it. The text is taken apart as it was
put together: a literal character by character, an integer digit by digit, an array item by item.
-/

namespace Shaping.Json

/-! ### Texts as lists of characters -/

/-- The characters of a literal, without the quotes. -/
def literalChars (s : String) : List Char := s.toList.flatMap escape

mutual

/-- The text of a value, as a list of characters. -/
def chars : Json → List Char
  | .null => ['n', 'u', 'l', 'l']
  | .bool true => ['t', 'r', 'u', 'e']
  | .bool false => ['f', 'a', 'l', 's', 'e']
  | .int n => n.repr.toList
  | .str s => '"' :: literalChars s ++ ['"']
  | .arr items => '[' :: itemsChars items ++ [']']
  | .obj members => '{' :: membersChars members ++ ['}']

def itemsChars : List Json → List Char
  | [] => []
  | [item] => chars item
  | item :: next :: rest => chars item ++ ',' :: itemsChars (next :: rest)

def membersChars : List (String × Json) → List Char
  | [] => []
  | [(key, value)] => '"' :: literalChars key ++ '"' :: ':' :: chars value
  | (key, value) :: next :: rest =>
    '"' :: literalChars key ++ '"' :: ':' :: chars value ++ ',' :: membersChars (next :: rest)

end

lemma toList_foldl_push (cs : List Char) (text : String) :
    (cs.foldl String.push text).toList = text.toList ++ cs := by
  induction cs generalizing text with
  | nil => simp
  | cons c cs ih => simp [ih]

lemma toList_emitString (s text : String) :
    (emitString s text).toList = text.toList ++ '"' :: literalChars s ++ ['"'] := by
  have hfold : ∀ (cs : List Char) (text : String),
      (cs.foldl (fun text c => (escape c).foldl String.push text) text).toList =
        text.toList ++ cs.flatMap escape := by
    intro cs
    induction cs with
    | nil => simp
    | cons c cs ih =>
      intro text
      rw [List.foldl_cons, ih, toList_foldl_push, List.flatMap_cons, List.append_assoc]
  rw [emitString, String.toList_push, hfold, String.toList_push, literalChars]
  simp

mutual

theorem toList_emit (j : Json) (text : String) : (j.emit text).toList = text.toList ++ j.chars := by
  cases j with
  | null => simp [emit, chars]
  | bool b => cases b <;> simp [emit, chars]
  | int n => simp [emit, chars]
  | str s => simp [emit, chars, toList_emitString]
  | arr items => simp [emit, chars, toList_emitItems items]
  | obj members => simp [emit, chars, toList_emitMembers members]

theorem toList_emitItems (items : List Json) (text : String) :
    (emitItems items text).toList = text.toList ++ itemsChars items := by
  match items with
  | [] => simp [emitItems, itemsChars]
  | [item] => simp [emitItems, itemsChars, toList_emit item]
  | item :: next :: rest =>
    simp [emitItems, itemsChars, toList_emit item, toList_emitItems (next :: rest)]

theorem toList_emitMembers (members : List (String × Json)) (text : String) :
    (emitMembers members text).toList = text.toList ++ membersChars members := by
  match members with
  | [] => simp [emitMembers, membersChars]
  | [(key, value)] =>
    simp [emitMembers, membersChars, toList_emitString, toList_emit value]
  | (key, value) :: next :: rest =>
    simp [emitMembers, membersChars, toList_emitString, toList_emit value,
      toList_emitMembers (next :: rest)]

end

lemma toList_render (j : Json) : j.render.toList = j.chars := by
  rw [render, toList_emit, String.toList_empty, List.nil_append]

/-! ### Literals -/

lemma codeUnit?_control {n : Nat} (h : n < 32) :
    codeUnit? '0' '0' (Nat.digitChar (n / 16)) (Nat.digitChar (n % 16)) = some n := by
  revert n
  decide

lemma pushUnit_control (l : Literal) {n : Nat} (h : n < 32) : l.pushUnit n = l.push (.ofNat n) := by
  rw [Literal.pushUnit, if_neg (by omega), if_neg (by omega)]

lemma readLiteral_escape (c : Char) (l : Literal) (rest : List Char) :
    readLiteral l (escape c ++ rest) = readLiteral (l.push c) rest := by
  unfold escape
  split_ifs with hquote hslash hn hr ht hb hf hcontrol
  · subst hquote
    rfl
  · subst hslash
    rfl
  · subst hn
    rfl
  · subst hr
    rfl
  · subst ht
    rfl
  · subst hb
    rfl
  · subst hf
    rfl
  · simp only [List.cons_append, List.nil_append, readLiteral, codeUnit?_control hcontrol,
      pushUnit_control l hcontrol, Char.ofNat_toNat]
  · simp only [List.singleton_append]
    rw [readLiteral]
    · rw [if_neg hcontrol]
    -- the character is none of those that the other equations of the reader ask for
    all_goals simp_all

theorem readLiteral_chars (s : String) (rest : List Char) :
    readLiteral {} (literalChars s ++ '"' :: rest) = (.whole s, some rest) := by
  have hread : ∀ (cs : List Char) (text : String),
      readLiteral { text } (cs.flatMap escape ++ '"' :: rest) =
        (.whole (text ++ String.ofList cs), some rest) := by
    intro cs
    induction cs with
    | nil =>
      intro text
      rw [List.flatMap_nil, String.ofList_nil, String.append_empty]
      rfl
    | cons c cs ih =>
      intro text
      rw [List.flatMap_cons, List.append_assoc, readLiteral_escape]
      refine (ih (text.push c)).trans ?_
      rw [String.ofList_cons, String.push_eq_append, String.append_assoc]
  have hwhole := hread s.toList ""
  rwa [String.ofList_toList, String.empty_append] at hwhole

/-! ### Integers -/

/-- JSON values whose integers fit 64 bits, signed or unsigned. -/
inductive Fits : Json → Prop where
  | null : Fits .null
  | bool (b : Bool) : Fits (.bool b)
  | int {n : Int} (lower : -9223372036854775808 ≤ n) (upper : n ≤ 18446744073709551615) :
    Fits (.int n)
  | str (s : String) : Fits (.str s)
  | arr {items : List Json} (items_fit : ∀ item ∈ items, Fits item) : Fits (.arr items)
  | obj {members : List (String × Json)} (values_fit : ∀ m ∈ members, Fits m.2) :
    Fits (.obj members)

/-- What may stand behind a value: nothing that a number could go on with. -/
def Ends (rest : List Char) : Prop :=
  ∀ c ∈ rest.head?, c.isDigit = false ∧ c ≠ '.' ∧ c ≠ 'e' ∧ c ≠ 'E'

lemma takeDigits_toDigits {n : Nat} (hn : n < 1 <<< 64) (rest : List Char) :
    takeDigits 0 (Nat.toDigits 10 n ++ rest) = takeDigits n rest := by
  induction n using Nat.strongRecOn generalizing rest with
  | ind n ih =>
    have hdigit : ∀ d < 10, (Nat.digitChar d).toNat - '0'.toNat = d := by decide
    rw [Nat.toDigits_eq_if (by omega)]
    split_ifs with hsmall
    · rw [List.singleton_append, takeDigits, hdigit n hsmall, Nat.mul_zero, Nat.zero_add]
      exact if_pos hn
    · rw [List.append_assoc, ih (n / 10) (by omega) (by omega), List.singleton_append, takeDigits,
        hdigit (n % 10) (Nat.mod_lt n (by omega)), Nat.div_add_mod]
      exact if_pos hn

lemma exists_first_digit (n : Nat) :
    ∃ d < 10, ∃ cs, Nat.toDigits 10 n = Nat.digitChar d :: cs ∧ (0 < n → d ≠ 0) := by
  induction n using Nat.strongRecOn with
  | ind n ih =>
    rw [Nat.toDigits_eq_if (by omega)]
    split_ifs with hsmall
    · exact ⟨n, hsmall, [], rfl, by omega⟩
    · obtain ⟨d, hd, cs, hdigits, hpos⟩ := ih (n / 10) (by omega)
      exact ⟨d, hd, _, by rw [hdigits, List.cons_append], fun _ => hpos (by omega)⟩

lemma span_toDigits (n : Nat) {rest : List Char} (hrest : Ends rest) :
    (Nat.toDigits 10 n ++ rest).span Char.isDigit = (Nat.toDigits 10 n, rest) := by
  have hdigits : ∀ c ∈ Nat.toDigits 10 n, c.isDigit = true := fun c hc =>
    Nat.isDigit_of_mem_toDigits (by omega) (by omega) hc
  have hstop : ∀ c ∈ rest.head?, c.isDigit = false := fun c hc => (hrest c hc).1
  rw [List.span_eq_takeWhile_dropWhile, List.takeWhile_append_of_pos hdigits,
    List.dropWhile_append_of_pos hdigits]
  cases rest with
  | nil => simp
  | cons c rest => simp [hstop c rfl]

lemma readWhole_toDigits (n : Nat) {rest : List Char} (hrest : Ends rest) :
    readWhole (Nat.toDigits 10 n ++ rest) = .ok (Nat.toDigits 10 n, rest) := by
  have hread : readDigits (Nat.toDigits 10 n ++ rest) = .ok (Nat.toDigits 10 n, rest) := by
    obtain ⟨d, -, cs, hdigits, -⟩ := exists_first_digit n
    rw [readDigits, span_toDigits n hrest, hdigits]
  rw [readWhole, hread]
  rcases Nat.eq_zero_or_pos n with rfl | hn
  · rfl
  · obtain ⟨d, hd, cs, hdigits, hpos⟩ := exists_first_digit n
    have hzero : ∀ d < 10, Nat.digitChar d = '0' → d = 0 := by decide
    rw [hdigits]
    simp only [bind, Except.bind]
    split
    · simp_all
    · rfl

theorem readNumber_toDigits (negative : Bool) {n : Nat} (hn : n < 1 <<< 64) {rest : List Char}
    (hrest : Ends rest) : readNumber negative (Nat.toDigits 10 n ++ rest) =
      (if !negative then .int n else if 0 < n ∧ n ≤ 1 <<< 63 then .int (-n) else .fraction,
        some rest) := by
  have hfraction : readFraction rest = .ok ([], rest) := by
    unfold readFraction
    split
    · exact absurd rfl (hrest '.' rfl).2.1
    · rfl
  have hexponent : readExponent rest = .ok (none, rest) := by
    unfold readExponent
    split
    · exact absurd rfl (hrest 'e' rfl).2.2.1
    · exact absurd rfl (hrest 'E' rfl).2.2.2
    · rfl
  have htake : takeDigits 0 (Nat.toDigits 10 n) = (n, []) := by
    have happend := takeDigits_toDigits hn []
    rwa [List.append_nil, takeDigits] at happend
  rw [readNumber, readWhole_toDigits n hrest]
  simp only [bind, Except.bind, hfraction, hexponent, numberNode, htake]
  rfl

/-! ### Values -/

lemma ends_cons {c : Char} (rest : List Char)
    (h : c.isDigit = false ∧ c ≠ '.' ∧ c ≠ 'e' ∧ c ≠ 'E') : Ends (c :: rest) := by
  intro d hd
  obtain rfl : c = d := by simpa using hd
  exact h

lemma skipBlanks_cons {c : Char} (rest : List Char) (h : isBlank c = false) :
    skipBlanks (c :: rest) = c :: rest := by
  rw [skipBlanks, List.dropWhile_cons_of_neg (by simp [h])]

lemma chars_int (n : Int) : chars (.int n) =
    if n < 0 then '-' :: Nat.toDigits 10 n.natAbs else Nat.toDigits 10 n.natAbs := by
  cases n with
  | ofNat n => exact Nat.toList_repr
  | negSucc n => simp [chars, Int.repr, Nat.toList_repr]

/-- The first character of a value is no blank and closes nothing. -/
lemma exists_first_char (j : Json) :
    ∃ c cs, j.chars = c :: cs ∧ isBlank c = false ∧ c ≠ ']' := by
  cases j with
  | null => exact ⟨_, _, rfl, by decide, by decide⟩
  | bool b => cases b <;> exact ⟨_, _, rfl, by decide, by decide⟩
  | int n =>
    have hdigit : ∀ d < 10, isBlank (Nat.digitChar d) = false ∧ Nat.digitChar d ≠ ']' := by decide
    obtain ⟨d, hd, cs, hdigits, -⟩ := exists_first_digit n.natAbs
    rw [chars_int]
    split_ifs
    · exact ⟨_, _, rfl, by decide, by decide⟩
    · exact ⟨_, _, hdigits, hdigit d hd⟩
  | str s => exact ⟨_, _, rfl, by decide, by decide⟩
  | arr items => exact ⟨_, _, rfl, by decide, by decide⟩
  | obj members => exact ⟨_, _, rfl, by decide, by decide⟩

lemma exists_first_char_of_items {items : List Json} (h : items ≠ []) :
    ∃ c cs, itemsChars items = c :: cs ∧ isBlank c = false ∧ c ≠ ']' := by
  match items, h with
  | [item], _ => exact exists_first_char item
  | item :: next :: rest, _ =>
    obtain ⟨c, cs, hchars, hc⟩ := exists_first_char item
    exact ⟨c, _, by rw [itemsChars, hchars, List.cons_append], hc⟩

lemma exists_quote_of_members {members : List (String × Json)} (h : members ≠ []) :
    ∃ cs, membersChars members = '"' :: cs := by
  match members, h with
  | [(key, value)], _ => exact ⟨_, rfl⟩
  | (key, value) :: next :: rest, _ => exact ⟨_, rfl⟩

lemma readValue_digit {d : Nat} (hd : d < 10) (fuel : Nat) (rest : List Char) :
    readValue (fuel + 1) (Nat.digitChar d :: rest) =
      readNumber false (Nat.digitChar d :: rest) := by
  have hcases : d = 0 ∨ d = 1 ∨ d = 2 ∨ d = 3 ∨ d = 4 ∨ d = 5 ∨ d = 6 ∨ d = 7 ∨ d = 8 ∨ d = 9 := by
    omega
  rcases hcases with rfl | rfl | rfl | rfl | rfl | rfl | rfl | rfl | rfl | rfl <;> rfl

/-- A value is read off the front of a text by every reader with enough fuel. A bracket takes two
units of it and a comma one, so twice the length of the text is enough. -/
def ReadsBack (j : Json) : Prop :=
  ∀ fuel rest, 2 * j.chars.length ≤ fuel → Ends rest →
    readValue fuel (j.chars ++ rest) = (.ofJson j, some rest)

/-- No text of a value is empty, so there is fuel to begin with. -/
lemma readsBack_of_succ {j : Json} (h : ∀ fuel rest, 2 * j.chars.length ≤ fuel + 1 → Ends rest →
    readValue (fuel + 1) (j.chars ++ rest) = (.ofJson j, some rest)) : ReadsBack j := by
  intro fuel rest hfuel hrest
  cases fuel with
  | zero =>
    obtain ⟨c, cs, hchars, -⟩ := exists_first_char j
    rw [hchars, List.length_cons] at hfuel
    omega
  | succ fuel => exact h fuel rest hfuel hrest

lemma readsBack_int {n : Int} (lower : -9223372036854775808 ≤ n)
    (upper : n ≤ 18446744073709551615) : ReadsBack (.int n) := by
  refine readsBack_of_succ fun fuel rest _ hrest => ?_
  obtain ⟨d, hd, cs, hdigits, -⟩ := exists_first_digit n.natAbs
  have hnumber := fun negative => readNumber_toDigits negative (n := n.natAbs) (by omega) hrest
  rw [chars_int, Node.ofJson]
  split_ifs with hneg
  · have habs : -(n.natAbs : Int) = n := by omega
    refine (hnumber true).trans ?_
    rw [if_neg (by simp), if_pos (by omega), habs]
  · have habs : (n.natAbs : Int) = n := by omega
    rw [hdigits, List.cons_append, readValue_digit hd, ← List.cons_append, ← hdigits, hnumber,
      if_pos (by simp), habs]

lemma readsBack_str (s : String) : ReadsBack (.str s) := by
  refine readsBack_of_succ fun fuel rest _ _ => ?_
  rw [chars, List.cons_append, List.cons_append, List.append_assoc, List.singleton_append,
    readValue, skipBlanks_cons _ (by decide)]
  simp only [readLiteral_chars, Node.ofJson]

lemma readItems_chars {items : List Json} (hitems : ∀ item ∈ items, ReadsBack item)
    (hne : items ≠ []) (rest : List Char) (done : List Node) {fuel : Nat}
    (hfuel : 2 * (itemsChars items).length < fuel) :
    readItems fuel done (itemsChars items ++ ']' :: rest) =
      (.array (done.reverse ++ Node.ofItems items) none, some rest) := by
  induction items generalizing done fuel with
  | nil => exact absurd rfl hne
  | cons item items ih =>
    obtain ⟨fuel, rfl⟩ : ∃ f, fuel = f + 1 := ⟨fuel - 1, by omega⟩
    obtain ⟨hitem, hrest⟩ := List.forall_mem_cons.1 hitems
    cases items with
    | nil =>
      rw [itemsChars] at hfuel ⊢
      rw [readItems, hitem fuel (']' :: rest) (by omega) (ends_cons _ (by decide))]
      simp only [skipBlanks_cons rest (show isBlank ']' = false from rfl), Node.ofItems]
      simp
    | cons next items =>
      rw [itemsChars, List.append_assoc, List.cons_append]
      rw [itemsChars, List.length_append, List.length_cons] at hfuel
      rw [readItems, hitem fuel _ (by omega) (ends_cons _ (by decide))]
      simp only [skipBlanks_cons _ (show isBlank ',' = false from rfl)]
      rw [ih hrest (by simp) (Node.ofJson item :: done) (by omega)]
      simp [Node.ofItems]

lemma readMembers_chars {members : List (String × Json)} (hmembers : ∀ m ∈ members, ReadsBack m.2)
    (hne : members ≠ []) (rest : List Char) (done : List (Quoted × Node)) {fuel : Nat}
    (hfuel : 2 * (membersChars members).length < fuel) :
    readMembers fuel done (membersChars members ++ '}' :: rest) =
      (.object (done.reverse ++ Node.ofMembers members) .closed, some rest) := by
  induction members generalizing done fuel with
  | nil => exact absurd rfl hne
  | cons m members ih =>
    obtain ⟨key, value⟩ := m
    obtain ⟨fuel, rfl⟩ : ∃ f, fuel = f + 1 := ⟨fuel - 1, by omega⟩
    obtain ⟨hvalue, hrest⟩ : ReadsBack value ∧ ∀ m ∈ members, ReadsBack m.2 :=
      List.forall_mem_cons.1 hmembers
    cases members with
    | nil =>
      rw [membersChars] at hfuel ⊢
      simp only [List.length_cons, List.length_append] at hfuel
      simp only [List.cons_append, List.append_assoc]
      rw [readMembers, skipBlanks_cons _ (by decide)]
      simp only [readLiteral_chars, skipBlanks_cons _ (show isBlank ':' = false from rfl)]
      rw [hvalue fuel ('}' :: rest) (by omega) (ends_cons _ (by decide))]
      simp only [skipBlanks_cons rest (show isBlank '}' = false from rfl), Node.ofMembers]
      simp
    | cons next members =>
      rw [membersChars] at hfuel ⊢
      simp only [List.length_cons, List.length_append] at hfuel
      simp only [List.cons_append, List.append_assoc]
      rw [readMembers, skipBlanks_cons _ (by decide)]
      simp only [readLiteral_chars, skipBlanks_cons _ (show isBlank ':' = false from rfl)]
      rw [hvalue fuel _ (by omega) (ends_cons _ (by decide))]
      simp only [skipBlanks_cons _ (show isBlank ',' = false from rfl)]
      rw [ih hrest (by simp) ((.whole key, Node.ofJson value) :: done) (by omega)]
      simp [Node.ofMembers]

lemma readsBack_arr {items : List Json} (hitems : ∀ item ∈ items, ReadsBack item) :
    ReadsBack (.arr items) := by
  refine readsBack_of_succ fun fuel rest hfuel _ => ?_
  simp only [chars, List.cons_append, List.append_assoc, List.length_cons, List.length_append,
    List.nil_append] at hfuel ⊢
  rw [readValue, skipBlanks_cons _ (by decide), Node.ofJson]
  rcases eq_or_ne items [] with rfl | hne
  · rfl
  · obtain ⟨c, cs, hchars, hblank, hc⟩ := exists_first_char_of_items hne
    have hskip : skipBlanks (itemsChars items ++ ']' :: rest) =
        itemsChars items ++ ']' :: rest := by
      rw [hchars]
      exact skipBlanks_cons _ hblank
    simp only [hskip]
    split
    · simp_all
    · exact readItems_chars hitems hne rest [] (by omega)

lemma readsBack_obj {members : List (String × Json)} (hmembers : ∀ m ∈ members, ReadsBack m.2) :
    ReadsBack (.obj members) := by
  refine readsBack_of_succ fun fuel rest hfuel _ => ?_
  simp only [chars, List.cons_append, List.append_assoc, List.length_cons, List.length_append,
    List.nil_append] at hfuel ⊢
  rw [readValue, skipBlanks_cons _ (by decide), Node.ofJson]
  rcases eq_or_ne members [] with rfl | hne
  · rfl
  · obtain ⟨cs, hchars⟩ := exists_quote_of_members hne
    have hskip : skipBlanks (membersChars members ++ '}' :: rest) =
        membersChars members ++ '}' :: rest := by
      rw [hchars]
      exact skipBlanks_cons _ (by decide)
    simp only [hskip]
    split
    · simp_all
    · exact readMembers_chars hmembers hne rest [] (by omega)

/-- **What fits 64 bits is read back** from the text it is written as, whatever ends it. -/
theorem Fits.readsBack {j : Json} (h : Fits j) : ReadsBack j := by
  induction h with
  | null => exact readsBack_of_succ fun _ _ _ _ => rfl
  | bool b => cases b <;> exact readsBack_of_succ fun _ _ _ _ => rfl
  | int lower upper => exact readsBack_int lower upper
  | str s => exact readsBack_str s
  | arr _ ih => exact readsBack_arr ih
  | obj _ ih => exact readsBack_obj ih

/-- **Reading undoes writing.** The text of a value is a document with its node and nothing
behind it. -/
theorem Document.ofText_render_of_fits {j : Json} (h : Fits j) :
    ofText j.render = ⟨.ofJson j, false⟩ := by
  have hread := h.readsBack (2 * j.chars.length + 1) [] (by omega) (by simp [Ends])
  rw [List.append_nil] at hread
  simp only [ofText, toList_render, hread]
  rfl

end Shaping.Json
