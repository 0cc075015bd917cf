import Mathlib.Algebra.GroupWithZero.Nat
import Shaping.Machine.PackedBytes
import Shaping.Proofs.Packing

/-!
The bytes of packed tables determine them. The bytes of a table are cut into records of one size,
and each field of a record is read at its place, low byte first: what is read are the words of the
table. So machines whose tables have the same bytes behave alike, if their transitions can be
counted in words. Main statement: `Packed.faithful_bytes`.
-/

namespace Shaping

/-! ### Fields and records -/

namespace Bytes

/-- The records of `size` bytes that a table is cut into. -/
def cut (size : Nat) (bytes : List UInt8) : List (List UInt8) :=
  (List.range (bytes.length / size)).map fun i => (bytes.drop (i * size)).take size

/-- The number in the field of `width` bytes at `place` of a record. -/
def field (record : List UInt8) (place width : Nat) : Nat := toNat ((record.drop place).take width)

theorem toNat_word (width n : Nat) : toNat (word width n) = n % 256 ^ width := by
  induction width generalizing n with
  | zero => rw [pow_zero, Nat.mod_one, word, toNat]
  | succ width ih => rw [word, toNat, ih, UInt8.toNat_ofNat', pow_succ' 256 width, Nat.mod_mul]

theorem cut_flatMap {α : Type} {size : Nat} (hsize : 0 < size) {f : α → List UInt8}
    (hf : ∀ a, (f a).length = size) (l : List α) : cut size (l.flatMap f) = l.map f := by
  induction l with
  | nil =>
    rw [cut, List.flatMap_nil, List.length_nil, Nat.zero_div]
    rfl
  | cons a l ih =>
    have hcount : (f a ++ l.flatMap f).length / size = (l.flatMap f).length / size + 1 := by
      rw [List.length_append, hf, Nat.add_comm, Nat.add_div_right _ hsize]
    have hbehind : ∀ i, (f a ++ l.flatMap f).drop ((i + 1) * size) =
        (l.flatMap f).drop (i * size) := by
      intro i
      rw [Nat.succ_mul, Nat.add_comm, ← hf a, List.drop_length_add_append]
    rw [List.flatMap_cons, cut, hcount, List.range_succ_eq_map, List.map_cons, List.map_map,
      List.map_cons, ← ih, cut, Nat.zero_mul, List.drop_zero, List.take_left' (hf a)]
    refine congrArg (f a :: ·) (List.map_congr_left fun i _ => ?_)
    rw [Function.comp_apply, Nat.succ_eq_add_one, hbehind]

/-- The table whose records are `size` bytes each, every one read by `ofRecord`. -/
def table {ρ : Type} (size : Nat) (ofRecord : List UInt8 → ρ) (bytes : List UInt8) : Array ρ :=
  ((cut size bytes).map ofRecord).toArray

theorem table_flatMap {α ρ : Type} {size : Nat} (hsize : 0 < size) {f : α → List UInt8}
    (hf : ∀ a, (f a).length = size) {ofRecord : List UInt8 → ρ} {g : α → ρ}
    (hread : ∀ a, ofRecord (f a) = g a) (as : Array α) :
    table size ofRecord (as.toList.flatMap f) = as.map g := by
  rw [table, cut_flatMap hsize hf, List.map_map, ← Array.toList_inj, Array.toList_map]
  exact List.map_congr_left fun a _ => hread a

end Bytes

open Bytes

/-- The state of a record. -/
def PackedState.ofBytes (record : List UInt8) : PackedState where
  first := .ofNat (field record 0 4)
  count := .ofNat (field record 4 4)

/-- The transition of a record. The byte behind the kind and the two behind the flags are
reserved. -/
def PackedTransition.ofBytes (record : List UInt8) : PackedTransition where
  kind := .ofNat (field record 0 1)
  offset := (UInt16.ofNat (field record 2 2)).toInt16
  flags := .ofNat (field record 4 2)
  matcher := .ofNat (field record 8 4)
  action := .ofNat (field record 12 4)
  target := .ofNat (field record 16 4)

lemma ofNat_word4 (w : UInt32) : UInt32.ofNat (toNat (word 4 w.toNat)) = w := by
  rw [toNat_word]
  exact UInt32.ofNat_mod_size.trans UInt32.ofNat_toNat

lemma ofNat_word2 (w : UInt16) : UInt16.ofNat (toNat (word 2 w.toNat)) = w := by
  rw [toNat_word]
  exact UInt16.ofNat_mod_size.trans UInt16.ofNat_toNat

lemma ofNat_word1 (w : UInt8) : UInt8.ofNat (toNat (word 1 w.toNat)) = w := by
  rw [toNat_word]
  exact UInt8.ofNat_mod_size.trans UInt8.ofNat_toNat

theorem PackedState.ofBytes_toBytes (s : PackedState) : ofBytes s.toBytes = s := by
  have hfirst : field s.toBytes 0 4 = toNat (word 4 s.first.toNat) := rfl
  have hcount : field s.toBytes 4 4 = toNat (word 4 s.count.toNat) := rfl
  rw [ofBytes, hfirst, hcount, ofNat_word4, ofNat_word4]

theorem PackedTransition.ofBytes_toBytes (t : PackedTransition) : ofBytes t.toBytes = t := by
  have hkind : field t.toBytes 0 1 = toNat (word 1 t.kind.toNat) := rfl
  have hoffset : field t.toBytes 2 2 = toNat (word 2 t.offset.toUInt16.toNat) := rfl
  have hflags : field t.toBytes 4 2 = toNat (word 2 t.flags.toNat) := rfl
  have hmatcher : field t.toBytes 8 4 = toNat (word 4 t.matcher.toNat) := rfl
  have haction : field t.toBytes 12 4 = toNat (word 4 t.action.toNat) := rfl
  have htarget : field t.toBytes 16 4 = toNat (word 4 t.target.toNat) := rfl
  rw [ofBytes, hkind, hoffset, hflags, hmatcher, haction, htarget]
  simp only [ofNat_word1, ofNat_word2, ofNat_word4, Int16.toInt16_toUInt16]

lemma PackedState.length_toBytes (s : PackedState) : s.toBytes.length = 8 := rfl

lemma PackedTransition.length_toBytes (t : PackedTransition) : t.toBytes.length = 20 := rfl

lemma PackedTransition.reserved_toBytes (t : PackedTransition) :
    field t.toBytes 1 1 = 0 ∧ field t.toBytes 6 2 = 0 := ⟨rfl, rfl⟩

namespace Packed

open Machine (acceptors)

variable {p q : Packed} {m m' : Machine Step}

/-! ### Tables -/

/-- The states that the bytes of their table store. -/
def readStates : List UInt8 → Array PackedState := table 8 PackedState.ofBytes

/-- The transitions that the bytes of their table store. -/
def readTransitions : List UInt8 → Array PackedTransition := table 20 PackedTransition.ofBytes

theorem readStates_stateBytes (p : Packed) : readStates p.stateBytes = p.states :=
  (table_flatMap (by decide) PackedState.length_toBytes PackedState.ofBytes_toBytes p.states).trans
    (Array.map_id _)

theorem readTransitions_transitionBytes (p : Packed) :
    readTransitions p.transitionBytes = p.transitions :=
  (table_flatMap (by decide) PackedTransition.length_toBytes PackedTransition.ofBytes_toBytes
    p.transitions).trans (Array.map_id _)

/-- **Tables with the same direction, bytes and pools are the same.** -/
theorem eq_of_bytes (hdirection : p.direction = q.direction) (hstates : p.stateBytes = q.stateBytes)
    (htransitions : p.transitionBytes = q.transitionBytes) (hmatchers : p.matchers = q.matchers)
    (hactions : p.actions = q.actions) : p = q := by
  have hstates : p.states = q.states := by
    rw [← readStates_stateBytes p, hstates, readStates_stateBytes]
  have htransitions : p.transitions = q.transitions := by
    rw [← readTransitions_transitionBytes p, htransitions, readTransitions_transitionBytes]
  cases p
  cases q
  simp_all

lemma size_transitions_pack (m : Machine Step) : (pack m).transitions.size = m.transitionCount := by
  rw [Layout.pack_eq_packed, Layout.packed, Array.size_map, Machine.size_transitions_layout]

theorem bisimilar_of_pack_eq (hm : m.WellFormed) (hm' : m'.WellFormed)
    (hcount : m.transitionCount < 2 ^ 32) (h : pack m' = pack m) : m.bisimilar m' = true := by
  have hcount' : m'.transitionCount < 2 ^ 32 := by
    rwa [← size_transitions_pack, h, size_transitions_pack]
  have hcompact : m'.compact = m.compact := by
    rw [← Option.some_inj, ← unpack?_pack_eq hm' hcount', h, unpack?_pack_eq hm hcount]
  have hequivalent := (Machine.renumbers_compact hm').equivalent
  rw [hcompact] at hequivalent
  exact (Machine.bisimilar_iff hm hm').2
    ((Machine.renumbers_compact hm).equivalent.trans hequivalent.symm)

/-! ### Faithfulness -/

/-- **The bytes of packed tables determine them.** Cut into records of 8 and of 20 bytes, and read
field by field, low byte first, the bytes of the two tables give back the tables, and the reserved
bytes are zero. If the transitions of a machine can be counted in a word, every machine with the
same direction, bytes and pools compares as alike. -/
theorem faithful_bytes (hm : m.WellFormed) :
    readStates (pack m).stateBytes = (pack m).states ∧
    readTransitions (pack m).transitionBytes = (pack m).transitions ∧
    (∀ record ∈ cut 20 (pack m).transitionBytes,
      field record 1 1 = 0 ∧ field record 6 2 = 0) ∧
    (m.transitionCount < 2 ^ 32 → ∀ m' : Machine Step, m'.WellFormed →
      (pack m').direction = (pack m).direction → (pack m').stateBytes = (pack m).stateBytes →
      (pack m').transitionBytes = (pack m).transitionBytes →
      (pack m').matchers = (pack m).matchers → (pack m').actions = (pack m).actions →
      m.bisimilar m' = true) := by
  refine ⟨readStates_stateBytes _, readTransitions_transitionBytes _, fun record hrecord => ?_,
    fun h m' hm' hdirection hstates htransitions hmatchers hactions => ?_⟩
  · rw [transitionBytes, cut_flatMap (by decide) PackedTransition.length_toBytes] at hrecord
    obtain ⟨t, -, rfl⟩ := List.mem_map.1 hrecord
    exact t.reserved_toBytes
  · exact bisimilar_of_pack_eq hm hm' h
      (eq_of_bytes hdirection hstates htransitions hmatchers hactions)

/-- The state that is not reachable is not packed. -/
theorem faithful_bytes_greedyUnrolled :
    Machine.greedyUnrolled.WellFormed ∧ Machine.greedyUnrolled.transitionCount < 2 ^ 32 ∧
      Machine.greedyUnrolled.compact.WellFormed ∧
      Machine.greedyUnrolled.bisimilar Machine.greedyUnrolled.compact = true := by
  have hm : Machine.greedyUnrolled.WellFormed := by decide
  have hm' := (Machine.renumbers_compact hm).wellFormed
  have hcount := Machine.transitionCount_greedyUnrolled_lt
  have hpack := pack_compact hm
  have h := (faithful_bytes hm).2.2.2 hcount
  exact ⟨hm, hcount, hm', h _ hm' (by rw [hpack]) (by rw [hpack]) (by rw [hpack]) (by rw [hpack])
    (by rw [hpack])⟩

/-- Two counts that differ by the number of words are stored alike. -/
theorem not_bisimilar_of_pack_acceptors_eq :
    (acceptors (2 ^ 32 + 1) 0).WellFormed ∧ (acceptors 1 (2 ^ 32)).WellFormed ∧
      pack (acceptors 1 (2 ^ 32)) = pack (acceptors (2 ^ 32 + 1) 0) ∧
      (acceptors (2 ^ 32 + 1) 0).bisimilar (acceptors 1 (2 ^ 32)) = false := by
  have hone : UInt32.ofNat (2 ^ 32 + 1) = UInt32.ofNat 1 := by decide
  have hzero : UInt32.ofNat (2 ^ 32) = UInt32.ofNat 0 := by decide
  refine ⟨Machine.wellFormed_acceptors _ _, Machine.wellFormed_acceptors _ _, ?_, ?_⟩
  · rw [pack_acceptors (by decide), pack_acceptors (by decide), hone, hzero,
      Nat.add_comm 1, Nat.add_zero]
  · rw [Bool.eq_false_iff]
    intro h
    have heq := eq_of_bisimilar_acceptors h
    omega

end Packed

end Shaping
