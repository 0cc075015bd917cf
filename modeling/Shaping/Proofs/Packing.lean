import Shaping.Proofs.PackedTables

/-!
Packing loses nothing that words can count. Where no number of a layout is cut off, its words
describe the machine that the layout describes. So what is unpacked is the reachable part of the
machine, numbered breadth first, and to pack that part gives the same tables. Main statement:
`Packed.unpack?_pack`.
-/

namespace Shaping.Packed

open Machine (acceptors)

variable {l : Layout} {u : NumberedTransition} {m : Machine Step}

/-! ### Reading words -/

lemma unpackPredicate?_packed (h : l.Fits) (hu : u ∈ l.transitions) :
    l.packed.unpackPredicate? (Layout.packedTransition u) =
      u.label.predicate.mapM (l.matchers[·]?) := by
  have hlt := h.matcher u hu
  obtain ⟨⟨predicate, action⟩, target⟩ := u
  cases predicate with
  | probe offset i flags =>
    have hi : (UInt32.ofNat i).toNat = i := toNat_ofNat (hlt i rfl)
    show l.matchers[(UInt32.ofNat i).toNat]?.map (Predicate.probe offset · (.ofBits flags.bits)) = _
    rw [hi, LookupFlags.ofBits_bits]
    cases hx : l.matchers[i]? <;> simp [Predicate.mapM, hx]
  | consume i flags =>
    have hi : (UInt32.ofNat i).toNat = i := toNat_ofNat (hlt i rfl)
    show l.matchers[(UInt32.ofNat i).toNat]?.map (Predicate.consume · (.ofBits flags.bits)) = _
    rw [hi, LookupFlags.ofBits_bits]
    cases hx : l.matchers[i]? <;> simp [Predicate.mapM, hx]
  | accept => rfl

lemma unpackAction?_packed (h : l.Fits) (hu : u ∈ l.transitions) :
    l.packed.unpackAction? (Layout.packedTransition u) = u.label.action.mapM (l.actions[·]?) := by
  have hlt := h.action u hu
  obtain ⟨⟨predicate, action⟩, target⟩ := u
  cases action with
  | none => rfl
  | some i =>
    have hi : (UInt32.ofNat i).toNat = i := toNat_ofNat ((hlt i rfl).trans absent.toNat_lt)
    have hne : UInt32.ofNat i ≠ absent := fun heq => (hlt i rfl).ne (heq ▸ hi.symm)
    show (if UInt32.ofNat i = absent then some none
      else l.actions[(UInt32.ofNat i).toNat]?.map some) = _
    rw [if_neg hne, hi]
    cases hx : l.actions[i]? <;> simp [hx]

lemma unpackTransition?_packed (h : l.Fits) (hu : u ∈ l.transitions) :
    l.packed.unpackTransition? (Layout.packedTransition u) = l.unpackTransition? u := by
  have htarget : (Layout.packedTransition u).target.toNat = u.target :=
    toNat_ofNat (h.target u hu)
  rw [unpackTransition?, unpackPredicate?_packed h hu, unpackAction?_packed h hu, htarget,
    Layout.unpackTransition?, Label.mapM]
  cases u.label.predicate.mapM (l.matchers[·]?) <;>
    cases u.label.action.mapM (l.actions[·]?) <;> rfl

/-- **Tables are read as the layout they store**, if no number is cut off. -/
theorem unpack?_packed (h : l.Fits) : l.packed.unpack? = l.unpack? := by
  have hsize : l.packed.transitions.size = l.transitions.size := Array.size_map
  have hextract (first last : Nat) : l.packed.transitions.extract first last =
      (l.transitions.extract first last).map Layout.packedTransition := (Array.map_extract ..).symm
  have hread (s : Stretch) (hs : s ∈ l.states) :
      Layout.readStretch l.packed.unpackTransition? l.packed.transitions
          (Layout.packedState s).stretch =
        Layout.readStretch l.unpackTransition? l.transitions s := by
    rw [stretch_packedState h hs, Layout.readStretch, Layout.readStretch, hsize]
    refine ite_congr rfl (fun _ => ?_) fun _ => rfl
    rw [hextract, Array.mapM_map]
    refine Layout.mapM_congr fun u hu => unpackTransition?_packed h ?_
    obtain ⟨k, hk, rfl⟩ := Array.mem_extract_iff_getElem.1 hu
    exact Array.getElem_mem _
  have hstates : l.packed.states.mapM (fun s => Layout.readStretch l.packed.unpackTransition?
      l.packed.transitions s.stretch) =
      l.states.mapM (Layout.readStretch l.unpackTransition? l.transitions) := by
    rw [Layout.packed, Array.mapM_map]
    exact Layout.mapM_congr hread
  show (l.packed.states.mapM fun s => Layout.readStretch l.packed.unpackTransition?
      l.packed.transitions s.stretch).bind _ = _
  rw [hstates]
  rfl

theorem unpack?_pack_eq (hm : m.WellFormed) (h : m.transitionCount < 2 ^ 32) :
    (pack m).unpack? = some m.compact := by
  rw [Layout.pack_eq_packed, unpack?_packed (Machine.fits_layout hm h)]
  exact Layout.unpack?_of rfl

lemma pack_compact (hm : m.WellFormed) : pack m.compact = pack m := by
  have hrenumbers := Machine.renumbers_compact hm
  rw [Layout.pack_eq_packed, Layout.pack_eq_packed, Machine.layout,
    Machine.compact_eq_self rfl (hrenumbers.reachable_eq hm) hrenumbers.wellFormed]
  rfl

/-! ### The accepting machine -/

/-- A stretch of accepting transitions is read as so many of them. -/
lemma readStretch_accepting (p : Packed) {size : Nat} {s : PackedState}
    (hend : s.first.toNat + s.count.toNat ≤ size) :
    Layout.readStretch p.unpackTransition?
      (.replicate size ⟨accepting, 0, 0, absent, absent, 1⟩) s.stretch =
        some (.replicate s.count.toNat ⟨.accept, 1⟩) := by
  have hone : p.unpackTransition? ⟨accepting, 0, 0, absent, absent, 1⟩ = pure ⟨.accept, 1⟩ := rfl
  rw [Layout.readStretch, PackedState.stretch, Array.size_replicate, if_pos hend,
    Array.extract_replicate, Layout.mapM_replicate hone, Nat.min_eq_left hend,
    Nat.add_sub_cancel_left]
  rfl

lemma unpack?_pack_acceptors {a : Nat} (ha : 0 < a) (b : Nat) :
    (pack (acceptors a b)).unpack? = some (acceptors (a % 2 ^ 32) (b % 2 ^ 32)) := by
  have hlow (n : Nat) : (UInt32.ofNat n).toNat = n % 2 ^ 32 := UInt32.toNat_ofNat'
  have hfirst : (0 : UInt32).toNat + (UInt32.ofNat a).toNat ≤ a + b := by
    rw [UInt32.toNat_zero, Nat.zero_add]
    exact (toNat_ofNat_le a).trans (Nat.le_add_right a b)
  have hsecond : (UInt32.ofNat a).toNat + (UInt32.ofNat b).toNat ≤ a + b :=
    Nat.add_le_add (toNat_ofNat_le a) (toNat_ofNat_le b)
  rw [pack_acceptors ha]
  show Option.bind (Array.mapM (fun s => Layout.readStretch (unpackTransition? _)
    (.replicate (a + b) _) (PackedState.stretch s)) _) _ = _
  rw [Array.mapM_eq_mapM_toList, List.mapM_cons, List.mapM_cons, List.mapM_nil,
    readStretch_accepting _ hfirst, readStretch_accepting _ hsecond, ← hlow, ← hlow]
  rfl

lemma eq_of_bisimilar_acceptors {a b a' b' : Nat}
    (h : (acceptors a b).bisimilar (acceptors a' b') = true) : a = a' := by
  have hequivalent := (Machine.bisimilar_iff (Machine.wellFormed_acceptors a b)
    (Machine.wellFormed_acceptors a' b')).1 h
  have hlength : (Array.replicate a (⟨.accept, 1⟩ : Transition Step)).toList.length =
      (Array.replicate a' (⟨.accept, 1⟩ : Transition Step)).toList.length :=
    hequivalent.2.rows.length_eq
  simpa using hlength

/-! ### The round trip -/

/-- **Packing loses nothing.** If the transitions of a machine can be counted in a word, what is
unpacked is its reachable part, numbered breadth first: it compares as alike, and packing it gives
the same tables. A minimized machine is unpacked as it was. -/
theorem unpack?_pack (hm : m.WellFormed) :
    (m.transitionCount < 2 ^ 32 → ∃ m', (pack m).unpack? = some m' ∧ m'.Renumbers m ∧
      m.bisimilar m' = true ∧ pack m' = pack m) ∧
    ∀ key, (m.minimizeBy key).1.transitionCount < 2 ^ 32 →
      (pack (m.minimizeBy key).1).unpack? = some (m.minimizeBy key).1 := by
  have hrenumbers := Machine.renumbers_compact hm
  refine ⟨fun h => ⟨m.compact, unpack?_pack_eq hm h, hrenumbers, ?_, pack_compact hm⟩,
    fun key h => ?_⟩
  · exact (Machine.bisimilar_iff hm hrenumbers.wellFormed).2 hrenumbers.equivalent
  · have hwf := Machine.wellFormed_minimizeBy key hm
    rw [unpack?_pack_eq hwf h,
      Machine.compact_eq_self rfl (Machine.reachable_minimizeBy key hm) hwf]

theorem unpack?_pack_greedyUnrolled : Machine.greedyUnrolled.WellFormed ∧
    Machine.greedyUnrolled.transitionCount < 2 ^ 32 ∧
    ∃ m', (pack Machine.greedyUnrolled).unpack? = some m' ∧ m'.Renumbers Machine.greedyUnrolled ∧
      Machine.greedyUnrolled.bisimilar m' = true ∧ pack m' = pack Machine.greedyUnrolled := by
  have hm : Machine.greedyUnrolled.WellFormed := by decide
  have hcount := Machine.transitionCount_greedyUnrolled_lt
  exact ⟨hm, hcount, (unpack?_pack hm).1 hcount⟩

/-- A machine with as many transitions as there are words is unpacked without any. -/
theorem not_bisimilar_unpack?_pack_acceptors : (acceptors (2 ^ 32) 0).WellFormed ∧
    ∃ m', (pack (acceptors (2 ^ 32) 0)).unpack? = some m' ∧
      (acceptors (2 ^ 32) 0).bisimilar m' = false := by
  refine ⟨Machine.wellFormed_acceptors _ _, _, unpack?_pack_acceptors (by decide) 0, ?_⟩
  rw [Bool.eq_false_iff]
  intro h
  have heq := eq_of_bisimilar_acceptors h
  omega

end Shaping.Packed
