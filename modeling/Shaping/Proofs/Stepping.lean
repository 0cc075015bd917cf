import Mathlib.Tactic.Common
import Shaping.GlyphRun

/-!
Stepping along a run past skipped glyphs. A step by `count` glyphs ends at the glyph that is the
`count`-th behind the index that is not skipped, or in front of it if the step goes backward. So
steps add up, and a step back undoes a step, if the glyph it started from is not skipped. Indices
that are 64-bit words, and are added and subtracted as such, lead to the same glyphs. Main
statement: `GlyphRun.stepFiltered_exact`.
-/

namespace Shaping.GlyphRun

variable {run : GlyphRun} {skip : ShapedGlyph → Bool} {d : Direction} {a b i j k count fuel : Nat}

/-! ### Glyphs that are passed -/

/-- Whether `j` lies strictly beyond `i`. -/
def Beyond : Direction → (i j : Nat) → Prop
  | .forward, i, j => i < j
  | .backward, i, j => j < i

/-- The number of glyphs from index `low` up to index `high`, which is not included, that are not
skipped. -/
def countBetween (run : GlyphRun) (skip : ShapedGlyph → Bool) (low high : Nat) : Nat :=
  (run.extract low high).countP (!skip ·)

/-- The number of glyphs beyond `i`, up to `j` and with it, that are not skipped. -/
def passed (run : GlyphRun) (skip : ShapedGlyph → Bool) : Direction → (i j : Nat) → Nat
  | .forward, i, j => run.countBetween skip (i + 1) (j + 1)
  | .backward, i, j => run.countBetween skip j i

lemma lt_size_of_any {p : ShapedGlyph → Bool} (h : run[j]?.any p) : j < run.size := by
  by_contra hj
  rw [Array.getElem?_eq_none (Nat.le_of_not_lt hj)] at h
  cases h

lemma countBetween_add (hij : i ≤ j) (hjk : j ≤ k) :
    run.countBetween skip i k = run.countBetween skip i j + run.countBetween skip j k := by
  rw [countBetween, countBetween, countBetween, ← Array.countP_append,
    Array.extract_append_extract, Nat.min_eq_left hij, Nat.max_eq_right hjk]

lemma countBetween_succ (run : GlyphRun) (skip : ShapedGlyph → Bool) (i : Nat) :
    run.countBetween skip i (i + 1) = if run[i]?.any (!skip ·) then 1 else 0 := by
  by_cases hi : i < run.size
  · have hempty : run.extract i i = #[] := Array.extract_eq_empty_iff.2 (Nat.min_le_left _ _)
    rw [countBetween, Array.extract_succ_right (Nat.lt_succ_self i) hi, hempty,
      Array.getElem?_eq_getElem hi, Option.any_some, Array.countP_push, Array.countP_empty,
      Nat.zero_add]
  · have hempty : run.extract i (i + 1) = #[] := by
      rw [Array.extract_eq_empty_iff]
      omega
    rw [countBetween, hempty, Array.getElem?_eq_none (Nat.le_of_not_lt hi)]
    rfl

lemma passed_add (hij : Beyond d i j) (hjk : Beyond d j k) :
    run.passed skip d i k = run.passed skip d i j + run.passed skip d j k := by
  cases d with
  | forward => exact countBetween_add (Nat.le_succ_of_le hij) (Nat.le_succ_of_le hjk)
  | backward =>
    rw [passed, countBetween_add (Nat.le_of_lt hjk) (Nat.le_of_lt hij), Nat.add_comm]
    rfl

/-- The last of the glyphs that are passed counts, if it is not skipped. -/
lemma passed_pos (hij : Beyond d i j) (hj : run[j]?.any (!skip ·)) :
    0 < run.passed skip d i j := by
  have hlast : run.countBetween skip j (j + 1) = 1 := by rw [countBetween_succ, if_pos hj]
  cases d with
  | forward =>
    rw [passed, countBetween_add hij (Nat.le_succ j), hlast]
    exact Nat.succ_pos _
  | backward =>
    rw [passed, countBetween_add (Nat.le_succ j) hij, hlast, Nat.add_comm]
    exact Nat.succ_pos _

/-! ### One place -/

lemma neighbour_lt (hi : i < run.size) (hroom : 0 < run.room d i) : neighbour d i < run.size := by
  cases d <;> simp only [neighbour, room] at hroom ⊢ <;> omega

lemma room_neighbour (run : GlyphRun) (d : Direction) (i : Nat) :
    run.room d (neighbour d i) = run.room d i - 1 := by
  cases d <;> simp only [neighbour, room]; omega

/-- Beyond an index lie its neighbour and what lies beyond the neighbour. -/
lemma beyond_iff (hroom : 0 < run.room d i) :
    Beyond d i j ↔ j = neighbour d i ∨ Beyond d (neighbour d i) j := by
  cases d <;> simp only [Beyond, neighbour, room] at hroom ⊢ <;> omega

lemma not_beyond (hroom : run.room d i = 0) (hj : j < run.size) : ¬ Beyond d i j := by
  cases d <;> simp only [Beyond, room] at hroom ⊢ <;> omega

lemma passed_neighbour (hroom : 0 < run.room d i) : run.passed skip d i (neighbour d i) =
    if run[neighbour d i]?.any (!skip ·) then 1 else 0 := by
  cases d with
  | forward => exact countBetween_succ run skip (i + 1)
  | backward =>
    have hi : i - 1 + 1 = i := Nat.sub_add_cancel hroom
    rw [passed, neighbour, ← countBetween_succ, hi]

/-! ### What is reached -/

/-- `j` is `i` itself if nothing is counted. Else `j` lies beyond `i`, its glyph is not skipped, and
up to it and with it exactly `count` glyphs are not. -/
def Reaches (run : GlyphRun) (skip : ShapedGlyph → Bool) (d : Direction) (count i j : Nat) : Prop :=
  count = 0 ∧ j = i ∨
    Beyond d i j ∧ run[j]?.any (!skip ·) ∧ run.passed skip d i j = count

lemma reaches_zero_iff : run.Reaches skip d 0 i j ↔ i = j := by
  have hnone : ¬ (Beyond d i j ∧ run[j]?.any (!skip ·) ∧ run.passed skip d i j = 0) :=
    fun ⟨hbeyond, hj, hzero⟩ => Nat.ne_of_gt (passed_pos hbeyond hj) hzero
  rw [Reaches, or_iff_left hnone, eq_comm (a := i)]
  exact and_iff_right rfl

lemma not_reaches (hroom : run.room d i = 0) : ¬ run.Reaches skip d (count + 1) i j := by
  rintro (⟨hzero, -⟩ | ⟨hbeyond, hj, -⟩)
  · exact Nat.succ_ne_zero _ hzero
  · exact not_beyond hroom (lt_size_of_any hj) hbeyond

lemma reaches_succ_iff (hi : i < run.size) (hroom : 0 < run.room d i) :
    run.Reaches skip d (count + 1) i j ↔ run.Reaches skip d
      (if run[neighbour d i]?.any skip then count + 1 else count) (neighbour d i) j := by
  have hany : run[neighbour d i]?.any (!skip ·) = !run[neighbour d i]?.any skip := by
    rw [Array.getElem?_eq_getElem (neighbour_lt hi hroom)]
    rfl
  -- what is counted from `i` on is the neighbour, if it counts, and what is counted from it on
  have hcount : Beyond d (neighbour d i) j → (run.passed skip d i j = count + 1 ↔
      run.passed skip d (neighbour d i) j =
        if run[neighbour d i]?.any skip then count + 1 else count) := by
    intro hbeyond
    rw [passed_add ((beyond_iff hroom).2 (Or.inl rfl)) hbeyond, passed_neighbour hroom, hany]
    cases run[neighbour d i]?.any skip <;> simp [Nat.add_comm 1]
  constructor
  · rintro (⟨hzero, -⟩ | ⟨hbeyond, hj, hpassed⟩)
    · exact absurd hzero (Nat.succ_ne_zero count)
    · obtain rfl | hbeyond := (beyond_iff hroom).1 hbeyond
      · rw [passed_neighbour hroom, if_pos hj] at hpassed
        rw [hany, Bool.not_eq_true'] at hj
        rw [hj, if_neg Bool.false_ne_true]
        exact Or.inl ⟨(Nat.succ.inj hpassed).symm, rfl⟩
      · exact Or.inr ⟨hbeyond, hj, (hcount hbeyond).1 hpassed⟩
  · rintro (⟨hzero, rfl⟩ | ⟨hbeyond, hj, hpassed⟩)
    · split_ifs at hzero with hskip
      have hj : run[neighbour d i]?.any (!skip ·) := by rw [hany, Bool.eq_false_iff.2 hskip]; rfl
      refine Or.inr ⟨(beyond_iff hroom).2 (Or.inl rfl), hj, ?_⟩
      rw [passed_neighbour hroom, if_pos hj, hzero]
    · exact Or.inr ⟨(beyond_iff hroom).2 (Or.inr hbeyond), hj, (hcount hbeyond).2 hpassed⟩

lemma Reaches.lt_size (h : run.Reaches skip d count i j) (hi : i < run.size) : j < run.size := by
  obtain ⟨-, rfl⟩ | ⟨-, hj, -⟩ := h
  · exact hi
  · exact lt_size_of_any hj

/-! ### Many places -/

@[simp] lemma walk_zero : run.walk skip d fuel 0 i = some i := by
  cases fuel <;> rfl

lemma walk_of_room_eq_zero (hroom : run.room d i = 0) :
    run.walk skip d (run.room d i) (count + 1) i = none := by
  rw [hroom, walk]

lemma walk_succ (hroom : 0 < run.room d i) :
    run.walk skip d (run.room d i) (count + 1) i =
      run.walk skip d (run.room d (neighbour d i))
        (if run[neighbour d i]?.any skip then count + 1 else count) (neighbour d i) := by
  obtain ⟨fuel, hfuel⟩ := Nat.exists_eq_add_of_lt hroom
  have hfuel' : run.room d (neighbour d i) = fuel := by rw [room_neighbour]; omega
  rw [hfuel, hfuel', Nat.zero_add, walk]
  split_ifs <;> rfl

/-- **Induction along a walk**: it has counted all it should, or there is no room, or it goes on
from the neighbour. -/
theorem walk_induction (run : GlyphRun) (skip : ShapedGlyph → Bool) (d : Direction)
    {P : (count i : Nat) → i < run.size → Prop} (done : ∀ i hi, P 0 i hi)
    (stop : ∀ count i hi, run.room d i = 0 → P (count + 1) i hi)
    (next : ∀ count i hi, (hroom : 0 < run.room d i) →
      P (if run[neighbour d i]?.any skip then count + 1 else count) (neighbour d i)
          (neighbour_lt hi hroom) →
        P (count + 1) i hi) (count i : Nat) (hi : i < run.size) : P count i hi := by
  obtain ⟨fuel, hfuel⟩ : ∃ fuel, run.room d i = fuel := ⟨_, rfl⟩
  induction fuel generalizing count i with
  | zero =>
    cases count with
    | zero => exact done i hi
    | succ count => exact stop count i hi hfuel
  | succ fuel ih =>
    cases count with
    | zero => exact done i hi
    | succ count =>
      have hroom : 0 < run.room d i := by omega
      refine next count i hi hroom (ih _ _ _ ?_)
      rw [room_neighbour, hfuel]
      rfl

theorem walk_eq_some_iff (hi : i < run.size) :
    run.walk skip d (run.room d i) count i = some j ↔ run.Reaches skip d count i j := by
  induction count, i, hi using walk_induction run skip d with
  | done i hi => rw [walk_zero, reaches_zero_iff, Option.some_inj]
  | stop count i hi hroom => simp [walk_of_room_eq_zero hroom, not_reaches hroom]
  | next count i hi hroom ih => rw [walk_succ hroom, reaches_succ_iff hi hroom, ih]

theorem walk_add (hi : i < run.size) : run.walk skip d (run.room d i) (a + b) i =
    (run.walk skip d (run.room d i) a i).bind fun j => run.walk skip d (run.room d j) b j := by
  induction a, i, hi using walk_induction run skip d with
  | done i hi => rw [Nat.zero_add, walk_zero, Option.bind_some]
  | stop a i hi hroom =>
    rw [Nat.add_right_comm, walk_of_room_eq_zero hroom, walk_of_room_eq_zero hroom,
      Option.bind_none]
  | next a i hi hroom ih =>
    rw [Nat.add_right_comm, walk_succ hroom, walk_succ hroom, ← ih]
    split_ifs
    · rw [Nat.add_right_comm]
    · rfl

/-! ### Steps -/

theorem stepFiltered_eq_some_iff : run.stepFiltered skip d count i = some j ↔
    i < run.size ∧ run.Reaches skip d count i j := by
  rw [stepFiltered]
  split_ifs with hi
  · rw [walk_eq_some_iff hi, and_iff_right hi]
  · simp [hi]

theorem stepFiltered_add (run : GlyphRun) (skip : ShapedGlyph → Bool) (d : Direction)
    (a b i : Nat) : run.stepFiltered skip d (a + b) i =
      (run.stepFiltered skip d a i).bind (run.stepFiltered skip d b) := by
  rw [stepFiltered, stepFiltered]
  split_ifs with hi
  · rw [walk_add hi]
    refine Option.bind_congr fun j hj => ?_
    rw [stepFiltered, if_pos (((walk_eq_some_iff hi).1 hj).lt_size hi)]
  · rfl

/-- **A step back undoes a step**, if the glyph it started from is not skipped. -/
theorem stepFiltered_backward_of_forward (hi : run[i]?.any (!skip ·)) (hcount : 1 ≤ count)
    (h : run.stepFiltered skip .forward count i = some j) :
    run.stepFiltered skip .backward count j = some i := by
  obtain ⟨-, ⟨rfl, -⟩ | ⟨hij, hj, hpassed⟩⟩ := stepFiltered_eq_some_iff.1 h
  · exact absurd hcount (Nat.not_succ_le_zero 0)
  · refine stepFiltered_eq_some_iff.2 ⟨lt_size_of_any hj, Or.inr ⟨hij, hi, ?_⟩⟩
    -- both ways pass what lies between the two glyphs, and the one that they lead to
    rw [passed, countBetween_add hij (Nat.le_succ j), countBetween_succ, if_pos hj] at hpassed
    rw [passed, countBetween_add (Nat.le_succ i) hij, countBetween_succ, if_pos hi, Nat.add_comm]
    exact hpassed

/-! ### Indices in words -/

lemma step_zero (hi : i < run.size) : run.step d 0 i = some i := by
  cases d with
  | forward => rw [step, if_pos hi, Nat.add_zero, if_pos hi]
  | backward => rw [step, if_pos hi, if_pos (Nat.zero_le i), Nat.sub_zero]

lemma step_one (hi : i < run.size) :
    run.step d 1 i = if 0 < run.room d i then some (neighbour d i) else none := by
  cases d with
  | forward =>
    rw [step, if_pos hi]
    exact if_congr (by rw [room]; omega) rfl rfl
  | backward =>
    rw [step, if_pos hi]
    rfl

/-- The sum of an index and a count, or their difference if the step goes backward, if it is a
word. -/
def targetWord? (d : Direction) (count index : UInt64) : Option UInt64 :=
  match d with
  | .forward => if index.toNat + count.toNat < UInt64.size then some (index + count) else none
  | .backward => if count ≤ index then some (index - count) else none

/-- `step`, where the count and the indices are words. -/
def stepWord (run : GlyphRun) (d : Direction) (count index : UInt64) : Option UInt64 :=
  if index.toNat < run.size then (targetWord? d count index).filter (·.toNat < run.size) else none

lemma map_toNat_targetWord? (d : Direction) (count index : UInt64) :
    (targetWord? d count index).map (·.toNat) = match d with
      | .forward => if index.toNat + count.toNat < UInt64.size then
          some (index.toNat + count.toNat) else none
      | .backward => if count.toNat ≤ index.toNat then
          some (index.toNat - count.toNat) else none := by
  cases d with
  | forward =>
    rw [targetWord?, apply_ite (Option.map _)]
    refine ite_congr rfl (fun hword => ?_) fun _ => rfl
    rw [Option.map_some, UInt64.toNat_add, Nat.mod_eq_of_lt hword]
  | backward =>
    rw [targetWord?, apply_ite (Option.map _)]
    refine ite_congr (propext UInt64.le_iff_toNat_le) (fun hle => ?_) fun _ => rfl
    rw [Option.map_some, UInt64.toNat_sub_of_le _ _ (UInt64.le_iff_toNat_le.2 hle)]

theorem map_toNat_stepWord (hsize : run.size ≤ UInt64.size) (d : Direction)
    (count index : UInt64) :
    (run.stepWord d count index).map (·.toNat) = run.step d count.toNat index.toNat := by
  have hfilter : ∀ o : Option UInt64, (o.filter (·.toNat < run.size)).map (·.toNat) =
      (o.map (·.toNat)).filter (· < run.size) := by
    intro o
    rw [Option.filter_map]
    rfl
  rw [stepWord]
  split_ifs with hi
  · rw [hfilter, map_toNat_targetWord?]
    cases d with
    | forward =>
      rw [step, if_pos hi]
      dsimp only
      split_ifs <;> simp <;> omega
    | backward =>
      rw [step, if_pos hi]
      dsimp only
      split_ifs <;> simp
      omega
  · cases d <;> rw [step, if_neg hi] <;> rfl

lemma map_toNat_stepWord_one (hsize : run.size ≤ UInt64.size) (d : Direction) {index : UInt64}
    (hi : index.toNat < run.size) : (run.stepWord d 1 index).map (·.toNat) =
      if 0 < run.room d index.toNat then some (neighbour d index.toNat) else none := by
  rw [map_toNat_stepWord hsize, UInt64.toNat_one, step_one hi]

lemma room_lt_of_stepWord {index next : UInt64} (h : run.stepWord d 1 index = some next) :
    run.room d next.toNat < run.room d index.toNat := by
  rw [stepWord] at h
  split_ifs at h with hi
  obtain ⟨htarget, hlt⟩ := Option.filter_eq_some_iff.1 h
  have hnext := map_toNat_targetWord? d 1 index
  rw [htarget, Option.map_some] at hnext
  cases d with
  | forward =>
    dsimp only at hnext
    split_ifs at hnext
    simp only [room, decide_eq_true_eq, Option.some_inj, UInt64.toNat_one] at hnext hlt ⊢
    omega
  | backward =>
    dsimp only at hnext
    split_ifs at hnext with hle
    simp only [room, Option.some_inj, UInt64.toNat_one] at hnext hle ⊢
    omega

/-- Goes on from `index`, one place at a time, until `remaining` glyphs that are not skipped have
been passed. The count goes down in words. -/
def walkWord (run : GlyphRun) (skip : ShapedGlyph → Bool) (d : Direction)
    (remaining index : UInt64) : Option UInt64 :=
  if remaining = 0 then some index
  else
    match h : run.stepWord d 1 index with
    | none => none
    | some next =>
      if run[next.toNat]?.any skip then walkWord run skip d remaining next
      else walkWord run skip d (remaining - 1) next
termination_by run.room d index.toNat
decreasing_by all_goals exact room_lt_of_stepWord h

/-- `stepFiltered`, where the count and the indices are words. -/
def stepFilteredWord (run : GlyphRun) (skip : ShapedGlyph → Bool) (d : Direction)
    (count index : UInt64) : Option UInt64 :=
  (run.stepWord d 0 index).bind (run.walkWord skip d count)

lemma toNat_eq_succ {remaining : UInt64} (h : ¬ remaining = 0) :
    remaining.toNat = (remaining - 1).toNat + 1 := by
  have hne : remaining.toNat ≠ 0 := fun hzero => h (UInt64.toNat_inj.1 hzero)
  have hle : (1 : UInt64) ≤ remaining := by
    rw [UInt64.le_iff_toNat_le, UInt64.toNat_one]
    omega
  rw [UInt64.toNat_sub_of_le _ _ hle, UInt64.toNat_one]
  omega

/-- **A walk in words** is a walk: each place is a word, and the count does not go below zero. -/
theorem map_toNat_walkWord (hsize : run.size ≤ UInt64.size) (skip : ShapedGlyph → Bool)
    (d : Direction) (remaining index : UInt64) (hi : index.toNat < run.size) :
    (run.walkWord skip d remaining index).map (·.toNat) =
      run.walk skip d (run.room d index.toNat) remaining.toNat index.toNat := by
  have hnone : ∀ {index : UInt64}, index.toNat < run.size → run.stepWord d 1 index = none →
      run.room d index.toNat = 0 := by
    intro index hi hnone
    have hstep := map_toNat_stepWord_one hsize d hi
    rw [hnone] at hstep
    split_ifs at hstep with hroom
    · cases hstep
    · omega
  have hsome : ∀ {index next : UInt64}, index.toNat < run.size →
      run.stepWord d 1 index = some next →
        0 < run.room d index.toNat ∧ next.toNat = neighbour d index.toNat := by
    intro index next hi hsome
    have hstep := map_toNat_stepWord_one hsize d hi
    rw [hsome] at hstep
    split_ifs at hstep with hroom
    · exact ⟨hroom, Option.some.inj hstep⟩
    · cases hstep
  fun_induction walkWord run skip d remaining index with
  | case1 index => rw [UInt64.toNat_zero, walk_zero, Option.map_some]
  | case2 remaining index hne hstop =>
    rw [toNat_eq_succ hne, walk_of_room_eq_zero (hnone hi hstop), Option.map_none]
  | case3 remaining index hne next hnext hskip ih =>
    obtain ⟨hroom, hneighbour⟩ := hsome hi hnext
    rw [hneighbour] at hskip ih
    rw [ih (neighbour_lt hi hroom), toNat_eq_succ hne, walk_succ hroom, if_pos hskip]
  | case4 remaining index hne next hnext hskip ih =>
    obtain ⟨hroom, hneighbour⟩ := hsome hi hnext
    rw [hneighbour] at hskip ih
    rw [ih (neighbour_lt hi hroom), toNat_eq_succ hne, walk_succ hroom, if_neg hskip]

theorem map_toNat_stepFilteredWord (hsize : run.size ≤ UInt64.size) (skip : ShapedGlyph → Bool)
    (d : Direction) (count index : UInt64) :
    (run.stepFilteredWord skip d count index).map (·.toNat) =
      run.stepFiltered skip d count.toNat index.toNat := by
  have hstart := map_toNat_stepWord hsize d 0 index
  rw [stepFilteredWord, stepFiltered]
  split_ifs with hi
  · rw [UInt64.toNat_zero, step_zero hi, Option.map_eq_some_iff] at hstart
    obtain ⟨start, hstart, heq⟩ := hstart
    rw [hstart, Option.bind_some, UInt64.toNat_inj.1 heq]
    exact map_toNat_walkWord hsize skip d count index hi
  · rw [stepWord, if_neg hi, Option.bind_none, Option.map_none]

/-! ### Exactness -/

/-- **Filtered steps count exactly and can be undone.** A step from an index in the run ends at the
index itself if nothing is counted, else at the one glyph beyond it that is not skipped and up to
which, with it, just as many glyphs are not; there is no result if there is no such glyph. To step
twice is to step by the sum. From where a step forward ends, the same step backward leads back, if
the first glyph is not skipped and something is counted. And counts and indices of 64 bits lead to
the same glyphs as those of any size: in a run whose glyphs words can number, no sum or difference
of theirs is cut off. -/
theorem stepFiltered_exact (run : GlyphRun) (skip : ShapedGlyph → Bool) :
    (∀ d count i j, run.stepFiltered skip d count i = some j ↔ i < run.size ∧
      (count = 0 ∧ j = i ∨
        Beyond d i j ∧ run[j]?.any (!skip ·) ∧ run.passed skip d i j = count)) ∧
    (∀ d a b i, run.stepFiltered skip d (a + b) i =
      (run.stepFiltered skip d a i).bind (run.stepFiltered skip d b)) ∧
    (∀ count i j, run[i]?.any (!skip ·) → 1 ≤ count →
      run.stepFiltered skip .forward count i = some j →
        run.stepFiltered skip .backward count j = some i) ∧
    (run.size ≤ UInt64.size → ∀ d (count index : UInt64),
      (run.stepWord d count index).map (·.toNat) = run.step d count.toNat index.toNat ∧
      (run.stepFilteredWord skip d count index).map (·.toNat) =
        run.stepFiltered skip d count.toNat index.toNat) :=
  ⟨fun _ _ _ _ => stepFiltered_eq_some_iff, run.stepFiltered_add skip,
    fun _ _ _ => stepFiltered_backward_of_forward,
    fun hsize d count index => ⟨map_toNat_stepWord hsize d count index,
      map_toNat_stepFilteredWord hsize skip d count index⟩⟩

theorem stepFiltered_exact_overMarks :
    let run : GlyphRun := .ofIds [1, 9, 2, 9, 9, 3]
    let skip : ShapedGlyph → Bool := (·.id = 9)
    run[0]?.any (!skip ·) ∧ 1 ≤ 2 ∧ run.stepFiltered skip .forward 2 0 = some 5 ∧
      run.stepFiltered skip .backward 2 5 = some 0 ∧ run.size ≤ UInt64.size ∧
      (run.stepFilteredWord skip .forward 2 0).map (·.toNat) = some 5 := by
  intro run skip
  have hforward : run.stepFiltered skip .forward 2 0 = some 5 := by decide
  have hsize : run.size ≤ UInt64.size := by decide
  obtain ⟨-, -, hback, hwords⟩ := stepFiltered_exact run skip
  exact ⟨rfl, by decide, hforward, hback 2 0 5 rfl (by decide) hforward, hsize,
    (hwords hsize .forward 2 0).2.trans hforward⟩

end Shaping.GlyphRun
