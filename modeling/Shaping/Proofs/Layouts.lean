import Shaping.Machine.Packed
import Shaping.Proofs.Renumbering

/-!
The layout of a machine: its packed tables before their numbers are stored in words. Packing stores
the layout of the reachable part of a machine, numbered breadth first. The pools only grow while a
machine is laid out, so the number that a matcher or an action got stays its place, and the
stretches of the states tile the table of transitions. So a layout describes the machine that it
comes from. Main statements: `Layout.pack_eq_packed`, `Layout.unpack?_of`.
-/

namespace Shaping

open Numbered
open Packed (Pools)

/-- The transitions of a state: `count` of them from place `first` on. -/
structure Stretch where
  first : Nat
  count : Nat

/-- The stretch that the words of a state spell. -/
def PackedState.stretch (s : PackedState) : Stretch := ⟨s.first.toNat, s.count.toNat⟩

/-- A transition that names its matcher and action by number. -/
abbrev NumberedTransition := Transition (Label Nat Nat)

/-- Packed tables with the numbers themselves in place of words. -/
structure Layout where
  direction : Direction
  states : Array Stretch
  transitions : Array NumberedTransition
  matchers : Array Matcher
  actions : Array Action

def Predicate.mapM {μ ν : Type} {m : Type → Type} [Monad m] (f : μ → m ν) :
    Predicate μ → m (Predicate ν)
  | .probe offset matcher flags => return .probe offset (← f matcher) flags
  | .consume matcher flags => return .consume (← f matcher) flags
  | .accept => return .accept

/-- A label with its matcher and then its action replaced. -/
def Label.mapM {μ ν α β : Type} {m : Type → Type} [Monad m] (f : μ → m ν) (g : α → m β)
    (l : Label μ α) : m (Label ν β) := do
  let predicate ← l.predicate.mapM f
  let action ← l.action.mapM g
  return { predicate, action }

namespace Layout

/-! ### Making a layout -/

def numberMatcher (x : Matcher) : StateM Pools Nat := fun p =>
  let (i, matchers) := p.matchers.intern x
  (i, { p with matchers })

def numberAction (x : Action) : StateM Pools Nat := fun p =>
  let (i, actions) := p.actions.intern x
  (i, { p with actions })

/-- The transition with its parts numbered. -/
def numberParts (a : Transition Step) : StateM Pools NumberedTransition := do
  let label ← a.label.mapM numberMatcher numberAction
  return ⟨label, a.target⟩

/-- The stretches that tile a table, one for each row. -/
def stretches (first : Nat) : List Nat → List Stretch
  | [] => []
  | count :: rest => ⟨first, count⟩ :: stretches (first + count) rest

/-- The layout of a machine, with its states as they are numbered. -/
def of (m : Machine Step) : Layout :=
  let (transitions, pools) := (m.states.flatten.mapM numberParts).run .empty
  { direction := m.direction
    states := (stretches 0 (m.states.toList.map (·.size))).toArray
    transitions
    matchers := pools.matchers.items
    actions := pools.actions.items }

end Layout

/-- The layout of what the entry leads to, numbered breadth first. -/
def Machine.layout (m : Machine Step) : Layout := .of m.compact

namespace Layout

/-- The transition that a numbered one stands for, if it names members of the pools. -/
def unpackTransition? (p : Layout) (t : NumberedTransition) : Option (Transition Step) := do
  let label ← t.label.mapM (p.matchers[·]?) (p.actions[·]?)
  return ⟨label, t.target⟩

/-- The entries of a stretch of a table, each read by `f`. -/
def readStretch {α β : Type} (f : α → Option β) (table : Array α) (s : Stretch) :
    Option (Array β) :=
  if s.first + s.count ≤ table.size then (table.extract s.first (s.first + s.count)).mapM f
  else none

/-- The machine that a layout describes, if every number in it is in range. -/
def unpack? (p : Layout) : Option (Machine Step) := do
  let states ← p.states.mapM (readStretch p.unpackTransition? p.transitions)
  return { states, direction := p.direction }

/-! ### Words -/

/-- The words of a stretch. A number that does not fit its word is cut off. -/
def packedState (s : Stretch) : PackedState := ⟨.ofNat s.first, .ofNat s.count⟩

/-- The kind, offset, flags and matcher of a predicate, as words. -/
def predicateWords : Predicate Nat → UInt8 × Int16 × UInt16 × UInt32
  | .probe offset i flags => (Packed.probing, offset, flags.bits, .ofNat i)
  | .consume i flags => (Packed.consuming, 0, flags.bits, .ofNat i)
  | .accept => (Packed.accepting, 0, 0, Packed.absent)

def actionWord (action : Option Nat) : UInt32 := (action.map .ofNat).getD Packed.absent

/-- The words of a transition. -/
def packedTransition (t : NumberedTransition) : PackedTransition :=
  let (kind, offset, flags, matcher) := predicateWords t.label.predicate
  { kind, offset, flags, matcher
    action := actionWord t.label.action
    target := .ofNat t.target }

/-- The tables with their numbers stored in words. -/
def packed (p : Layout) : Packed where
  direction := p.direction
  states := p.states.map packedState
  transitions := p.transitions.map packedTransition
  matchers := p.matchers
  actions := p.actions

lemma packPredicate_eq (x : Predicate Matcher) :
    Packed.packPredicate x = predicateWords <$> x.mapM numberMatcher := by
  cases x <;> rfl

lemma packAction_eq (x : Option Action) :
    Packed.packAction x = actionWord <$> x.mapM numberAction := by
  cases x <;> rfl

lemma packTransition_eq (m : Machine Step) (a : Transition Step) :
    Packed.packTransition m.discovery a =
      packedTransition <$> numberParts ⟨a.label, m.number a.target⟩ := by
  rw [Packed.packTransition, packPredicate_eq, packAction_eq]
  rfl

lemma mapM_map_list {m : Type → Type} [Monad m] [LawfulMonad m] {α β γ : Type} (f : α → m β)
    (g : β → γ) (as : List α) : as.mapM (fun a => g <$> f a) = List.map g <$> as.mapM f := by
  induction as with
  | nil => simp
  | cons a as ih => simp [List.mapM_cons, ih]

lemma mapM_map {m : Type → Type} [Monad m] [LawfulMonad m] {α β γ : Type} (f : α → m β) (g : β → γ)
    (as : Array α) : as.mapM (fun a => g <$> f a) = Array.map g <$> as.mapM f := by
  rw [Array.mapM_eq_mapM_toList, mapM_map_list, Array.mapM_eq_mapM_toList, Functor.map_map,
    Functor.map_map]
  simp only [List.map_toArray]

lemma mapM_congr {m : Type → Type} [Monad m] [LawfulMonad m] {α β : Type} {f g : α → m β}
    {as : Array α} (h : ∀ a ∈ as, f a = g a) : as.mapM f = as.mapM g := by
  obtain ⟨as⟩ := as
  rw [Array.mapM_eq_mapM_toList, Array.mapM_eq_mapM_toList]
  refine congrArg _ ?_
  induction as with
  | nil => rfl
  | cons a as ih =>
    rw [List.mapM_cons, List.mapM_cons, h a (by simp), ih fun b hb => h b (by simp_all)]

lemma mapM_replicate {m : Type → Type} [Monad m] [LawfulMonad m] {α β : Type} {f : α → m β} {a : α}
    {b : β} (h : f a = pure b) (n : Nat) :
    (Array.replicate n a).mapM f = pure (Array.replicate n b) := by
  have hlist : (List.replicate n a).mapM f = pure (List.replicate n b) := by
    induction n with
    | zero => rfl
    | succ n ih => rw [List.replicate_succ, List.mapM_cons, h, ih, pure_bind, pure_bind]; rfl
  rw [Array.mapM_eq_mapM_toList, Array.toList_replicate, hlist, map_pure]
  rfl

lemma packedStretches (first : Nat) (counts : List Nat) :
    Packed.stretches first counts = (stretches first counts).map packedState := by
  induction counts generalizing first with
  | nil => rfl
  | cons count counts ih =>
    rw [Packed.stretches, stretches, List.map_cons, ih]
    rfl

/-- **To pack a machine is to store the layout of its reachable part in words.** -/
theorem pack_eq_packed (m : Machine Step) : Packed.pack m = m.layout.packed := by
  have hflat : m.compact.states.flatten =
      (m.discovery.items.map m.row).flatten.map fun a => ⟨a.label, m.number a.target⟩ := by
    rw [Array.map_flatten, Array.map_map]
    rfl
  have hsizes : m.compact.states.toList.map (·.size) =
      (m.discovery.items.map m.row).toList.map (·.size) := by
    rw [Machine.compact, Array.toList_map, Array.toList_map, List.map_map, List.map_map]
    refine List.map_congr_left fun s _ => ?_
    exact Array.size_map
  have hwords (as : Array (Transition Step)) : as.mapM (Packed.packTransition m.discovery) =
      Array.map packedTransition <$>
        (as.map fun a => ⟨a.label, m.number a.target⟩).mapM numberParts := by
    rw [Array.mapM_map, funext (packTransition_eq m)]
    exact mapM_map (fun a => numberParts ⟨a.label, m.number a.target⟩) packedTransition as
  have hstates (counts : List Nat) : (Packed.stretches 0 counts).toArray =
      (stretches 0 counts).toArray.map packedState := by
    rw [packedStretches, List.map_toArray]
  rw [Machine.layout, of, hflat, hsizes]
  simp only [Packed.pack, hwords, hstates, StateT.run_map]
  rfl

/-! ### Pools -/

section Pools

variable {p q r : Pools} {named : Label Nat Nat} {l : Step}

/-- The members of `p` have the same places in `q`. -/
structure Begins (p q : Pools) : Prop where
  matchers : p.matchers.items.toList <+: q.matchers.items.toList
  actions : p.actions.items.toList <+: q.actions.items.toList

lemma Begins.refl (p : Pools) : Begins p p := ⟨List.prefix_rfl, List.prefix_rfl⟩

lemma Begins.trans (h : Begins p q) (h' : Begins q r) : Begins p r :=
  ⟨h.matchers.trans h'.matchers, h.actions.trans h'.actions⟩

lemma Begins.getElem?_matchers (h : Begins p q) {i : Nat} {x : Matcher}
    (hi : p.matchers.items[i]? = some x) : q.matchers.items[i]? = some x := by
  rw [← Array.getElem?_toList] at hi ⊢
  exact getElem?_of_begins h.matchers hi

lemma Begins.getElem?_actions (h : Begins p q) {i : Nat} {x : Action}
    (hi : p.actions.items[i]? = some x) : q.actions.items[i]? = some x := by
  rw [← Array.getElem?_toList] at hi ⊢
  exact getElem?_of_begins h.actions hi

lemma numberMatcher_spec (x : Matcher) (p : Pools) :
    Begins p ((numberMatcher x).run p).2 ∧
      ((numberMatcher x).run p).2.matchers.items[((numberMatcher x).run p).1]? = some x := by
  refine ⟨⟨?_, List.prefix_rfl⟩, Pool.intern_spec p.matchers x⟩
  have hitems := Pool.items_intern p.matchers x
  exact hitems ▸ prefix_addNew _ _

lemma numberAction_spec (x : Action) (p : Pools) :
    Begins p ((numberAction x).run p).2 ∧
      ((numberAction x).run p).2.actions.items[((numberAction x).run p).1]? = some x := by
  refine ⟨⟨List.prefix_rfl, ?_⟩, Pool.intern_spec p.actions x⟩
  have hitems := Pool.items_intern p.actions x
  exact hitems ▸ prefix_addNew _ _

/-- The numbers in `named` are those of the parts of `l`. -/
def Names (p : Pools) (named : Label Nat Nat) (l : Step) : Prop :=
  named.predicate.mapM (p.matchers.items[·]?) = some l.predicate ∧
    named.action.mapM (p.actions.items[·]?) = some l.action

theorem Names.mono (h : Names p named l) (hq : Begins p q) : Names q named l := by
  obtain ⟨predicate, action⟩ := named
  obtain ⟨hpredicate, haction⟩ := h
  constructor
  · cases predicate with
    | accept => exact hpredicate
    | probe offset i flags | consume i flags =>
      cases hi : p.matchers.items[i]? with
      | none => simp [Predicate.mapM, hi] at hpredicate
      | some x => simpa [Predicate.mapM, hi, hq.getElem?_matchers hi] using hpredicate
  · cases action with
    | none => exact haction
    | some i =>
      cases hi : p.actions.items[i]? with
      | none => simp [hi] at haction
      | some x => simpa [hi, hq.getElem?_actions hi] using haction

lemma predicate_spec (x : Predicate Matcher) (p : Pools) :
    Begins p ((x.mapM numberMatcher).run p).2 ∧
      ((x.mapM numberMatcher).run p).1.mapM
        (((x.mapM numberMatcher).run p).2.matchers.items[·]?) = some x := by
  cases x with
  | accept => exact ⟨Begins.refl p, rfl⟩
  | probe offset y flags =>
    obtain ⟨hbegins, hplace⟩ := numberMatcher_spec y p
    exact ⟨hbegins, congrArg (· >>= fun x => some (Predicate.probe offset x flags)) hplace⟩
  | consume y flags =>
    obtain ⟨hbegins, hplace⟩ := numberMatcher_spec y p
    exact ⟨hbegins, congrArg (· >>= fun x => some (Predicate.consume x flags)) hplace⟩

theorem names_mapM (l : Step) (p : Pools) :
    Begins p ((l.mapM numberMatcher numberAction).run p).2 ∧
      Names ((l.mapM numberMatcher numberAction).run p).2
        ((l.mapM numberMatcher numberAction).run p).1 l := by
  obtain ⟨predicate, act⟩ := l
  obtain ⟨hbegins, hpredicate⟩ := predicate_spec predicate p
  cases act with
  | none => exact ⟨hbegins, hpredicate, rfl⟩
  | some x =>
    generalize hq : ((predicate.mapM numberMatcher).run p).2 = q at hbegins hpredicate
    obtain ⟨hbegins', hplace⟩ := numberAction_spec x q
    have hrun : (Label.mapM numberMatcher numberAction ⟨predicate, some x⟩).run p =
        (⟨((predicate.mapM numberMatcher).run p).1, some ((numberAction x).run q).1⟩,
          ((numberAction x).run q).2) := by
      subst hq
      rfl
    have hnames : Names q ⟨((predicate.mapM numberMatcher).run p).1, none⟩ ⟨predicate, none⟩ :=
      ⟨hpredicate, rfl⟩
    rw [hrun]
    refine ⟨hbegins.trans hbegins', (hnames.mono hbegins').1, ?_⟩
    simp [hplace]

end Pools

section Transitions

variable {p q : Pools} {u : NumberedTransition} {a : Transition Step}

/-- `u` leads where `a` leads, and names the parts of `a`. -/
def Stands (p : Pools) (u : NumberedTransition) (a : Transition Step) : Prop :=
  Names p u.label a.label ∧ u.target = a.target

/-- The pools that one transition leaves are those that the next one meets. -/
lemma run_mapM_cons (a : Transition Step) (as : List (Transition Step)) (p : Pools) :
    ((a :: as).mapM numberParts).run p =
      (⟨((a.label.mapM numberMatcher numberAction).run p).1, a.target⟩ ::
        ((as.mapM numberParts).run ((a.label.mapM numberMatcher numberAction).run p).2).1,
        ((as.mapM numberParts).run ((a.label.mapM numberMatcher numberAction).run p).2).2) := by
  rw [List.mapM_cons]
  rfl

/-- **Numbered transitions stand for the transitions they come from**, also when the pools have
grown. -/
theorem stands_mapM (as : List (Transition Step)) (p : Pools) :
    Begins p ((as.mapM numberParts).run p).2 ∧
      List.Forall₂ (Stands ((as.mapM numberParts).run p).2) ((as.mapM numberParts).run p).1 as := by
  induction as generalizing p with
  | nil => exact ⟨.refl p, .nil⟩
  | cons a as ih =>
    obtain ⟨hbegins, hnames⟩ := names_mapM a.label p
    obtain ⟨hbegins', hrest⟩ := ih ((a.label.mapM numberMatcher numberAction).run p).2
    rw [run_mapM_cons]
    exact ⟨hbegins.trans hbegins', .cons ⟨hnames.mono hbegins', rfl⟩ hrest⟩

/-- A numbered transition is unpacked to the transition that it stands for. -/
lemma unpackTransition?_of_stands {t : Layout} (hmatchers : t.matchers = p.matchers.items)
    (hactions : t.actions = p.actions.items) (h : Stands p u a) :
    t.unpackTransition? u = some a := by
  obtain ⟨⟨hpredicate, haction⟩, htarget⟩ := h
  rw [← hmatchers] at hpredicate
  rw [← hactions] at haction
  rw [unpackTransition?, Label.mapM, hpredicate, haction, htarget]
  rfl

end Transitions

section Tables

variable {α β : Type} {f : α → Option β}

/-- **The stretches of some rows cut their table back into the rows.** -/
theorem mapM_stretches {table : Array α} {front : List β} {rows : List (List β)}
    (h : List.Forall₂ (fun a b => f a = some b) table.toList (front ++ rows.flatten)) :
    (stretches front.length (rows.map List.length)).mapM (readStretch f table) =
      some (rows.map List.toArray) := by
  induction rows generalizing front with
  | nil => rfl
  | cons row rows ih =>
    have hlen := h.length_eq
    rw [List.flatten_cons, List.length_append, List.length_append, Array.length_toList] at hlen
    have hstretch : readStretch f table ⟨front.length, row.length⟩ = some row.toArray := by
      have hcut := List.forall₂_take row.length (List.forall₂_drop front.length h)
      rw [List.drop_left, List.flatten_cons, List.take_left] at hcut
      rw [readStretch, if_pos (by dsimp only; omega), Array.mapM_eq_mapM_toList,
        Array.toList_extract, List.extract_eq_take_drop, Nat.add_sub_cancel_left,
        mapM_eq_pure_of_forall₂ hcut]
      rfl
    have hrest : (stretches (front ++ row).length (rows.map List.length)).mapM
        (readStretch f table) = some (rows.map List.toArray) := ih (by simpa using h)
    rw [List.length_append] at hrest
    rw [List.map_cons, stretches, List.mapM_cons, hstretch, hrest]
    rfl

end Tables

/-! ### Unpacking a layout -/

lemma stands_of (m : Machine Step) : ∃ p : Pools,
    (of m).matchers = p.matchers.items ∧ (of m).actions = p.actions.items ∧
      List.Forall₂ (Stands p) (of m).transitions.toList m.states.flatten.toList := by
  rw [of, Array.mapM_eq_mapM_toList]
  exact ⟨_, rfl, rfl, (stands_mapM m.states.flatten.toList .empty).2⟩

/-- **A layout describes the machine it comes from**, whose entry is taken to be state 0. -/
theorem unpack?_of {m : Machine Step} (hentry : m.entry = 0) : (of m).unpack? = some m := by
  obtain ⟨p, hmatchers, hactions, hstands⟩ := stands_of m
  have hread : List.Forall₂ (fun u a => (of m).unpackTransition? u = some a)
      (of m).transitions.toList ([] ++ (m.states.toList.map Array.toList).flatten) := by
    rw [List.nil_append, ← Array.toList_flatten]
    exact hstands.imp fun u a h => unpackTransition?_of_stands hmatchers hactions h
  have hcut := mapM_stretches hread
  have hsizes : (of m).states.toList =
      stretches 0 ((m.states.toList.map Array.toList).map List.length) := by
    rw [List.map_map]
    rfl
  have hrows : (m.states.toList.map Array.toList).map List.toArray = m.states.toList := by
    rw [List.map_map]
    exact List.map_id _
  rw [List.length_nil, ← hsizes, hrows] at hcut
  have hstates : (of m).states.mapM
      (readStretch (of m).unpackTransition? (of m).transitions) = some m.states := by
    rw [Array.mapM_eq_mapM_toList, hcut]
    exact congrArg some (Array.toArray_toList ..)
  rw [unpack?, hstates]
  obtain ⟨states, entry, direction⟩ := m
  subst hentry
  rfl

end Layout

end Shaping
