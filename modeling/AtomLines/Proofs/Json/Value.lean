import AtomLines.Proofs.Json.Number
import AtomLines.Json.Leaves
/-!
# The shape of values

What it takes for a value to be written as a record: it is a mapping, its keys are
distinct, and sequences nest at most `maxSequenceDepth` deep under one key. `settle`
is what comes back: strings that are texts of numbers have become those numbers.
-/

namespace AtomLines.Json

namespace Value

/-! ## Induction -/

/-- Induction over values, with the items or the entries of a container at hand. -/
theorem induct {motive : Value → Prop} (scalar : ∀ s, motive (.scalar s))
    (sequence : ∀ items, (∀ v ∈ items, motive v) → motive (.sequence items))
    (mapping : ∀ entries, (∀ e ∈ entries, motive e.2) → motive (.mapping entries)) (v : Value) : motive v := by
  refine @Value.rec motive (fun items => ∀ v ∈ items, motive v) (fun entries => ∀ e ∈ entries, motive e.2)
    (fun e => motive e.2) scalar sequence mapping ?_ ?_ ?_ ?_ ?_ v
  · simp
  · intro v items hv hi
    rw [List.forall_mem_cons]
    exact ⟨hv, hi⟩
  · simp
  · intro e entries he hr
    rw [List.forall_mem_cons]
    exact ⟨he, hr⟩
  · intro _ _ hv
    exact hv

/-! ## Parts and depth -/

/-- The first value is the second one or lies in it. -/
inductive Inside (part : Value) : Value → Prop
  | self : Inside part part
  | item {v : Value} {items : List Value} : v ∈ items → Inside part v → Inside part (sequence items)
  | entry {k : String} {v : Value} {entries : List (String × Value)} :
    (k, v) ∈ entries → Inside part v → Inside part (mapping entries)

mutual

/-- How many sequences lie directly inside each other, from the value inwards. -/
def nesting : Value → Nat
  | scalar _ | mapping _ => 0
  | sequence items => itemNesting items + 1

def itemNesting : List Value → Nat
  | [] => 0
  | v :: rest => max v.nesting (itemNesting rest)

end

/-- No key carries more than `maxSequenceDepth` sequences directly inside each
other. -/
def Shallow (v : Value) : Prop :=
  ∀ entries, Inside (mapping entries) v → ∀ e ∈ entries, e.2.nesting ≤ maxSequenceDepth

/-- What holds of every value in memory: the keys of a mapping are distinct and
items have indices. -/
structure WellFormed (v : Value) : Prop where
  keys : ∀ entries, Inside (mapping entries) v → (Keyed.keys entries).Nodup
  items : ∀ items, Inside (sequence items) v → items.length ≤ Text.indexBound

/-- Every number reads back from its text. -/
def NumbersStable (v : Value) : Prop :=
  ∀ n, Inside (scalar (.number n)) v → n.Stable

/-- What has to hold of a value anywhere in a record. -/
structure Fit (v : Value) : Prop where
  shallow : v.Shallow
  wellFormed : v.WellFormed
  numbers : v.NumbersStable

/-- A value that can be written as a record. -/
structure Writable (v : Value) : Prop extends Fit v where
  isMapping : ∃ entries, v = mapping entries

theorem Fit.item {v : Value} {items : List Value} (h : (sequence items).Fit) (hv : v ∈ items) : v.Fit where
  shallow entries hi := h.shallow entries (.item hv hi)
  wellFormed := ⟨fun entries hi => h.wellFormed.keys entries (.item hv hi),
    fun items hi => h.wellFormed.items items (.item hv hi)⟩
  numbers n hi := h.numbers n (.item hv hi)

theorem Fit.entry {k : String} {v : Value} {entries : List (String × Value)} (h : (mapping entries).Fit)
    (hv : (k, v) ∈ entries) : v.Fit where
  shallow entries hi := h.shallow entries (.entry hv hi)
  wellFormed := ⟨fun entries hi => h.wellFormed.keys entries (.entry hv hi),
    fun items hi => h.wellFormed.items items (.entry hv hi)⟩
  numbers n hi := h.numbers n (.entry hv hi)

theorem Fit.nesting {k : String} {v : Value} {entries : List (String × Value)} (h : (mapping entries).Fit)
    (hv : (k, v) ∈ entries) : v.nesting ≤ maxSequenceDepth :=
  h.shallow entries .self _ hv

theorem fit_scalar {s : Scalar} (h : ∀ n, s = .number n → n.Stable) : (scalar s).Fit where
  shallow _ hi := nomatch hi
  wellFormed := ⟨fun _ hi => (nomatch hi), fun _ hi => (nomatch hi)⟩
  numbers n hi := by
    cases hi
    exact h n rfl

theorem fit_sequence {items : List Value} (hl : items.length ≤ Text.indexBound) (h : ∀ v ∈ items, v.Fit) :
    (sequence items).Fit where
  shallow
    | entries, .item hv hi => (h _ hv).shallow entries hi
  wellFormed := by
    constructor
    · intro entries hi
      cases hi with
      | item hv hi => exact (h _ hv).wellFormed.keys entries hi
    · intro items' hi
      cases hi with
      | self => exact hl
      | item hv hi => exact (h _ hv).wellFormed.items items' hi
  numbers
    | n, .item hv hi => (h _ hv).numbers n hi

theorem fit_mapping {entries : List (String × Value)} (hk : (Keyed.keys entries).Nodup)
    (h : ∀ e ∈ entries, e.2.Fit ∧ e.2.nesting ≤ maxSequenceDepth) : (mapping entries).Fit where
  shallow := by
    intro entries' hi
    cases hi with
    | self => exact fun e he => (h e he).2
    | entry hv hi => exact (h _ hv).1.shallow entries' hi
  wellFormed := by
    constructor
    · intro entries' hi
      cases hi with
      | self => exact hk
      | entry hv hi => exact (h _ hv).1.wellFormed.keys entries' hi
    · intro items hi
      cases hi with
      | entry hv hi => exact (h _ hv).1.wellFormed.items items hi
  numbers
    | n, .entry hv hi => (h _ hv).1.numbers n hi

/-! ## What comes back -/

mutual

/-- Strings that are the text of a number become that number. -/
def settle : Value → Value
  | scalar (.string s) =>
    match Number.read? s with
    | some n => scalar (.number n)
    | none => scalar (.string s)
  | scalar s => scalar s
  | sequence items => sequence (settleItems items)
  | mapping entries => mapping (settleEntries entries)

def settleItems : List Value → List Value
  | [] => []
  | v :: rest => v.settle :: settleItems rest

def settleEntries : List (String × Value) → List (String × Value)
  | [] => []
  | (k, v) :: rest => (k, v.settle) :: settleEntries rest

end

/-- A leaf reads back from its atom as what it settles to. -/
theorem ofAtom_toAtom {v : Value} (hl : v.isLeaf = true) (hn : v.NumbersStable) : ofAtom v.toAtom = .ok v.settle := by
  cases v with
  | scalar s =>
    cases s with
    | string s =>
      simp only [toAtom, Scalar.toAtom, settle]
      cases h : Number.read? s with
      | none => simp [ofAtom, Scalar.ofAtom, Except.map]
      | some n => simp [ofAtom, Scalar.ofAtom, h, Except.map]
    | number n =>
      have h := (hn n .self).read?_text
      simp [toAtom, Scalar.toAtom, ofAtom, Scalar.ofAtom, h, Except.map, settle]
    | boolean b =>
      cases b <;> simp [toAtom, Scalar.toAtom, ofAtom, Scalar.ofAtom, emptyMapping, emptySequence, Except.map, settle]
    | null => simp [toAtom, Scalar.toAtom, ofAtom, Scalar.ofAtom, emptyMapping, emptySequence, Except.map, settle]
  | sequence items =>
    rw [List.isEmpty_iff.1 hl]
    simp [toAtom, ofAtom, settle, settleItems, emptyMapping, emptySequence]
  | mapping entries =>
    rw [List.isEmpty_iff.1 hl]
    simp [toAtom, ofAtom, settle, settleEntries]

end Value

end AtomLines.Json
