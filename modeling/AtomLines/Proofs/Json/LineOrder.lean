import AtomLines.Json.Record
import AtomLines.Proofs.Gather
import AtomLines.Proofs.Json.Alike
import Mathlib.Data.List.Pairwise
/-!
# The order of lines

A line says which leaf stands at which spot. Lines build a tree exactly if they can all
be read and their spots part, whatever their order, and the tree holds just these
leaves. So lines in another order are decoded alike: to the same values, which may have
their keys in another order, or to none.
-/

namespace AtomLines.Json

/-! ## What a line says -/

/-- The leaf of a wrapped leaf, or the empty mapping at the root, with its moves. -/
def lineSpot? (body : SExpr) : Option (List Access × Value) :=
  if body = .symbol emptyMapping then some ([], .mapping []) else
    match Path.unwrap body with
    | .error _ => none
    | .ok (path, atom) =>
      match Value.ofAtom atom with
      | .error _ => none
      | .ok v => some (path.accesses, v)

/-- The leaf that the line of a record gives, with its index as the first move. -/
def recordSpot? (marker : String) (line : SExpr) : Option (List Access × Value) :=
  match recordParts marker line with
  | .error _ => none
  | .ok (record, body) => (lineSpot? body).map fun spot => (.index record :: spot.1, spot.2)

theorem Value.isLeaf_of_ofAtom {e : SExpr} {v : Value} (h : ofAtom e = .ok v) : v.isLeaf = true := by
  rw [ofAtom] at h
  split at h
  · cases h
    rfl
  · split at h
    · cases h
      rfl
    · obtain ⟨s, -, rfl⟩ := map_eq_ok.1 h
      rfl

theorem isLeaf_of_lineSpot? {body : SExpr} {spot : List Access × Value} (h : lineSpot? body = some spot) :
    spot.2.isLeaf = true := by
  unfold lineSpot? at h
  split at h
  · cases h
    rfl
  · split at h
    · cases h
    · split at h
      · cases h
      · rename_i hv
        cases h
        exact Value.isLeaf_of_ofAtom hv

theorem isLeaf_of_recordSpot? {marker : String} {line : SExpr} {spot : List Access × Value}
    (h : recordSpot? marker line = some spot) : spot.2.isLeaf = true := by
  unfold recordSpot? at h
  split at h
  · cases h
  · obtain ⟨inner, hinner, he⟩ := Option.map_eq_some_iff.1 h
    have hleaf := isLeaf_of_lineSpot? hinner
    cases he
    exact hleaf

/-- Inserting a line inserts its leaf. -/
theorem insertLine_eq_ok {body : SExpr} {root s : Slot} : Slot.insertLine body root = .ok s ↔
    ∃ spot, lineSpot? body = some spot ∧ root.insert spot.2 spot.1 = .ok s := by
  rw [Slot.insertLine, lineSpot?]
  split
  · -- The empty mapping at the root meets a vacant slot or none.
    cases root <;> simp [Slot.isVacant, Slot.insert]
  · simp only [bind_eq_ok, Prod.exists, mapError_eq_ok]
    constructor
    · rintro ⟨path, atom, hu, v, hv, h⟩
      rw [hu]
      simp only [hv]
      exact ⟨_, _, rfl, h⟩
    · rintro ⟨as, v, hs, h⟩
      split at hs
      · cases hs
      · split at hs
        · cases hs
        · rename_i hu _ _ hv
          cases hs
          exact ⟨_, _, hu, _, hv, h⟩

/-! ## Runs that insert leaves -/

section Inserting
variable {ε α σ : Type} {read? : α → Option (List Access × Value)} {add : σ → α → Except ε σ} {root : σ → Slot}
  {start : σ} {lines lines' : List α}

/-- The step of a line inserts its leaf into a tree. -/
structure InsertsLeaves (read? : α → Option (List Access × Value)) (add : σ → α → Except ε σ) (root : σ → Slot) :
    Prop where
  isLeaf : ∀ {a spot}, read? a = some spot → spot.2.isLeaf = true
  inserts : ∀ {s s' a}, add s a = .ok s' → ∃ spot, read? a = some spot ∧ (root s).insert spot.2 spot.1 = .ok (root s')
  succeeds : ∀ {s a spot t}, read? a = some spot → (root s).insert spot.2 spot.1 = .ok t → ∃ s', add s a = .ok s'

/-- No two leaves stand at spots that do not part. -/
def Parted (spots : List (List Access × Value)) : Prop :=
  spots.Pairwise fun p q => Apart p.1 q.1

theorem parted_concat {spots : List (List Access × Value)} {p : List Access × Value} :
    Parted (spots ++ [p]) ↔ Parted spots ∧ ∀ q ∈ spots, Apart p.1 q.1 := by
  rw [Parted, List.pairwise_append]
  constructor
  · rintro ⟨hs, -, hp⟩
    exact ⟨hs, fun q hq => (hp q hq p (List.mem_singleton_self p)).symm⟩
  · rintro ⟨hs, hp⟩
    refine ⟨hs, List.pairwise_singleton _ _, fun q hq p' hp' => ?_⟩
    rw [List.mem_singleton.1 hp']
    exact (hp q hq).symm

theorem Parted.perm {spots spots' : List (List Access × Value)} (h : Parted spots) (hp : spots.Perm spots') :
    Parted spots' :=
  (hp.pairwise_iff fun h => Apart.symm h).1 h

theorem Parted.distinct {spots : List (List Access × Value)} (h : Parted spots) : (spots.map Prod.fst).Nodup := by
  rw [List.Nodup, List.pairwise_map]
  refine h.imp ?_
  intro p q hpq he
  rw [he] at hpq
  exact not_apart_self q.1 hpq

/-- No other leaf goes together with one at the root. -/
theorem Parted.eq_singleton {spots : List (List Access × Value)} (h : Parted spots) {v : Value} (hv : ([], v) ∈ spots) :
    spots = [([], v)] := by
  obtain ⟨before, after, rfl⟩ := List.append_of_mem hv
  obtain ⟨-, hafter, hbefore⟩ := List.pairwise_append.1 h
  have hb : before = [] :=
    List.eq_nil_iff_forall_not_mem.2 fun p hp => not_apart_nil _ (hbefore p hp _ List.mem_cons_self)
  have ha : after = [] :=
    List.eq_nil_iff_forall_not_mem.2 fun p hp => (List.rel_of_pairwise_cons hafter hp).elim
  rw [hb, ha, List.nil_append]

/-- A tree that holds just the leaves at the spots. -/
structure HoldsLeaves (spots : List (List Access × Value)) (s : Slot) : Prop where
  growing : s.Growing
  perm : s.spots.Perm spots
  parted : Parted spots

theorem HoldsLeaves.vacant : HoldsLeaves [] .vacant := ⟨.inl rfl, .refl _, List.Pairwise.nil⟩

theorem HoldsLeaves.apart_iff {spots : List (List Access × Value)} {s : Slot} (h : HoldsLeaves spots s)
    {p : List Access × Value} : (∀ q ∈ s.spots, Apart p.1 q.1) ↔ Parted (spots ++ [p]) := by
  rw [parted_concat]
  simp only [h.perm.mem_iff, h.parted, true_and]

theorem InsertsLeaves.gathers (h : InsertsLeaves read? add root) :
    Gathers read? add Parted fun spots s => HoldsLeaves spots (root s) where
  shorter hp := (parted_concat.1 hp).1
  reads {spots s s' a} hh hs := by
    obtain ⟨spot, hx, hi⟩ := h.inserts hs
    have hadds := Slot.adds_insert (h.isLeaf hx) hh.growing spot.1
    have hparted := hh.apart_iff.1 (hadds.succeeds.1 ⟨_, hi⟩)
    refine ⟨spot, hx, hparted, .inr (hadds.grown hi), ?_, hparted⟩
    exact (hadds.perm hi).trans ((hh.perm.cons spot).trans (List.perm_append_singleton _ _).symm)
  accepts {spots s a spot} hh hx hp := by
    obtain ⟨t, ht⟩ := (Slot.adds_insert (h.isLeaf hx) hh.growing spot.1).succeeds.2 (hh.apart_iff.2 hp)
    exact h.succeeds hx ht

/-- Lines in another order build a tree of the same leaves, or none. -/
theorem InsertsLeaves.agree (h : InsertsLeaves read? add root) (hstart : root start = .vacant)
    (hp : lines.Perm lines') :
    Agree (fun s t => (root s).Growing ∧ (root t).Growing ∧ (root s).spots.Perm (root t).spots)
      (lines.foldlM add start) (lines'.foldlM add start) := by
  have hvacant : HoldsLeaves [] (root start) := by
    rw [hstart]
    exact .vacant
  have hbuilds : ∀ {as bs : List α} {s : σ}, as.Perm bs → as.foldlM add start = .ok s →
      ∃ t, bs.foldlM add start = .ok t ∧ (root s).Growing ∧ (root t).Growing ∧ (root s).spots.Perm (root t).spots := by
    intro as bs s hab hs
    obtain ⟨spots, hr, -, hh⟩ := h.gathers.run hvacant .nil hs
    obtain ⟨spots', hr', hspots⟩ := hr.perm hab
    obtain ⟨t, ht, hh'⟩ := h.gathers.run_of hvacant hr' (hh.parted.perm hspots)
    exact ⟨t, ht, hh.growing, hh'.growing, hh.perm.trans (hspots.trans hh'.perm.symm)⟩
  apply Agree.of_iff
  · constructor
    · rintro ⟨s, hs⟩
      obtain ⟨t, ht, -⟩ := hbuilds hp hs
      exact ⟨t, ht⟩
    · rintro ⟨t, ht⟩
      obtain ⟨s, hs, -⟩ := hbuilds hp.symm ht
      exact ⟨s, hs⟩
  · intro s t hs ht
    obtain ⟨t', ht', hst⟩ := hbuilds hp hs
    rw [ht, Except.ok.injEq] at ht'
    exact ht' ▸ hst

end Inserting

/-! ## Documents -/

theorem insertsLeaves_insertLine : InsertsLeaves lineSpot? (fun root body => Slot.insertLine body root) id where
  isLeaf := isLeaf_of_lineSpot?
  inserts hs := insertLine_eq_ok.1 hs
  succeeds hx hi := ⟨_, insertLine_eq_ok.2 ⟨_, hx, hi⟩⟩

/-- Values that differ in the order of keys alone. -/
def SameValue (v w : Value) : Prop :=
  v.same w = true

/-- A tree without leaves is the empty mapping, and so is every other one. -/
theorem finish_agree {s t : Slot} (hs : s.Growing) (ht : t.Growing) (hp : s.spots.Perm t.spots) :
    Agree SameValue s.finish t.finish := by
  rcases hs with rfl | hs
  · rcases ht with rfl | ht
    · exact .ok rfl
    · exact absurd hp.nil_eq.symm ht.spots_ne_nil
  · rcases ht with rfl | ht
    · exact absurd hp.eq_nil hs.spots_ne_nil
    · have hfinish : ∀ {s : Slot}, s.Grown → s.finish = s.valueAt "" := by
        intro s hs
        cases hs <;> rfl
      rw [hfinish hs, hfinish ht]
      exact hs.alike ht hp "" ""

/-! ## Records -/

theorem Slot.growing_ofItems {items : List (Nat × Slot)} (h : (ofItems items).Growing) :
    Keyed.Ascending items ∧ ∀ e ∈ items, e.2.Grown := by
  cases items with
  | nil => exact ⟨.nil, nofun⟩
  | cons e items =>
    rcases h with h | h
    · cases h
    · cases h with
      | sequence _ ha hg => exact ⟨ha, hg⟩

/-- The lines of records insert their leaves into one sequence of trees. -/
theorem insertsLeaves_recordLine (marker : String) :
    InsertsLeaves (recordSpot? marker) (Trees.insertLine marker) Slot.ofItems where
  isLeaf := isLeaf_of_recordSpot?
  inserts {trees trees' line} hs := by
    simp only [Trees.insertLine, bind_eq_ok, Prod.exists, mapError_eq_ok] at hs
    obtain ⟨record, body, hparts, root, hroot, h⟩ := hs
    cases h
    obtain ⟨spot, hspot, hi⟩ := insertLine_eq_ok.1 hroot
    refine ⟨(.index record :: spot.1, spot.2), by simp [recordSpot?, hparts, hspot], ?_⟩
    rw [Slot.insert_index, hi]
    rfl
  succeeds {trees line spot t} hx hi := by
    unfold recordSpot? at hx
    split at hx
    · cases hx
    · rename_i record body hparts
      obtain ⟨inner, hinner, rfl⟩ := Option.map_eq_some_iff.1 hx
      rw [Slot.insert_index] at hi
      obtain ⟨root, hroot, -⟩ := map_eq_ok.1 hi
      refine ⟨Keyed.putIndex record root trees, ?_⟩
      simp only [Trees.insertLine, bind_eq_ok, Prod.exists, mapError_eq_ok]
      exact ⟨record, body, hparts, root, insertLine_eq_ok.2 ⟨inner, hinner, hroot⟩, rfl⟩

/-- Records under the same indices whose values differ in the order of keys alone. -/
def SameRecords (vs ws : List (Nat × Value)) : Prop :=
  List.Forall₂ (fun r r' => r.1 = r'.1 ∧ SameValue r.2 r'.2) vs ws

theorem Trees.finish_agree {trees trees' : Trees}
    (h : List.Forall₂ (fun e e' => e.1 = e'.1 ∧ Agree SameValue e.2.finish e'.2.finish) trees trees') :
    Agree SameRecords trees.finish trees'.finish := by
  induction h with
  | nil => exact .ok .nil
  | @cons e e' trees trees' he _ ih =>
    obtain ⟨i, s⟩ := e
    obtain ⟨j, t⟩ := e'
    obtain ⟨rfl, hst⟩ := he
    rw [finish, finish]
    exact hst.mapError.bind fun v w hvw => ih.bind fun vs ws hvs => .ok (.cons ⟨rfl, hvw⟩ hvs)

/-- Lines in another order give the same document and the same records, or none. -/
theorem decoded_in_any_order (lines lines' : List SExpr) (hp : lines.Perm lines') :
    Agree SameValue (decodeDocument lines) (decodeDocument lines') ∧
    ∀ marker, Agree SameRecords (decodeRecords marker lines) (decodeRecords marker lines') := by
  constructor
  · have hbuild := insertsLeaves_insertLine.agree rfl hp
    exact (hbuild.bind fun s t h => finish_agree h.1 h.2.1 h.2.2).mapError
  · intro marker
    have hempty : Slot.ofItems [] = .vacant := rfl
    have hbuild := (insertsLeaves_recordLine marker).agree hempty hp
    refine hbuild.bind fun trees trees' h => ?_
    obtain ⟨ha, hg⟩ := Slot.growing_ofItems h.1
    obtain ⟨ha', hg'⟩ := Slot.growing_ofItems h.2.1
    have hspots := h.2.2
    rw [Slot.spots_ofItems, Slot.spots_ofItems] at hspots
    refine Trees.finish_agree (Slot.forall₂_of_spots (R := fun s t => Agree SameValue s.finish t.finish) ha ha' hg hg'
      hspots fun e he t ht hst => ?_)
    exact finish_agree (.inr (hg e he)) (.inr ht) hst

/-- Two entries of one item. -/
def neighbours : List SExpr :=
  [.list [.symbol "a", .number "0", .list [.string "x", .symbol "true"]],
    .list [.symbol "a", .number "0", .list [.string "y", .symbol "[]"]]]

theorem decoded_in_any_order_neighbours :
    decodeDocument neighbours =
      .ok (.mapping [("a", .sequence [.mapping [("x", .scalar (.boolean true)), ("y", .sequence [])]])]) ∧
    ∃ w, decodeDocument neighbours.reverse = .ok w ∧
      SameValue (.mapping [("a", .sequence [.mapping [("x", .scalar (.boolean true)), ("y", .sequence [])]])]) w := by
  have h : decodeDocument neighbours =
      .ok (.mapping [("a", .sequence [.mapping [("x", .scalar (.boolean true)), ("y", .sequence [])]])]) := rfl
  have hagree := (decoded_in_any_order neighbours neighbours.reverse (List.reverse_perm _).symm).1
  obtain ⟨w, hw⟩ := hagree.succeeds_iff.1 ⟨_, h⟩
  exact ⟨h, w, hw, hagree.related h hw⟩

end AtomLines.Json
