import AtomLines.Proofs.Gather
import AtomLines.Table.Decode
/-!
# Runs over numbered lines

The entry of a line does not depend on its number. A run over lines that can be read
but do not go together stops at the first entry that does not go with those before it,
and names the line of this entry.
-/

namespace AtomLines.Table

variable {β σ : Type}

/-- Numbering is not changed by what follows. -/
theorem numbered_append (lines lines' : List SExpr) :
    numbered (lines ++ lines') = numbered lines ++ lines'.zipIdx (1 + lines.length) :=
  List.zipIdx_append

theorem numbered_concat (lines : List SExpr) (e : SExpr) :
    numbered (lines ++ [e]) = numbered lines ++ [(e, lines.length + 1)] := by
  simp [numbered, List.zipIdx_append, Nat.add_comm]

/-- What a line says, whatever its number. -/
def unnumbered (read? : SExpr → Option β) (line : SExpr × Nat) : Option β :=
  read? line.1

theorem reads_numbered {read? : SExpr → Option β} {lines : List SExpr} {xs : List β} :
    Reads (unnumbered read?) (numbered lines) xs ↔ Reads read? lines xs := by
  have hlines : (numbered lines).map (unnumbered read?) = lines.map read? := by
    have hplain : (numbered lines).map Prod.fst = lines := List.zipIdx_map_fst 1 lines
    calc (numbered lines).map (unnumbered read?)
        = ((numbered lines).map Prod.fst).map read? := by rw [List.map_map]; rfl
      _ = lines.map read? := by rw [hplain]
  unfold Reads
  rw [hlines]

/-- A step over numbered lines that gathers their entries. -/
abbrev GathersLines (read? : SExpr → Option β) (add : σ → SExpr × Nat → Except TableError σ)
    (Together : List β → Prop) (Holds : List β → σ → Prop) : Prop :=
  Gathers (unnumbered read?) add Together Holds

namespace GathersLines

variable {read? : SExpr → Option β} {add : σ → SExpr × Nat → Except TableError σ} {Together : List β → Prop}
  {Holds : List β → σ → Prop} {start s : σ} {lines : List SExpr} {xs : List β}

theorem run (h : GathersLines read? add Together Holds) (hstart : Holds [] start) (hnone : Together [])
    (hf : (numbered lines).foldlM add start = .ok s) : ∃ xs, Reads read? lines xs ∧ Together xs ∧ Holds xs s := by
  obtain ⟨xs, hr, hxs⟩ := Gathers.run h hstart hnone hf
  exact ⟨xs, reads_numbered.1 hr, hxs⟩

theorem run_of (h : GathersLines read? add Together Holds) (hstart : Holds [] start) (hr : Reads read? lines xs)
    (hg : Together xs) : ∃ s, (numbered lines).foldlM add start = .ok s ∧ Holds xs s :=
  Gathers.run_of h hstart (reads_numbered.2 hr) hg

/-- A run over lines that can be read stops at the first entry that does not go with
those before it. -/
theorem run_stops (h : GathersLines read? add Together Holds) (hstart : Holds [] start) (hnone : Together [])
    {fault : β → RowFault}
    (hfault : ∀ {xs s e line x}, Holds xs s → read? e = some x → ¬ Together (xs ++ [x]) →
      add s (e, line) = .error (.malformed line (fault x)))
    (hr : Reads read? lines xs) (hg : ¬ Together xs) :
    ∃ before x after, xs = before ++ x :: after ∧ Together before ∧ ¬ Together (before ++ [x]) ∧
      (numbered lines).foldlM add start = .error (.malformed (before.length + 1) (fault x)) := by
  induction lines using List.reverseRecOn generalizing xs with
  | nil =>
    rw [Reads.nil_iff.1 hr] at hg
    exact absurd hnone hg
  | append_singleton lines e ih =>
    obtain ⟨ys, x, hy, hx, rfl⟩ := Reads.concat_iff.1 hr
    rw [numbered_concat]
    by_cases hys : Together ys
    · obtain ⟨t, ht, hh⟩ := run_of h hstart hy hys
      refine ⟨ys, x, [], rfl, hys, hg, ?_⟩
      rw [foldlM_append_ok ht, List.foldlM_cons, hfault hh hx hg, hy.length_eq]
      rfl
    · obtain ⟨before, y, after, rfl, hb, hnot, he⟩ := ih hy hys
      refine ⟨before, y, after ++ [x], ?_, hb, hnot, foldlM_append_error he _⟩
      rw [List.append_assoc, List.cons_append]

end GathersLines

end AtomLines.Table
