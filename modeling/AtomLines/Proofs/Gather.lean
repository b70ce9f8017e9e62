import AtomLines.Proofs.Outcome
import AtomLines.Proofs.Readings
import Mathlib.Data.List.Induction
/-!
# Runs that gather entries

A run over lines gathers what each line says, as long as the entries go together. What
one step has to do is said once; a run then succeeds exactly if every line can be read
and the entries go together, and it holds them all in their order.
-/

namespace AtomLines

variable {ε α β σ : Type}

/-- A step adds the entry of its line to those that the state holds, if they go
together. -/
structure Gathers (read? : α → Option β) (add : σ → α → Except ε σ) (Together : List β → Prop)
    (Holds : List β → σ → Prop) : Prop where
  shorter : ∀ {xs x}, Together (xs ++ [x]) → Together xs
  reads : ∀ {xs s s' a}, Holds xs s → add s a = .ok s' →
    ∃ x, read? a = some x ∧ Together (xs ++ [x]) ∧ Holds (xs ++ [x]) s'
  accepts : ∀ {xs s a x}, Holds xs s → read? a = some x → Together (xs ++ [x]) → ∃ s', add s a = .ok s'

namespace Gathers

variable {read? : α → Option β} {add : σ → α → Except ε σ} {Together : List β → Prop} {Holds : List β → σ → Prop}
  {start s : σ} {lines : List α} {xs : List β}

theorem run (h : Gathers read? add Together Holds) (hstart : Holds [] start) (hnone : Together [])
    (hf : lines.foldlM add start = .ok s) : ∃ xs, Reads read? lines xs ∧ Together xs ∧ Holds xs s := by
  induction lines using List.reverseRecOn generalizing s with
  | nil =>
    cases hf
    exact ⟨[], .nil, hnone, hstart⟩
  | append_singleton lines a ih =>
    obtain ⟨t, ht, hs⟩ := foldlM_concat_eq_ok.1 hf
    obtain ⟨xs, hr, -, hxs⟩ := ih ht
    obtain ⟨x, hx, hg, hh⟩ := h.reads hxs hs
    exact ⟨xs ++ [x], Reads.concat_iff.2 ⟨xs, x, hr, hx, rfl⟩, hg, hh⟩

theorem run_of (h : Gathers read? add Together Holds) (hstart : Holds [] start) (hr : Reads read? lines xs)
    (hg : Together xs) : ∃ s, lines.foldlM add start = .ok s ∧ Holds xs s := by
  induction lines using List.reverseRecOn generalizing xs with
  | nil =>
    rw [Reads.nil_iff.1 hr]
    exact ⟨start, rfl, hstart⟩
  | append_singleton lines a ih =>
    obtain ⟨ys, x, hy, hx, rfl⟩ := Reads.concat_iff.1 hr
    obtain ⟨t, ht, hh⟩ := ih hy (h.shorter hg)
    obtain ⟨s, hs⟩ := h.accepts hh hx hg
    obtain ⟨x', hx', -, hh'⟩ := h.reads hh hs
    rw [hx, Option.some.injEq] at hx'
    subst hx'
    exact ⟨s, foldlM_concat_eq_ok.2 ⟨t, ht, hs⟩, hh'⟩

end Gathers

end AtomLines
