import AtomLines.Proofs.Rdf.Canonical
import Mathlib.Data.Set.Card
/-!
# Canonical documents

The canonical form of a document has the reached graphs under the ids that they are
written with. So it is the document under other ids, without the graphs that are not
reached, and what is known of renamed documents holds of it: the same lines are written
for it, and it is its own canonical form.
-/

namespace AtomLines.Rdf.Document

variable {d c : Document} {ids : Identities}

/-- There are as many numbers as reached graphs. -/
theorem Numbered.length_order (hn : d.Numbered ids) : ids.order.length = Set.ncard {g | d.Reachable g} := by
  have hs : {g | d.Reachable g} = ↑ids.order.toFinset := by
    ext g
    simp [hn.mem_order]
  rw [hs, Set.ncard_coe_finset, List.toFinset_card_of_nodup hn.ordered.nodup]

theorem sound_of_canonicalize (h : d.canonicalize = .ok c) : d.Sound := by
  obtain ⟨r, hf, -⟩ := bind_eq_ok.1 h
  exact (flatten_eq_ok.1 hf).1

/-- The canonical form of a document has its reached graphs under the ids 0, 1, 2 and
so on. It is written as the same lines, and it is its own canonical form. -/
theorem canonicalize_normal (hw : d.WellFormed) (hc : d.canonicalize = .ok c) :
    c.ids.map UInt64.toNat = List.range (Set.ncard {g | d.Reachable g}) ∧
      (∀ namespaceLines, ∃ lines, d.encode ⟨.quoted, namespaceLines⟩ = .ok lines ∧
        c.encode ⟨.quoted, namespaceLines⟩ = .ok lines) ∧
      c.canonicalize = .ok c := by
  have hd := sound_of_canonicalize hc
  obtain ⟨lines, ids, hf, hn, hcan⟩ := canonicalize_eq_picture hw hd
  obtain rfl := Except.ok.inj (hc.symm.trans hcan)
  have hr := renaming_picture hn hd hw hn.injOn_rename hn.ordered.rename_top
  refine ⟨?_, fun namespaceLines => ?_, ?_⟩
  · rw [ids_picture hn hd hw.top_mem, List.map_map, ← hn.length_order]
    exact hn.ordered.map_toNat_rename
  · refine ⟨_, by rw [encode_quoted, hf]; rfl, ?_⟩
    rw [encode_quoted, hr.flatten, hf]
    rfl
  · rw [hr.canonicalize, hc]
    rfl

/-- The quoted graphs 9 and 4 become 1 and 2, and the one that is not reached goes. -/
theorem canonicalize_normal_odd :
    oddDocument.WellFormed ∧ ∃ c, oddDocument.canonicalize = .ok c ∧ c.ids = [0, 1, 2] ∧
      Set.ncard {g | oddDocument.Reachable g} = 3 ∧
      (∃ lines, oddDocument.encode .standard = .ok lines ∧ c.encode .standard = .ok lines) ∧
      c.canonicalize = .ok c := by
  have hi : oddDocument.canonicalize.map Document.ids = .ok [0, 1, 2] := by cbv
  obtain ⟨c, hc, hids⟩ := map_eq_ok.1 hi
  obtain ⟨hnumbers, hlines, hagain⟩ := canonicalize_normal wellFormed_oddDocument hc
  have hl := congrArg List.length hnumbers
  rw [hids, List.length_map, List.length_range] at hl
  exact ⟨wellFormed_oddDocument, c, hc, hids, hl.symm, hlines true, hagain⟩

end AtomLines.Rdf.Document
