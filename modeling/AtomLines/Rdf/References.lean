import AtomLines.Rdf.Document
import AtomLines.Rdf.GraphError
/-!
# References between graphs

A document can be written if every graph that is reached from the asserted one
is defined and none reaches itself. The check walks depth first and remembers
the graphs on its path and those it is done with. Every step inwards puts
another defined graph on the path, so the walk ends.
-/

namespace AtomLines.Rdf

namespace Document

/-- How many graphs are not on a path. -/
def offPath (d : Document) (path : List GraphId) : Nat :=
  (d.graphs.filter (·.id ∉ path)).length

theorem offPath_cons_lt {d : Document} {path : List GraphId} {id : GraphId} {g : Graph}
    (h : d.graph? id = some g) (hp : id ∉ path) : d.offPath (id :: path) < d.offPath path := by
  have hg := mem_of_graph? h
  have hid := id_of_graph? h
  have heq : d.graphs.filter (·.id ∉ id :: path) =
      (d.graphs.filter (·.id ∉ path)).filter (·.id ≠ id) := by
    rw [List.filter_filter]
    apply List.filter_congr
    intro x _
    simp [not_or]
  simp only [offPath, heq]
  apply List.length_filter_lt_length_iff_exists.2
  exact ⟨g, List.mem_filter.2 ⟨hg, by simpa [hid] using hp⟩, by simp [hid]⟩

/-- Follows the references of the graph `current`, the innermost of a path, and
adds the graphs that it leaves behind to those it is done with. -/
def follow (d : Document) (path : List GraphId) (current : GraphId) (references done : List GraphId) :
    Except GraphError (List GraphId) :=
  match references with
  | [] => .ok done
  | next :: rest =>
    if hp : next ∈ path then .error (.cyclic next)
    else if next ∈ done then follow d path current rest done
    else
      match h : d.graph? next with
      | none => .error (.dangling next current)
      | some g =>
        have := offPath_cons_lt h hp
        match follow d (next :: path) next g.references done with
        | .error e => .error e
        | .ok inner => follow d path current rest (next :: inner)
termination_by (d.offPath path, references.length)

/-! ## One step of the walk -/

section
variable {d : Document} {path rest done : List GraphId} {current next : GraphId} {g : Graph}

theorem follow_cyclic (h : next ∈ path) : d.follow path current (next :: rest) done = .error (.cyclic next) := by
  rw [follow, dif_pos h]

theorem follow_skip (hp : next ∉ path) (hd : next ∈ done) :
    d.follow path current (next :: rest) done = d.follow path current rest done := by
  rw [follow, dif_neg hp, if_pos hd]

theorem follow_dangling (hp : next ∉ path) (hd : next ∉ done) (hg : d.graph? next = none) :
    d.follow path current (next :: rest) done = .error (.dangling next current) := by
  rw [follow, dif_neg hp, if_neg hd]
  split
  · rfl
  · rename_i hg'
    rw [hg] at hg'
    cases hg'

theorem follow_enter (hp : next ∉ path) (hd : next ∉ done) (hg : d.graph? next = some g) :
    d.follow path current (next :: rest) done =
      (d.follow (next :: path) next g.references done).bind fun inner =>
        d.follow path current rest (next :: inner) := by
  rw [follow, dif_neg hp, if_neg hd]
  split
  · rename_i hg'
    rw [hg] at hg'
    cases hg'
  · rename_i g' hg'
    rw [hg, Option.some.injEq] at hg'
    subst hg'
    cases d.follow (next :: path) next g.references done <;> rfl

end

/-! ## The check -/

/-- The graphs that are reached from the asserted one, itself included. -/
def checkReferences (d : Document) : Except GraphError (List GraphId) :=
  (d.follow [.top] .top d.asserted.references []).map (.top :: ·)

end Document

end AtomLines.Rdf
