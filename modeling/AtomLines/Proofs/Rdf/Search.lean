import AtomLines.Proofs.Rdf.Reachability
/-!
# The check of references as a loop

The same search with a stack in place of the recursion: the top of the stack is the
graph that the search is in, with the references that it has not followed yet. The
loop ends on every document with the answer of `checkReferences`, and that answer is
exact.
-/

namespace AtomLines.Rdf

/-- A search under way. -/
structure Search where
  /-- The graphs entered and not left, the innermost first. -/
  stack : List (GraphId × List GraphId)
  onPath : List GraphId
  done : List GraphId

namespace Search

/-- What one turn of the loop comes to. -/
inductive Turn where
  | resume (s : Search)
  | answer (found : Except GraphError (List GraphId))

def turn (d : Document) (s : Search) : Turn :=
  match s.stack with
  | [] => .answer (.ok s.done)
  | (current, []) :: outer => .resume ⟨outer, s.onPath.erase current, current :: s.done⟩
  | (current, next :: rest) :: outer =>
    if next ∈ s.onPath then .answer (.error (.cyclic next))
    else if next ∈ s.done then .resume { s with stack := (current, rest) :: outer }
    else
      match d.graph? next with
      | none => .answer (.error (.dangling next current))
      | some g => .resume ⟨(next, g.references) :: (current, rest) :: outer, next :: s.onPath, s.done⟩

/-- The search that has entered the asserted graph. -/
def start (d : Document) : Search :=
  ⟨[(.top, d.asserted.references)], [.top], []⟩

/-- The loop ends after finitely many turns with an answer. -/
inductive Ends (d : Document) : Search → Except GraphError (List GraphId) → Prop
  | answer {s : Search} {found : Except GraphError (List GraphId)} : s.turn d = .answer found → Ends d s found
  | resume {s s' : Search} {found : Except GraphError (List GraphId)} :
    s.turn d = .resume s' → Ends d s' found → Ends d s found

section
variable {d : Document} {path references rest done : List GraphId} {current next : GraphId}
  {outer : List (GraphId × List GraphId)}

theorem turn_leave : turn d ⟨(current, []) :: outer, current :: path, done⟩ =
    .resume ⟨outer, path, current :: done⟩ := by
  simp only [turn, List.erase_cons_head]

theorem turn_skip (hp : next ∉ path) (hd : next ∈ done) :
    turn d ⟨(current, next :: rest) :: outer, path, done⟩ = .resume ⟨(current, rest) :: outer, path, done⟩ := by
  simp only [turn, if_neg hp, if_pos hd]

theorem turn_enter (hp : next ∉ path) (hd : next ∉ done) {g : Graph} (hg : d.graph? next = some g) :
    turn d ⟨(current, next :: rest) :: outer, path, done⟩ =
      .resume ⟨(next, g.references) :: (current, rest) :: outer, next :: path, done⟩ := by
  simp only [turn, if_neg hp, if_neg hd, hg]

/-- Where the recursion succeeds, the loop comes to the end of the references with
the same graphs done. -/
theorem ends_of_follow_ok {done' : List GraphId} (h : d.follow path current references done = .ok done')
    {found : Except GraphError (List GraphId)} (he : Ends d ⟨(current, []) :: outer, path, done'⟩ found) :
    Ends d ⟨(current, references) :: outer, path, done⟩ found := by
  fun_induction Document.follow d path current references done generalizing outer done' found with
  | case1 => cases h; exact he
  | case2 => cases h
  | case3 path current done next rest hp hd ih => exact .resume (turn_skip hp hd) (ih h he)
  | case4 => cases h
  | case5 => cases h
  | case6 path current done next rest hp hd g hg _ inner hi ih₁ ih₂ =>
    exact .resume (turn_enter hp hd hg) (ih₁ hi (.resume turn_leave (ih₂ h he)))

/-- Where the recursion fails, the loop ends with the same error. -/
theorem ends_of_follow_error {e : GraphError} (h : d.follow path current references done = .error e) :
    Ends d ⟨(current, references) :: outer, path, done⟩ (.error e) := by
  fun_induction Document.follow d path current references done generalizing outer with
  | case1 => cases h
  | case2 path current done next rest hp =>
    cases h
    exact .answer (by simp only [turn, if_pos hp])
  | case3 path current done next rest hp hd ih => exact .resume (turn_skip hp hd) (ih h)
  | case4 path current done next rest hp hd hg =>
    cases h
    exact .answer (by simp only [turn, if_neg hp, if_neg hd, hg])
  | case5 path current done next rest hp hd g hg _ e' he ih =>
    cases h
    exact .resume (turn_enter hp hd hg) (ih he)
  | case6 path current done next rest hp hd g hg _ inner hi _ ih₂ =>
    exact .resume (turn_enter hp hd hg) (ends_of_follow_ok hi (.resume turn_leave (ih₂ h)))

end

/-- The loop ends on every document, and `checkReferences` is its answer. -/
theorem ends_start (d : Document) : Ends d (start d) d.checkReferences := by
  rw [Document.checkReferences]
  cases h : d.follow [.top] .top d.asserted.references [] with
  | error e => exact ends_of_follow_error h
  | ok done =>
    -- After the last reference the search leaves the asserted graph and has no other.
    exact ends_of_follow_ok h (.resume turn_leave (.answer rfl))

end Search

namespace Document

/-- The check succeeds just on the documents whose reachable graphs are all defined
and on no cycle, and gives the set of reachable graphs; an error names a reachable
graph on a cycle, or one that is missing and a reachable graph that refers to it. The
loop ends on every document. -/
theorem checkReferences_exact (d : Document) :
    ((∃ reached, d.checkReferences = .ok reached) ↔ ∀ g, d.Reachable g → d.Defined g ∧ ¬ d.Cyclic g) ∧
    (∀ reached, d.checkReferences = .ok reached → reached.Nodup ∧ ∀ g, g ∈ reached ↔ d.Reachable g) ∧
    (∀ e, d.checkReferences = .error e →
      (∃ g, e = .cyclic g ∧ d.Reachable g ∧ d.Cyclic g) ∨
      ∃ g referrer, e = .dangling g referrer ∧ d.Reachable referrer ∧ d.Defined referrer ∧
        d.Refers referrer g ∧ ¬ d.Defined g) ∧
    Search.Ends d (.start d) d.checkReferences := by
  refine ⟨checkReferences_succeeds, ?_, ?_, Search.ends_start d⟩
  · intro reached h
    obtain ⟨hs, hm⟩ := checkReferences_ok h
    exact ⟨hs.nodup, hm⟩
  · intro e h
    cases checkReferences_error h with
    | cyclic hr hc => exact .inl ⟨_, rfl, hr, hc⟩
    | dangling hr hg hd => exact .inr ⟨_, _, rfl, hr, hg.defined, hg, hd⟩

end Document

end AtomLines.Rdf
