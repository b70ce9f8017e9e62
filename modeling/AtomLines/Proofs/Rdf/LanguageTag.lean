import AtomLines.Proofs.Outcome
import AtomLines.Rdf.LanguageTag
/-!
# The characters of language tags

Every stage of a tag takes letters and digits only, so a tag is made of these and of the
hyphens between its subtags. A reader that takes all such characters takes a whole tag.
-/

namespace AtomLines.Rdf.LanguageTag

def isTagChar (c : Char) : Bool := c.isAlphanum || c = '-'

section
variable {s cs : List Char}

/-- A text with plain subtags has no other characters than theirs and hyphens. -/
theorem tagChars_of_subtags (h : ∀ s ∈ subtags cs, isPlain s = true) : ∀ c ∈ cs, isTagChar c = true := by
  induction cs with
  | nil => exact nofun
  | cons c cs ih =>
    rw [subtags] at h
    cases hs : subtags cs with
    | nil =>
      rw [hs, List.forall_mem_singleton] at h
      have hc : c.isAlphanum = true := by simpa [isPlain] using h
      exact List.forall_mem_cons.2 ⟨by simp [isTagChar, hc], ih (hs ▸ nofun)⟩
    | cons first more =>
      simp only [hs] at h ih
      split at h
      · rename_i hc
        exact List.forall_mem_cons.2 ⟨by simp [isTagChar, hc], ih (List.forall_mem_cons.1 h).2⟩
      · obtain ⟨hf, hm⟩ := List.forall_mem_cons.1 h
        obtain ⟨hc, hf⟩ : c.isAlphanum = true ∧ isPlain first = true := by simpa [isPlain] using hf
        exact List.forall_mem_cons.2 ⟨by simp [isTagChar, hc], ih (List.forall_mem_cons.2 ⟨hf, hm⟩)⟩

theorem isPlain_of_isWord (h : isWord s = true) : isPlain s = true := by
  rw [isPlain, List.all_eq_true]
  intro c hc
  simp [Char.isAlphanum, List.all_eq_true.1 h c hc]

theorem isPlain_of_isRegion (h : isRegion s = true) : isPlain s = true := by
  simp only [isRegion, Bool.or_eq_true, Bool.and_eq_true] at h
  rcases h with ⟨-, h⟩ | ⟨-, h⟩
  · exact isPlain_of_isWord h
  · rw [isPlain, List.all_eq_true]
    intro c hc
    simp [Char.isAlphanum, List.all_eq_true.1 h c hc]

theorem isPlain_of_placed {scriptAllowed regionAllowed : Bool} {stage : Stage}
    (h : placed scriptAllowed regionAllowed s = .ok stage) : isPlain s = true := by
  unfold placed at h
  split at h
  · rename_i hs
    simp only [isScript, Bool.and_eq_true] at hs
    exact isPlain_of_isWord hs.2.2
  · split at h
    · rename_i hr
      exact isPlain_of_isRegion (Bool.and_eq_true_iff.1 hr).2
    · split at h
      · rename_i hv
        exact (Bool.and_eq_true_iff.1 hv).1
      · cases h

/-- Whatever a stage takes is plain. -/
theorem isPlain_of_step {stage next : Stage} (h : stage.step s = .ok next) : isPlain s = true := by
  unfold Stage.step at h
  split at h
  · split at h
    · assumption
    · cases h
  · split at h
    · rename_i hs
      exact (Bool.and_eq_true_iff.1 hs).2
    · split at h
      · split at h
        · assumption
        · cases h
      · split at h
        · rename_i hs
          exact isPlain_of_isWord (Bool.and_eq_true_iff.1 hs).2
        · exact isPlain_of_placed h
      all_goals exact isPlain_of_placed h

theorem isPlain_of_run {stage last : Stage} {ss : List (List Char)} (h : run stage ss = .ok last) :
    ∀ s ∈ ss, isPlain s = true := by
  induction ss generalizing stage with
  | nil => exact nofun
  | cons s ss ih =>
    obtain ⟨-, -, h⟩ := bind_eq_ok.1 h
    obtain ⟨next, hs, h⟩ := bind_eq_ok.1 h
    exact List.forall_mem_cons.2 ⟨isPlain_of_step hs, ih h⟩

theorem tagChars_of_registered {t : String} (h : t ∈ registered) : ∀ c ∈ t.toList, isTagChar c = true := by
  have hall : registered.all (fun t => t.toList.all isTagChar) = true := by decide +kernel
  exact List.all_eq_true.1 (List.all_eq_true.1 hall t h)

theorem tagChars_of_check (h : check cs = .ok ()) : ∀ c ∈ cs, isTagChar c = true := by
  unfold check at h
  split at h
  · rename_i hr
    obtain ⟨t, ht, rfl⟩ := List.mem_map.1 (List.contains_iff_mem.1 hr)
    exact tagChars_of_registered ht
  · split at h
    · cases h
    · rename_i rest _
      obtain ⟨last, hrun, -⟩ := bind_eq_ok.1 h
      have hrest := tagChars_of_subtags (isPlain_of_run hrun)
      exact List.forall_mem_cons.2 ⟨rfl, List.forall_mem_cons.2 ⟨rfl, hrest⟩⟩
    · split at h
      · cases h
      · rename_i first more hs
        obtain ⟨-, -, h⟩ := bind_eq_ok.1 h
        split at h
        · cases h
        · rename_i hf
          obtain ⟨last, hrun, -⟩ := bind_eq_ok.1 h
          simp only [Bool.or_eq_true, Bool.not_eq_true', not_or, Bool.not_eq_false] at hf
          refine tagChars_of_subtags ?_
          rw [hs]
          exact List.forall_mem_cons.2 ⟨isPlain_of_isWord hf.2, isPlain_of_run hrun⟩

end

theorem chars (t : LanguageTag) : ∀ c ∈ t.text.toList, isTagChar c = true := by
  refine tagChars_of_check ?_
  have hv := t.valid
  unfold problem? at hv
  split at hv
  · assumption
  · cases hv

end AtomLines.Rdf.LanguageTag
