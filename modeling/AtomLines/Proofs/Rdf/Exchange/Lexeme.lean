import AtomLines.Proofs.Rdf.IriChars
import AtomLines.Proofs.Rdf.LanguageTag
import AtomLines.Proofs.Rdf.Term
import AtomLines.Rdf.Exchange.Export
/-!
# Written terms as lexemes

An IRI, a string and a language tag are read as they were written, whatever follows them.
A blank node label is not, if it has a colon or two adjacent points: these may stand in a
label, but a reader stops in front of them.
-/

namespace AtomLines.Rdf

namespace Exchange

section
variable {cs rest : List Char}

/-! ## IRIs -/

theorem iriBody_cons {c : Char} (hc : c ≠ '\\') :
    iriBody (c :: rest) = if c = '>' then some ([], rest) else (iriBody rest).before [c] := by
  rw [iriBody]
  · rw [if_neg hc]
  · rintro a b d e rest rfl
    exact absurd rfl hc
  · rintro a b d e f g h i rest rfl
    exact absurd rfl hc

theorem iriBody_append (h : IriChars cs) (rest : List Char) : iriBody (cs ++ '>' :: rest) = some (cs, rest) := by
  induction cs with
  | nil => rfl
  | cons c cs ih =>
    obtain ⟨hc, hcs⟩ := iriChars_cons.1 h
    have hslash : c ≠ '\\' := by
      rintro rfl
      cases hc
    have hclose : c ≠ '>' := by
      rintro rfl
      cases hc
    rw [List.cons_append, iriBody_cons hslash, if_neg hclose, ih hcs]
    rfl

/-! ## Strings -/

theorem stringBody_escape {e x : Char} (he : stringEscape? e = some x) (rest : List Char) :
    stringBody '"' false ('\\' :: e :: rest) = (stringBody '"' false rest).before [x] := by
  rw [stringBody]
  · rw [he, Option.bind_some]
  · rintro a b c d rest' rfl -
    cases he
  · rintro a b c d e f g h rest' rfl -
    cases he

theorem stringBody_cons {c : Char} (h₁ : c ≠ '\\') (h₂ : c ≠ '"') (h₃ : c ≠ '\n') (h₄ : c ≠ '\r') (rest : List Char) :
    stringBody '"' false (c :: rest) = (stringBody '"' false rest).before [c] := by
  rw [stringBody]
  · simp [h₁, h₂, h₃, h₄]
  · rintro a b d e rest' rfl
    exact absurd rfl h₁
  · rintro a b d e f g h i rest' rfl
    exact absurd rfl h₁
  · rintro e rest' rfl
    exact absurd rfl h₁

/-- A character of a string is written as an escape or as it is. -/
theorem stringChar_cases (c : Char) :
    (∃ e, stringChar c = ['\\', e] ∧ stringEscape? e = some c) ∨
      stringChar c = [c] ∧ c ≠ '\\' ∧ c ≠ '"' ∧ c ≠ '\n' ∧ c ≠ '\r' := by
  by_cases h₁ : c = '\n'
  · exact .inl ⟨'n', by rw [stringChar, if_pos h₁], by rw [h₁]; rfl⟩
  by_cases h₂ : c = '\r'
  · exact .inl ⟨'r', by rw [stringChar, if_neg h₁, if_pos h₂], by rw [h₂]; rfl⟩
  by_cases h₃ : c = '"'
  · exact .inl ⟨'"', by rw [stringChar, if_neg h₁, if_neg h₂, if_pos h₃], by rw [h₃]; rfl⟩
  by_cases h₄ : c = '\\'
  · exact .inl ⟨'\\', by rw [stringChar, if_neg h₁, if_neg h₂, if_neg h₃, if_pos h₄], by rw [h₄]; rfl⟩
  · exact .inr ⟨by rw [stringChar, if_neg h₁, if_neg h₂, if_neg h₃, if_neg h₄], h₄, h₃, h₁, h₂⟩

theorem stringBody_stringChar (c : Char) (rest : List Char) :
    stringBody '"' false (stringChar c ++ rest) = (stringBody '"' false rest).before [c] := by
  obtain ⟨e, hs, he⟩ | ⟨hs, h₁, h₂, h₃, h₄⟩ := stringChar_cases c
  · rw [hs]
    exact stringBody_escape he rest
  · rw [hs]
    exact stringBody_cons h₁ h₂ h₃ h₄ rest

theorem stringBody_flatMap (cs rest : List Char) :
    stringBody '"' false (cs.flatMap stringChar ++ '"' :: rest) = some (cs, rest) := by
  induction cs with
  | nil => rfl
  | cons c cs ih =>
    rw [List.flatMap_cons, List.append_assoc, stringBody_stringChar, ih]
    rfl

/-- What a character is written as never starts like the closing mark. -/
theorem exists_stringChar (c : Char) : ∃ d ds, stringChar c = d :: ds ∧ d ≠ '"' := by
  obtain ⟨e, hs, -⟩ | ⟨hs, -, h, -⟩ := stringChar_cases c
  · exact ⟨_, _, hs, by decide⟩
  · exact ⟨_, _, hs, h⟩

/-- A string that no mark follows is not taken for a long one. -/
theorem anyString_flatMap (cs : List Char) {d : Char} (hd : d ≠ '"') (rest : List Char) :
    anyString '"' (cs.flatMap stringChar ++ '"' :: d :: rest) = some (cs, d :: rest) := by
  rw [anyString, if_neg, stringBody_flatMap]
  rw [List.isPrefixOf_iff_prefix]
  cases cs with
  | nil =>
    rw [List.flatMap_nil, List.nil_append, List.cons_prefix_cons, List.cons_prefix_cons]
    exact fun h => hd h.2.1.symm
  | cons c cs =>
    obtain ⟨e, es, he, hmark⟩ := exists_stringChar c
    rw [List.flatMap_cons, he, List.cons_append, List.cons_append, List.cons_prefix_cons]
    exact fun h => hmark h.1.symm

/-! ## Language tags -/

theorem languageTag_append (t : LanguageTag) {c : Char} (h : LanguageTag.isTagChar c = false) (rest : List Char) :
    languageTag (t.text.toList ++ c :: rest) = some (t, c :: rest) := by
  have hc : ¬ LanguageTag.isTagChar c = true := by simp [h]
  have ht : (t.text.toList ++ c :: rest).takeWhile LanguageTag.isTagChar = t.text.toList := by
    rw [List.takeWhile_append_of_pos t.chars, List.takeWhile_cons_of_neg hc, List.append_nil]
  have hr : (t.text.toList ++ c :: rest).dropWhile LanguageTag.isTagChar = c :: rest := by
    rw [List.dropWhile_append_of_pos t.chars, List.dropWhile_cons_of_neg hc]
  have hp : (fun d : Char => d.isAlphanum || d = '-') = LanguageTag.isTagChar := rfl
  simp only [languageTag, hp, ht, hr, String.ofList_toList, LanguageTag.ofString_text]

end

/-! ## Blank node labels -/

/-- The characters have no colon and no two adjacent points. -/
def PortableChars (cs : List Char) : Prop :=
  ':' ∉ cs ∧ ¬ ['.', '.'] <:+: cs

instance (cs : List Char) : Decidable (PortableChars cs) := inferInstanceAs (Decidable (_ ∧ _))

end Exchange

theorem BlankLabel.chars (l : BlankLabel) : ∀ c ∈ l.text.toList, isLabelChar c = true := by
  have hv := l.valid
  generalize l.text.toList = cs at hv
  cases cs with
  | nil => exact nofun
  | cons c cs =>
    simp only [isLabel, Bool.and_eq_true, List.all_eq_true] at hv
    exact List.forall_mem_cons.2 ⟨by simp [isLabelChar, hv.1.1], hv.1.2⟩

/-- A label that texts can have. -/
def BlankLabel.Portable (l : BlankLabel) : Prop := Exchange.PortableChars l.text.toList

namespace Exchange

/-- A reader of names stops in front of these, which can stand in a label. -/
def Stuck : List Char → Prop
  | ':' :: _ => True
  | '.' :: c :: _ => c = '.' ∨ c = ':'
  | _ => False

theorem stuck_cases {cs : List Char} (h : Stuck cs) :
    (∃ rest, cs = ':' :: rest) ∨ ∃ c rest, cs = '.' :: c :: rest ∧ (c = '.' ∨ c = ':') := by
  unfold Stuck at h
  split at h
  · exact .inl ⟨_, rfl⟩
  · exact .inr ⟨_, _, rfl, h⟩
  · exact h.elim

/-- What is read where something is written: the same, if that is portable; else nothing,
or less than that, and the reader is stuck. -/
def Finds {α : Type} (portable : Prop) (found : Lexed α) (a : α) (rest : List Char) : Prop :=
  portable ∧ found = some (a, rest) ∨ ¬ portable ∧ ∀ b after, found = some (b, after) → Stuck after

theorem Finds.map {α β : Type} {portable : Prop} {found : Lexed α} {a : α} {rest : List Char}
    (h : Finds portable found a rest) (f : α → β) :
    Finds portable (found.map fun (b, after) => (f b, after)) (f a) rest := by
  refine h.imp (fun ⟨hp, he⟩ => ⟨hp, by rw [he]; rfl⟩) fun ⟨hp, hs⟩ => ⟨hp, ?_⟩
  intro b after h
  obtain ⟨⟨b, after⟩, he, h⟩ := Option.map_eq_some_iff.1 h
  cases h
  exact hs b after he

theorem Finds.of_eq {α : Type} {found : Lexed α} {a : α} {rest : List Char} (h : found = some (a, rest)) :
    Finds True found a rest :=
  .inl ⟨trivial, h⟩

section
variable {c : Char} {cs rest : List Char}

theorem portableChars_nil : PortableChars [] := by
  simp [PortableChars]

theorem portableChars_cons_of_ne (h₁ : c ≠ ':') (h₂ : c ≠ '.') : PortableChars (c :: cs) ↔ PortableChars cs := by
  simp [PortableChars, List.infix_cons_iff, Ne.symm h₁, Ne.symm h₂]

theorem portableChars_colon_cons : ¬ PortableChars (':' :: cs) := by
  simp [PortableChars]

theorem portableChars_point_cons {d : Char} :
    PortableChars ('.' :: d :: cs) ↔ d ≠ '.' ∧ PortableChars (d :: cs) := by
  have hfirst : ['.', '.'] <:+: '.' :: d :: cs ↔ ['.', '.'] <+: '.' :: d :: cs ∨ ['.', '.'] <:+: d :: cs :=
    List.infix_cons_iff
  rw [PortableChars, PortableChars, hfirst, List.cons_prefix_cons, List.cons_prefix_cons]
  simp [eq_comm (a := d), and_left_comm]

/-- The characters of labels are those inside names, the colon and the point. -/
theorem isLabelChar_cases (h : isLabelChar c = true) : isNameChar c = true ∨ c = ':' ∨ c = '.' := by
  simp only [isLabelChar, isLabelStart, isNameChar, Bool.or_eq_true, decide_eq_true_eq] at h ⊢
  rcases h with (((((h | h) | h) | h) | h) | h) | h <;> simp [h]

theorem nameRest_cons_of_isNameChar (hc : isNameChar c = true) (cs : List Char) :
    nameRest (c :: cs) = (c :: (nameRest cs).1, (nameRest cs).2) := by
  rw [nameRest, if_pos (by simp [hc])]

theorem nameRest_point_cons {d : Char} (hd : isNameChar d = true) (cs : List Char) :
    nameRest ('.' :: d :: cs) = ('.' :: (nameRest (d :: cs)).1, (nameRest (d :: cs)).2) := by
  rw [nameRest, if_pos (by simp [continuesName, hd])]

/-- The end of a label is the end of a name, unless a reader is stuck before. -/
theorem nameRest_label (h : ∀ c ∈ cs, isLabelChar c = true) (hl : cs.getLast? ≠ some '.') (rest : List Char) :
    PortableChars cs ∧ nameRest (cs ++ ' ' :: rest) = (cs, ' ' :: rest) ∨
      ¬ PortableChars cs ∧ Stuck (nameRest (cs ++ ' ' :: rest)).2 := by
  induction cs with
  | nil => exact .inl ⟨portableChars_nil, rfl⟩
  | cons c cs ih =>
    obtain ⟨hc, hcs⟩ := List.forall_mem_cons.1 h
    have hlast : cs.getLast? ≠ some '.' := by
      cases cs with
      | nil => nofun
      | cons d cs => rwa [List.getLast?_cons_cons] at hl
    rcases isLabelChar_cases hc with hname | rfl | rfl
    · have h₁ : c ≠ ':' := by
        rintro rfl
        cases hname
      have h₂ : c ≠ '.' := by
        rintro rfl
        cases hname
      rw [portableChars_cons_of_ne h₁ h₂, List.cons_append, nameRest_cons_of_isNameChar hname]
      exact (ih hcs hlast).imp_left fun ⟨hp, hr⟩ => ⟨hp, by rw [hr]⟩
    · exact .inr ⟨portableChars_colon_cons, trivial⟩
    · cases cs with
      | nil => exact absurd rfl hl
      | cons d cs =>
        rw [portableChars_point_cons]
        rcases isLabelChar_cases (hcs d List.mem_cons_self) with hname | rfl | rfl
        · have hd : d ≠ '.' := by
            rintro rfl
            cases hname
          rw [List.cons_append, List.cons_append, nameRest_point_cons hname, ← List.cons_append]
          exact (ih hcs hlast).imp (fun ⟨hp, hr⟩ => ⟨⟨hd, hp⟩, by rw [hr]⟩)
            fun ⟨hp, hr⟩ => ⟨fun hp' => hp hp'.2, hr⟩
        · exact .inr ⟨fun hp => portableChars_colon_cons hp.2, .inr rfl⟩
        · exact .inr ⟨fun hp => hp.1 rfl, .inl rfl⟩

end

theorem finds_blankLabel (l : BlankLabel) (rest : List Char) :
    Finds l.Portable (blankLabel (l.text.toList ++ ' ' :: rest)) l.text.toList (' ' :: rest) := by
  have hv := l.valid
  unfold Finds BlankLabel.Portable
  generalize l.text.toList = cs at hv
  cases cs with
  | nil => cases hv
  | cons c cs =>
    simp only [isLabel, Bool.and_eq_true, List.all_eq_true, decide_eq_true_eq] at hv
    obtain ⟨⟨hstart, hcs⟩, hlast⟩ := hv
    rw [List.cons_append, blankLabel]
    by_cases hc : (c.isDigit || c = '_' || isNameBase c) = true
    · have h₁ : c ≠ ':' := by
        rintro rfl
        cases hc
      have h₂ : c ≠ '.' := by
        rintro rfl
        cases hc
      rw [if_pos hc, portableChars_cons_of_ne h₁ h₂]
      obtain ⟨hp, hr⟩ | ⟨hp, hr⟩ := nameRest_label hcs hlast rest
      · exact .inl ⟨hp, by rw [hr]⟩
      · refine .inr ⟨hp, ?_⟩
        rintro label after h
        cases h
        exact hr
    · have hcolon : c = ':' := by
        simp only [isLabelStart, Bool.or_eq_true, decide_eq_true_eq] at hstart hc
        rcases hstart with ((h | h) | h) | h
        · exact absurd (.inl (.inl h)) hc
        · exact absurd (.inl (.inr h)) hc
        · exact h
        · exact absurd (.inr h) hc
      rw [if_neg hc, hcolon]
      refine .inr ⟨portableChars_colon_cons, ?_⟩
      rintro label after h
      cases h

end Exchange

end AtomLines.Rdf
