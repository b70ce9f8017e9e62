import AtomLines.Proofs.Outcome
import AtomLines.Rdf.Iri.Basic
/-!
# The characters of IRIs

Each part of the check lets a text pass only if it is made of the characters of an IRI.
None of them ends an IRI in a text, starts an escape or ends a line.
-/

namespace AtomLines.Rdf

/-- Characters of queries, which are the most there are, and the signs that stand between
the parts of an IRI. -/
def isIriChar (c : Char) : Bool :=
  isQueryChar c || c = '#' || c = '[' || c = ']' || c = '%'

/-- The text is made of the characters of an IRI. -/
def IriChars (cs : List Char) : Prop :=
  ∀ c ∈ cs, isIriChar c = true

section
variable {c : Char} {cs ds rest : List Char}

theorem iriChars_cons : IriChars (c :: cs) ↔ isIriChar c = true ∧ IriChars cs := List.forall_mem_cons

theorem iriChars_append : IriChars (cs ++ ds) ↔ IriChars cs ∧ IriChars ds := List.forall_mem_append

theorem iriChars_nil : IriChars [] := nofun

theorem isIriChar_of_isQueryChar (h : isQueryChar c = true) : isIriChar c = true := by
  simp [isIriChar, h]

theorem isIriChar_of_isFragmentChar (h : isFragmentChar c = true) : isIriChar c = true :=
  isIriChar_of_isQueryChar (by simp [isQueryChar, h])

theorem isIriChar_of_isSegmentChar (h : isSegmentChar c = true) : isIriChar c = true :=
  isIriChar_of_isFragmentChar (by simp [isFragmentChar, isPathChar, h])

theorem isIriChar_of_isHostChar (h : isHostChar c = true) : isIriChar c = true :=
  isIriChar_of_isSegmentChar (by simp [isSegmentChar, h])

theorem isIriChar_of_isUnreserved (h : isUnreserved c = true) : isIriChar c = true :=
  isIriChar_of_isHostChar (by simp [isHostChar, isIUnreserved, h])

theorem isIriChar_of_isAlphanum (h : c.isAlphanum = true) : isIriChar c = true :=
  isIriChar_of_isUnreserved (by simp [isUnreserved, h])

theorem isIriChar_of_isDigit (h : c.isDigit = true) : isIriChar c = true :=
  isIriChar_of_isAlphanum (by simp [Char.isAlphanum, h])

theorem isIriChar_of_isHex (h : Text.isHex c = true) : isIriChar c = true := by
  have hf : 'f' ≤ 'z' := by decide
  have hF : 'F' ≤ 'Z' := by decide
  simp only [Text.isHex, Bool.or_eq_true, Bool.and_eq_true, decide_eq_true_eq] at h
  refine isIriChar_of_isAlphanum (Bool.or_eq_true_iff.2 ?_)
  obtain (h | ⟨ha, hc⟩) | ⟨ha, hc⟩ := h
  · exact .inr h
  · have hl : c.isLower = true := Bool.and_eq_true_iff.2 ⟨decide_eq_true ha, decide_eq_true (Char.le_trans hc hf)⟩
    exact .inl (Bool.or_eq_true_iff.2 (.inr hl))
  · have hu : c.isUpper = true := decide_eq_true ⟨ha, Char.le_trans hc hF⟩
    exact .inl (Bool.or_eq_true_iff.2 (.inl hu))

theorem iriChars_takeWhile {p : Char → Bool} (hp : ∀ c, p c = true → isIriChar c = true) (cs : List Char) :
    IriChars (cs.takeWhile p) :=
  fun c hc => hp c (List.all_eq_true.1 List.all_takeWhile c hc)

/-- A text is made of the characters if its first run is, and what comes after. -/
theorem iriChars_of_dropWhile {p : Char → Bool} (hp : ∀ c, p c = true → isIriChar c = true)
    (h : IriChars (cs.dropWhile p)) : IriChars cs := by
  rw [← List.takeWhile_append_dropWhile (p := p) (l := cs)]
  exact iriChars_append.2 ⟨iriChars_takeWhile hp cs, h⟩

/-! ## Scanning -/

/-- What a scan passes over is made of allowed characters and of percent encodings. -/
theorem iriChars_of_scan {allowed stops : Char → Bool} (ha : ∀ c, allowed c = true → isIriChar c = true)
    (h : scan allowed stops cs = .ok rest) (hr : IriChars rest) : IriChars cs := by
  fun_induction scan allowed stops cs with
  | case1 => exact iriChars_nil
  | case2 a b cs hhex ih =>
    rw [Bool.and_eq_true] at hhex
    exact iriChars_cons.2 ⟨rfl, iriChars_cons.2 ⟨isIriChar_of_isHex hhex.1,
      iriChars_cons.2 ⟨isIriChar_of_isHex hhex.2, ih h⟩⟩⟩
  | case4 =>
    cases h
    exact hr
  | case6 c cs _ _ _ hc ih => exact iriChars_cons.2 ⟨ha c hc, ih h⟩
  | _ => cases h

theorem head_of_scan {allowed stops : Char → Bool} (h : scan allowed stops cs = .ok rest) :
    ∀ c ∈ rest.head?, stops c = true := by
  fun_induction scan allowed stops cs with
  | case1 =>
    cases h
    exact nofun
  | case2 a b cs hhex ih => exact ih h
  | case4 c cs _ hc =>
    cases h
    rintro d ⟨⟩
    exact hc
  | case6 c cs _ _ _ hc ih => exact ih h
  | _ => cases h

/-! ## Paths and what follows them -/

theorem iriChars_of_checkFragment (h : checkFragment cs = .ok ()) : IriChars cs := by
  obtain ⟨rest, hs, -⟩ := map_eq_ok.1 h
  refine iriChars_of_scan (fun c => isIriChar_of_isFragmentChar) hs ?_
  cases rest with
  | nil => exact iriChars_nil
  | cons c rest => cases head_of_scan hs c rfl

/-- What follows a path starts with a mark that ends paths. -/
theorem iriChars_of_checkTail (h : checkTail cs = .ok ()) (hc : ∀ c ∈ cs.head?, endsPath c = true) : IriChars cs := by
  unfold checkTail at h
  split at h
  · rename_i cs
    obtain ⟨rest, hs, h⟩ := bind_eq_ok.1 h
    refine iriChars_cons.2 ⟨rfl, iriChars_of_scan (fun c => isIriChar_of_isQueryChar) hs ?_⟩
    cases rest with
    | nil => exact iriChars_nil
    | cons c rest =>
      have hmark : c = '#' := by simpa using head_of_scan hs c rfl
      exact iriChars_cons.2 ⟨by rw [hmark]; rfl, iriChars_of_checkFragment h⟩
  · exact iriChars_cons.2 ⟨rfl, iriChars_of_checkFragment h⟩
  · rename_i h₁ h₂
    cases cs with
    | nil => exact iriChars_nil
    | cons c cs =>
      have hends : c = '?' ∨ c = '#' := by simpa [endsPath] using hc c rfl
      rcases hends with rfl | rfl
      · exact absurd rfl (h₁ cs)
      · exact absurd rfl (h₂ cs)

theorem iriChars_of_checkPath (h : checkPath cs = .ok ()) : IriChars cs := by
  obtain ⟨rest, hs, h⟩ := bind_eq_ok.1 h
  exact iriChars_of_scan (fun c hc => isIriChar_of_isFragmentChar (by simp [isFragmentChar, hc])) hs
    (iriChars_of_checkTail h (head_of_scan hs))

/-! ## Authorities -/

theorem iriChars_of_checkPort (h : checkPort cs = .ok ()) : IriChars cs := by
  refine iriChars_of_dropWhile (fun c => isIriChar_of_isDigit) ?_
  unfold checkPort at h
  split at h
  · rename_i hd
    rw [hd]
    exact iriChars_nil
  · rename_i c rest hd
    split at h
    · rw [hd]
      exact iriChars_of_checkPath h
    · cases h

/-! A part of an address passes over characters of an IRI; then the whole consists of them
if the rest does. -/

theorem iriChars_of_byte? (h : Address.byte? cs = some rest) (hr : IriChars rest) : IriChars cs := by
  simp only [Address.byte?, Option.ite_none_left_eq_some, Option.some.injEq] at h
  obtain ⟨-, rfl⟩ := h
  exact iriChars_of_dropWhile (fun c => isIriChar_of_isDigit) hr

theorem iriChars_of_group? (h : Address.group? cs = some rest) (hr : IriChars rest) : IriChars cs := by
  simp only [Address.group?, Option.ite_none_left_eq_some, Option.some.injEq] at h
  obtain ⟨-, rfl⟩ := h
  exact iriChars_of_dropWhile (fun c => isIriChar_of_isHex) hr

theorem iriChars_of_after? (hc : isIriChar c = true) (h : Address.after? c cs = some rest) (hr : IriChars rest) :
    IriChars cs := by
  cases cs with
  | nil => cases h
  | cons d cs =>
    simp only [Address.after?, Option.ite_none_right_eq_some, Option.some.injEq] at h
    obtain ⟨rfl, rfl⟩ := h
    exact iriChars_cons.2 ⟨hc, hr⟩

theorem iriChars_of_version4? (h : Address.version4? cs = some rest) (hr : IriChars rest) : IriChars cs := by
  simp only [Address.version4?, Option.bind_eq_bind, Option.bind_eq_some_iff] at h
  obtain ⟨b₁, h₁, p₁, hp₁, b₂, h₂, p₂, hp₂, b₃, h₃, p₃, hp₃, h₄⟩ := h
  have h₃ := iriChars_of_byte? h₃ (iriChars_of_after? rfl hp₃ (iriChars_of_byte? h₄ hr))
  have h₂ := iriChars_of_byte? h₂ (iriChars_of_after? rfl hp₂ h₃)
  exact iriChars_of_byte? h₁ (iriChars_of_after? rfl hp₁ h₂)

theorem iriChars_of_groups (first : Bool) (room : Nat) (hr : IriChars (Address.groups first room cs).2.2) : IriChars cs := by
  induction room generalizing first cs with
  | zero => exact hr
  | succ room ih =>
    -- Where a group starts, after its colon unless it is the first.
    have hstart : ∀ {ds}, (if first then some cs else Address.after? ':' cs) = some ds → IriChars ds → IriChars cs := by
      intro ds hs hd
      split at hs
      · cases hs
        exact hd
      · exact iriChars_of_after? rfl hs hd
    rw [Address.groups] at hr
    split at hr
    · rename_i rest hv
      split at hv
      · cases hv
      · obtain ⟨ds, hs, hv⟩ := Option.bind_eq_some_iff.1 hv
        exact hstart hs (iriChars_of_version4? hv hr)
    · split at hr
      · rename_i rest hg
        obtain ⟨ds, hs, hg⟩ := Option.bind_eq_some_iff.1 hg
        exact hstart hs (iriChars_of_group? hg (ih false hr))
      · exact hr

theorem iriChars_of_isVersion6 (h : Address.isVersion6 cs = true) : IriChars cs := by
  refine iriChars_of_groups true 8 ?_
  unfold Address.isVersion6 at h
  dsimp only at h
  split at h
  · rw [of_decide_eq_true h]
    exact iriChars_nil
  · split at h
    · cases h
    · split at h
      · rename_i rest hg
        rw [hg]
        have hrest := of_decide_eq_true h ▸ iriChars_nil
        exact iriChars_cons.2 ⟨rfl, iriChars_cons.2 ⟨rfl, iriChars_of_groups _ _ hrest⟩⟩
      · cases h

theorem eq_of_dropWhile_ne {d : Char} (h : cs.dropWhile (· ≠ d) = c :: rest) : c = d := by
  have hc := List.head?_dropWhile_not (· ≠ d) cs
  rw [h] at hc
  simpa using hc

theorem iriChars_of_futureProblem? (h : Address.futureProblem? cs = none) : IriChars cs := by
  rw [← List.takeWhile_append_dropWhile (p := (· ≠ '.')) (l := cs)]
  unfold Address.futureProblem? at h
  dsimp only at h
  split at h
  · cases h
  · rename_i hv
    refine iriChars_append.2 ⟨fun c hc => isIriChar_of_isHex (by simpa using List.find?_eq_none.1 hv c hc), ?_⟩
    cases hd : cs.dropWhile (· ≠ '.') with
    | nil => exact iriChars_nil
    | cons d rest =>
      rw [hd, List.drop_one, List.tail_cons] at h
      refine iriChars_cons.2 ⟨by rw [eq_of_dropWhile_ne hd]; rfl, ?_⟩
      split at h
      · exact iriChars_nil
      · split at h
        · cases h
        · intro c hc
          have hallowed := List.find?_eq_none.1 h c hc
          simp only [Bool.not_eq_true', Bool.not_eq_false, Bool.or_eq_true, decide_eq_true_eq] at hallowed
          rcases hallowed with (hc | hc) | rfl
          · exact isIriChar_of_isUnreserved hc
          · exact isIriChar_of_isHostChar (by simp [isHostChar, hc])
          · rfl

/-- The text between brackets, in which the check of a host finds no problem. -/
theorem iriChars_of_address {address : List Char} (h : (match address with
    | v :: future =>
      if v = 'v' ∨ v = 'V' then (Address.futureProblem? future).map .hostChar
      else if Address.isVersion6 address then none else some .hostAddress
    | [] => some IriProblem.hostAddress) = none) : IriChars address := by
  split at h
  · split at h
    · rename_i hv
      refine iriChars_cons.2 ⟨?_, iriChars_of_futureProblem? (Option.map_eq_none_iff.1 h)⟩
      rcases hv with rfl | rfl <;> rfl
    · split at h
      · rename_i h6
        exact iriChars_of_isVersion6 h6
      · cases h
  · cases h

theorem iriChars_of_checkHost (h : checkHost cs = .ok ()) : IriChars cs := by
  unfold checkHost at h
  split at h
  · rename_i rest
    rw [← List.takeWhile_append_dropWhile (p := (· ≠ ']')) (l := rest)]
    split at h
    · cases h
    · rename_i d after hd
      have hclosing : isIriChar d = true := by
        rw [eq_of_dropWhile_ne hd]
        rfl
      have hbracket : IriChars (rest.takeWhile (· ≠ ']')) → IriChars after →
          IriChars ('[' :: (rest.takeWhile (· ≠ ']') ++ rest.dropWhile (· ≠ ']'))) := by
        intro ha hafter
        rw [hd]
        exact iriChars_cons.2 ⟨rfl, iriChars_append.2 ⟨ha, iriChars_cons.2 ⟨hclosing, hafter⟩⟩⟩
      dsimp only at h
      split at h
      · cases h
      · rename_i ha
        exact hbracket (iriChars_of_address ha) iriChars_nil
      · rename_i ha
        exact hbracket (iriChars_of_address ha) (iriChars_cons.2 ⟨rfl, iriChars_of_checkPort h⟩)
      · rename_i ha
        split at h
        · exact hbracket (iriChars_of_address ha) (iriChars_of_checkPath h)
        · cases h
  · obtain ⟨rest, hs, h⟩ := bind_eq_ok.1 h
    refine iriChars_of_scan (fun c => isIriChar_of_isHostChar) hs ?_
    split at h
    · exact iriChars_cons.2 ⟨rfl, iriChars_of_checkPort h⟩
    · exact iriChars_of_checkPath h

theorem iriChars_of_checkAuthority (h : checkAuthority cs = .ok ()) : IriChars cs := by
  obtain ⟨rest, hs, h⟩ := bind_eq_ok.1 h
  split at h
  · rename_i rest
    refine iriChars_of_scan (fun c hc => ?_) hs (iriChars_cons.2 ⟨rfl, iriChars_of_checkHost h⟩)
    rcases Bool.or_eq_true_iff.1 hc with hc | hc
    · exact isIriChar_of_isHostChar hc
    · rw [of_decide_eq_true hc]
      rfl
  · exact iriChars_of_checkHost h

/-! ## Whole IRIs -/

theorem iriChars_of_checkHierarchy (h : checkHierarchy cs = .ok ()) : IriChars cs := by
  unfold checkHierarchy at h
  split at h
  · exact iriChars_cons.2 ⟨rfl, iriChars_cons.2 ⟨rfl, iriChars_of_checkAuthority h⟩⟩
  · exact iriChars_of_checkPath h

theorem isIriChar_of_isSchemeChar (h : isSchemeChar c = true) : isIriChar c = true := by
  simp only [isSchemeChar, Bool.or_eq_true, decide_eq_true_eq] at h
  rcases h with ((h | rfl) | rfl) | rfl
  · exact isIriChar_of_isAlphanum h
  all_goals rfl

/-- A text with a scheme starts with a letter. -/
theorem exists_of_afterScheme? (h : afterScheme? cs = some rest) :
    ∃ c ds, cs = c :: ds ∧ c.isAlpha = true ∧ ds.dropWhile isSchemeChar = ':' :: rest := by
  unfold afterScheme? at h
  split at h
  · cases h
  · rename_i c ds
    split at h
    · rename_i hc hd
      cases h
      exact ⟨c, ds, rfl, hc, hd⟩
    · cases h

/-- What the check accepts has a scheme, and the check of what follows it finds nothing. -/
theorem iriProblem?_eq_none (h : iriProblem? cs = none) :
    ∃ rest, afterScheme? cs = some rest ∧ checkHierarchy rest = .ok () := by
  unfold iriProblem? checkAbsolute at h
  split at h
  · rename_i hcheck
    split at hcheck
    · exact ⟨_, by assumption, hcheck⟩
    · obtain ⟨_, -, hcheck⟩ := bind_eq_ok.1 hcheck
      cases hcheck
  · cases h

theorem iriChars_of_iriProblem? (h : iriProblem? cs = none) : IriChars cs := by
  obtain ⟨rest, ha, hh⟩ := iriProblem?_eq_none h
  obtain ⟨c, ds, rfl, hc, hd⟩ := exists_of_afterScheme? ha
  refine iriChars_cons.2 ⟨isIriChar_of_isAlphanum (by simp [Char.isAlphanum, hc]), ?_⟩
  refine iriChars_of_dropWhile (fun c => isIriChar_of_isSchemeChar) ?_
  rw [hd]
  exact iriChars_cons.2 ⟨rfl, iriChars_of_checkHierarchy hh⟩

theorem Iri.chars (i : Iri) : IriChars i.text.toList := iriChars_of_iriProblem? i.valid

theorem Iri.exists_cons (i : Iri) : ∃ c cs, i.text.toList = c :: cs ∧ c.isAlpha = true := by
  obtain ⟨rest, ha, -⟩ := iriProblem?_eq_none i.valid
  obtain ⟨c, cs, he, hc, -⟩ := exists_of_afterScheme? ha
  exact ⟨c, cs, he, hc⟩

end

end AtomLines.Rdf
