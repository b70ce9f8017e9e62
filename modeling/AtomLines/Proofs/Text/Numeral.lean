import AtomLines.Text.Numeral
/-!
# The grammar of numerals

`isNumeral` looks at one character after the other. `Numeral` is the grammar it
decides: a sign, a whole part, a fraction and an exponent, of which only the whole
part has to be there. Decimal integers are numerals, and reading one gives back
the natural that was written.
-/

namespace AtomLines.Text

/-- One digit or more. -/
def Digits (cs : List Char) : Prop :=
  cs ≠ [] ∧ ∀ c ∈ cs, c.isDigit = true

/-- Zero, or digits that start with another one. -/
inductive Whole : List Char → Prop
  | zero : Whole ['0']
  | nonzero {c : Char} {rest : List Char} : c ≠ '0' → Digits (c :: rest) → Whole (c :: rest)

/-- Nothing, or a point and digits. -/
inductive Fraction : List Char → Prop
  | absent : Fraction []
  | digits {ds : List Char} : Digits ds → Fraction ('.' :: ds)

/-- Nothing, or a mark, a sign or none, and digits. -/
inductive Exponent : List Char → Prop
  | absent : Exponent []
  | digits {e : Char} {sign ds : List Char} :
    (e = 'e' ∨ e = 'E') → (sign = [] ∨ sign = ['+'] ∨ sign = ['-']) → Digits ds → Exponent (e :: (sign ++ ds))

/-- The text of a JSON number. -/
inductive Numeral : List Char → Prop
  | parts {minus whole fraction exponent : List Char} :
    (minus = [] ∨ minus = ['-']) → Whole whole → Fraction fraction → Exponent exponent →
      Numeral (minus ++ (whole ++ (fraction ++ exponent)))

/-! ## The grammar is decided -/

theorem isDigits_iff {cs : List Char} : isDigits cs = true ↔ Digits cs := by
  cases cs with
  | nil => simp [isDigits, Digits]
  | cons c rest => simp [isDigits, Digits]

theorem isExponent_iff {cs : List Char} : isExponent cs = true ↔ Exponent cs := by
  constructor
  · intro h
    cases cs with
    | nil => exact .absent
    | cons e rest =>
      simp only [isExponent, Bool.and_eq_true, Bool.or_eq_true, decide_eq_true_eq] at h
      obtain ⟨he, h⟩ := h
      split at h
      · exact @Exponent.digits e ['+'] _ he (by simp) (isDigits_iff.1 h)
      · exact @Exponent.digits e ['-'] _ he (by simp) (isDigits_iff.1 h)
      · exact @Exponent.digits e [] _ he (by simp) (isDigits_iff.1 h)
  · rintro (_ | @⟨e, sign, ds, he, hs, hd⟩)
    · rfl
    · have hd' := isDigits_iff.2 hd
      have hm : (e = 'e' || e = 'E') = true := by simpa using he
      rcases hs with rfl | rfl | rfl
      · simp only [isExponent, List.nil_append, hm, Bool.true_and]
        -- without a sign the digits themselves must not start with one
        split
        · exact absurd (hd.2 '+' (by simp)) (by decide)
        · exact absurd (hd.2 '-' (by simp)) (by decide)
        · exact hd'
      · simpa [isExponent, hd'] using hm
      · simpa [isExponent, hd'] using hm

/-- What follows a run of digits does not continue it. -/
theorem dropWhile_digits {ds rest : List Char} (hd : ∀ c ∈ ds, c.isDigit = true)
    (hr : ∀ c ∈ rest.head?, c.isDigit = false) : (ds ++ rest).dropWhile Char.isDigit = rest := by
  rw [List.dropWhile_append_of_pos hd]
  cases rest with
  | nil => rfl
  | cons c rest => exact List.dropWhile_cons_of_neg (by simp [hr c (by simp)])

theorem Exponent.head_not_digit {cs : List Char} (h : Exponent cs) : ∀ c ∈ cs.head?, c.isDigit = false := by
  rcases h with _ | @⟨e, _, _, rfl | rfl, -, -⟩ <;> simp [Char.isDigit]

theorem isFraction_iff {cs : List Char} :
    isFraction cs = true ↔ ∃ fraction exponent, cs = fraction ++ exponent ∧ Fraction fraction ∧ Exponent exponent := by
  constructor
  · intro h
    unfold isFraction at h
    split at h
    · rename_i d rest
      simp only [Bool.and_eq_true] at h
      refine ⟨'.' :: d :: rest.takeWhile Char.isDigit, rest.dropWhile Char.isDigit, by simp,
        .digits ⟨by simp, ?_⟩, isExponent_iff.1 h.2⟩
      intro c hc
      rcases List.mem_cons.1 hc with rfl | hc
      · exact h.1
      · exact List.all_eq_true.1 List.all_takeWhile c hc
    · exact ⟨[], cs, rfl, .absent, isExponent_iff.1 h⟩
  · rintro ⟨fraction, exponent, rfl, hf, he⟩
    rcases hf with _ | ⟨hd⟩
    · rcases he with _ | @⟨e, sign, ds, he, hs, hd⟩
      · rfl
      · have hx := isExponent_iff.2 (Exponent.digits he hs hd)
        rcases he with rfl | rfl <;> simpa [isFraction] using hx
    · rename_i ds
      obtain ⟨d, ds, rfl⟩ := List.exists_cons_of_ne_nil hd.1
      simp only [List.cons_append, isFraction, hd.2 d (by simp), Bool.true_and]
      rw [dropWhile_digits (fun c hc => hd.2 c (by simp [hc])) he.head_not_digit]
      exact isExponent_iff.2 he

theorem isUnsignedNumeral_iff {cs : List Char} :
    isUnsignedNumeral cs = true ↔ ∃ whole fraction exponent,
      cs = whole ++ (fraction ++ exponent) ∧ Whole whole ∧ Fraction fraction ∧ Exponent exponent := by
  constructor
  · intro h
    unfold isUnsignedNumeral at h
    split at h
    · cases h
    · rename_i rest
      obtain ⟨f, e, rfl, hf, he⟩ := isFraction_iff.1 h
      exact ⟨['0'], f, e, rfl, .zero, hf, he⟩
    · rename_i c rest hc
      simp only [Bool.and_eq_true] at h
      obtain ⟨f, e, hr, hf, he⟩ := isFraction_iff.1 h.2
      refine ⟨c :: rest.takeWhile Char.isDigit, f, e, ?_, .nonzero (fun h0 => hc (by rw [h0]) ) ⟨by simp, ?_⟩, hf, he⟩
      · rw [← hr, List.cons_append, List.takeWhile_append_dropWhile]
      · intro d hd
        rcases List.mem_cons.1 hd with rfl | hd
        · exact h.1
        · exact List.all_eq_true.1 List.all_takeWhile d hd
  · rintro ⟨whole, fraction, exponent, rfl, hw, hf, he⟩
    have hr := isFraction_iff.2 ⟨fraction, exponent, rfl, hf, he⟩
    rcases hw with _ | @⟨c, rest, hc, hd⟩
    · exact hr
    · -- What follows the whole part starts with no digit, so it ends where the digits end.
      have hn : ∀ d ∈ (fraction ++ exponent).head?, d.isDigit = false := by
        rcases hf with _ | ⟨-⟩
        · exact he.head_not_digit
        · simp [Char.isDigit]
      simp only [List.cons_append, isUnsignedNumeral, hd.2 c (by simp), Bool.true_and]
      rw [dropWhile_digits (fun d h => hd.2 d (by simp [h])) hn, hr]

theorem isNumeral_iff {cs : List Char} : isNumeral cs = true ↔ Numeral cs := by
  constructor
  · intro h
    unfold isNumeral at h
    split at h
    · obtain ⟨w, f, e, rfl, hw, hf, he⟩ := isUnsignedNumeral_iff.1 h
      exact @Numeral.parts ['-'] _ _ _ (by simp) hw hf he
    · obtain ⟨w, f, e, rfl, hw, hf, he⟩ := isUnsignedNumeral_iff.1 h
      exact @Numeral.parts [] _ _ _ (by simp) hw hf he
  · rintro ⟨hm, hw, hf, he⟩
    have hu := isUnsignedNumeral_iff.2 ⟨_, _, _, rfl, hw, hf, he⟩
    rcases hm with rfl | rfl
    · unfold isNumeral
      split
      · rename_i heq
        rw [List.nil_append] at heq
        rw [heq] at hu
        simp [isUnsignedNumeral, Char.isDigit] at hu
      · exact hu
    · exact hu

instance (cs : List Char) : Decidable (Numeral cs) :=
  decidable_of_iff _ isNumeral_iff

/-! ## Their characters -/

/-- The characters that numerals are made of. -/
def isNumeralChar (c : Char) : Bool :=
  c.isDigit || c = '-' || c = '+' || c = '.' || c = 'e' || c = 'E'

theorem isNumeralChar_of_isDigit {c : Char} (h : c.isDigit = true) : isNumeralChar c = true := by
  simp [isNumeralChar, h]

theorem Digits.chars {cs : List Char} (h : Digits cs) : ∀ c ∈ cs, isNumeralChar c = true :=
  fun c hc => isNumeralChar_of_isDigit (h.2 c hc)

theorem Whole.digits {cs : List Char} (h : Whole cs) : Digits cs := by
  rcases h with _ | ⟨-, h⟩
  · exact ⟨by simp, by simp⟩
  · exact h

theorem Numeral.chars {cs : List Char} (h : Numeral cs) : ∀ c ∈ cs, isNumeralChar c = true := by
  rcases h with ⟨hm, hw, hf, he⟩
  intro c hc
  rcases List.mem_append.1 hc with hc | hc
  · rcases hm with rfl | rfl
    · cases hc
    · rw [List.mem_singleton.1 hc]; rfl
  · rcases List.mem_append.1 hc with hc | hc
    · exact hw.digits.chars c hc
    · rcases List.mem_append.1 hc with hc | hc
      · rcases hf with _ | ⟨hd⟩
        · cases hc
        · rcases List.mem_cons.1 hc with rfl | hc
          · rfl
          · exact hd.chars c hc
      · rcases he with _ | ⟨rfl | rfl, rfl | rfl | rfl, hd⟩
        all_goals simp only [List.nil_append, List.cons_append, List.mem_cons, List.not_mem_nil] at hc
        all_goals grind [isNumeralChar, hd.chars c]

theorem Numeral.ne_nil {cs : List Char} (h : Numeral cs) : cs ≠ [] := by
  rcases h with ⟨-, hw, -, -⟩
  simp [hw.digits.1]

/-! ## Decimal integers -/

theorem naturalDigits_digits (n : Nat) : Digits (naturalDigits n) :=
  ⟨Nat.toDigits_ne_nil, fun _ hc => Nat.isDigit_of_mem_toDigits (by decide) (by decide) hc⟩

/-- Only zero is written with a leading zero. -/
theorem naturalDigits_whole (n : Nat) : Whole (naturalDigits n) := by
  induction n using Nat.strongRecOn with
  | _ n ih =>
    have hd := naturalDigits_digits n
    by_cases h10 : n < 10
    · rcases Nat.eq_zero_or_pos n with rfl | hpos
      · exact .zero
      · rw [naturalDigits, Nat.toDigits_of_lt_base h10] at hd ⊢
        refine .nonzero ?_ hd
        have : ∀ m < 10, 0 < m → Nat.digitChar m ≠ '0' := by decide
        exact this n h10 hpos
    · have hn := Nat.toDigits_of_base_le (b := 10) (by decide) (Nat.le_of_not_lt h10)
      have hlt : n / 10 < n := by omega
      rw [naturalDigits, hn] at hd ⊢
      have hw := ih (n / 10) hlt
      rw [naturalDigits] at hw
      generalize hq : Nat.toDigits 10 (n / 10) = q at hw hd ⊢
      rcases hw with _ | ⟨hc, -⟩
      · -- the quotient is not zero, so its digits are not a single zero
        have h0 := congrArg (Nat.ofDigitChars 10 · 0) hq
        simp only [Nat.ofDigitChars_ten_toDigits] at h0
        have : Nat.ofDigitChars 10 ['0'] 0 = 0 := by decide
        omega
      · exact .nonzero hc hd

theorem naturalDigits_numeral (n : Nat) : Numeral (naturalDigits n) := by
  simpa using Numeral.parts (.inl rfl) (naturalDigits_whole n) .absent .absent

theorem naturalValue_digits (n : Nat) : naturalValue (naturalDigits n) = n := by
  have h := Nat.ofDigitChars_ten_toDigits (n := n)
  simpa [naturalValue, naturalDigits, Nat.ofDigitChars_eq_foldl, Nat.mul_comm] using h

/-- An index below the bound reads back from its digits. -/
theorem indexOf?_naturalDigits {n : Nat} (h : n < indexBound) : indexOf? (naturalDigits n) = some n := by
  have hd := naturalDigits_digits n
  have hp : (naturalDigits n).head? ≠ some '+' := by
    intro hp
    have := hd.2 '+' (List.mem_of_mem_head? hp)
    cases this
  simp [indexOf?, hp, isDigits_iff.2 hd, naturalValue_digits, h]

/-! ## One numeral for an index -/

theorem naturalDigits_digit {c : Char} (h : c.isDigit = true) : naturalDigits (c.toNat - '0'.toNat) = [c] := by
  obtain ⟨hlow, hhigh⟩ := Char.isDigit_iff_toNat.1 h
  have hlt : c.toNat - '0'.toNat < 10 := Nat.sub_lt_left_of_lt_add hlow (Nat.lt_succ_of_le hhigh)
  rw [naturalDigits, Nat.toDigits_of_lt_base hlt]
  refine congrArg (fun d => [d]) (Char.toNat_inj.1 ?_)
  rw [Nat.toNat_digitChar_of_lt_ten hlt]
  exact Nat.add_sub_cancel' hlow

/-- Digits that are read after a number are written after it. -/
theorem naturalDigits_foldl {cs : List Char} (h : ∀ c ∈ cs, c.isDigit = true) {n : Nat} (hn : 0 < n) :
    naturalDigits (cs.foldl (fun n c => n * 10 + (c.toNat - '0'.toNat)) n) = naturalDigits n ++ cs := by
  induction cs generalizing n with
  | nil => rw [List.foldl_nil, List.append_nil]
  | cons c cs ih =>
    obtain ⟨hc, hcs⟩ := List.forall_mem_cons.1 h
    have hlt : c.toNat - '0'.toNat < 10 := by
      have := Char.isDigit_iff_toNat.1 hc
      simp only [Char.reduceToNat] at this ⊢
      omega
    have hnext : naturalDigits (n * 10 + (c.toNat - '0'.toNat)) = naturalDigits n ++ [c] := by
      rw [← naturalDigits_digit hc, Nat.mul_comm]
      exact (Nat.toDigits_append_toDigits (by decide) hn hlt).symm
    rw [List.foldl_cons, ih hcs (by omega), hnext, List.append_assoc, List.singleton_append]

/-- A whole part is the numeral of the natural that it denotes. -/
theorem Whole.eq_naturalDigits {cs : List Char} (h : Whole cs) : cs = naturalDigits (naturalValue cs) := by
  rcases h with _ | @⟨c, rest, hc, hd⟩
  · rfl
  · have hdigit := hd.2 c List.mem_cons_self
    -- The first digit is not zero, so no digit is lost when the number is written again.
    have hpos : 0 < c.toNat - '0'.toNat := by
      have hne : c.toNat ≠ '0'.toNat := fun he => hc (Char.toNat_inj.1 he)
      have := Char.isDigit_iff_toNat.1 hdigit
      omega
    have hrest := naturalDigits_foldl (fun d hm => hd.2 d (List.mem_cons_of_mem c hm)) hpos
    rw [naturalDigits_digit hdigit] at hrest
    rw [naturalValue, List.foldl_cons, Nat.zero_mul, Nat.zero_add, hrest]
    rfl

/-- A numeral of digits alone has neither a sign nor a fraction nor an exponent. -/
theorem Numeral.whole {cs : List Char} (h : Numeral cs) (hd : ∀ c ∈ cs, c.isDigit = true) : Whole cs := by
  rcases h with ⟨hm, hw, hf, he⟩
  simp only [List.forall_mem_append] at hd
  obtain ⟨hminus, -, hfraction, hexponent⟩ := hd
  have hm' : _ = [] := hm.resolve_right (by rintro rfl; cases hminus '-' List.mem_cons_self)
  rcases hf with _ | ⟨-⟩
  · rcases he with _ | ⟨rfl | rfl, -, -⟩
    · rw [hm', List.append_nil, List.append_nil]
      exact hw
    · cases hexponent 'e' List.mem_cons_self
    · cases hexponent 'E' List.mem_cons_self
  · cases hfraction '.' List.mem_cons_self

theorem Numeral.head?_ne_plus {cs : List Char} (h : Numeral cs) : cs.head? ≠ some '+' := by
  rcases h with ⟨rfl | rfl, hw, -, -⟩
  · obtain ⟨c, rest, rfl⟩ := List.exists_cons_of_ne_nil hw.digits.1
    rw [List.nil_append, List.cons_append, List.head?_cons, ne_eq, Option.some.injEq]
    rintro rfl
    cases hw.digits.2 '+' List.mem_cons_self
  · simp

/-- A numeral denotes an index exactly if it is the numeral of that index. -/
theorem Numeral.indexOf?_eq_some {cs : List Char} (h : Numeral cs) {i : Nat} :
    indexOf? cs = some i ↔ i < indexBound ∧ cs = naturalDigits i := by
  constructor
  · intro hi
    simp only [indexOf?, if_neg h.head?_ne_plus, Option.ite_none_right_eq_some, Bool.and_eq_true, decide_eq_true_eq,
      Option.some.injEq] at hi
    obtain ⟨⟨hd, hlt⟩, rfl⟩ := hi
    exact ⟨hlt, (h.whole (isDigits_iff.1 hd).2).eq_naturalDigits⟩
  · rintro ⟨hlt, rfl⟩
    exact indexOf?_naturalDigits hlt

end AtomLines.Text
