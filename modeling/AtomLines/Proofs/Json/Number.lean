import AtomLines.Json.Leaf
import AtomLines.Proofs.Text.Numeral
import Mathlib.Algebra.Ring.Int.Defs
import Mathlib.Algebra.Ring.Nat
/-!
# Numbers and their texts

A number is stable if reading its text gives it back. Every integer of 64 bits is.
-/

namespace AtomLines.Json.Number

/-- An integer fits 64 bits, and a double is the one that its text denotes. -/
def Stable : Number → Prop
  | integer i => -2 ^ 63 ≤ i ∧ i < 2 ^ 64
  | double x => read? (double x).text = some (double x)

theorem numeral_of_read? {s : String} {n : Number} (h : read? s = some n) : Text.Numeral s.toList := by
  unfold read? at h
  split at h
  · rename_i hn
    exact Text.isNumeral_iff.1 hn
  · cases h

/-! ## Integers -/

theorem parts_ofNumeral_digits {ds : List Char} (h : Text.Digits ds) : Parts.ofNumeral ds = ⟨ds, none, none⟩ := by
  have ht : (ds ++ []).takeWhile Char.isDigit = ds ++ [].takeWhile Char.isDigit := List.takeWhile_append_of_pos h.2
  have hd : (ds ++ []).dropWhile Char.isDigit = [].dropWhile Char.isDigit := List.dropWhile_append_of_pos h.2
  simp only [List.append_nil, List.takeWhile_nil, List.dropWhile_nil] at ht hd
  simp [Parts.ofNumeral, ht, hd]

theorem ofNumeral?_naturalDigits {n : Nat} (h : n < 2 ^ 64) :
    ofNumeral? (Text.naturalDigits n) = some (integer n) := by
  have hd := Text.naturalDigits_digits n
  have hm : ∀ rest, Text.naturalDigits n ≠ '-' :: rest := by
    intro rest e
    have := hd.2 '-' (by simp [e])
    cases this
  unfold ofNumeral?
  split
  · rename_i rest heq
    split at heq
    · exact absurd ‹_› (hm _)
    · cases heq
      simp [parts_ofNumeral_digits hd, Text.naturalValue_digits]
      omega

theorem ofNumeral?_minus {n : Nat} (h0 : 0 < n) (h : n ≤ 2 ^ 63) :
    ofNumeral? ('-' :: Text.naturalDigits n) = some (integer (-n)) := by
  simp [ofNumeral?, parts_ofNumeral_digits (Text.naturalDigits_digits n), Text.naturalValue_digits, h0]
  omega

theorem numeral_integerDigits (i : Int) : Text.Numeral (Text.integerDigits i) := by
  cases i with
  | ofNat n => exact Text.naturalDigits_numeral n
  | negSucc n =>
    have hw := Text.naturalDigits_whole (n + 1)
    have h := Text.Numeral.parts (.inr rfl) hw .absent .absent
    simpa [Text.integerDigits] using h

theorem read?_integer {i : Int} (hl : -2 ^ 63 ≤ i) (hu : i < 2 ^ 64) :
    read? (integer i).text = some (integer i) := by
  have hn := Text.isNumeral_iff.2 (numeral_integerDigits i)
  rw [read?, text, String.toList_ofList, chars, if_pos hn]
  cases i with
  | ofNat n => exact ofNumeral?_naturalDigits (by simp only [Int.ofNat_eq_natCast] at hu; omega)
  | negSucc n => exact ofNumeral?_minus (Nat.succ_pos n) (by omega)

theorem Stable.read?_text {n : Number} (h : n.Stable) : read? n.text = some n := by
  cases n with
  | integer i => exact read?_integer h.1 h.2
  | double x => exact h

end AtomLines.Json.Number
