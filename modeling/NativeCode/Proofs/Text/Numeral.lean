import Mathlib
import NativeCode.Text.Numeral

/-!
# Printed numerals

Printed numbers are read back: a natural number below `2 ^ 32` as an index, and the signed value of a
word as an integer literal.
-/

namespace NativeCode.Text

variable {n : Nat} {c : Char} {cs : List Char}

lemma isDigit_of_mem_repr (h : c ∈ n.repr.toList) : c.isDigit = true := by
  rw [Nat.toList_repr] at h
  exact Nat.isDigit_of_mem_toDigits (by decide) le_rfl h

lemma repr_ne_nil (n : Nat) : n.repr.toList ≠ [] := by
  rw [Nat.toList_repr]
  exact Nat.toDigits_ne_nil

lemma ne_of_isDigit (h : c.isDigit = true) {d : Char} (hd : d.isDigit = false) : c ≠ d := by
  rintro rfl
  rw [h] at hd
  cases hd

lemma digitBelow?_of_isDigit (h : c.isDigit = true) :
    digitBelow? 10 c = some (c.toNat - '0'.toNat) := by
  rw [Char.isDigit, Bool.and_eq_true, decide_eq_true_eq, decide_eq_true_eq] at h
  have hle : c.toNat ≤ '9'.toNat := h.2
  have hvalue : digitValue? c = some (c.toNat - '0'.toNat) := if_pos (by
    rw [Bool.and_eq_true, decide_eq_true_eq, decide_eq_true_eq]
    exact h)
  have hlt : c.toNat - '0'.toNat < 10 := by
    have h9 : '9'.toNat = 57 := rfl
    have h0 : '0'.toNat = 48 := rfl
    omega
  rw [digitBelow?, hvalue, Option.filter_some, if_pos (by simpa using hlt)]

lemma digitsFrom?_of_isDigit (acc : Nat) (h : ∀ c ∈ cs, c.isDigit = true) :
    digitsFrom? 10 acc cs = some (Nat.ofDigitChars 10 cs acc) := by
  induction cs generalizing acc with
  | nil => rfl
  | cons c cs ih =>
    obtain ⟨hc, hcs⟩ := List.forall_mem_cons.mp h
    rw [digitsFrom?, digitBelow?_of_isDigit hc, Nat.ofDigitChars_cons]
    exact ih _ hcs

lemma digits?_repr (n : Nat) : digits? 10 n.repr.toList = some n := by
  have hdigits : digitsFrom? 10 0 n.repr.toList = some n := by
    rw [digitsFrom?_of_isDigit 0 fun c => isDigit_of_mem_repr, Nat.toList_repr,
      Nat.ofDigitChars_toDigits (by decide) le_rfl]
  cases hcs : n.repr.toList with
  | nil => exact absurd hcs (repr_ne_nil n)
  | cons c cs =>
    rw [hcs] at hdigits
    exact hdigits

theorem index?_repr (h : n < 4294967296) : index? n.repr.toList = some n := by
  rw [index?, digits?_repr, Option.filter_some, if_pos (by simpa using h)]

lemma lt_of_index? (h : index? cs = some n) : n < 4294967296 := by
  simpa using (Option.filter_eq_some_iff.mp h).2

lemma index?_eq_none (h : digitBelow? 10 c = none) : index? (c :: cs) = none := by
  rw [index?, digits?, digitsFrom?, h]
  rfl

lemma magnitude?_repr (h : n < 18446744073709551616) :
    magnitude? n.repr.toList = some n := by
  have hmark {d : Char} (hd : d.isDigit = false) (rest : List Char) :
      n.repr.toList ≠ '0' :: d :: rest := by
    intro heq
    exact ne_of_isDigit (isDigit_of_mem_repr (n := n) (by rw [heq]; simp)) hd rfl
  rw [magnitude?]
  · rw [digits?_repr, Option.filter_some, if_pos (by simpa using h)]
  · exact fun c rest => hmark (by decide) (c :: rest)
  · exact fun c rest => hmark (by decide) (c :: rest)

lemma toList_negSucc (n : Nat) :
    (toString (Int.negSucc n)).toList = '-' :: (n + 1).repr.toList := by
  change ("-" ++ (n + 1).repr).toList = _
  rw [String.toList_append]
  rfl

/-- The signed value of a word is read back as the word. -/
theorem integer?_toString (v : Word) : integer? (toString v.toInt).toList = some v := by
  have hlt := v.toInt_lt
  have hle := v.le_toInt
  have hv := BitVec.ofInt_toInt (x := v)
  cases hi : v.toInt with
  | ofNat n =>
    rw [hi] at hlt hv
    have hn : n < 18446744073709551616 := by
      rw [Int.ofNat_eq_natCast] at hlt
      omega
    have hsign {d : Char} (hd : d.isDigit = false) (rest : List Char) :
        n.repr.toList ≠ d :: rest := by
      intro heq
      exact ne_of_isDigit (isDigit_of_mem_repr (n := n) (by rw [heq]; simp)) hd rfl
    change integer? n.repr.toList = some v
    rw [integer?]
    · rw [magnitude?_repr hn, ← hv]
      rfl
    · exact fun _ => hsign (by decide) _
    · exact fun _ => hsign (by decide) _
  | negSucc n =>
    rw [hi] at hle hv
    have hn : n + 1 < 18446744073709551616 := by omega
    rw [toList_negSucc, integer?, magnitude?_repr hn, ← hv]
    rw [Int.negSucc_eq, BitVec.ofInt_neg]
    rfl

lemma toString_ne_nil (v : Int) : (toString v).toList ≠ [] := by
  cases v with
  | ofNat n => exact repr_ne_nil n
  | negSucc n =>
    rw [toList_negSucc]
    exact List.cons_ne_nil _ _

theorem digit_or_sign_of_mem {v : Int} (h : c ∈ (toString v).toList) :
    c.isDigit = true ∨ c = '-' := by
  cases v with
  | ofNat n => exact Or.inl (isDigit_of_mem_repr (n := n) h)
  | negSucc n =>
    rw [toList_negSucc] at h
    rcases List.mem_cons.mp h with rfl | h
    · exact Or.inr rfl
    · exact Or.inl (isDigit_of_mem_repr h)

end NativeCode.Text
