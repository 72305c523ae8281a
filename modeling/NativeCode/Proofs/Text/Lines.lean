import Mathlib
import NativeCode.Text.Ascii

/-!
# Lines of a text

A text that is written line by line is read back line by line, if no line holds a newline.
-/

namespace NativeCode.Text

/-- A text within one line. -/
def Plain (s : String) : Prop := '\n' ∉ s.toList

instance (s : String) : Decidable (Plain s) := inferInstanceAs (Decidable ('\n' ∉ s.toList))

/-- A text without the character `c`. -/
def Avoids (c : Char) (s : String) : Prop := c ∉ s.toList

instance (c : Char) (s : String) : Decidable (Avoids c s) :=
  inferInstanceAs (Decidable (c ∉ s.toList))

/-- A line that defines a label: it ends with a colon, and is neither indented nor a comment. -/
def isLabelLine (line : List Char) : Bool :=
  line.head? != some '\t' && line.head? != some '#' && line.getLast? == some ':'

lemma isLabelLine_of_head? {line : List Char}
    (h : line.head? = some '\t' ∨ line.head? = some '#') : isLabelLine line = false := by
  rcases h with h | h <;> simp [isLabelLine, h]

lemma isLabelLine_append_colon {name : List Char} (hne : name ≠ [])
    (htab : name.head? ≠ some '\t') (hcomment : name.head? ≠ some '#') :
    isLabelLine (name ++ ":".toList) = true := by
  rw [isLabelLine, List.head?_append_of_ne_nil _ hne, List.getLast?_append_of_ne_nil _ (by decide)]
  simp [htab, hcomment]

/-- The label lines of a text. -/
def labelLines (text : String) : List String :=
  ((lines text.toList).filter isLabelLine).map String.ofList

lemma lines_cons (c : Char) (cs : List Char) :
    lines (c :: cs) = if c = '\n' then [] :: lines cs
      else match lines cs with
        | [] => [[c]]
        | l :: ls => (c :: l) :: ls := rfl

lemma lines_append_newline {l : List Char} (h : '\n' ∉ l) (cs : List Char) :
    lines (l ++ '\n' :: cs) = l :: lines cs := by
  induction l with
  | nil => rfl
  | cons c l ih =>
    obtain ⟨hc, hl⟩ := List.ne_and_not_mem_of_not_mem_cons h
    rw [List.cons_append, lines_cons, if_neg hc.symm, ih hl]

lemma lines_flatMap_newline {ls : List (List Char)} (h : ∀ l ∈ ls, '\n' ∉ l) :
    lines (ls.flatMap (· ++ ['\n'])) = ls := by
  induction ls with
  | nil => rfl
  | cons l ls ih =>
    obtain ⟨hl, hls⟩ := List.forall_mem_cons.mp h
    rw [List.flatMap_cons, List.append_assoc, List.singleton_append, lines_append_newline hl, ih hls]

theorem lines_flatMap {ls : List String} (h : ∀ l ∈ ls, Plain l) :
    lines (ls.flatMap fun l => l.toList ++ ['\n']) = ls.map String.toList := by
  have hlines : ∀ l ∈ ls.map String.toList, '\n' ∉ l := List.forall_mem_map.mpr h
  rw [← lines_flatMap_newline hlines, List.flatMap_map]

lemma newline_notMem_lines {cs : List Char} : ∀ l ∈ lines cs, '\n' ∉ l := by
  induction cs with
  | nil => simp [lines]
  | cons c cs ih =>
    rw [lines_cons]
    split_ifs with hc
    · exact List.forall_mem_cons.mpr ⟨by simp, ih⟩
    · split
      · exact List.forall_mem_singleton.mpr (by simpa using Ne.symm hc)
      · rename_i l ls heq
        rw [heq] at ih
        obtain ⟨hl, hls⟩ := List.forall_mem_cons.mp ih
        exact List.forall_mem_cons.mpr ⟨by simp [hl, Ne.symm hc], hls⟩

/-- A text with line `n`, counted from one, replaced by `s`. -/
def replaceLine (text : String) (n : Nat) (s : String) : String :=
  String.ofList (((lines text.toList).set (n - 1) s.toList).flatMap (· ++ ['\n']))

theorem lines_replaceLine {text s : String} (hs : Plain s) (n : Nat) :
    lines (replaceLine text n s).toList = (lines text.toList).set (n - 1) s.toList := by
  rw [replaceLine, String.toList_ofList]
  refine lines_flatMap_newline fun l hl => ?_
  rcases List.mem_or_eq_of_mem_set hl with hl | rfl
  · exact newline_notMem_lines l hl
  · exact hs

/-! ### Texts without a character -/

section Avoids

variable {c : Char}

@[simp] lemma avoids_append {s t : String} : Avoids c (s ++ t) ↔ Avoids c s ∧ Avoids c t := by
  simp [Avoids, not_or]

@[simp] lemma avoids_ite {p : Prop} [Decidable p] {s t : String} :
    Avoids c (if p then s else t) ↔ (p → Avoids c s) ∧ (¬ p → Avoids c t) := by
  split_ifs with hp <;> simp [hp]

lemma avoids_repr (hc : c.isDigit = false) (n : Nat) : Avoids c n.repr := by
  intro h
  rw [Nat.toList_repr] at h
  rw [Nat.isDigit_of_mem_toDigits (by omega) le_rfl h] at hc
  cases hc

lemma avoids_toString (hc : c.isDigit = false) (hsign : c ≠ '-') (n : Int) :
    Avoids c (toString n) := by
  cases n with
  | ofNat n => exact avoids_repr hc n
  | negSucc n => exact avoids_append.mpr ⟨by simpa [Avoids] using hsign, avoids_repr hc _⟩

lemma avoids_intercalate {s : String} (hs : Avoids c s) {ls : List String}
    (h : ∀ l ∈ ls, Avoids c l) : Avoids c (s.intercalate ls) := by
  induction ls with
  | nil => simp [Avoids]
  | cons l ls ih =>
    obtain ⟨hl, hls⟩ := List.forall_mem_cons.mp h
    cases ls with
    | nil => simpa using hl
    | cons l' ls =>
      rw [String.intercalate_cons_cons, avoids_append, avoids_append]
      exact ⟨⟨hl, hs⟩, ih hls⟩

lemma avoids_of_isIdentifier (hc : isIdentRest c = false) {s : String}
    (h : isIdentifier s.toList = true) : Avoids c s := by
  rw [Avoids]
  generalize s.toList = cs at h
  cases cs with
  | nil => cases h
  | cons d cs =>
    rw [isIdentifier, Bool.and_eq_true, List.all_eq_true] at h
    intro hmem
    rcases List.mem_cons.mp hmem with rfl | hmem
    · rw [isIdentRest, h.1] at hc
      cases hc
    · rw [h.2 c hmem] at hc
      cases hc

end Avoids

@[simp] lemma plain_append {s t : String} : Plain (s ++ t) ↔ Plain s ∧ Plain t := avoids_append

@[simp] lemma plain_ite {p : Prop} [Decidable p] {s t : String} :
    Plain (if p then s else t) ↔ (p → Plain s) ∧ (¬ p → Plain t) := avoids_ite

/-- Identifiers lie within one line, and do not start like an indented line or a comment. -/
theorem plain_of_isIdentifier {s : String} (h : isIdentifier s.toList = true) :
    Plain s ∧ s.toList ≠ [] ∧ s.toList.head? ≠ some '\t' ∧ s.toList.head? ≠ some '#' := by
  refine ⟨avoids_of_isIdentifier (by decide) h, ?_⟩
  generalize s.toList = cs at h
  cases cs with
  | nil => cases h
  | cons c cs =>
    rw [isIdentifier, Bool.and_eq_true] at h
    have hne {d : Char} (hd : isIdentStart d = false) : c ≠ d := by
      rintro rfl
      rw [h.1] at hd
      cases hd
    refine ⟨List.cons_ne_nil _ _, ?_, ?_⟩
    · simpa using hne (d := '\t') (by decide)
    · simpa using hne (d := '#') (by decide)

end NativeCode.Text
