import NativeCode.Listing
import NativeCode.Proofs.Machine.Memory
import NativeCode.Proofs.Text.Numeral

/-!
# Assembling data sections

A data section is assembled line by line. Directives append bytes: values with their lowest byte
first, zeros, and as many zeros as it takes to get to an aligned address. A label stands for the
number of bytes in front of it and cannot be given twice. Instructions have no place in such a
section.
-/

namespace NativeCode.Assembler

open Machine

/-- What a directive of a data section does. -/
inductive Directive where
  /-- Makes a name known to other files. -/
  | globl
  /-- Aligns to a power of two. -/
  | align (power : Nat)
  /-- Appends the low bytes of a number. -/
  | value (w : Width) (v : Int)
  /-- Appends zeros. -/
  | zeros (n : Nat)
  deriving DecidableEq

/-! ### Reading directives -/

/-- A decimal number. One that starts with a zero would not be decimal. -/
def decimal? : List Char → Option Nat
  | '0' :: _ :: _ => none
  | cs => Text.digits? 10 cs

def signed? : List Char → Option Int
  | '-' :: cs => (decimal? cs).map fun n => -(n : Int)
  | cs => (decimal? cs).map Int.ofNat

/-- The directive with a keyword and an argument. -/
def Directive.make? (keyword : String) (argument : List Char) : Option Directive :=
  match keyword with
  | ".globl" => some .globl
  | ".p2align" => (decimal? argument).map .align
  | ".byte" => (signed? argument).map (.value .byte)
  | ".short" => (signed? argument).map (.value .word)
  | ".long" => (signed? argument).map (.value .long)
  | ".quad" => (signed? argument).map (.value .quad)
  | ".zero" => (decimal? argument).map .zeros
  | _ => none

/-- The directive with a text: the keyword ends at the first blank. -/
def Directive.read? (text : String) : Option Directive :=
  make? (String.ofList (text.toList.takeWhile (· ≠ ' ')))
    ((text.toList.dropWhile (· ≠ ' ')).drop 1)

theorem Directive.read?_eq {keyword : String} (h : ' ' ∉ keyword.toList) (argument : String) :
    read? (keyword ++ " " ++ argument) = make? keyword argument.toList := by
  have hkeyword : ∀ c ∈ keyword.toList, decide (c ≠ ' ') = true := fun c hc =>
    decide_eq_true fun e => h (e ▸ hc)
  have hblank : " ".toList = [' '] := rfl
  rw [read?, String.toList_append, String.toList_append, hblank, List.append_assoc,
    List.takeWhile_append_of_pos hkeyword, List.dropWhile_append_of_pos hkeyword]
  simp [String.ofList_toList]

lemma toDigits_ne_zero_cons (n : Nat) (c : Char) (cs : List Char) :
    Nat.toDigits 10 n ≠ '0' :: c :: cs := by
  induction n using Nat.strongRecOn generalizing c cs with
  | ind n ih =>
    intro h
    by_cases hn : n < 10
    · rw [Nat.toDigits_of_lt_base hn] at h
      exact absurd (List.cons.inj h).2 (List.cons_ne_nil c cs).symm
    · rw [Nat.toDigits_of_base_le (by decide) (by omega)] at h
      cases hfront : Nat.toDigits 10 (n / 10) with
      | nil => exact Nat.toDigits_ne_nil hfront
      | cons d ds =>
        rw [hfront, List.cons_append] at h
        obtain ⟨rfl, h⟩ := List.cons.inj h
        cases ds with
        | cons d' ds => exact ih (n / 10) (by omega) d' ds hfront
        | nil =>
          -- a front of nothing but the zero is that of a single digit
          have hzero := Nat.ofDigitChars_toDigits (b := 10) (n := n / 10) (by decide) le_rfl
          rw [hfront] at hzero
          have : n / 10 = 0 := hzero.symm
          omega

theorem decimal?_repr (n : Nat) : decimal? n.repr.toList = some n := by
  rw [decimal?, Text.digits?_repr]
  intro c cs h
  exact toDigits_ne_zero_cons n c cs (Nat.toList_repr ▸ h)

theorem signed?_toString (v : Int) : signed? (toString v).toList = some v := by
  cases v with
  | ofNat n =>
    change signed? n.repr.toList = _
    rw [signed?, decimal?_repr]
    · rfl
    · intro cs h
      have hsign : '-'.isDigit = true := Text.isDigit_of_mem_repr (n := n) (by rw [h]; simp)
      exact absurd hsign (by decide)
  | negSucc n =>
    change signed? ("-" ++ (n + 1).repr).toList = _
    rw [String.toList_append]
    change signed? ('-' :: (n + 1).repr.toList) = _
    rw [signed?, decimal?_repr]
    rfl

/-! ### Images -/

/-- The low `n` bytes of a word, the lowest first. -/
def littleEndian (n : Nat) (v : Word) : List (BitVec 8) :=
  (List.range n).map fun k => v.extractLsb' (8 * k) 8

@[simp] lemma length_littleEndian (n : Nat) (v : Word) : (littleEndian n v).length = n := by
  simp [littleEndian]

lemma littleEndian_zero (n : Nat) : littleEndian n 0 = List.replicate n 0 := by
  refine List.eq_replicate_iff.mpr ⟨length_littleEndian n 0, fun b hb => ?_⟩
  obtain ⟨k, -, rfl⟩ := List.mem_map.mp hb
  exact BitVec.extractLsb'_zero

lemma littleEndian_signExtend (w : Width) (v : Word) :
    littleEndian w.bytes (w.signExtend v) = littleEndian w.bytes v := by
  refine List.map_congr_left fun k hk => BitVec.eq_of_getLsbD_eq fun j hj => ?_
  have hk := List.mem_range.mp hk
  have hw := w.bytes_le
  have hlow : 8 * k + j < w.bits := by
    rw [Width.bits]
    omega
  have hlt : 8 * k + j < 64 := by
    rw [Width.bits] at hlow
    omega
  rw [BitVec.getLsbD_extractLsb', BitVec.getLsbD_extractLsb', Width.signExtend,
    BitVec.getLsbD_signExtend, if_pos hlow, BitVec.getLsbD_setWidth]
  simp [hlow, hlt]

structure Image where
  bytes : List (BitVec 8) := []
  labels : List (String × Nat) := []
  deriving DecidableEq

/-- How many bytes lie in front of the next address that is aligned to a power of two. -/
def padding (power address : Nat) : Nat := (2 ^ power - address % 2 ^ power) % 2 ^ power

def Directive.bytes (address : Nat) : Directive → List (BitVec 8)
  | globl => []
  | align power => List.replicate (padding power address) 0
  | value w v => littleEndian w.bytes (BitVec.ofInt 64 v)
  | zeros n => List.replicate n 0

/-- The image with one more line, for a section that starts at the address `start`. -/
def Image.line (start : Nat) (m : Image) : Item → Option Image
  | .directive text => (Directive.read? text).map fun d =>
    { m with bytes := m.bytes ++ d.bytes (start + m.bytes.length) }
  | .label name =>
    if name ∈ m.labels.map (·.1) then none
    else some { m with labels := m.labels ++ [(name, m.bytes.length)] }
  | .instr _ => none

/-- The image of a section that starts at the address `start`. -/
def assemble (start : Nat) (items : List Item) : Option Image := items.foldlM (Image.line start) {}

theorem assemble_append {start : Nat} {items : List Item} {m : Image}
    (h : assemble start items = some m) (items' : List Item) :
    assemble start (items ++ items') = items'.foldlM (Image.line start) m := by
  rw [assemble, List.foldlM_append, ← assemble, h]
  rfl

end NativeCode.Assembler
