import NativeCode.Machine.Instr
import NativeCode.Proofs.Machine.Memory

/-!
# Machine states

A state has sixteen 64-bit registers, sixteen 128-bit vector registers, five flags and memory.
Writing one or two bytes of a register leaves the rest of it, writing four bytes clears the upper
half.
-/

namespace NativeCode.Machine

structure Flags where
  carry : Bool
  parity : Bool
  zero : Bool
  sign : Bool
  overflow : Bool
  deriving DecidableEq, Inhabited

namespace Cond

/-- Whether a condition holds of the flags. -/
def holds : Cond → Flags → Bool
  | e, f => f.zero
  | ne, f => !f.zero
  | l, f => f.sign != f.overflow
  | le, f => f.zero || f.sign != f.overflow
  | g, f => !f.zero && f.sign == f.overflow
  | ge, f => f.sign == f.overflow
  | b, f => f.carry
  | be, f => f.carry || f.zero
  | a, f => !f.carry && !f.zero
  | ae, f => !f.carry
  | p, f => f.parity
  | np, f => !f.parity

/-- An inverted condition holds exactly when the condition does not. -/
theorem holds_invert (c : Cond) (f : Flags) : c.invert.holds f = !c.holds f := by
  rcases f with ⟨carry, parity, zero, sign, overflow⟩
  cases c <;> cases carry <;> cases parity <;> cases zero <;> cases sign <;> cases overflow <;> rfl

end Cond

/-- Whether the low byte of a word has an even number of ones. -/
def evenParity (v : Word) : Bool :=
  (List.range 8).foldl (fun even i => even != v.getLsbD i) true

namespace Flags

def ofSub (x y : Word) : Flags where
  carry := x.ult y
  parity := evenParity (x - y)
  zero := x - y == 0
  sign := (x - y).msb
  overflow := BitVec.ssubOverflow x y

def ofAdd (x y : Word) : Flags where
  carry := BitVec.uaddOverflow x y
  parity := evenParity (x + y)
  zero := x + y == 0
  sign := (x + y).msb
  overflow := BitVec.saddOverflow x y

/-- The flags of a bitwise operation with result `v`. -/
def ofLogic (v : Word) : Flags where
  carry := false
  parity := evenParity v
  zero := v == 0
  sign := v.msb
  overflow := false

/-- The flags of a float comparison; `none` means that the operands are not ordered. -/
def ofOrdering : Option Ordering → Flags
  | none => ⟨true, true, true, false, false⟩
  | some .lt => ⟨true, false, false, false, false⟩
  | some .eq => ⟨false, false, true, false, false⟩
  | some .gt => ⟨false, false, false, false, false⟩

theorem zero_ofSub (x y : Word) : (ofSub x y).zero = decide (x = y) := by
  have h : x - y = 0 ↔ x = y := sub_eq_zero
  simp only [ofSub, beq_eq_decide, h]

theorem carry_ofSub (x y : Word) : (ofSub x y).carry = decide (x.toNat < y.toNat) := by
  simp only [ofSub, BitVec.ult]

/-- The sign of a difference tells the signed order, unless the difference overflows. -/
theorem sign_ne_overflow_ofSub (x y : Word) :
    ((ofSub x y).sign != (ofSub x y).overflow) = decide (x.toInt < y.toInt) := by
  have hx := x.toInt_lt
  have hx' := x.le_toInt
  have hy := y.toInt_lt
  have hy' := y.le_toInt
  have hsign : (x - y).msb = decide ((x.toInt - y.toInt).bmod 18446744073709551616 < 0) := by
    rw [BitVec.msb_eq_toInt, BitVec.toInt_sub]
  simp only [ofSub, hsign, BitVec.ssubOverflow, Int.bmod_def]
  generalize x.toInt = a at *
  generalize y.toInt = b at *
  norm_num at hx hx' hy hy' ⊢
  by_cases h1 : a < b <;> by_cases h2 : 9223372036854775808 ≤ a - b <;>
    by_cases h3 : a - b < -9223372036854775808 <;> simp [h1, h2, h3] <;> omega

end Flags

/-- Registers, flags and memory. -/
structure State where
  gpr : Gpr → Word
  xmm : Fin 16 → BitVec 128
  flags : Flags
  mem : Memory

namespace State

def setGpr (σ : State) (r : Gpr) (v : Word) : State := { σ with gpr := Function.update σ.gpr r v }

def setXmm (σ : State) (x : Fin 16) (v : BitVec 128) : State :=
  { σ with xmm := Function.update σ.xmm x v }

@[simp] lemma setGpr_gpr (σ : State) (r : Gpr) (v : Word) : (σ.setGpr r v).gpr r = v := by
  simp [setGpr]

lemma setGpr_gpr_of_ne (σ : State) {r q : Gpr} (v : Word) (h : q ≠ r) :
    (σ.setGpr r v).gpr q = σ.gpr q := by
  simp [setGpr, h]

@[simp] lemma setGpr_self (σ : State) (r : Gpr) : σ.setGpr r (σ.gpr r) = σ := by
  simp [setGpr]

@[simp] lemma setGpr_xmm (σ : State) (r : Gpr) (v : Word) : (σ.setGpr r v).xmm = σ.xmm := rfl

@[simp] lemma setGpr_flags (σ : State) (r : Gpr) (v : Word) : (σ.setGpr r v).flags = σ.flags :=
  rfl

@[simp] lemma setGpr_mem (σ : State) (r : Gpr) (v : Word) : (σ.setGpr r v).mem = σ.mem := rfl

@[simp] lemma setXmm_xmm (σ : State) (x : Fin 16) (v : BitVec 128) :
    (σ.setXmm x v).xmm x = v := by
  simp [setXmm]

lemma setXmm_xmm_of_ne (σ : State) {x y : Fin 16} (v : BitVec 128) (h : y ≠ x) :
    (σ.setXmm x v).xmm y = σ.xmm y := by
  simp [setXmm, h]

@[simp] lemma setXmm_gpr (σ : State) (x : Fin 16) (v : BitVec 128) :
    (σ.setXmm x v).gpr = σ.gpr := rfl

@[simp] lemma setXmm_flags (σ : State) (x : Fin 16) (v : BitVec 128) :
    (σ.setXmm x v).flags = σ.flags := rfl

@[simp] lemma setXmm_mem (σ : State) (x : Fin 16) (v : BitVec 128) :
    (σ.setXmm x v).mem = σ.mem := rfl

end State

end NativeCode.Machine

namespace NativeCode

/-- A register after a write to its low part. One and two bytes leave the rest, four bytes clear
it. -/
def Width.insert : Width → Word → Word → Word
  | .byte, old, v => old.extractLsb' 8 56 ++ v.setWidth 8
  | .word, old, v => old.extractLsb' 16 48 ++ v.setWidth 16
  | .long, _, v => Width.long.zeroExtend v
  | .quad, _, v => v

@[simp] lemma Width.insert_quad (old v : Word) : Width.quad.insert old v = v := rfl

@[simp] lemma Width.insert_long (old v : Word) :
    Width.long.insert old v = Width.long.zeroExtend v := rfl

def Precision.low (p : Precision) (v : BitVec 128) : Word := (v.setWidth (8 * p.bytes)).setWidth 64

def Precision.width : Precision → Width
  | .single => .long
  | .double => .quad

@[simp] lemma Precision.bytes_width (p : Precision) : p.width.bytes = p.bytes := by
  cases p <;> rfl

lemma Precision.low_setWidth (p : Precision) (v : Word) :
    p.low (v.setWidth 128) = p.width.zeroExtend v := by
  have h : 8 * p.bytes ≤ 128 := by cases p <;> decide
  rw [low, BitVec.setWidth_setWidth_of_le _ h, Width.zeroExtend, Width.bits, bytes_width]

/-- A vector register after a scalar operation on its low part. -/
def Precision.insert : Precision → BitVec 128 → Word → BitVec 128
  | .single, old, v => old.extractLsb' 32 96 ++ v.setWidth 32
  | .double, old, v => old.extractLsb' 64 64 ++ v

end NativeCode
