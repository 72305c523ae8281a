import Mathlib
import NativeCode.Ir.Instr

/-!
# The order of floats

Float bits stand for a number of the extended line: finite numbers are rational, and the infinities
are its ends. Both zeros are one number. Bits that are not a number stand for nothing and are not
ordered, so that every comparison with them is false, but for the one for inequality.
-/

namespace NativeCode

/-- The format of floats of a precision. -/
def Precision.format : Precision → Real.Format
  | .single => .single
  | .double => .double

/-- What a comparison says about floats in an order; there is none if they are not ordered. -/
def Ir.BinaryOp.ofOrder (op : BinaryOp) : Option Ordering → Bool
  | none => decide (op = .ne)
  | some o =>
    match op with
    | .ne => decide (o ≠ .eq)
    | .lt => decide (o = .lt)
    | .le => decide (o ≠ .gt)
    | .gt => decide (o = .gt)
    | .ge => decide (o ≠ .lt)
    | _ => decide (o = .eq)

namespace Real.Format

open Ir (BinaryOp)

variable {f : Format} {x y : Nat}

/-- The number that float bits stand for, unless they are not a number. -/
def value? (f : Format) (bits : Nat) : Option (WithBot (WithTop ℚ)) :=
  match f.decode bits with
  | .finite significand exponent =>
    let size : ℚ := significand * 2 ^ exponent
    some (((if f.isNegative bits then -size else size : ℚ) : WithTop ℚ) : WithBot (WithTop ℚ))
  | .infinite => some (if f.isNegative bits then ⊥ else ⊤)
  | .nan => none

/-- The order of two floats, if they are ordered. -/
def order (f : Format) (x y : Nat) : Option Ordering :=
  match f.value? x, f.value? y with
  | some a, some b => some (compare a b)
  | _, _ => none

/-- What a comparison says about two floats, in this order. -/
def test (f : Format) (op : BinaryOp) (x y : Nat) : Bool :=
  match f.value? x, f.value? y with
  | some a, some b =>
    match op with
    | .ne => decide (a ≠ b)
    | .lt => decide (a < b)
    | .le => decide (a ≤ b)
    | .gt => decide (b < a)
    | .ge => decide (b ≤ a)
    | _ => decide (a = b)
  | _, _ => decide (op = .ne)

/-- Of what is not a number, every comparison is false but the one for inequality. -/
theorem test_of_unordered (h : f.value? x = none ∨ f.value? y = none) (op : BinaryOp) :
    f.test op x y = decide (op = .ne) := by
  unfold test
  rcases h with h | h
  · rw [h]
  · rw [h]
    cases f.value? x <;> rfl

-- What is not a number is not even equal to itself, while the two zeros are equal.
example : Format.single.test .eq 0x7fc00000 0x7fc00000 = false := by decide +kernel

example : Format.single.test .eq 0 0x80000000 = true := by decide +kernel

lemma order_swap (f : Format) (x y : Nat) : f.order y x = (f.order x y).map Ordering.swap := by
  unfold order
  cases f.value? x with
  | none => cases f.value? y <;> rfl
  | some a =>
    cases f.value? y with
    | none => rfl
    | some b => exact congrArg some Std.OrientedOrd.eq_swap

/-- What comparisons say in terms of the order of floats. -/
theorem test_eq_ofOrder (f : Format) (op : BinaryOp) (x y : Nat) :
    f.test op x y = op.ofOrder (f.order x y) := by
  unfold test order
  cases f.value? x with
  | none => cases op <;> rfl
  | some a =>
    cases f.value? y with
    | none => cases op <;> rfl
    | some b =>
      rcases lt_trichotomy a b with h | h | h
      · have hcompare : compare a b = .lt := compare_lt_iff_lt.mpr h
        cases op <;> simp [BinaryOp.ofOrder, hcompare, h, h.le, h.ne, h.not_gt, h.not_ge]
      · subst h
        cases op <;> simp [BinaryOp.ofOrder]
      · have hcompare : compare a b = .gt := compare_gt_iff_gt.mpr h
        cases op <;> simp [BinaryOp.ofOrder, hcompare, h, h.le, h.ne', h.not_gt, h.not_ge]

end Real.Format

end NativeCode
