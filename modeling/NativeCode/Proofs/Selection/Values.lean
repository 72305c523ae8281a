import NativeCode.Proofs.Ir.Runs
import NativeCode.Proofs.Selection.Integers

/-!
# Integers as words

A word of an integer type stands for an integer: its signed value if the type is signed, and else its
unsigned value. In these integers, extending a word by a type is wrapping around, and what an
operation makes of two words is what the operation makes of the integers.
-/

namespace NativeCode.Ir

open Machine
open Selection (intForm shiftOp)

namespace Ty

variable {ty : Ty} {w : Word} {z : Int}

@[simp] lemma ofInt_literal (ty : Ty) (w : Word) : BitVec.ofInt 64 (ty.literal w) = w := by
  unfold literal
  split_ifs
  · exact BitVec.ofInt_toInt
  · rw [BitVec.ofInt_natCast, BitVec.ofNat_toNat, BitVec.setWidth_eq]

lemma literal_injective (ty : Ty) : Function.Injective ty.literal := fun x y h => by
  rw [← ty.ofInt_literal x, h, ofInt_literal]

lemma literal_eq_zero_iff : ty.literal w = 0 ↔ w = 0 := by
  have hzero : ty.literal 0 = 0 := by
    unfold literal
    split_ifs <;> rfl
  rw [← hzero]
  exact ty.literal_injective.eq_iff

theorem literal_extend (h : ty.isInteger = true) (hw : BitVec.ofInt 64 z = w) :
    ty.literal (ty.extend w) = ty.wrap z := by
  subst hw
  have hnat : ((BitVec.ofInt 64 z).toNat : Int) = z % 2 ^ 64 := by
    rw [BitVec.toNat_ofInt]
    omega
  have hzero (w : Width) :
      ((w.zeroExtend (BitVec.ofInt 64 z)).toNat : Int) = z % 2 ^ (8 * w.bytes) := by
    rw [Width.zeroExtend, BitVec.toNat_setWidth, BitVec.toNat_setWidth]
    cases w <;> simp only [Width.bits, Width.bytes] <;> omega
  have hsign (w : Width) :
      (w.signExtend (BitVec.ofInt 64 z)).toInt = z.bmod (2 ^ (8 * w.bytes)) := by
    have hle : w.bits ≤ 64 := by cases w <;> decide
    rw [Width.signExtend, BitVec.toInt_signExtend_of_le hle, BitVec.toInt_setWidth, hnat]
    cases w <;> simp only [Width.bits, Width.bytes, Int.bmod_def] <;> omega
  cases ty with
  | int signed w =>
    cases signed with
    | true => exact hsign w
    | false => exact hzero w
  | bool => exact hzero .byte
  | ptr => exact hnat
  | float | void | array | struct => cases h

/-- The word of a value is its extension, so that it stands for the value. -/
theorem literal_ofInt (h : ty.isInteger = true) (hz : ty.Has z) :
    ty.literal (BitVec.ofInt 64 z) = z := by
  have hwrap : ty.literal (ty.extend (BitVec.ofInt 64 z)) = z := (literal_extend h rfl).trans hz
  have hextend := ty.ofInt_literal (ty.extend (BitVec.ofInt 64 z))
  rw [hwrap] at hextend
  rw [hextend, hwrap]

lemma Has.bounds {w : Width} (hz : (Ty.int true w).Has z) :
    -2 ^ (8 * w.bytes - 1) ≤ z ∧ z < 2 ^ (8 * w.bytes - 1) := by
  have hbmod : z.bmod (2 ^ (8 * w.bytes)) = z := hz
  rw [Int.bmod_def] at hbmod
  cases w <;> simp only [Width.bytes] at hbmod ⊢ <;> omega

end Ty

namespace BinaryOp

variable {ty : Ty}

/-- Comparisons of words are comparisons of integers. -/
theorem test_eq_orders (op : BinaryOp) (ty : Ty) (x y : Word) :
    op.test ty.isSigned x y = op.orders (ty.literal x) (ty.literal y) := by
  have heq : ty.literal x = ty.literal y ↔ x = y := ty.literal_injective.eq_iff
  unfold test orders
  cases op with
  | ne | eq | add | sub | mul | div | and | or | xor | shl | shr => simp only [heq, ne_eq]
  | lt | le | gt | ge =>
    unfold Ty.literal
    split_ifs <;> simp only [Nat.cast_lt, Nat.cast_le]

lemma map_fst_divide?_signed {y : Word} (hy : y ≠ 0) (x : Word) :
    (divide? true (highWord true x) x y).map Prod.fst =
      if x.toInt.tdiv y.toInt = 2 ^ 63 then none else some (BitVec.ofInt 64 (x.toInt.tdiv y.toInt)) := by
  have hdividend : (highWord true x ++ x).toInt = x.toInt := by
    rw [BitVec.toInt_append, BitVec.toInt_eq_msb_cond x, highWord, Bool.true_and]
    cases x.msb <;> simp
    omega
  have habs : (x.toInt.tdiv y.toInt).natAbs ≤ x.toInt.natAbs := by
    rw [Int.natAbs_tdiv]
    exact Nat.div_le_self _ _
  have hlt := x.toInt_lt
  have hle := x.le_toInt
  simp only [divide?, if_neg hy, if_true, hdividend]
  by_cases hq : x.toInt.tdiv y.toInt = 2 ^ 63
  · rw [if_neg (by omega), if_pos hq]
    rfl
  · rw [if_pos (by omega), if_neg hq]
    rfl

lemma map_fst_divide?_unsigned {y : Word} (hy : y ≠ 0) (x : Word) :
    (divide? false (highWord false x) x y).map Prod.fst =
      some (BitVec.ofInt 64 ((x.toNat : Int).tdiv y.toNat)) := by
  have hdividend : (highWord false x ++ x).toNat = x.toNat := by
    rw [BitVec.toNat_append, highWord]
    simp
  have hlt : x.toNat / y.toNat < 18446744073709551616 :=
    (Nat.div_le_self _ _).trans_lt x.isLt
  have hquot : (x.toNat : Int).tdiv y.toNat = (x.toNat / y.toNat : Nat) := rfl
  simp only [divide?, if_neg hy, Bool.false_eq_true, if_false, hdividend, if_pos hlt, hquot,
    BitVec.ofInt_natCast]
  rfl

lemma map_fst_divide? (ty : Ty) (x y : Word) :
    (divide? ty.isSigned (highWord ty.isSigned x) x y).map Prod.fst =
      (quotient? ty (ty.literal x) (ty.literal y)).map (BitVec.ofInt 64) := by
  by_cases hy : y = 0
  · have hzero : ty.literal y = 0 := Ty.literal_eq_zero_iff.mpr hy
    rw [divide?, if_pos hy, quotient?, if_pos (Or.inl hzero)]
    rfl
  have hzero : ty.literal y ≠ 0 := fun h => hy (Ty.literal_eq_zero_iff.mp h)
  rw [quotient?]
  simp only [hzero, false_or]
  cases hs : ty.isSigned with
  | true =>
    rw [map_fst_divide?_signed hy, Ty.literal, Ty.literal, hs]
    simp only [if_true, true_and]
    split_ifs <;> rfl
  | false =>
    rw [map_fst_divide?_unsigned hy, Ty.literal, Ty.literal, hs]
    simp

lemma toNat_literal_emod (ty : Ty) (y : Word) :
    (ty.literal y % 64).toNat = y.toNat % 64 := by
  have hmod : ty.literal y % 64 = (y.toNat : Int) % 64 := by
    unfold Ty.literal
    split_ifs
    · rw [BitVec.toInt_eq_toNat_cond]
      split_ifs <;> omega
    · rfl
  omega

lemma ofInt_shift (ty : Ty) (x : Word) (n : Nat) :
    BitVec.ofInt 64 (ty.literal x * 2 ^ n) = (shiftOp false ty).apply x n ∧
      BitVec.ofInt 64 (ty.literal x / 2 ^ n) = (shiftOp true ty).apply x n := by
  have hpow : (2 : Int) ^ n = (2 ^ n : Nat) := by push_cast; rfl
  rw [hpow]
  constructor
  · have htwo : BitVec.ofNat 64 (2 ^ n) = BitVec.twoPow 64 n :=
      BitVec.eq_of_toNat_eq (by rw [BitVec.toNat_ofNat, BitVec.toNat_twoPow])
    rw [BitVec.ofInt_mul, Ty.ofInt_literal, BitVec.ofInt_natCast, htwo,
      ← BitVec.shiftLeft_eq_mul_twoPow]
    rfl
  · cases hs : ty.isSigned with
    | true =>
      rw [Ty.literal, shiftOp, hs, if_pos rfl, ← Int.shiftRight_eq_div_pow, ← BitVec.sshiftRight_eq]
      rfl
    | false =>
      rw [Ty.literal, shiftOp, hs, if_neg (by decide), ← Int.natCast_ediv, BitVec.ofInt_natCast,
        ← Nat.shiftRight_eq_div_pow, ← BitVec.toNat_ushiftRight, BitVec.ofNat_toNat,
        BitVec.setWidth_eq]
      rfl

theorem literal_onWords (op : BinaryOp) (h : ty.isInteger = true) (x y : Word) :
    (op.onWords ty x y).map (op.resultTy ty).literal =
      op.eval ty (ty.literal x) (ty.literal y) := by
  have hbool (c : Bool) : Ty.bool.literal (if c then 1 else 0) = if c then 1 else 0 := by
    cases c <;> rfl
  cases op with
  | add =>
    refine congrArg some (Ty.literal_extend h ?_)
    rw [BitVec.ofInt_add, Ty.ofInt_literal, Ty.ofInt_literal]
    rfl
  | sub =>
    refine congrArg some (Ty.literal_extend h ?_)
    rw [Int.sub_eq_add_neg, BitVec.ofInt_add, BitVec.ofInt_neg, Ty.ofInt_literal, Ty.ofInt_literal,
      ← BitVec.sub_eq_add_neg]
    rfl
  | mul =>
    refine congrArg some (Ty.literal_extend h ?_)
    rw [BitVec.ofInt_mul, Ty.ofInt_literal, Ty.ofInt_literal]
    rfl
  | and | or | xor =>
    refine congrArg some (Ty.literal_extend h ?_)
    rw [bitwise, BitVec.ofInt_toInt, Ty.ofInt_literal, Ty.ofInt_literal]
    rfl
  | div =>
    have hquot := map_fst_divide? ty x y
    change ((divide? ty.isSigned (highWord ty.isSigned x) x y).map fun r => ty.extend r.1).map
      ty.literal = (quotient? ty (ty.literal x) (ty.literal y)).map ty.wrap
    cases hq : quotient? ty (ty.literal x) (ty.literal y) with
    | none =>
      rw [hq, Option.map_none, Option.map_eq_none_iff] at hquot
      rw [hquot]
      rfl
    | some q =>
      rw [hq, Option.map_some, Option.map_eq_some_iff] at hquot
      obtain ⟨r, hr, hfst⟩ := hquot
      rw [hr]
      exact congrArg some (Ty.literal_extend h hfst.symm)
  | shl =>
    refine congrArg some (Ty.literal_extend h ?_)
    rw [toNat_literal_emod]
    exact (ofInt_shift ty x _).1
  | shr =>
    refine congrArg some (Ty.literal_extend h ?_)
    rw [toNat_literal_emod]
    exact (ofInt_shift ty x _).2
  | eq | ne | lt | le | gt | ge =>
    refine congrArg some ?_
    rw [test_eq_orders]
    exact hbool _

/-! ### Operations on values -/

variable {op : BinaryOp} {x y z : Int}

/-- The result of an operation is a value of its type. -/
theorem has_eval (h : op.eval ty x y = some z) : (op.resultTy ty).Has z := by
  cases op with
  | div =>
    obtain ⟨q, -, rfl⟩ := Option.map_eq_some_iff.mp h
    exact ty.has_wrap q
  | add | sub | mul | and | or | xor | shl | shr =>
    cases h
    exact ty.has_wrap _
  | eq | ne | lt | le | gt | ge =>
    cases h
    change Ty.bool.Has _
    split_ifs <;> decide

lemma tdiv_eq_two_pow_iff (hlo : -2 ^ 63 ≤ x) (hhi : x < 2 ^ 63) :
    x.tdiv y = 2 ^ 63 ↔ x = -2 ^ 63 ∧ y = -1 := by
  constructor
  · intro hquot
    have habs : x.natAbs / y.natAbs = 2 ^ 63 := by
      have h := Int.natAbs_tdiv x y
      rw [hquot] at h
      exact h.symm
    have hmul : 2 ^ 63 * y.natAbs ≤ x.natAbs := by
      rw [← habs]
      exact Nat.div_mul_le_self _ _
    have hpos : y.natAbs ≠ 0 := by
      intro hzero
      rw [hzero, Nat.div_zero] at habs
      cases habs
    have hx : x = -2 ^ 63 := by omega
    have hy : y = 1 ∨ y = -1 := by omega
    rcases hy with rfl | rfl
    · subst hx
      cases hquot
    · exact ⟨hx, rfl⟩
  · rintro ⟨rfl, rfl⟩
    decide

/-- Two values have no quotient of 64 bits if the divisor is zero, or if the smallest value of the
widest signed type is divided by minus one. -/
lemma quotient?_eq_none_iff (hx : ty.Has x) :
    quotient? ty x y = none ↔ y = 0 ∨ ty = .i64 ∧ x = -2 ^ 63 ∧ y = -1 := by
  have hiff : quotient? ty x y = none ↔ y = 0 ∨ ty.isSigned = true ∧ x.tdiv y = 2 ^ 63 := by
    rw [quotient?]
    split_ifs with h
    · exact iff_of_true rfl h
    · exact iff_of_false nofun h
  rw [hiff]
  refine or_congr_right ⟨fun ⟨hsigned, hquot⟩ => ?_, ?_⟩
  · cases ty with
    | int signed w =>
      cases signed with
      | false => cases hsigned
      | true =>
        have hrange := hx.bounds
        have hvalues : x = -2 ^ 63 ∧ y = -1 := by
          refine (tdiv_eq_two_pow_iff ?_ ?_).mp hquot <;>
            cases w <;> simp only [Width.bytes] at hrange <;> omega
        refine ⟨?_, hvalues⟩
        cases w <;> simp only [Width.bytes] at hrange
        case quad => rfl
        all_goals omega
    | bool | ptr | float | void | array | struct => cases hsigned
  · rintro ⟨rfl, rfl, rfl⟩
    exact ⟨rfl, by decide⟩

theorem eval_eq_none_iff (hx : ty.Has x) :
    op.eval ty x y = none ↔ op = .div ∧ (y = 0 ∨ ty = .i64 ∧ x = -2 ^ 63 ∧ y = -1) := by
  cases op with
  | div => simpa [eval] using quotient?_eq_none_iff hx
  | _ => simp [eval]

end BinaryOp

end NativeCode.Ir
