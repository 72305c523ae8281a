import Mathlib
import NativeCode.Word

/-!
# Byte-addressed memory

Memory has a byte at every 64-bit address, and addresses wrap around. Words lie in memory with
their lowest byte first. Places are given as displacements from a base address, and a displacement
is an integer: two runs of bytes at displacements from one base are *apart* when no byte belongs to
both, on the circle of addresses.
-/

namespace NativeCode

/-- The low bits of a word at a width, the bits above cleared. -/
def Width.zeroExtend (w : Width) (v : Word) : Word := (v.setWidth w.bits).setWidth 64

@[simp] lemma Width.zeroExtend_quad (v : Word) : Width.quad.zeroExtend v = v := by
  simp [zeroExtend, bits, bytes]

@[simp] lemma Width.signExtend_quad (v : Word) : Width.quad.signExtend v = v := by
  simp [signExtend, bits, bytes]

lemma Width.setWidth_zeroExtend (w : Width) (v : Word) :
    (w.zeroExtend v).setWidth w.bits = v.setWidth w.bits := by
  have hw : w.bits ≤ 64 := by cases w <;> decide
  rw [zeroExtend, BitVec.setWidth_setWidth_of_le _ hw, BitVec.setWidth_eq]

@[simp] lemma Width.signExtend_zeroExtend (w : Width) (v : Word) :
    w.signExtend (w.zeroExtend v) = w.signExtend v := by
  rw [signExtend, setWidth_zeroExtend, signExtend]

@[simp] lemma Width.zeroExtend_zeroExtend (w : Width) (v : Word) :
    w.zeroExtend (w.zeroExtend v) = w.zeroExtend v := by
  rw [zeroExtend, setWidth_zeroExtend, zeroExtend]

lemma Width.bytes_le (w : Width) : w.bytes ≤ 8 := by cases w <;> decide

lemma Width.bytes_pos (w : Width) : 0 < w.bytes := by cases w <;> decide

lemma Width.getLsbD_zeroExtend (w : Width) (v : Word) (i : Nat) :
    (w.zeroExtend v).getLsbD i = (decide (i < 8 * w.bytes) && v.getLsbD i) := by
  have hw := w.bytes_le
  simp only [zeroExtend, bits, BitVec.getLsbD_setWidth]
  by_cases hi : i < 8 * w.bytes
  · simp [hi, show i < 64 by omega]
  · simp [hi]

end NativeCode

namespace NativeCode.Machine

abbrev Memory := Word → BitVec 8

/-- The address at a displacement from a base. -/
def addr (base : Word) (d : Int) : Word := base + BitVec.ofInt 64 d

@[simp] lemma addr_zero (b : Word) : addr b 0 = b := by simp [addr]

@[simp] lemma addr_addr (b : Word) (d e : Int) : addr (addr b d) e = addr b (d + e) := by
  simp only [addr, BitVec.ofInt_add, BitVec.add_assoc]

lemma addr_add_ofNat (b : Word) (d : Int) (k : Nat) :
    addr b d + BitVec.ofNat 64 k = addr b (d + k) := by
  rw [addr, addr, BitVec.ofInt_add, BitVec.add_assoc, BitVec.ofInt_natCast]

lemma sub_ofInt_eq_addr (b : Word) (d : Int) : b - BitVec.ofInt 64 d = addr b (-d) := by
  rw [addr, BitVec.ofInt_neg, BitVec.sub_eq_add_neg]

lemma toNat_addr_sub_addr (b : Word) (d e : Int) :
    ((addr b d - addr b e).toNat : Int) = (d - e) % 18446744073709551616 := by
  have h : addr b d - addr b e = BitVec.ofInt 64 (d - e) := by
    rw [Int.sub_eq_add_neg, BitVec.ofInt_add, BitVec.ofInt_neg, addr, addr]
    rw [BitVec.sub_eq_add_neg, BitVec.neg_add, BitVec.sub_eq_add_neg]
    rw [show b + BitVec.ofInt 64 d + (-b + -BitVec.ofInt 64 e) =
      (b + -b) + (BitVec.ofInt 64 d + -BitVec.ofInt 64 e) by ac_rfl]
    simp
  rw [h, BitVec.toNat_ofInt]
  omega

/-- The `n` bytes from `d` on and the `k` bytes from `e` on do not meet. -/
def Apart (d : Int) (n : Nat) (e : Int) (k : Nat) : Prop :=
  (d + n ≤ e ∧ e + k ≤ d + 18446744073709551616) ∨
    (e + k ≤ d ∧ d + n ≤ e + 18446744073709551616)

namespace Memory

/-- The word of the `n` bytes from an address on, lowest byte first. -/
def load (m : Memory) (a : Word) : Nat → Word
  | 0 => 0
  | n + 1 => (m a).setWidth 64 ||| (load m (a + 1) n <<< 8)

/-- Writes the low `n` bytes of a word from an address on. -/
def store (m : Memory) (a : Word) (n : Nat) (v : Word) : Memory := fun x =>
  if (x - a).toNat < n then v.extractLsb' (8 * (x - a).toNat) 8 else m x

lemma getLsbD_load (m : Memory) (a : Word) (n i : Nat) (hi : i < 64) :
    (m.load a n).getLsbD i =
      (decide (i < 8 * n) && (m (a + BitVec.ofNat 64 (i / 8))).getLsbD (i % 8)) := by
  induction n generalizing a i with
  | zero => simp [load]
  | succ n ih =>
    rw [load, BitVec.getLsbD_or, BitVec.getLsbD_shiftLeft, BitVec.getLsbD_setWidth]
    by_cases h : i < 8
    · have h0 : i / 8 = 0 := by omega
      have h1 : i % 8 = i := by omega
      have h2 : i < 8 * (n + 1) := by omega
      simp [h, hi, h0, h1, h2]
    · have hb : (m a).getLsbD i = false := BitVec.getLsbD_of_ge _ _ (by omega)
      have h0 : (i - 8) % 8 = i % 8 := by omega
      have h1 : i / 8 = (i - 8) / 8 + 1 := by omega
      have h2 : (i - 8 < 8 * n) ↔ (i < 8 * (n + 1)) := by omega
      have h3 : a + 1 + BitVec.ofNat 64 ((i - 8) / 8) = a + BitVec.ofNat 64 (i / 8) := by
        rw [h1, BitVec.ofNat_add, BitVec.add_comm (BitVec.ofNat 64 ((i - 8) / 8)),
          BitVec.add_assoc]
        rfl
      rw [ih (a + 1) (i - 8) (by omega), h0, h3, hb]
      simp [h, hi, h2]

lemma load_congr {m m' : Memory} {a : Word} {n : Nat}
    (h : ∀ k < n, m (a + BitVec.ofNat 64 k) = m' (a + BitVec.ofNat 64 k)) :
    m.load a n = m'.load a n := by
  refine BitVec.eq_of_getLsbD_eq fun i hi => ?_
  rw [getLsbD_load m a n i hi, getLsbD_load m' a n i hi]
  by_cases hn : i < 8 * n
  · rw [h (i / 8) (by omega)]
  · simp [hn]

lemma load_addr_congr {m m' : Memory} {b : Word} {d : Int} {n : Nat}
    (h : ∀ e, d ≤ e → e < d + n → m (addr b e) = m' (addr b e)) :
    m.load (addr b d) n = m'.load (addr b d) n := by
  refine load_congr fun k hk => ?_
  rw [addr_add_ofNat]
  exact h _ (by omega) (by omega)

lemma toNat_add_ofNat_sub (a : Word) {k : Nat} (hk : k < 8) :
    (a + BitVec.ofNat 64 k - a).toNat = k := by
  rw [BitVec.add_comm, BitVec.add_sub_cancel, BitVec.toNat_ofNat]
  exact Nat.mod_eq_of_lt (by omega)

/-- A load gives back the low bytes of what was stored there. -/
theorem load_store_self (m : Memory) (a : Word) (w : Width) (v : Word) :
    (m.store a w.bytes v).load a w.bytes = w.zeroExtend v := by
  have hw := w.bytes_le
  refine BitVec.eq_of_getLsbD_eq fun i hi => ?_
  rw [getLsbD_load _ a _ i hi, w.getLsbD_zeroExtend]
  by_cases hn : i < 8 * w.bytes
  · have hk := toNat_add_ofNat_sub a (show i / 8 < 8 by omega)
    have hlt : i / 8 < w.bytes := by omega
    simp only [store, hk, hlt, if_true, hn, decide_true, Bool.true_and, BitVec.getLsbD_extractLsb']
    rw [show 8 * (i / 8) + i % 8 = i by omega, decide_eq_true (show i % 8 < 8 by omega),
      Bool.true_and]
  · simp [hn]

theorem load_of_le (m : Memory) (a : Word) (w : Width) {n : Nat} (h : w.bytes ≤ n) :
    m.load a w.bytes = w.zeroExtend (m.load a n) := by
  have hw := w.bytes_le
  refine BitVec.eq_of_getLsbD_eq fun i hi => ?_
  rw [w.getLsbD_zeroExtend, getLsbD_load m a _ i hi, getLsbD_load m a _ i hi]
  by_cases hn : i < 8 * w.bytes
  · simp [hn, show i < 8 * n by omega]
  · simp [hn]

lemma store_apart (m : Memory) (b : Word) {d e : Int} {n : Nat} (v : Word)
    (h : Apart d n e 1) : m.store (addr b d) n v (addr b e) = m (addr b e) := by
  have hd := toNat_addr_sub_addr b e d
  have hn : ¬ (addr b e - addr b d).toNat < n := by
    rcases h with h | h <;> omega
  rw [store, if_neg hn]

theorem load_store_apart (m : Memory) (b : Word) {d e : Int} {n k : Nat} (v : Word)
    (h : Apart d n e k) :
    (m.store (addr b d) n v).load (addr b e) k = m.load (addr b e) k := by
  refine load_congr fun j hj => ?_
  rw [addr_add_ofNat]
  apply store_apart
  rcases h with h | h
  · left; omega
  · right; omega

end Memory

end NativeCode.Machine
