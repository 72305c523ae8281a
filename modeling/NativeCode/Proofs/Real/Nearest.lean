import Mathlib
import NativeCode.Real.Binary

/-!
# Nearest floats

The bits of floats without sign count the floats in the order of their numbers, also past infinity,
if there were no largest exponent. The nearest float of a number is then the one between whose
halfway points the number lies, with ties to even bits. Encoding finds it: the significand is
rounded to an integer at the exponent of the number, and a significand that is rounded up to the
next power of two gives the bits of that power.
-/

namespace NativeCode.Real

namespace Format

variable (f : Format)

/-- The number of float bits without sign, as if there were no largest exponent. -/
def number (b : Nat) : ℚ :=
  (b - (b / 2 ^ f.fractionBits - 1) * 2 ^ f.fractionBits : ℕ) *
    2 ^ (f.minExponent + (b / 2 ^ f.fractionBits - 1 : ℕ))

def halfway (b : Nat) : ℚ := (f.number b + f.number (b + 1)) / 2

/-- The float nearest to a number, if there were no largest exponent; of two that are equally near
it is the one with even bits. -/
structure Nearest (x : ℚ) (b : Nat) : Prop where
  near : ∀ b', |x - f.number b| ≤ |x - f.number b'|
  even : ∀ b', b' ≠ b → |x - f.number b| = |x - f.number b'| → Even b

/-- The bits that a number is rounded to: those of the nearest float, or of infinity. -/
def Rounds (x : ℚ) (bits : Nat) : Prop := ∃ b, f.Nearest x b ∧ bits = min b f.infinity

variable {f} {b s m : Nat} {x : ℚ}

lemma number_mul_add (hm : m ≤ 2 * 2 ^ f.fractionBits) (h : 2 ^ f.fractionBits ≤ m ∨ s = 0) :
    f.number (s * 2 ^ f.fractionBits + m) = m * 2 ^ (f.minExponent + s) := by
  have hP : 0 < 2 ^ f.fractionBits := by positivity
  unfold number
  generalize 2 ^ f.fractionBits = P at *
  rcases hm.lt_or_eq with hlt | rfl
  · have hdiv : (s * P + m) / P - 1 = s := by
      rw [Nat.mul_comm, Nat.mul_add_div hP]
      rcases h with h | rfl
      · have : m / P = 1 := Nat.div_eq_of_lt_le (by omega) (by omega)
        omega
      · have : m / P ≤ 1 := Nat.le_of_lt_succ (Nat.div_lt_of_lt_mul (by omega))
        omega
    rw [hdiv, Nat.add_sub_cancel_left]
  · have hdiv : (s * P + 2 * P) / P - 1 = s + 1 := by
      rw [← Nat.add_mul, Nat.mul_div_cancel _ hP]
      rfl
    have hrest : s * P + 2 * P - (s + 1) * P = P := by
      rw [← Nat.add_mul, ← Nat.sub_mul]
      simp
    rw [hdiv, hrest, Nat.cast_add, Nat.cast_one, ← add_assoc, zpow_add_one₀ (by norm_num)]
    push_cast
    ring

lemma exists_split (f : Format) (b : Nat) :
    ∃ s m, b = s * 2 ^ f.fractionBits + m ∧ m < 2 * 2 ^ f.fractionBits ∧
      (2 ^ f.fractionBits ≤ m ∨ s = 0) := by
  have hP : 0 < 2 ^ f.fractionBits := by positivity
  generalize 2 ^ f.fractionBits = P at *
  have hdiv := Nat.div_add_mod b P
  have hmod := Nat.mod_lt b hP
  by_cases h : b < P
  · exact ⟨0, b, by omega, by omega, Or.inr rfl⟩
  · have hpos : 1 ≤ b / P := (Nat.le_div_iff_mul_le hP).mpr (by omega)
    refine ⟨b / P - 1, b % P + P, ?_, by omega, Or.inl (by omega)⟩
    obtain ⟨q, hq⟩ := Nat.exists_eq_add_of_le hpos
    rw [hq] at hdiv ⊢
    rw [Nat.add_sub_cancel_left]
    linarith [Nat.mul_add P 1 q, Nat.mul_comm P q]

lemma number_mul_add_succ (hm : m < 2 * 2 ^ f.fractionBits) (h : 2 ^ f.fractionBits ≤ m ∨ s = 0) :
    f.number (s * 2 ^ f.fractionBits + m + 1) = (m + 1) * 2 ^ (f.minExponent + s) := by
  have hnext := number_mul_add (f := f) (s := s) (m := m + 1) hm (h.imp_left (by omega))
  exact_mod_cast hnext

lemma halfway_mul_add (hm : m < 2 * 2 ^ f.fractionBits) (h : 2 ^ f.fractionBits ≤ m ∨ s = 0) :
    f.halfway (s * 2 ^ f.fractionBits + m) = (m + 1 / 2) * 2 ^ (f.minExponent + s) := by
  rw [halfway, number_mul_add hm.le h, number_mul_add_succ hm h]
  ring

lemma number_strictMono (f : Format) : StrictMono f.number := by
  refine strictMono_nat_of_lt_succ fun b => ?_
  obtain ⟨s, m, rfl, hm, h⟩ := exists_split f b
  rw [number_mul_add hm.le h, number_mul_add_succ hm h]
  exact mul_lt_mul_of_pos_right (lt_add_one _) (by positivity)

lemma halfway_strictMono (f : Format) : StrictMono f.halfway := fun a b h => by
  have h₁ := f.number_strictMono h
  have h₂ := f.number_strictMono (Nat.succ_lt_succ h)
  simp only [halfway, Nat.succ_eq_add_one] at *
  linarith

lemma number_zero (f : Format) : f.number 0 = 0 := by simp [number]

lemma number_lt_halfway (f : Format) (b : Nat) : f.number b < f.halfway b := by
  have h : f.number b < f.number (b + 1) := f.number_strictMono (Nat.lt_succ_self b)
  rw [halfway]
  linarith

lemma halfway_lt_number (f : Format) (b : Nat) : f.halfway b < f.number (b + 1) := by
  have h : f.number b < f.number (b + 1) := f.number_strictMono (Nat.lt_succ_self b)
  rw [halfway]
  linarith

lemma abs_le_iff_le_mid {p q : ℚ} (h : p < q) : |x - p| ≤ |x - q| ↔ x ≤ (p + q) / 2 := by
  constructor <;> intro hx <;> rcases abs_cases (x - p) with h₁ | h₁ <;>
    rcases abs_cases (x - q) with h₂ | h₂ <;> linarith

lemma abs_le_iff_mid_le {p q : ℚ} (h : p < q) : |x - q| ≤ |x - p| ↔ (p + q) / 2 ≤ x := by
  constructor <;> intro hx <;> rcases abs_cases (x - p) with h₁ | h₁ <;>
    rcases abs_cases (x - q) with h₂ | h₂ <;> linarith

/-- The nearest float lies between its two halfway points. -/
theorem nearest_iff : f.Nearest x b ↔
    (x ≤ f.halfway b ∧ (x = f.halfway b → Even b)) ∧
      ∀ a, b = a + 1 → f.halfway a ≤ x ∧ (x = f.halfway a → Even b) := by
  have hmono := f.number_strictMono
  constructor
  · rintro ⟨hnear, heven⟩
    have hnext (a : Nat) : f.number a < f.number (a + 1) := hmono (Nat.lt_succ_self a)
    refine ⟨⟨(abs_le_iff_le_mid (hnext b)).mp (hnear _), fun h => ?_⟩, ?_⟩
    · refine heven (b + 1) (by omega) (le_antisymm (hnear _) ?_)
      exact (abs_le_iff_mid_le (hnext b)).mpr h.ge
    · rintro a rfl
      refine ⟨(abs_le_iff_mid_le (hnext a)).mp (hnear a), fun h => ?_⟩
      refine heven a (by omega) (le_antisymm (hnear _) ?_)
      exact (abs_le_iff_le_mid (hnext a)).mpr h.le
  · rintro ⟨⟨hhi, htie⟩, hlow⟩
    -- a float above is at least the next one, and one below at most the one before
    have hcases (b' : Nat) (hne : b' ≠ b) : |x - f.number b| ≤ |x - f.number b'| ∧
        (|x - f.number b| = |x - f.number b'| → Even b) := by
      rcases Nat.lt_or_gt_of_ne hne with hlt | hgt
      · obtain ⟨a, rfl⟩ := Nat.exists_eq_add_one_of_ne_zero (Nat.ne_zero_of_lt hlt)
        obtain ⟨hlo, htie'⟩ := hlow a rfl
        have hmid : (f.number b' + f.number (a + 1)) / 2 ≤ f.halfway a := by
          have := hmono.monotone (Nat.le_of_lt_succ hlt)
          rw [halfway]
          linarith
        refine ⟨(abs_le_iff_mid_le (hmono hlt)).mpr (hmid.trans hlo), fun heq => htie' ?_⟩
        exact le_antisymm (((abs_le_iff_le_mid (hmono hlt)).mp heq.ge).trans hmid) hlo
      · have hmid : f.halfway b ≤ (f.number b + f.number b') / 2 := by
          have : f.number (b + 1) ≤ f.number b' := hmono.monotone hgt
          rw [halfway]
          linarith
        refine ⟨(abs_le_iff_le_mid (hmono hgt)).mpr (hhi.trans hmid), fun heq => htie ?_⟩
        exact le_antisymm hhi (hmid.trans ((abs_le_iff_mid_le (hmono hgt)).mp heq.ge))
    refine ⟨fun b' => ?_, fun b' hne => (hcases b' hne).2⟩
    by_cases hne : b' = b
    · rw [hne]
    · exact (hcases b' hne).1

lemma Nearest.le_of_halfway_lt {a : Nat} (h : f.Nearest x b) (ha : f.halfway a < x) : a < b :=
  f.halfway_strictMono.lt_iff_lt.mp (ha.trans_le (nearest_iff.mp h).1.1)

lemma Nearest.le_of_lt_halfway {a : Nat} (h : f.Nearest x b) (ha : x < f.halfway a) : b ≤ a := by
  cases b with
  | zero => exact Nat.zero_le a
  | succ c =>
    have hlow := ((nearest_iff.mp h).2 c rfl).1
    exact f.halfway_strictMono.lt_iff_lt.mp (hlow.trans_lt ha)

end Format

/-! ### Rounded quotients -/

/-- The integer nearest to a number, the even one of two that are equally near. -/
private def RoundsTo (y : ℚ) (m : Nat) : Prop :=
  (y ≤ m + 1 / 2 ∧ (y = m + 1 / 2 → Even m)) ∧ ((m : ℚ) - 1 / 2 ≤ y ∧ (y = m - 1 / 2 → Even m))

lemma roundsTo_divNearest (num : Nat) {den : Nat} (hden : 0 < den) :
    RoundsTo (num / den) (divNearest num den) := by
  have hdiv : (num : ℚ) = den * (num / den : ℕ) + (num % den : ℕ) := by
    exact_mod_cast (Nat.div_add_mod num den).symm
  have hlt : ((num % den : ℕ) : ℚ) < den := by exact_mod_cast Nat.mod_lt num hden
  have hpos : (0 : ℚ) < den := by exact_mod_cast hden
  have hrest : (0 : ℚ) ≤ (num % den : ℕ) := Nat.cast_nonneg _
  have hquot : (num : ℚ) / den = (num / den : ℕ) + (num % den : ℕ) / den := by
    rw [hdiv]
    field_simp
  have hle : ((num % den : ℕ) : ℚ) / den < 1 := (div_lt_one hpos).mpr hlt
  have hnonneg : (0 : ℚ) ≤ (num % den : ℕ) / den := by positivity
  rw [hquot, divNearest, RoundsTo]
  have hhalf : ((num % den : ℕ) : ℚ) / den = 1 / 2 ↔ 2 * (num % den) = den := by
    rw [div_eq_div_iff hpos.ne' (by norm_num), one_mul, mul_comm]
    exact_mod_cast Iff.rfl
  have hbelow : ((num % den : ℕ) : ℚ) / den < 1 / 2 ↔ 2 * (num % den) < den := by
    rw [div_lt_div_iff₀ hpos (by norm_num), one_mul, mul_comm]
    exact_mod_cast Iff.rfl
  generalize ((num % den : ℕ) : ℚ) / den = r at *
  split_ifs with h₁ h₂ h₃
  · have := hbelow.mpr h₁
    refine ⟨⟨by linarith, fun h => ?_⟩, by linarith, fun h => ?_⟩ <;> linarith
  · have h := mt hbelow.mp h₁
    have hne := mt hhalf.mp h₂.ne'
    have hgt : 1 / 2 < r := lt_of_le_of_ne (not_lt.mp h) (Ne.symm hne)
    push_cast
    refine ⟨⟨by linarith, fun h => ?_⟩, by linarith, fun h => ?_⟩ <;> linarith
  · have hr : r = 1 / 2 := hhalf.mpr (by omega)
    have heven : Even (num / den) := Nat.even_iff.mpr h₃
    exact ⟨⟨by linarith, fun _ => heven⟩, by linarith, fun _ => heven⟩
  · have hr : r = 1 / 2 := hhalf.mpr (by omega)
    have heven : Even (num / den + 1) := by
      rw [Nat.even_add_one, Nat.even_iff]
      exact h₃
    push_cast
    exact ⟨⟨by linarith, fun _ => heven⟩, by linarith, fun _ => heven⟩

lemma roundsTo_scaledNearest (num : Nat) {den : Nat} (hden : 0 < den) (e : Int) :
    RoundsTo (num / den / 2 ^ e) (scaledNearest 2 num den e) := by
  rw [scaledNearest]
  split_ifs with he
  · obtain ⟨n, rfl⟩ := Int.eq_ofNat_of_zero_le he
    have h := roundsTo_divNearest num (show 0 < den * 2 ^ n by positivity)
    rw [div_div, zpow_natCast]
    exact_mod_cast h
  · obtain ⟨n, rfl⟩ : ∃ n : ℕ, e = -n := ⟨(-e).toNat, by omega⟩
    have h := roundsTo_divNearest (num * 2 ^ n) hden
    rw [zpow_neg, zpow_natCast, div_inv_eq_mul, div_mul_eq_mul_div]
    rw [neg_neg, Int.toNat_natCast]
    exact_mod_cast h

lemma log2Quot_le {num den : Nat} (hnum : 0 < num) (hden : 0 < den) :
    (2 : ℚ) ^ log2Quot num den ≤ num / den ∧ (num / den : ℚ) < 2 ^ (log2Quot num den + 1) := by
  have hpos : (0 : ℚ) < den := by exact_mod_cast hden
  rw [log2Quot, le_div_iff₀ hpos, div_lt_iff₀ hpos]
  split_ifs with h
  · have hle : 2 ^ (num / den).log2 * den ≤ num :=
      (Nat.le_div_iff_mul_le hden).mp (Nat.log2_self_le (Nat.div_pos h hden).ne')
    have hlt : num < 2 ^ ((num / den).log2 + 1) * den :=
      (Nat.div_lt_iff_lt_mul hden).mp Nat.lt_log2_self
    rw [zpow_natCast, ← Nat.cast_succ, zpow_natCast]
    exact ⟨by exact_mod_cast hle, by exact_mod_cast hlt⟩
  · have hq : (den - 1) / num ≠ 0 := (Nat.div_pos (by omega) hnum).ne'
    have hle : 2 ^ ((den - 1) / num).log2 * num ≤ den - 1 :=
      (Nat.le_div_iff_mul_le hnum).mp (Nat.log2_self_le hq)
    have hlt : den - 1 < 2 ^ (((den - 1) / num).log2 + 1) * num :=
      (Nat.div_lt_iff_lt_mul hnum).mp Nat.lt_log2_self
    generalize ((den - 1) / num).log2 = l at *
    have hsucc : -((l : ℤ) + 1) + 1 = -(l : ℤ) := by ring
    rw [hsucc, ← Nat.cast_succ, zpow_neg, zpow_neg, zpow_natCast, zpow_natCast,
      inv_mul_le_iff₀ (by positivity), lt_inv_mul_iff₀ (by positivity)]
    constructor
    · exact_mod_cast (by omega : den ≤ 2 ^ (l + 1) * num)
    · exact_mod_cast (by omega : 2 ^ l * num < den)

namespace Format

variable {f : Format} {s m num den : Nat} {x : ℚ}

lemma nearest_of_roundsTo (hbits : 1 ≤ f.fractionBits)
    (hm : RoundsTo (x / 2 ^ (f.minExponent + s)) m)
    (hlt : x < 2 * 2 ^ f.fractionBits * 2 ^ (f.minExponent + s))
    (hle : 2 ^ f.fractionBits * 2 ^ (f.minExponent + s) ≤ x ∨ s = 0) :
    f.Nearest x (s * 2 ^ f.fractionBits + m) := by
  obtain ⟨u, hu⟩ : ∃ u : ℚ, u = 2 ^ (f.minExponent + s) := ⟨_, rfl⟩
  have hupos : 0 < u := hu ▸ by positivity
  rw [← hu] at hm hlt hle
  obtain ⟨y, rfl⟩ : ∃ y, x = y * u := ⟨x / u, by field_simp⟩
  rw [mul_div_cancel_right₀ _ hupos.ne'] at hm
  have hy : y < 2 * 2 ^ f.fractionBits := lt_of_mul_lt_mul_right hlt hupos.le
  obtain ⟨⟨hhi, hhi'⟩, hlo, hlo'⟩ := hm
  have hm₂ : m ≤ 2 * 2 ^ f.fractionBits := by
    have : (m : ℚ) < 2 * 2 ^ f.fractionBits + 1 := by linarith
    exact Nat.lt_succ_iff.mp (by exact_mod_cast this)
  have hm₁ : 2 ^ f.fractionBits ≤ m ∨ s = 0 := by
    refine hle.imp_left fun h => ?_
    have hy' : 2 ^ f.fractionBits ≤ y := le_of_mul_le_mul_right h hupos
    have : (2 ^ f.fractionBits : ℚ) < m + 1 := by linarith
    exact Nat.lt_succ_iff.mp (by exact_mod_cast this)
  have hnum := number_mul_add hm₂ hm₁
  rw [← hu] at hnum
  have heven (h : Even m) : Even (s * 2 ^ f.fractionBits + m) :=
    ((even_two.pow_of_ne_zero (by omega)).mul_left s).add h
  -- the float above has the same exponent unless the significand was rounded up to a power of two
  have habove : (m < 2 * 2 ^ f.fractionBits ∧
      f.halfway (s * 2 ^ f.fractionBits + m) = (m + 1 / 2) * u) ∨
      y * u < f.halfway (s * 2 ^ f.fractionBits + m) := by
    rcases hm₂.lt_or_eq with h | h
    · exact Or.inl ⟨h, hu ▸ halfway_mul_add h hm₁⟩
    · have hyu : y * u < m * u := by
        refine mul_lt_mul_of_pos_right ?_ hupos
        rw [h]
        exact_mod_cast hy
      exact Or.inr ((hyu.trans_eq hnum.symm).trans (f.number_lt_halfway _))
  refine nearest_iff.mpr ⟨?_, fun a ha => ?_⟩
  · rcases habove with ⟨-, h⟩ | h
    · rw [h]
      refine ⟨mul_le_mul_of_nonneg_right hhi hupos.le, fun h => heven (hhi' ?_)⟩
      exact mul_right_cancel₀ hupos.ne' h
    · exact ⟨h.le, fun heq => absurd heq h.ne⟩
  · by_cases hsame : 2 ^ f.fractionBits + 1 ≤ m ∨ s = 0
    · obtain ⟨n, rfl⟩ : ∃ n, m = n + 1 := by
        refine Nat.exists_eq_add_one_of_ne_zero ?_
        rintro rfl
        rcases hsame with h | rfl <;> omega
      obtain rfl : a = s * 2 ^ f.fractionBits + n := by omega
      have hhalf : f.halfway (s * 2 ^ f.fractionBits + n) = ((n + 1 : ℕ) - 1 / 2) * u := by
        rw [halfway_mul_add (by omega) (hsame.imp_left (by omega)), ← hu]
        push_cast
        ring
      rw [hhalf]
      refine ⟨mul_le_mul_of_nonneg_right hlo hupos.le, fun h => ?_⟩
      rw [ha]
      exact heven (hlo' (mul_right_cancel₀ hupos.ne' h))
    · -- the float below has a smaller exponent, and the number is not below its own power of two
      have hs : s ≠ 0 := fun h => hsame (Or.inr h)
      have hmP : m = 2 ^ f.fractionBits := by
        rcases hm₁ with h | h
        · omega
        · exact absurd h hs
      have hmu : m * u ≤ y * u := by
        rw [hmP]
        exact_mod_cast hle.resolve_right hs
      have hlt : f.halfway a < y * u :=
        (f.halfway_lt_number a).trans_le (by rw [← ha, hnum]; exact hmu)
      exact ⟨hlt.le, fun h => absurd h hlt.ne'⟩

/-- Encoding rounds to the nearest float. -/
theorem rounds_encode (hbits : 1 ≤ f.fractionBits) (num : Nat) (hden : 0 < den) :
    f.Rounds (num / den) (f.encode num den) := by
  rcases Nat.eq_zero_or_pos num with rfl | hnum
  · refine ⟨0, nearest_iff.mpr ⟨⟨?_, fun _ => Even.zero⟩, by omega⟩, by simp [encode]⟩
    have := f.number_strictMono Nat.zero_lt_one
    rw [number_zero] at this
    rw [halfway, number_zero, Nat.cast_zero, zero_div]
    linarith
  · obtain ⟨hle, hlt⟩ := log2Quot_le hnum hden
    have hpow (e : Int) : (2 : ℚ) ^ f.fractionBits * 2 ^ e = 2 ^ (f.fractionBits + e) := by
      rw [zpow_add₀ (by norm_num), zpow_natCast]
    rw [encode, if_neg hnum.ne']
    generalize he : max (log2Quot num den - f.fractionBits) f.minExponent = e
    have hsteps : f.minExponent + (e - f.minExponent).toNat = e := by omega
    refine ⟨_, nearest_of_roundsTo hbits ?_ ?_ ?_, rfl⟩ <;> rw [hsteps]
    · exact roundsTo_scaledNearest num hden e
    · rw [mul_assoc, hpow, ← zpow_one_add₀ (by norm_num)]
      exact hlt.trans_le (zpow_le_zpow_right₀ (by norm_num) (by omega))
    · rw [hpow]
      rcases le_total (log2Quot num den - f.fractionBits) f.minExponent with h | h
      · exact Or.inr (by omega)
      · exact Or.inl (le_of_eq_of_le (by congr 1; omega) hle)

lemma exists_nearest (hbits : 1 ≤ f.fractionBits) (hx : 0 ≤ x) : ∃ b, f.Nearest x b := by
  obtain ⟨b, hb, -⟩ := rounds_encode hbits x.num.toNat x.den_pos
  refine ⟨b, ?_⟩
  have hnum : ((x.num.toNat : ℕ) : ℚ) = x.num := by
    exact_mod_cast Int.toNat_of_nonneg (Rat.num_nonneg.mpr hx)
  rwa [hnum, Rat.num_div_den] at hb

lemma rounds_scaled (hbits : 1 ≤ f.fractionBits) {base : Nat} (hbase : 0 < base) (m : Nat)
    (e : Int) :
    f.Rounds (m * base ^ e) (if 0 ≤ e then f.encode (m * Nat.pow base e.toNat) 1
      else f.encode m (Nat.pow base (-e).toNat)) := by
  split_ifs with he
  · obtain ⟨n, rfl⟩ := Int.eq_ofNat_of_zero_le he
    have h := rounds_encode hbits (m * base ^ n) Nat.one_pos
    rw [Nat.cast_one, div_one] at h
    rw [zpow_natCast]
    exact_mod_cast h
  · obtain ⟨n, rfl⟩ : ∃ n : ℕ, e = -n := ⟨(-e).toNat, by omega⟩
    have h := rounds_encode hbits m (pow_pos hbase n)
    rw [zpow_neg, zpow_natCast, ← div_eq_mul_inv, neg_neg, Int.toNat_natCast]
    exact_mod_cast h

lemma decode_eq_finite {b : Nat} (hb : b < f.infinity) :
    ∃ m e, f.decode b = .finite m e ∧ f.number b = m * 2 ^ e := by
  have hP : 0 < 2 ^ f.fractionBits := by positivity
  have hfield : b / 2 ^ f.fractionBits < 2 ^ f.exponentBits - 1 := (Nat.div_lt_iff_lt_mul hP).mpr hb
  have hmod : b / 2 ^ f.fractionBits % 2 ^ f.exponentBits = b / 2 ^ f.fractionBits :=
    Nat.mod_eq_of_lt (hfield.trans_le (Nat.sub_le _ _))
  have hdiv := Nat.div_add_mod b (2 ^ f.fractionBits)
  simp only [decode, Nat.pow_eq, hmod, if_neg hfield.ne, number]
  split_ifs with h
  · rw [h] at hdiv ⊢
    refine ⟨_, _, rfl, ?_⟩
    simp only [Nat.mul_zero, Nat.zero_add] at hdiv
    simp [hdiv]
  · refine ⟨_, _, rfl, ?_⟩
    congr 2
    generalize 2 ^ f.fractionBits = P at *
    obtain ⟨q, hq⟩ := Nat.exists_eq_add_one_of_ne_zero h
    rw [hq, Nat.mul_add_one] at hdiv
    rw [hq, Nat.add_sub_cancel, Nat.mul_comm]
    omega

lemma number_infinity (hbits : 1 ≤ f.exponentBits) :
    f.number f.infinity = 2 ^ f.fractionBits * 2 ^ (f.minExponent + (2 ^ f.exponentBits - 2 : ℕ)) ∧
      f.halfway f.infinity =
        (2 ^ f.fractionBits + 1 / 2) * 2 ^ (f.minExponent + (2 ^ f.exponentBits - 2 : ℕ)) := by
  have hinf : f.infinity = (2 ^ f.exponentBits - 2) * 2 ^ f.fractionBits + 2 ^ f.fractionBits := by
    have htwo : 2 ≤ 2 ^ f.exponentBits := Nat.le_self_pow (by omega) 2
    rw [infinity, ← Nat.add_one_mul]
    congr 1
    exact (show 2 ^ f.exponentBits - 1 = _ by omega)
  have hP := Nat.one_le_two_pow (n := f.fractionBits)
  rw [hinf, number_mul_add (by omega) (Or.inl le_rfl), halfway_mul_add (by omega) (Or.inl le_rfl)]
  exact ⟨by norm_cast, by norm_cast⟩

lemma exists_number_eq (hm : m ≤ 2 * 2 ^ f.fractionBits) (k : Nat) :
    ∃ b, f.number b = m * 2 ^ (f.minExponent + k) := by
  induction k generalizing m with
  | zero => exact ⟨0 * 2 ^ f.fractionBits + m, number_mul_add hm (Or.inr rfl)⟩
  | succ k ih =>
    by_cases h : 2 ^ f.fractionBits ≤ m
    · exact ⟨(k + 1) * 2 ^ f.fractionBits + m, number_mul_add hm (Or.inl h)⟩
    · obtain ⟨b, hb⟩ := ih (m := 2 * m) (by omega)
      refine ⟨b, ?_⟩
      rw [hb, Nat.cast_succ, ← add_assoc, zpow_add_one₀ (by norm_num)]
      push_cast
      ring

/-- Halfway points of singles are doubles. -/
lemma exists_halfway_eq (a : Nat) : ∃ q, double.number q = single.halfway a := by
  obtain ⟨s, m, rfl, hm, h⟩ := exists_split single a
  have hhalf := halfway_mul_add hm h
  have hbits : single.fractionBits = 23 ∧ double.fractionBits = 52 := ⟨rfl, rfl⟩
  rw [hbits.1] at hm
  obtain ⟨q, hq⟩ := exists_number_eq (f := double) (m := 2 * m + 1) (by rw [hbits.2]; omega)
    (s + 924)
  refine ⟨q, ?_⟩
  have hexp : double.minExponent + (s + 924 : ℕ) = single.minExponent + s - 1 := by
    rw [show double.minExponent = -1074 from rfl, show single.minExponent = -149 from rfl]
    push_cast
    ring
  rw [hq, hexp, hhalf, zpow_sub_one₀ (by norm_num)]
  push_cast
  ring

end Format

end NativeCode.Real
