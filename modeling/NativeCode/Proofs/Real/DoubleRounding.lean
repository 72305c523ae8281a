import NativeCode.Proofs.Real.Nearest
import NativeCode.Proofs.Ir.Ranges

/-!
# Literals in single precision

A decimal literal at the 32-bit type is rounded to a double first, and the double to a single.
Halfway points of singles are doubles, so the first rounding does not carry a number past such a
point, but it may carry it onto one. Then the second rounding goes to the even neighbour, whatever
side the number was on. These are all literals that are not rounded to the nearest single.
-/

namespace NativeCode.Text

/-! ### Decimal literals -/

inductive ExponentPart : List Char → Int → Prop
  | absent : ExponentPart [] 0
  | bare {c cs n} (hc : c = 'e' ∨ c = 'E') (h : Numeral 10 cs n) : ExponentPart (c :: cs) n
  | plus {c cs n} (hc : c = 'e' ∨ c = 'E') (h : Numeral 10 cs n) : ExponentPart (c :: '+' :: cs) n
  | minus {c cs n} (hc : c = 'e' ∨ c = 'E') (h : Numeral 10 cs n) :
    ExponentPart (c :: '-' :: cs) (-n)

/-- A decimal number without sign, with or without a point, and its value. -/
inductive Decimal : List Char → ℚ → Prop
  | whole {ds es n e} (h : Numeral 10 ds n) (he : ExponentPart es e) :
    Decimal (ds ++ es) (n * 10 ^ e)
  | point {ds fs es n e} (h : Numeral 10 (ds ++ fs) n) (he : ExponentPart es e) :
    Decimal (ds ++ '.' :: (fs ++ es)) (n * 10 ^ (e - fs.length))

/-- A decimal literal with an optional sign: whether it is negative, and its absolute value. -/
inductive Literal : List Char → Bool → ℚ → Prop
  | bare {cs x} (h : Decimal cs x) : Literal cs false x
  | plus {cs x} (h : Decimal cs x) : Literal ('+' :: cs) false x
  | minus {cs x} (h : Decimal cs x) : Literal ('-' :: cs) true x

variable {base n : Nat} {c : Char} {cs es w : List Char} {e : Int} {x : ℚ} {negative : Bool}

private def IsDecimalChar (c : Char) : Prop := (∃ d, digitBelow? 10 c = some d) ∨ c ∈ ".eE+-".toList

lemma ExponentPart.isDecimalChar (h : ExponentPart es e) (hc : c ∈ es) :
    IsDecimalChar c := by
  have hmark {d : Char} (hd : d = 'e' ∨ d = 'E') : IsDecimalChar d := by
    rcases hd with rfl | rfl <;> exact Or.inr (by decide)
  cases h with
  | absent => cases hc
  | bare hd h =>
    rcases List.mem_cons.mp hc with rfl | hc
    exacts [hmark hd, Or.inl (h.exists_digitBelow? hc)]
  | plus hd h | minus hd h =>
    rcases List.mem_cons.mp hc with rfl | hc
    · exact hmark hd
    · rcases List.mem_cons.mp hc with rfl | hc
      exacts [Or.inr (by decide), Or.inl (h.exists_digitBelow? hc)]

lemma Decimal.isDecimalChar (h : Decimal cs x) (hc : c ∈ cs) : IsDecimalChar c := by
  cases h with
  | whole h he =>
    rcases List.mem_append.mp hc with hc | hc
    exacts [Or.inl (h.exists_digitBelow? hc), he.isDecimalChar hc]
  | point h he =>
    simp only [List.mem_append, List.mem_cons] at hc
    rcases hc with hc | rfl | hc | hc
    · exact Or.inl (h.exists_digitBelow? (List.mem_append_left _ hc))
    · exact Or.inr (by decide)
    · exact Or.inl (h.exists_digitBelow? (List.mem_append_right _ hc))
    · exact he.isDecimalChar hc

lemma Literal.isDecimalChar (h : Literal w negative x) (hc : c ∈ w) : IsDecimalChar c := by
  cases h with
  | bare h => exact h.isDecimalChar hc
  | plus h | minus h =>
    rcases List.mem_cons.mp hc with rfl | hc
    exacts [Or.inr (by decide), h.isDecimalChar hc]

lemma IsDecimalChar.ne (h : IsDecimalChar c) {d : Char} (hdigit : digitBelow? 10 d = none)
    (hd : d ∉ ".eE+-".toList) : c ≠ d := by
  rintro rfl
  rcases h with ⟨v, hv⟩ | h
  · rw [hdigit] at hv
    cases hv
  · exact hd h

lemma Decimal.exists_cons (h : Decimal cs x) : ∃ c cs', cs = c :: cs' ∧
    ((∃ d, digitBelow? 10 c = some d) ∨ c = '.') := by
  cases h with
  | whole h he =>
    obtain ⟨c, cs, rfl⟩ := List.exists_cons_of_ne_nil h.1
    exact ⟨c, _, rfl, Or.inl (h.exists_digitBelow? List.mem_cons_self)⟩
  | @point ds _ _ _ _ h he =>
    cases ds with
    | nil => exact ⟨'.', _, rfl, Or.inr rfl⟩
    | cons c ds => exact ⟨c, _, rfl, Or.inl (h.exists_digitBelow? List.mem_cons_self)⟩

end NativeCode.Text

namespace NativeCode.Real

open Text

variable {n : Nat} {c : Char} {cs ds es rest : List Char} {e : Int} {x : ℚ}

lemma spanDigits_append (h : ∀ c ∈ ds, ∃ d, digitBelow? 10 c = some d)
    (hrest : ∀ c ∈ rest.head?, digitBelow? 10 c = none) :
    spanDigits 10 (ds ++ rest) = (ds, rest) := by
  have hds : ∀ c ∈ ds, (digitBelow? 10 c).isSome = true := fun c hc =>
    Option.isSome_iff_exists.mpr (h c hc)
  rw [spanDigits, List.span_eq_takeWhile_dropWhile, List.takeWhile_append_of_pos hds,
    List.dropWhile_append_of_pos hds]
  cases rest with
  | nil => simp
  | cons c rest =>
    have hc := hrest c rfl
    simp [hc]

lemma exponentPart?_of (h : ExponentPart es e) : exponentPart? 'e' es = some e := by
  have hmark {d : Char} (hd : d = 'e' ∨ d = 'E') : d.toLower = 'e' := by
    rcases hd with rfl | rfl <;> decide
  cases h with
  | absent => rfl
  | @bare c cs n hd h =>
    rw [exponentPart?, if_pos (hmark hd), exponent?, h.digits?]
    · rfl
    all_goals
      rintro cs' rfl
      exact h.ne List.mem_cons_self (by decide) rfl
  | plus hd h | minus hd h =>
    rw [exponentPart?, if_pos (hmark hd), exponent?, h.digits?]
    rfl

lemma head?_exponentPart (h : ExponentPart es e) :
    ∀ c ∈ es.head?, digitBelow? 10 c = none ∧ c ≠ '.' := by
  have hmark {d c : Char} {cs : List Char} (hd : d = 'e' ∨ d = 'E') (hc : c ∈ (d :: cs).head?) :
      digitBelow? 10 c = none ∧ c ≠ '.' := by
    cases hc
    rcases hd with rfl | rfl <;> decide
  intro c hc
  cases h with
  | absent => cases hc
  | bare hd | plus hd | minus hd => exact hmark hd hc

lemma numeral?_of_decimal (h : Decimal cs x) :
    ∃ m e, numeral? cs = some (.decimal m e) ∧ x = m * 10 ^ e := by
  have hhex {d : Char} (hd : digitBelow? 10 d = none) (hd' : d ∉ ".eE+-".toList)
    (rest : List Char) :
      cs ≠ '0' :: d :: rest := by
    rintro rfl
    exact (h.isDecimalChar (c := d) (by simp)).ne hd hd' rfl
  rw [numeral?]
  rotate_left
  · exact fun rest => hhex (by decide) (by decide) rest
  · exact fun rest => hhex (by decide) (by decide) rest
  cases h with
  | @whole ds es n e hds he =>
    have hspan : spanDigits 10 (ds ++ es) = (ds, es) :=
      spanDigits_append (fun c => hds.exists_digitBelow?) fun c hc => (head?_exponentPart he c hc).1
    have hmantissa : mantissa 10 (ds ++ es) = (ds, 0, es) := by
      rw [mantissa, hspan]
      split
      · next h =>
        cases h
        exact absurd rfl (head?_exponentPart he '.' rfl).2
      · next h => cases h; rfl
    refine ⟨n, e, ?_, rfl⟩
    simp [hmantissa, hds.digits?, exponentPart?_of he]
  | @point ds fs es n e hds he =>
    have hspan : spanDigits 10 (ds ++ '.' :: (fs ++ es)) = (ds, '.' :: (fs ++ es)) :=
      spanDigits_append (fun c hc => hds.exists_digitBelow? (List.mem_append_left _ hc))
        (by rintro c ⟨⟩; decide)
    have hspan' : spanDigits 10 (fs ++ es) = (fs, es) :=
      spanDigits_append (fun c hc => hds.exists_digitBelow? (List.mem_append_right _ hc))
        fun c hc => (head?_exponentPart he c hc).1
    refine ⟨n, e - fs.length, ?_, rfl⟩
    simp [mantissa, hspan, hspan', hds.digits?, exponentPart?_of he]

/-! ### The double of a literal -/

lemma decimalLength_spec (hn : 0 < n) :
    10 ^ (decimalLength n - 1) ≤ n ∧ n < 10 ^ decimalLength n ∧ 0 < decimalLength n := by
  induction n using Nat.strong_induction_on with
  | _ n ih =>
    rw [decimalLength]
    rcases Nat.lt_or_ge n 10 with h | h
    · rw [Nat.toDigits_of_lt_base h]
      exact ⟨by simpa using Nat.succ_le_of_lt hn, by simpa using h, by simp⟩
    · rw [Nat.toDigits_of_base_le (by decide) h, List.length_append, List.length_singleton,
        Nat.add_sub_cancel]
      obtain ⟨hle, hlt, hpos⟩ := ih (n / 10) (by omega) (by omega)
      rw [decimalLength] at hle hlt hpos
      obtain ⟨l, hl⟩ := Nat.exists_eq_add_one_of_ne_zero hpos.ne'
      rw [hl] at hle hlt ⊢
      rw [Nat.add_sub_cancel] at hle
      rw [Nat.pow_succ] at hlt ⊢
      rw [Nat.pow_succ, Nat.pow_succ]
      omega

lemma zpow_le_decimal {m : Nat} (hm : 0 < m) (e : Int) :
    (10 : ℚ) ^ (e + decimalLength m - 1) ≤ m * 10 ^ e ∧
      m * 10 ^ e < (10 : ℚ) ^ (e + decimalLength m) := by
  obtain ⟨hle, hlt, hpos⟩ := decimalLength_spec hm
  obtain ⟨l, hl⟩ := Nat.exists_eq_add_one_of_ne_zero hpos.ne'
  rw [hl] at hle hlt ⊢
  rw [Nat.add_sub_cancel] at hle
  have hexp : e + (l + 1 : ℕ) - 1 = e + l := by omega
  rw [hexp, zpow_add₀ (by norm_num), zpow_add₀ (by norm_num), zpow_natCast, zpow_natCast,
    mul_comm (m : ℚ)]
  exact ⟨mul_le_mul_of_nonneg_left (by exact_mod_cast hle) (by positivity),
    mul_lt_mul_of_pos_left (by exact_mod_cast hlt) (by positivity)⟩

lemma two_pow_le_ten_pow (k : Nat) : (2 : ℚ) ^ (3 * k) ≤ 10 ^ k := by
  rw [pow_mul]
  exact pow_le_pow_left₀ (by norm_num) (by norm_num) k

lemma double_top : Format.double.minExponent + (2 ^ Format.double.exponentBits - 2 : ℕ) = 972 := rfl

open Format

lemma le_halfway_zero : (10 : ℚ) ^ (-401 : ℤ) ≤ double.halfway 0 := by
  have hhalf := halfway_mul_add (f := double) (s := 0) (m := 0) (by decide) (Or.inr rfl)
  have hten : (2 : ℚ) ^ 1075 ≤ 10 ^ 401 :=
    (pow_le_pow_right₀ (by norm_num) (by norm_num)).trans (two_pow_le_ten_pow 401)
  calc (10 : ℚ) ^ (-401 : ℤ) = (10 ^ 401)⁻¹ := by rw [zpow_neg, zpow_ofNat]
    _ ≤ (2 ^ 1075)⁻¹ := inv_anti₀ (by positivity) hten
    _ = 1 / 2 * 2 ^ (-1074 : ℤ) := by
      rw [zpow_neg, zpow_ofNat, pow_succ, mul_inv, mul_comm, one_div]
    _ = double.halfway 0 := by
      rw [Nat.zero_mul, show double.minExponent + (0 : ℕ) = -1074 from rfl] at hhalf
      rw [hhalf, Nat.cast_zero, zero_add]

lemma halfway_infinity_lt : double.halfway double.infinity < (10 : ℚ) ^ (400 : ℤ) := by
  have hten : (2 : ℚ) ^ 53 * 2 ^ 972 ≤ 10 ^ 400 := by
    rw [← pow_add]
    exact (pow_le_pow_right₀ (by norm_num) (by norm_num)).trans (two_pow_le_ten_pow 400)
  rw [(number_infinity (by decide)).2, double_top, zpow_ofNat, zpow_ofNat]
  refine lt_of_lt_of_le (mul_lt_mul_of_pos_right ?_ (by positivity)) hten
  norm_num [fractionBits, double]

/-- A decimal number is rounded to the nearest double, also where its size is cut off. -/
theorem rounds_decimal (m : Nat) (e : Int) :
    double.Rounds (m * 10 ^ e) (Numeral.encode double (.decimal m e)) := by
  have hbits : 1 ≤ double.fractionBits := by decide
  simp only [Numeral.encode]
  rcases Nat.eq_zero_or_pos m with rfl | hm
  · simpa [encode] using rounds_encode hbits 0 Nat.one_pos
  obtain ⟨hlow, hhigh⟩ := zpow_le_decimal hm e
  by_cases hsmall : (decimalLength m : Int) + e < -400
  · have hexp : e + decimalLength m ≤ -401 := by omega
    have h : m * 10 ^ e < double.halfway 0 :=
      hhigh.trans_le ((zpow_le_zpow_right₀ (by norm_num) hexp).trans le_halfway_zero)
    rw [if_pos (Or.inr hsmall)]
    exact ⟨0, nearest_iff.mpr ⟨⟨h.le, fun _ => Even.zero⟩, by omega⟩, by simp⟩
  rw [if_neg (not_or.mpr ⟨hm.ne', hsmall⟩)]
  by_cases hlarge : 400 < (decimalLength m : Int) + e
  · obtain ⟨b, hb⟩ := exists_nearest (f := double) hbits (x := m * 10 ^ e) (by positivity)
    have hexp : 400 ≤ e + decimalLength m - 1 := by omega
    have h := halfway_infinity_lt.trans_le ((zpow_le_zpow_right₀ (by norm_num) hexp).trans hlow)
    rw [if_pos hlarge]
    exact ⟨b, hb, (min_eq_right (Nat.le_of_lt (hb.le_of_halfway_lt h))).symm⟩
  · rw [if_neg hlarge]
    exact_mod_cast rounds_scaled hbits (show 0 < 10 by decide) m e

/-! ### Rounding twice -/

variable {b d bits : Nat}

/-- The nearest double lies halfway between two singles, and the number lies on the side of the one
with odd bits. -/
def Slips (x : ℚ) (d : Nat) : Prop :=
  ∃ a < single.infinity, double.number d = single.halfway a ∧
    (Even a ∧ double.number d < x ∨ ¬Even a ∧ x < double.number d)

lemma halfway_le_of_nearest (hd : double.Nearest x d) (a : Nat) :
    (single.halfway a ≤ x → single.halfway a ≤ double.number d) ∧
      (x ≤ single.halfway a → double.number d ≤ single.halfway a) := by
  obtain ⟨q, hq⟩ := exists_halfway_eq a
  have hnear := hd.near q
  rw [← hq]
  constructor <;> intro h
  · rw [abs_of_nonneg (sub_nonneg.mpr h)] at hnear
    linarith [le_abs_self (x - double.number d)]
  · rw [abs_of_nonpos (sub_nonpos.mpr h)] at hnear
    linarith [neg_abs_le (x - double.number d)]

lemma nearest_of_nearest (hd : double.Nearest x d)
    (hb : single.Nearest (double.number d) b)
    (hslip : ∀ a, double.number d = single.halfway a →
      ¬(Even a ∧ double.number d < x ∨ ¬Even a ∧ x < double.number d)) :
    single.Nearest x b := by
  obtain ⟨⟨hhi, hhi'⟩, hlow⟩ := nearest_iff.mp hb
  have hside := halfway_le_of_nearest hd
  refine nearest_iff.mpr ⟨?_, fun a ha => ?_⟩
  · rcases hhi.lt_or_eq with h | h
    · have hlt : x < single.halfway b := lt_of_not_ge fun hge => h.not_ge ((hside b).1 hge)
      exact ⟨hlt.le, fun heq => absurd heq hlt.ne⟩
    · have hle := not_lt.mp fun hlt => hslip b h (Or.inl ⟨hhi' h, hlt⟩)
      exact ⟨hle.trans h.le, fun _ => hhi' h⟩
  · obtain ⟨hle, heven⟩ := hlow a ha
    rcases hle.lt_or_eq with h | h
    · have hlt : single.halfway a < x := lt_of_not_ge fun hge => h.not_ge ((hside a).2 hge)
      exact ⟨hlt.le, fun heq => absurd heq hlt.ne'⟩
    · have hb' := heven h.symm
      have hodd : ¬Even a := by
        rw [ha, Nat.even_add_one] at hb'
        exact hb'
      have hge := not_lt.mp fun hlt => hslip a h.symm (Or.inr ⟨hodd, hlt⟩)
      exact ⟨h.le.trans hge, fun _ => hb'⟩

lemma eq_of_halfway {a : Nat} (hb : single.Nearest (single.halfway a) b) :
    (Even a → b = a) ∧ (¬Even a → b = a + 1) := by
  obtain ⟨⟨hhi, hhi'⟩, hlow⟩ := nearest_iff.mp hb
  have hle : a ≤ b := single.halfway_strictMono.le_iff_le.mp hhi
  have hge : b ≤ a + 1 := by
    cases b with
    | zero => omega
    | succ c => exact Nat.succ_le_succ (single.halfway_strictMono.le_iff_le.mp (hlow c rfl).1)
  rcases Nat.lt_or_ge a b with h | h
  · obtain rfl : b = a + 1 := by omega
    have heven := (hlow a rfl).2 rfl
    rw [Nat.even_add_one] at heven
    exact ⟨fun h => absurd h heven, fun _ => rfl⟩
  · obtain rfl : b = a := by omega
    exact ⟨fun _ => rfl, fun h => absurd (hhi' rfl) h⟩

/-- Rounding twice gives the nearest single, unless the number slips. -/
theorem rounds_iff_not_slips (hx : 0 ≤ x) (hd : double.Nearest x d)
    (hbits : single.Rounds (double.number d) bits) : single.Rounds x bits ↔ ¬Slips x d := by
  obtain ⟨b, hb, rfl⟩ := hbits
  constructor
  · rintro ⟨c, hc, hbc⟩ ⟨a, ha, hda, hside⟩
    rw [hda] at hb hside
    obtain ⟨heven, hodd⟩ := eq_of_halfway hb
    rcases hside with ⟨h, hlt⟩ | ⟨h, hlt⟩
    · have := hc.le_of_halfway_lt hlt
      have := heven h
      omega
    · have := hc.le_of_lt_halfway hlt
      have := hodd h
      omega
  · intro hno
    obtain ⟨c, hc⟩ := exists_nearest (f := single) (by decide) hx
    by_cases hslip : ∀ a, double.number d = single.halfway a →
        ¬(Even a ∧ double.number d < x ∨ ¬Even a ∧ x < double.number d)
    · exact ⟨b, nearest_of_nearest hd hb hslip, rfl⟩
    · -- the point is beyond the largest single, so that both neighbours are infinite
      push Not at hslip
      obtain ⟨a, hda, hside⟩ := hslip
      have ha : single.infinity ≤ a := not_lt.mp fun h => hno ⟨a, h, hda, hside⟩
      have hpos : 0 < single.infinity := by decide
      have hac : a - 1 < c := by
        refine hc.le_of_halfway_lt (lt_of_not_ge fun hle => ?_)
        have hlt := single.halfway_strictMono (show a - 1 < a by omega)
        exact absurd ((halfway_le_of_nearest hd (a - 1)).2 hle) (by rw [hda]; exact hlt.not_ge)
      rw [hda] at hb
      obtain ⟨heven, hodd⟩ := eq_of_halfway hb
      have hab : a ≤ b := by
        by_cases h : Even a
        exacts [(heven h).ge, (Nat.le_succ a).trans (hodd h).ge]
      exact ⟨c, hc, by omega⟩

/-! ### The single of a literal -/

lemma exists_narrow_eq (negative : Bool) (hb : b ≤ double.infinity) :
    ∃ c, narrow (double.signBit negative + b) = single.signBit negative + c ∧
      (b < double.infinity → single.Rounds (double.number b) c) ∧
      (b = double.infinity → c = single.infinity) := by
  have hinf : double.infinity = 2047 * 2 ^ 52 := rfl
  have hneg : double.isNegative (double.signBit negative + b) = negative := by
    rw [hinf] at hb
    cases negative <;> simp [isNegative, signBit, fractionBits, double] <;> omega
  have hdecode : double.decode (double.signBit negative + b) = double.decode b := by
    have hsign : double.signBit negative = (if negative then 2 ^ 11 else 0) * 2 ^ 52 := by
      cases negative <;> rfl
    simp only [decode, show double.fractionBits = 52 from rfl,
      show double.exponentBits = 11 from rfl, hsign, Nat.pow_eq]
    rw [Nat.add_comm, Nat.add_mul_div_right _ _ (by decide), Nat.add_mul_mod_self_right]
    cases negative <;> simp
  refine ⟨_, by rw [narrow, hneg], fun h => ?_, fun h => ?_⟩ <;> rw [hdecode]
  · obtain ⟨m, e, hfinite, hnumber⟩ := decode_eq_finite h
    rw [hfinite, hnumber]
    exact_mod_cast rounds_scaled (f := single) (by decide) Nat.two_pos m e
  · rw [h]
    rfl

lemma toLower_of_digitBelow? {v : Nat} (h : digitBelow? 10 c = some v) : c.toLower = c := by
  have hle : c ≤ '9' := by
    by_contra hgt
    rw [digitBelow?, digitValue?, if_neg (by simp [hgt])] at h
    split_ifs at h <;> simp at h <;> omega
  rw [Char.toLower, dif_neg]
  rintro ⟨hA, -⟩
  exact absurd (le_trans hA hle) (by decide)

lemma unsigned?_of_decimal (h : Decimal cs x) :
    ∃ m e, unsigned? cs = some (Numeral.encode double (.decimal m e)) ∧ x = m * 10 ^ e := by
  obtain ⟨m, e, hnum, hx⟩ := numeral?_of_decimal h
  obtain ⟨c, cs, rfl, hc⟩ := h.exists_cons
  have hlower : c.toLower = c := by
    rcases hc with ⟨v, hv⟩ | rfl
    exacts [toLower_of_digitBelow? hv, rfl]
  have hne {word : String} {d : Char} {ds : List Char} (hword : word.toList = d :: ds)
      (hdigit : digitBelow? 10 d = none) (hd : d ∉ ".eE+-".toList) :
      String.ofList ((c :: cs).map Char.toLower) ≠ word := by
    rintro rfl
    rw [String.toList_ofList, List.map_cons, hlower] at hword
    exact (h.isDecimalChar List.mem_cons_self).ne hdigit hd (List.cons.inj hword).1
  refine ⟨m, e, ?_, hx⟩
  simp only [unsigned?]
  rw [if_neg, if_neg, hnum, Option.map_some]
  · exact hne (rfl : "nan".toList = 'n' :: "an".toList) (by decide) (by decide)
  · rintro (hinf | hinf)
    · exact hne (rfl : "inf".toList = 'i' :: "nf".toList) (by decide) (by decide) hinf
    · exact hne (rfl : "infinity".toList = 'i' :: "nfinity".toList) (by decide) (by decide) hinf

lemma nonneg_of_decimal (h : Decimal cs x) : 0 ≤ x := by
  cases h <;> positivity

lemma single?_of_literal {w : List Char} {negative : Bool} (h : Literal w negative x) :
    ∃ bits d, single? w = some (single.signBit negative + bits) ∧ double.Nearest x d ∧
      single.Rounds (double.number d) bits ∧ 0 ≤ x := by
  have hdecimal {cs : List Char} (h : Decimal cs x) : ∃ bits d m, unsigned? cs = some m ∧
      narrow (double.signBit negative + m) = single.signBit negative + bits ∧ double.Nearest x d ∧
      single.Rounds (double.number d) bits ∧ 0 ≤ x := by
    obtain ⟨m, e, hread, hx⟩ := unsigned?_of_decimal h
    obtain ⟨d, hd, hbits⟩ := rounds_decimal m e
    rw [← hx] at hd
    obtain ⟨bits, hnarrow, hfinite, hinfinite⟩ :=
      exists_narrow_eq negative (hbits ▸ min_le_right d double.infinity)
    refine ⟨bits, d, _, hread, hnarrow, hd, ?_, nonneg_of_decimal h⟩
    rcases Nat.lt_or_ge d double.infinity with hlt | hge
    · rw [min_eq_left hlt.le] at hbits
      rw [hbits] at hfinite
      exact hfinite hlt
    · -- a number beyond the doubles is beyond the singles
      rw [min_eq_right hge] at hbits
      rw [hinfinite hbits]
      obtain ⟨b, hb⟩ := exists_nearest (f := single) (x := double.number d) (by decide)
        (number_zero double ▸ double.number_strictMono.monotone (Nat.zero_le d))
      refine ⟨b, hb, (min_eq_right (Nat.le_of_lt (hb.le_of_halfway_lt ?_))).symm⟩
      refine lt_of_lt_of_le ?_ (double.number_strictMono.monotone hge)
      rw [(number_infinity (by decide)).2, (number_infinity (by decide)).1, double_top,
        show single.minExponent + (2 ^ single.exponentBits - 2 : ℕ) = 105 from rfl, zpow_ofNat,
        zpow_ofNat]
      refine mul_lt_mul (by norm_num [fractionBits, single, double]) ?_ (by positivity)
        (by positivity)
      exact pow_le_pow_right₀ (by norm_num) (by norm_num)
  cases h with
  | bare h =>
    obtain ⟨bits, d, m, hread, hnarrow, hrest⟩ := hdecimal h
    obtain ⟨c, cs, rfl, hc⟩ := h.exists_cons
    have hne {s : Char} (hs : digitBelow? 10 s = none) (hdot : s ≠ '.') : c ≠ s := by
      rintro rfl
      rcases hc with ⟨v, hv⟩ | rfl
      · rw [hs] at hv
        cases hv
      · exact hdot rfl
    refine ⟨bits, d, ?_, hrest⟩
    rw [single?, double?, hread, Option.map_some, ← hnarrow]
    · simp [signBit]
    · rintro cs' ⟨⟩
      exact hne (by decide) (by decide) rfl
    · rintro cs' ⟨⟩
      exact hne (by decide) (by decide) rfl
  | plus h =>
    obtain ⟨bits, d, m, hread, hnarrow, hrest⟩ := hdecimal h
    refine ⟨bits, d, ?_, hrest⟩
    rw [single?, double?, hread, Option.map_some, ← hnarrow]
    simp [signBit]
  | minus h =>
    obtain ⟨bits, d, m, hread, hnarrow, hrest⟩ := hdecimal h
    refine ⟨bits, d, ?_, hrest⟩
    rw [single?, double?, hread, Option.map_some, Option.map_some, hnarrow]

end NativeCode.Real

namespace NativeCode.Ir.Reader

open NativeCode.Text NativeCode.Real NativeCode.Real.Format

lemma readOperand_of_literal (params : List Param) {w : List Char} {negative : Bool} {x : ℚ}
    (h : Literal w negative x) :
    readOperand params (some (.float .single)) w = readFloat .single w := by
  have hne {d : Char} (hdigit : digitBelow? 10 d = none) (hd : d ∉ ".eE+-".toList)
    (rest : List Char) :
      w ≠ d :: rest := by
    rintro rfl
    exact (h.isDecimalChar List.mem_cons_self).ne hdigit hd rfl
  rw [readOperand]
  · have htrue : w ≠ "true".toList := hne (by decide) (by decide) "rue".toList
    have hfalse : w ≠ "false".toList := hne (by decide) (by decide) "alse".toList
    rw [if_neg htrue, if_neg hfalse]
    rfl
  · rintro rfl
    cases h with
    | bare h =>
      obtain ⟨c, cs, hcs, -⟩ := h.exists_cons
      cases hcs
  · exact fun rest => hne (by decide) (by decide) rest
  · exact fun rest => hne (by decide) (by decide) rest

/-- A decimal literal at the 32-bit type is rounded to the nearest double, which is rounded to the
nearest single. So the bits that are read are those of the single nearest to the number, unless the
double lies halfway between two singles and the number on the side of the odd one. -/
theorem single_literal_rounds_iff (params : List Param) {w : List Char} {negative : Bool} {x : ℚ}
    (h : Literal w negative x) :
    ∃ bits d, readOperand params (some (.float .single)) w =
        .ok (.const (.float .single) (BitVec.ofNat 64 (single.signBit negative + bits))) ∧
      double.Nearest x d ∧ single.Rounds (double.number d) bits ∧
      (single.Rounds x bits ↔ ¬Slips x d) := by
  obtain ⟨bits, d, hread, hd, hbits, hx⟩ := single?_of_literal h
  refine ⟨bits, d, ?_, hd, hbits, rounds_iff_not_slips hx hd hbits⟩
  rw [readOperand_of_literal params h, readFloat]
  simp only [hread]

/-- A negative literal with a point and an exponent. -/
theorem single_literal_rounds_iff_tenth :
    Literal "-0.5e-1".toList true (5 * 10 ^ (-2 : ℤ)) ∧
      ∃ bits d, readOperand [] (some (.float .single)) "-0.5e-1".toList =
          .ok (.const (.float .single) (BitVec.ofNat 64 (single.signBit true + bits))) ∧
        double.Nearest (5 * 10 ^ (-2 : ℤ)) d ∧ single.Rounds (double.number d) bits ∧
        (single.Rounds (5 * 10 ^ (-2 : ℤ)) bits ↔ ¬Slips (5 * 10 ^ (-2 : ℤ)) d) := by
  have hnumeral : Numeral 10 ("0".toList ++ "5".toList) 5 := ⟨by decide, [0, 5], by decide, rfl⟩
  have hexponent : ExponentPart "e-1".toList (-1 : ℤ) :=
    .minus (Or.inl rfl) ⟨by decide, [1], by decide, rfl⟩
  have h : Literal "-0.5e-1".toList true (5 * 10 ^ (-2 : ℤ)) := .minus (.point hnumeral hexponent)
  exact ⟨h, single_literal_rounds_iff [] h⟩

/-- A number just above the point between one and the next single is read as one. -/
theorem single_literal_above_halfway :
    Literal "1.00000005960464477539062500000001".toList false
        (100000005960464477539062500000001 * 10 ^ (-32 : ℤ)) ∧
      readOperand [] (some (.float .single)) "1.00000005960464477539062500000001".toList =
        .ok (.const (.float .single) 0x3f800000) ∧
      ¬single.Rounds (100000005960464477539062500000001 * 10 ^ (-32 : ℤ)) 0x3f800000 ∧
      single.Rounds (100000005960464477539062500000001 * 10 ^ (-32 : ℤ)) 0x3f800001 := by
  have hnumeral : Numeral 10 ("1".toList ++ "00000005960464477539062500000001".toList)
      100000005960464477539062500000001 :=
    ⟨by decide, [1, 0, 0, 0, 0, 0, 0, 0, 5, 9, 6, 0, 4, 6, 4, 4, 7, 7, 5, 3, 9, 0, 6, 2, 5, 0, 0, 0,
      0, 0, 0, 0, 1], by decide, by decide⟩
  have hbelow : single.halfway 0x3f800000 <
      (100000005960464477539062500000001 * 10 ^ (-32 : ℤ) : ℚ) := by
    norm_num [halfway, number, fractionBits, minExponent, single]
  have habove : (100000005960464477539062500000001 * 10 ^ (-32 : ℤ) : ℚ) <
      single.halfway 0x3f800001 := by
    norm_num [halfway, number, fractionBits, minExponent, single]
  refine ⟨.bare (.point hnumeral .absent), by decide +kernel, ?_, 0x3f800001, ?_, by decide⟩
  · rintro ⟨b, hb, heq⟩
    have hlt := hb.le_of_halfway_lt hbelow
    have hinf : single.infinity = 0x7f800000 := rfl
    omega
  · refine nearest_iff.mpr ⟨⟨habove.le, fun h => absurd h habove.ne⟩, fun a ha => ?_⟩
    obtain rfl : a = 0x3f800000 := by omega
    exact ⟨hbelow.le, fun h => absurd h hbelow.ne'⟩

end NativeCode.Ir.Reader
