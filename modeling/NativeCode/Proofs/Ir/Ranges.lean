import NativeCode.Proofs.Ir.Scans

/-!
# Ranges of integer literals

A literal is a sign and a numeral, and denotes an integer. What is checked against the range of a
narrow type is not this integer but its 64-bit word, taken with a sign. So literals close to `2 ^ 64`
are taken for the small integers that are equal to them modulo `2 ^ 64`; all others are accepted if
and only if they are in the range of the type.
-/

namespace NativeCode.Text

/-! ### The integer of a literal -/

def Numeral (base : Nat) (cs : List Char) (n : Nat) : Prop :=
  cs ≠ [] ∧ ∃ ds, List.Forall₂ (fun c d => digitBelow? base c = some d) cs ds ∧
    n = Nat.ofDigits base ds.reverse

/-- A decimal numeral, or a hexadecimal one after its mark. -/
inductive Unsigned : List Char → Nat → Prop
  | decimal {cs n} (h : Numeral 10 cs n) : Unsigned cs n
  | hexadecimal {x cs n} (hx : x = 'x' ∨ x = 'X') (h : Numeral 16 cs n) : Unsigned ('0' :: x :: cs) n

/-- The integer that a literal denotes. -/
inductive Denotes : List Char → Int → Prop
  | bare {cs n} (h : Unsigned cs n) : Denotes cs n
  | plus {cs n} (h : Unsigned cs n) : Denotes ('+' :: cs) n
  | minus {cs n} (h : Unsigned cs n) : Denotes ('-' :: cs) (-n)

variable {base n : Nat} {c : Char} {cs w : List Char} {z : Int}

lemma digitsFrom?_of_forall₂ {ds : List Nat} (acc : Nat)
    (h : List.Forall₂ (fun c d => digitBelow? base c = some d) cs ds) :
    digitsFrom? base acc cs = some (Nat.ofDigits base ds.reverse + base ^ ds.length * acc) := by
  induction h generalizing acc with
  | nil => simp [digitsFrom?]
  | @cons c d cs ds hc _ ih =>
    simp only [digitsFrom?, hc]
    rw [ih, List.reverse_cons, Nat.ofDigits_append, Nat.ofDigits_singleton, List.length_reverse,
      List.length_cons]
    congr 1
    ring

lemma Numeral.digits? (h : Numeral base cs n) : digits? base cs = some n := by
  obtain ⟨hne, ds, hds, rfl⟩ := h
  obtain ⟨c, cs, rfl⟩ := List.exists_cons_of_ne_nil hne
  rw [Text.digits?, digitsFrom?_of_forall₂ 0 hds, Nat.mul_zero, Nat.add_zero]

lemma Numeral.exists_digitBelow? (h : Numeral base cs n) (hc : c ∈ cs) :
    ∃ d, digitBelow? base c = some d := by
  obtain ⟨-, ds, hds, -⟩ := h
  induction hds with
  | nil => cases hc
  | @cons _ d _ _ hd _ ih =>
    rcases List.mem_cons.mp hc with rfl | hc
    · exact ⟨d, hd⟩
    · exact ih hc

lemma Numeral.ne (h : Numeral base cs n) (hc : c ∈ cs) {d : Char} (hd : digitBelow? base d = none) :
    c ≠ d := by
  rintro rfl
  obtain ⟨v, hv⟩ := h.exists_digitBelow? hc
  rw [hd] at hv
  cases hv

lemma Unsigned.magnitude? (h : Unsigned cs n) :
    magnitude? cs = if n < 2 ^ 64 then some n else none := by
  have hfilter {m? : Option Nat} (hm : m? = some n) :
      m?.filter (· < 18446744073709551616) = if n < 2 ^ 64 then some n else none := by
    rw [hm, Option.filter_some]
    simp
  cases h with
  | decimal h =>
    have hmark {d : Char} (hd : digitBelow? 10 d = none) (rest : List Char) : cs ≠ '0' :: d :: rest := by
      intro heq
      exact h.ne (c := d) (by rw [heq]; simp) hd rfl
    rw [Text.magnitude?]
    · exact hfilter h.digits?
    · exact fun c rest => hmark (by decide) (c :: rest)
    · exact fun c rest => hmark (by decide) (c :: rest)
  | @hexadecimal x cs _ hx h =>
    obtain ⟨c, cs, rfl⟩ := List.exists_cons_of_ne_nil h.1
    rcases hx with rfl | rfl <;> exact hfilter h.digits?

lemma Unsigned.exists_cons (h : Unsigned cs n) :
    ∃ c cs' d, cs = c :: cs' ∧ digitBelow? 10 c = some d := by
  cases h with
  | decimal h =>
    obtain ⟨c, cs, rfl⟩ := List.exists_cons_of_ne_nil h.1
    obtain ⟨d, hd⟩ := h.exists_digitBelow? List.mem_cons_self
    exact ⟨c, cs, d, rfl, hd⟩
  | hexadecimal hx h => exact ⟨'0', _, 0, rfl, by decide⟩

lemma Denotes.ne_nil (h : Denotes w z) : w ≠ [] := by
  cases h with
  | bare h =>
    obtain ⟨c, cs, d, rfl, -⟩ := h.exists_cons
    exact List.cons_ne_nil _ _
  | plus | minus => exact List.cons_ne_nil _ _

/-- A literal is read as the word of its integer, if its magnitude is below `2 ^ 64`. -/
theorem integer?_of_denotes (h : Denotes w z) :
    integer? w = if z.natAbs < 2 ^ 64 then some (BitVec.ofInt 64 z) else none := by
  cases h with
  | bare h =>
    obtain ⟨c, cs, d, rfl, hd⟩ := h.exists_cons
    have hne {e : Char} (he : digitBelow? 10 e = none) : c ≠ e := by
      rintro rfl
      rw [he] at hd
      cases hd
    rw [integer?]
    · rw [h.magnitude?, Int.natAbs_natCast, apply_ite (Option.map _)]
      simp
    · rintro cs' ⟨⟩
      exact hne (by decide) rfl
    · rintro cs' ⟨⟩
      exact hne (by decide) rfl
  | plus h =>
    rw [integer?, h.magnitude?, Int.natAbs_natCast, apply_ite (Option.map _)]
    simp
  | minus h =>
    rw [integer?, h.magnitude?, Int.natAbs_neg, Int.natAbs_natCast, apply_ite (Option.map _)]
    simp [BitVec.ofInt_neg]

end NativeCode.Text

namespace NativeCode.Ir

open Text

/-! ### Ranges -/

namespace Ty

/-- The least and the greatest integer of a narrow type. -/
def bounds? : Ty → Option (Int × Int)
  | int _ .quad => none
  | int true w => some (-2 ^ (w.bits - 1), 2 ^ (w.bits - 1) - 1)
  | int false w => some (0, 2 ^ w.bits - 1)
  | bool => some (0, 1)
  | _ => none

/-- The integers that are accepted at a type with the given bounds: their magnitude is below
`2 ^ 64`, and modulo `2 ^ 64` they are in the range of the type. -/
def Takes (lo hi z : Int) : Prop := z.natAbs < 2 ^ 64 ∧ ∃ y, y ≡ z [ZMOD 2 ^ 64] ∧ lo ≤ y ∧ y ≤ hi

variable {ty : Ty} {lo hi z : Int}

lemma isInteger_of_bounds? (h : ty.bounds? = some (lo, hi)) : ty.isInteger = true := by
  cases ty with
  | int | bool => rfl
  | _ => cases h

lemma bounds_of_bounds? (h : ty.bounds? = some (lo, hi)) : -2 ^ 31 ≤ lo ∧ hi < 2 ^ 32 := by
  cases ty with
  | int signed w => cases signed <;> cases w <;> cases h <;> decide
  | bool =>
    cases h
    decide
  | _ => cases h

lemma holds_iff_of_bounds? (h : ty.bounds? = some (lo, hi)) (v : Word) :
    ty.holds v = true ↔ lo ≤ v.toInt ∧ v.toInt ≤ hi := by
  cases ty with
  | int signed w =>
    cases signed <;> cases w <;> cases h <;>
      simp [holds, Width.bits, Width.bytes]
  | bool =>
    cases h
    simp only [holds, Bool.or_eq_true, decide_eq_true_eq]
    omega
  | _ => cases h

lemma holds_ofInt_iff (h : ty.bounds? = some (lo, hi)) (z : Int) :
    ty.holds (BitVec.ofInt 64 z) = true ↔ ∃ y, y ≡ z [ZMOD 2 ^ 64] ∧ lo ≤ y ∧ y ≤ hi := by
  have hbounds := bounds_of_bounds? h
  rw [holds_iff_of_bounds? h, BitVec.toInt_ofInt]
  constructor
  · intro hz
    exact ⟨z.bmod (2 ^ 64), Int.bmod_emod .., hz⟩
  · rintro ⟨y, hy, hlo, hhi⟩
    have hmod : z % (2 ^ 64 : Nat) = y % (2 ^ 64 : Nat) := hy.symm
    have hzy : z.bmod (2 ^ 64) = y := by
      rw [← Int.emod_bmod, hmod, Int.emod_bmod, Int.bmod_eq_of_le] <;> omega
    rw [hzy]
    exact ⟨hlo, hhi⟩

/-- Away from `2 ^ 64` the accepted integers are those of the range. -/
theorem takes_iff (h : ty.bounds? = some (lo, hi)) (hz : z.natAbs ≤ 2 ^ 64 - 2 ^ 32) :
    Takes lo hi z ↔ lo ≤ z ∧ z ≤ hi := by
  have hbounds := bounds_of_bounds? h
  constructor
  · rintro ⟨-, y, hy, hlo, hhi⟩
    obtain ⟨k, hk⟩ := hy.dvd
    omega
  · exact fun hrange => ⟨by omega, z, rfl, hrange⟩

end Ty

namespace Reader

/-! ### Literals that are accepted -/

variable {ty : Ty} {lo hi z : Int} {w bs rest : List Char}

lemma mem_of_denotes {c : Char} (h : Denotes w z) (hc : c ∈ w) :
    (digitValue? c).isSome = true ∨ c ∈ ['x', 'X', '+', '-'] := by
  have hnumeral {base n : Nat} {cs : List Char} (h : Numeral base cs n) (hc : c ∈ cs) :
      (digitValue? c).isSome = true := by
    obtain ⟨d, hd⟩ := h.exists_digitBelow? hc
    rw [(Option.filter_eq_some_iff.mp hd).1]
    rfl
  have hunsigned {n : Nat} {cs : List Char} (h : Unsigned cs n) (hc : c ∈ cs) :
      (digitValue? c).isSome = true ∨ c ∈ ['x', 'X', '+', '-'] := by
    cases h with
    | decimal h => exact Or.inl (hnumeral h hc)
    | hexadecimal hx h =>
      rcases List.mem_cons.mp hc with rfl | hc
      · exact Or.inl rfl
      · rcases List.mem_cons.mp hc with rfl | hc
        · exact Or.inr (by rcases hx with rfl | rfl <;> decide)
        · exact Or.inl (hnumeral h hc)
  cases h with
  | bare h => exact hunsigned h hc
  | plus h | minus h =>
    rcases List.mem_cons.mp hc with rfl | hc
    · exact Or.inr (by decide)
    · exact hunsigned h hc

lemma hasHexMark_of_denotes (h : Denotes w z) :
    looksFloat.hasHexMark w = true ∨ 'e' ∉ w ∧ 'E' ∉ w := by
  have hunsigned {n : Nat} {cs : List Char} (h : Unsigned cs n) :
      looksFloat.hasHexMark cs = true ∨ 'e' ∉ cs ∧ 'E' ∉ cs := by
    cases h with
    | decimal h =>
      exact Or.inr ⟨fun hc => h.ne hc (by decide) rfl, fun hc => h.ne hc (by decide) rfl⟩
    | hexadecimal hx h => exact Or.inl (by rcases hx with rfl | rfl <;> rfl)
  cases h with
  | bare h => exact hunsigned h
  | plus h | minus h => exact (hunsigned h).imp id (by simp)

lemma readOperand_of_denotes (h : Denotes w z) (params : List Param)
    (hty : ty.isInteger = true) : readOperand params (some ty) w = readInteger ty w := by
  have hne {d : Char} (hd : (digitValue? d).isSome = false) (hd' : d ∉ ['x', 'X', '+', '-']) :
      d ∉ w := by
    intro hmem
    rcases mem_of_denotes h hmem with hvalue | hmark
    · rw [hd] at hvalue
      cases hvalue
    · exact hd' hmark
  refine readOperand_eq_readInteger h.ne_nil ?_ (hasHexMark_of_denotes h) hty
  simp only [List.forall_mem_cons, List.not_mem_nil, false_implies, implies_true, and_true]
  refine ⟨?_, ?_, ?_, ?_, ?_, ?_⟩ <;> exact hne (by decide) (by decide)

lemma readInteger_of_denotes (h : Denotes w z) (hty : ty.bounds? = some (lo, hi))
    (x : Operand) :
    readInteger ty w = .ok x ↔ Ty.Takes lo hi z ∧ x = .const ty (BitVec.ofInt 64 z) := by
  have hholds := Ty.holds_ofInt_iff hty z
  rw [readInteger, integer?_of_denotes h, Ty.isInteger_of_bounds? hty]
  by_cases hz : z.natAbs < 2 ^ 64
  · rw [if_pos hz]
    simp only [Bool.not_true, Bool.false_eq_true, if_false, Ty.Takes, hz, true_and, ← hholds]
    cases ty.holds (BitVec.ofInt 64 z) with
    | true => simp [eq_comm]
    | false => simp
  · rw [if_neg hz]
    simp only [Ty.Takes, hz, false_and, reduceCtorEq]

lemma isToken_of_denotes (h : Denotes w z) : IsToken w := by
  let p (c : Char) : Bool := (digitValue? c).isSome || decide (c ∈ ['x', 'X', '+', '-'])
  refine ⟨h.ne_nil, fun c hc => isWordChar_of_class (p := p) (by decide) ?_⟩
  simp only [p, Bool.or_eq_true, decide_eq_true_eq]
  exact mem_of_denotes h hc

lemma exists_run_token {α : Type} {f : Nat → List Char → Scan α} (hw : IsToken w)
    (hbs : Blanks bs) (hrest : Ends rest) (column : Nat) :
    ∃ first last, (nextColumn >>= fun column => token >>= f column).run ⟨bs ++ (w ++ rest), column⟩ =
      (f first w).run ⟨rest, last⟩ := by
  let k := Cursor.skipBlanks ⟨bs ++ (w ++ rest), column⟩
  have hk : k = ⟨w ++ rest, k.column⟩ :=
    congrArg (fun cs => (⟨cs, k.column⟩ : Cursor)) (hw.dropWhile_blanks hbs)
  obtain ⟨last, htoken⟩ := scans_token hw hrest k.column
  rw [← hk] at htoken
  refine ⟨k.column, last, ?_⟩
  change (token >>= f k.column).run k = _
  rw [StateT.run_bind, htoken]
  rfl

lemma readInitializer_of_denotes (h : Denotes w z) (hty : ty.bounds? = some (lo, hi))
    (hbs : Blanks bs) (hrest : Ends rest) (column : Nat) (v : Word) :
    (∃ c, (readInitializer ty).run ⟨bs ++ (w ++ rest), column⟩ = .ok (v, c)) ↔
      Ty.Takes lo hi z ∧ v = BitVec.ofInt 64 z := by
  have hholds := Ty.holds_ofInt_iff hty z
  obtain ⟨first, last, hrun⟩ := exists_run_token (isToken_of_denotes h) hbs hrest column
  rw [readInitializer, hrun, integer?_of_denotes h, Ty.isInteger_of_bounds? hty]
  by_cases hz : z.natAbs < 2 ^ 64
  · rw [if_pos hz]
    simp only [Ty.Takes, hz, true_and, ← hholds]
    cases ty.holds (BitVec.ofInt 64 z) with
    | true =>
      refine ⟨fun ⟨_, hc⟩ => ⟨rfl, ?_⟩, fun ⟨_, hv⟩ => ⟨⟨rest, last⟩, ?_⟩⟩
      · cases hc
        rfl
      · rw [hv]
        rfl
    | false =>
      simp only [Bool.false_eq_true, false_and, iff_false]
      rintro ⟨c, hc⟩
      cases hc
  · rw [if_neg hz]
    simp only [Ty.Takes, hz, false_and, iff_false]
    rintro ⟨c, hc⟩
    cases hc

/-- At a narrow type a literal is accepted if and only if its magnitude is below `2 ^ 64` and it is
equal modulo `2 ^ 64` to an integer of the range. Then it is read as the word of its integer. This
holds of operands and of initial values. Up to `2 ^ 64 - 2 ^ 32` the accepted integers are those of
the range, and the signed value of the word is the integer itself. -/
theorem literal_accepted_iff (hty : ty.bounds? = some (lo, hi)) (hw : Denotes w z) :
    (∀ params x, readOperand params (some ty) w = .ok x ↔
      Ty.Takes lo hi z ∧ x = .const ty (BitVec.ofInt 64 z)) ∧
    (∀ bs rest column v, Blanks bs → Ends rest →
      ((∃ c, (readInitializer ty).run ⟨bs ++ (w ++ rest), column⟩ = .ok (v, c)) ↔
        Ty.Takes lo hi z ∧ v = BitVec.ofInt 64 z)) ∧
    (z.natAbs ≤ 2 ^ 64 - 2 ^ 32 → (Ty.Takes lo hi z ↔ lo ≤ z ∧ z ≤ hi)) ∧
    (lo ≤ z → z ≤ hi → (BitVec.ofInt 64 z).toInt = z) := by
  refine ⟨fun params x => ?_, fun bs rest column v hbs hrest => ?_, Ty.takes_iff hty,
    fun hlo hhi => ?_⟩
  · rw [readOperand_of_denotes hw params (Ty.isInteger_of_bounds? hty)]
    exact readInteger_of_denotes hw hty x
  · exact readInitializer_of_denotes hw hty hbs hrest column v
  · have hbounds := Ty.bounds_of_bounds? hty
    rw [BitVec.toInt_ofInt, Int.bmod_eq_of_le] <;> omega

lemma denotes_lowest : Denotes "-0x80".toList (-128) :=
  .minus (n := 128) (.hexadecimal (Or.inl rfl) ⟨by decide, [8, 0], by decide, by decide⟩)

/-- The least byte is read at its type, and not at the type of unsigned bytes. -/
theorem literal_accepted_iff_lowest :
    readOperand [] (some (.int true .byte)) "-0x80".toList = .ok (.const (.int true .byte) (-128)) ∧
      ∀ x, readOperand [] (some (.int false .byte)) "-0x80".toList ≠ .ok x := by
  have hsigned : (Ty.int true .byte).bounds? = some (-128, 127) := rfl
  have hunsigned : (Ty.int false .byte).bounds? = some (0, 255) := rfl
  obtain ⟨haccepted, -, htakes, -⟩ := literal_accepted_iff hsigned denotes_lowest
  obtain ⟨haccepted', -, htakes', -⟩ := literal_accepted_iff hunsigned denotes_lowest
  refine ⟨(haccepted [] _).mpr ⟨(htakes (by decide)).mpr (by decide), rfl⟩, fun x hx => ?_⟩
  have hrange := (htakes' (by decide)).mp ((haccepted' [] x).mp hx).1
  revert hrange
  decide

/-- A literal just below `2 ^ 64` is accepted as a byte although no byte has its value. -/
theorem exists_accepted_out_of_range :
    ∃ w z, Denotes w z ∧ ¬ z ≤ 127 ∧
      readOperand [] (some (.int true .byte)) w = .ok (.const (.int true .byte) (-1)) ∧
      (∃ c, (readInitializer (.int true .byte)).run ⟨w, 1⟩ = .ok (-1, c)) := by
  refine ⟨"18446744073709551615".toList, 18446744073709551615, ?_, by decide, by decide,
    ⟨[], 21⟩, by rfl⟩
  exact .bare (n := 18446744073709551615) (.decimal ⟨by decide,
    [1, 8, 4, 4, 6, 7, 4, 4, 0, 7, 3, 7, 0, 9, 5, 5, 1, 6, 1, 5], by decide, by decide⟩)

end Reader

end NativeCode.Ir
