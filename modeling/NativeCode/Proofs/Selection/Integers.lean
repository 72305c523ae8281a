import NativeCode.Proofs.Selection.Words

/-!
# Integer operations on words

The code of an integer operation computes a word from the words of its operands and stores it in the
home of its result. Divisions can fault instead. A comparison that is wanted in the flags only leaves
them as they are after a subtraction.
-/

namespace NativeCode.Ir

open Machine
open Selection (intForm shiftOp)

namespace BinaryOp

def test (op : BinaryOp) (signed : Bool) (x y : Word) : Bool :=
  match op with
  | .ne => decide (x ≠ y)
  | .lt => if signed then decide (x.toInt < y.toInt) else decide (x.toNat < y.toNat)
  | .le => if signed then decide (x.toInt ≤ y.toInt) else decide (x.toNat ≤ y.toNat)
  | .gt => if signed then decide (y.toInt < x.toInt) else decide (y.toNat < x.toNat)
  | .ge => if signed then decide (y.toInt ≤ x.toInt) else decide (y.toNat ≤ x.toNat)
  | _ => decide (x = y)

def highWord (signed : Bool) (x : Word) : Word := if signed && x.msb then -1 else 0

/-- The word that an operation on an integer type makes of two words, if it does not fault. -/
def onWords (op : BinaryOp) (ty : Ty) (x y : Word) : Option Word :=
  match intForm op with
  | .arith alu => some (ty.extend (alu.apply x y))
  | .divide => (divide? ty.isSigned (highWord ty.isSigned x) x y).map fun r => ty.extend r.1
  | .shift toRight => some (ty.extend ((shiftOp toRight ty).apply x (y.toNat % 64)))
  | _ => some (if op.test ty.isSigned x y then 1 else 0)

end BinaryOp

end NativeCode.Ir

namespace NativeCode.Selection

open Ir (Ty BinaryOp)
open Abi Machine

variable {p : Platform} {τ : Temps} {site : Site} {s s' : Session} {σ σ' : State} {i : Ir.Instr}
  {op : BinaryOp} {a b : Ir.Operand} {u : Unit}

/-- The condition of a comparison holds after a subtraction exactly when the comparison does. -/
theorem holds_intCond (op : BinaryOp) (signed : Bool) (x y : Word) :
    (intCond op signed).holds (.ofSub x y) = op.test signed x y := by
  have hzero := Flags.zero_ofSub x y
  have hcarry := Flags.carry_ofSub x y
  have hsign := Flags.sign_ne_overflow_ofSub x y
  have hsign' : ((Flags.ofSub x y).sign == (Flags.ofSub x y).overflow) =
      !decide (x.toInt < y.toInt) := by
    rw [← hsign]
    cases (Flags.ofSub x y).sign <;> cases (Flags.ofSub x y).overflow <;> rfl
  have hnat : x = y ↔ x.toNat = y.toNat := BitVec.toNat_inj.symm
  have hint : x = y ↔ x.toInt = y.toInt := BitVec.toInt_inj.symm
  cases op <;> cases signed <;>
    simp only [intCond, BinaryOp.test, Cond.holds, hzero, hcarry, hsign, hsign', Bool.false_eq_true,
      if_false, if_true, ← decide_not, ← Bool.decide_or, ← Bool.decide_and, decide_eq_decide] <;>
    first | rfl | (rw [hnat]; omega) | (rw [hint]; omega) | omega

lemma exists_runs_pair {acc : Reg} {rhs : Operand} {s₁ s₂ : Session}
    (ha : Yields (loadGpr a) site s acc s₁) (hb : Yields (gprSource b) site s₁ rhs s₂)
    (hτ : s₂.temps.Grows τ) :
    ∃ va vb g, s.source? a = some va ∧ s.source? b = some vb ∧ τ.boundReg acc = .ofGpr g ∧
      g ∉ [Gpr.rax, .rcx, .rdx, .rsp, .rbp] ∧
      ∀ σ, ∃ σ', Runs p τ s s₂ σ (.ok σ') ∧ Spare site s σ σ' ∧ σ'.gpr g = va.word p σ ∧
        σ'.read p .quad (τ.boundOperand rhs) = .ok (vb.word p σ) := by
  obtain ⟨is, he⟩ := emits_gprSource hb
  obtain ⟨va, g, hva, hg, hruns⟩ := exists_runs_loadGpr ha (he.later.temps.trans hτ)
  obtain ⟨vb, hvb, -, hruns'⟩ := exists_runs_gprSource hb hτ
  rw [(alike_loadGpr ha).source?] at hvb
  refine ⟨va, vb, g, hva, hvb, hg.bound, hg.task, fun σ => ?_⟩
  have hspare : Spare site s σ (σ.setGpr g (va.word p σ)) := .of_temporary hg _
  obtain ⟨σ', hrun, hspare', hread⟩ := hruns' (σ.setGpr g (va.word p σ))
  refine ⟨σ', (hruns σ).trans hrun, hspare.trans hspare' hg.keeps, ?_, ?_⟩
  · rw [hspare'.gpr g (Or.inl hg.held), State.setGpr_gpr]
  · rw [hread, vb.word_congr hspare.mem hspare.rbp]

lemma compare_of_flags (h : Yields (compare i op a b) site s u s')
    (hflags : site.flagsOnly = true) :
    s'.pending = some (intCond op i.ty.isSigned) ∧
      ∃ front cmp, s'.code.toList = s.code.toList ++ (front ++ [cmp]) ∧ cmp.op = .cmp := by
  obtain ⟨lhs, s₁, rhs, s₂, s₃, hlhs, hrhs, rfl, ⟨-, rfl⟩ | ⟨hf, -⟩⟩ := yields_compare.mp h
  · obtain ⟨front₁, he₁, -⟩ := emits_loadGpr hlhs
    obtain ⟨front₂, he₂⟩ := emits_gprSource hrhs
    refine ⟨rfl, front₁ ++ front₂, site.instr .cmp [rhs, .full lhs], ?_, rfl⟩
    simp [Session.push, he₂.code, he₁.code]
  · rw [hflags] at hf
    cases hf

theorem exists_runs_compare_flags (h : Yields (compare i op a b) site s u s')
    (hflags : site.flagsOnly = true) (hτ : s'.temps.Grows τ) :
    ∃ va vb, s.source? a = some va ∧ s.source? b = some vb ∧
      ∀ σ, ∃ σ', Runs p τ s s' σ (.ok σ') ∧ Spare site s σ σ' ∧
        σ'.flags = .ofSub (va.word p σ) (vb.word p σ) := by
  obtain ⟨lhs, s₁, rhs, s₂, s₃, hlhs, hrhs, rfl, ⟨-, rfl⟩ | ⟨hf, -⟩⟩ := yields_compare.mp h
  · obtain ⟨va, vb, g, hva, hvb, hbound, -, hruns⟩ := exists_runs_pair hlhs hrhs hτ
    refine ⟨va, vb, hva, hvb, fun σ => ?_⟩
    obtain ⟨σ', hrun, hspare, hg, hread⟩ := hruns σ
    have hlhs : σ'.read p .quad (τ.boundOperand (.full lhs)) = .ok (va.word p σ) := by
      rw [read_full hbound, hg]
    have hcmp := exec_cmp (i := τ.boundInstr (site.instr .cmp [rhs, .full lhs])) rfl rfl hread hlhs
    obtain ⟨is, hcode, his⟩ := hrun.trans (.push hcmp)
    exact ⟨_, ⟨is, hcode, his⟩, ⟨hspare.mem, hspare.xmm, hspare.gpr⟩, rfl⟩
  · rw [hflags] at hf
    cases hf

/-! ### Results of operations -/

/-- The code between two sessions gives the result of an instruction a home of type `ty`, and stores
there what `k` makes of the words of two operands. Where `k` makes nothing of them, it faults. -/
def Computes (p : Platform) (τ : Temps) (s s' : Session) (i : Ir.Instr) (a b : Ir.Operand) (ty : Ty)
    (k : Word → Word → Option Word) : Prop :=
  ∃ va vb id d, s.source? a = some va ∧ s.source? b = some vb ∧ i.result = some id ∧
    s.Defined s' id ty d ∧ ∀ σ,
      (∀ w, k (va.word p σ) (vb.word p σ) = some w →
        ∃ σ', Runs p τ s s' σ (.ok σ') ∧ Stored σ d w σ') ∧
      (k (va.word p σ) (vb.word p σ) = none → Runs p τ s s' σ (.error .divide))

lemma computes_of_storeGpr {s₁ : Session} {r : Reg} {g : Gpr} {va vb : Source} {ty : Ty}
    {k : Word → Word → Word} (hs : s.Alike s₁) (hva : s.source? a = some va)
    (hvb : s.source? b = some vb)
    (hruns : ∀ σ, ∃ σ₁, Runs p τ s s₁ σ (.ok σ₁) ∧ σ₁.mem = σ.mem ∧ Poised σ σ₁ ∧
      ty.extend (σ₁.gpr g) = k (va.word p σ) (vb.word p σ))
    (hstore : Yields (storeGpr i r ty) site s₁ u s') (hr : τ.boundReg r = .ofGpr g)
    (hg : g ∉ [Gpr.rsp, .rbp]) :
    Computes p τ s s' i a b ty fun x y => some (k x y) := by
  obtain ⟨id, d, hid, hdefined, -, hstored⟩ := exists_runs_storeGpr (p := p) hstore hr hg
  refine ⟨va, vb, id, d, hva, hvb, hid, hdefined.of_alike hs, fun σ => ⟨fun w hw => ?_, nofun⟩⟩
  cases hw
  obtain ⟨σ₁, hrun, hmem, hpoised, hword⟩ := hruns σ
  obtain ⟨σ', hrun', hσ'⟩ := hstored σ₁
  rw [hword] at hσ'
  exact ⟨σ', hrun.trans hrun', hσ'.of_eq hpoised hmem⟩

lemma computes_arith {alu : AluOp} (h : Yields (arith i alu a b) site s u s')
    (hτ : s'.temps.Grows τ) :
    Computes p τ s s' i a b i.ty fun x y => some (i.ty.extend (alu.apply x y)) := by
  obtain ⟨acc, s₁, rhs, s₂, hacc, hrhs, hstore⟩ := arith_cases h
  have hτ₂ := grows_of_storeGpr hstore hτ
  obtain ⟨va, vb, g, hva, hvb, hbound, htask, hruns⟩ := exists_runs_pair (p := p) hacc hrhs hτ₂
  refine computes_of_storeGpr ((alike_loadGpr hacc).trans ((alike_gprSource hrhs).trans
    (.push _ _))) hva hvb (fun σ => ?_) hstore hbound (by grind)
  obtain ⟨σ₁, hrun, hspare, hg, hread⟩ := hruns σ
  obtain ⟨f, hexec⟩ := exec_alu (i := τ.boundInstr (site.instr (.alu alu) [rhs, .full acc])) rfl
    (operands_instr_part hbound _ _ _) hread
  refine ⟨_, hrun.trans (.push hexec), hspare.mem, hspare.poised.trans (.setGpr (by grind) _), ?_⟩
  rw [State.setGpr_gpr, hg]

lemma toNat_count (y : Word) :
    (Width.byte.zeroExtend y &&& 63).toNat = y.toNat % 64 ∧
      (Width.byte.zeroExtend (y &&& 63) &&& 63).toNat = y.toNat % 64 := by
  have hmask (z : Word) : (z &&& 63).toNat = z.toNat % 64 := by
    rw [BitVec.toNat_and]
    exact Nat.and_two_pow_sub_one_eq_mod _ 6
  have hbyte (z : Word) : (Width.byte.zeroExtend z).toNat = z.toNat % 256 := by
    rw [Width.zeroExtend, BitVec.toNat_setWidth, BitVec.toNat_setWidth]
    simp only [Width.bits, Width.bytes]
    omega
  rw [hmask, hmask, hbyte, hbyte, hmask]
  omega

lemma computes_shift {toRight : Bool} (h : Yields (shift i toRight a b) site s u s')
    (hτ : s'.temps.Grows τ) :
    Computes p τ s s' i a b i.ty fun x y =>
      some (i.ty.extend ((shiftOp toRight i.ty).apply x (y.toNat % 64))) := by
  obtain ⟨value, s₁, r, s₂, hvalue, hreach, hcount, hstore⟩ := shift_cases h
  have hτ₂ : s₂.temps.Grows τ := grows_of_storeGpr hstore hτ
  have hs₂ : s₂.temps = s₁.temps := by
    obtain ⟨count, -, rfl⟩ | ⟨s₃, -, hload, rfl⟩ := hcount
    · rfl
    · obtain ⟨v, -, rfl⟩ := yields_loadGprInto.mp hload
      rfl
  rw [hs₂] at hτ₂
  obtain ⟨va, g, hva, hg, hruns⟩ := exists_runs_loadGpr (p := p) hvalue hτ₂
  have hs₁ : s.Alike s₁ := alike_loadGpr hvalue
  have hframe : g ∉ [Gpr.rsp, .rbp] := hg.not_mem_frame
  have hrcx : g ≠ Gpr.rcx := fun e => hg.task (by simp [e])
  obtain ⟨count, hknown, rfl⟩ | ⟨s₃, -, hload, rfl⟩ := hcount
  · obtain ⟨vb, hvb, hword⟩ := exists_source?_of_known hreach hknown
    rw [hs₁.source?] at hvb
    refine computes_of_storeGpr (hs₁.trans (.push _ _)) hva hvb (fun σ => ?_) hstore hg.bound
      hframe
    obtain ⟨f, hexec⟩ := exec_shift (p := p) (σ := σ.setGpr g (va.word p σ))
      (i := τ.boundInstr (site.instr (.shift (shiftOp toRight i.ty))
        [.imm (count &&& 63), .full value])) rfl (operands_instr_part hg.bound _ _ _) State.read_imm
    refine ⟨_, (hruns σ).trans (.push hexec), rfl,
      (Poised.setGpr hframe _).trans (.setGpr hframe _), ?_⟩
    rw [State.setGpr_gpr, State.setGpr_gpr, (toNat_count count).2, hword]
  · obtain ⟨vb, hvb, -, hruns'⟩ := runs_loadGprInto (p := p) (τ := τ) (g := .rcx) hload rfl
    rw [hs₁.source?] at hvb
    refine computes_of_storeGpr (hs₁.trans ((alike_loadGprInto hload).trans (.push _ _))) hva hvb
      (fun σ => ?_) hstore hg.bound hframe
    let σ₁ := σ.setGpr g (va.word p σ)
    have hpoised₁ : Poised σ σ₁ := .setGpr hframe _
    have hvb₁ : vb.word p σ₁ = vb.word p σ := vb.word_congr rfl hpoised₁.rbp
    let σ₂ := σ₁.setGpr .rcx (vb.word p σ₁)
    obtain ⟨f, hexec⟩ := exec_shift (p := p) (σ := σ₂)
      (i := τ.boundInstr (site.instr (.shift (shiftOp toRight i.ty))
        [.part (.ofGpr .rcx) .byte, .full value])) rfl (operands_instr_part hg.bound _ _ _)
      State.read_gpr
    have hgpr : σ₂.gpr g = va.word p σ := by
      rw [State.setGpr_gpr_of_ne _ _ hrcx, State.setGpr_gpr]
    refine ⟨_, (hruns σ).trans ((hruns' σ₁).trans (.push hexec)), rfl,
      hpoised₁.trans ((Poised.setGpr (by decide) _).trans (.setGpr hframe _)), ?_⟩
    rw [State.setGpr_gpr, hgpr, (toNat_count _).1, State.setGpr_gpr, hvb₁]

lemma zeroExtend_insert_byte (old v : Word) :
    Width.byte.zeroExtend (Width.byte.insert old v) = Width.byte.zeroExtend v := by
  refine BitVec.eq_of_getLsbD_eq fun k hk => ?_
  rw [Width.getLsbD_zeroExtend, Width.getLsbD_zeroExtend]
  simp only [Width.insert, BitVec.getLsbD_append, BitVec.getLsbD_setWidth, Width.bytes]
  by_cases h : k < 8 <;> simp [h]

lemma computes_compare (h : Yields (compare i op a b) site s u s')
    (hflags : site.flagsOnly = false) (hτ : s'.temps.Grows τ) :
    Computes p τ s s' i a b .bool fun x y => some (if op.test i.ty.isSigned x y then 1 else 0) := by
  obtain ⟨lhs, s₁, rhs, s₂, s₃, hlhs, hrhs, rfl, ⟨hf, -⟩ | ⟨-, hstore⟩⟩ := yields_compare.mp h
  · rw [hflags] at hf
    cases hf
  have hτ₂ := grows_of_storeGpr hstore hτ
  obtain ⟨va, vb, g, hva, hvb, hbound, htask, hruns⟩ := exists_runs_pair (p := p) hlhs hrhs hτ₂
  refine computes_of_storeGpr ((alike_loadGpr hlhs).trans ((alike_gprSource hrhs).trans
    ((Session.Alike.push _ _).trans (.push _ _)))) hva hvb (fun σ => ?_) hstore hbound (by grind)
  obtain ⟨σ₁, hrun, hspare, hg, hread⟩ := hruns σ
  have hreadL : σ₁.read p .quad (τ.boundOperand (.full lhs)) = .ok (va.word p σ) := by
    rw [read_full hbound, hg]
  have hcmp := exec_cmp (i := τ.boundInstr (site.instr .cmp [rhs, .full lhs])) rfl rfl hread hreadL
  let σ₂ : State := { σ₁ with flags := .ofSub (va.word p σ) (vb.word p σ) }
  have hops : (τ.boundInstr (site.instr (.set (intCond op i.ty.isSigned))
      [.part lhs .byte])).operands = [.part (.ofGpr g) .byte] := by
    rw [Temps.boundInstr_operands, Site.instr, List.map_singleton, boundOperand_part hbound]
  have hset := exec_set (p := p) (σ := σ₂) rfl hops
  refine ⟨_, (hrun.trans (.push hcmp)).trans (.push hset), hspare.mem,
    hspare.poised.trans (.setGpr (by grind) _), ?_⟩
  rw [State.setGpr_gpr, Ty.extend, zeroExtend_insert_byte, holds_intCond]
  cases op.test i.ty.isSigned (va.word p σ) (vb.word p σ) <;> rfl

lemma exists_runs_divisor {d : Operand} (h : Yields (divisor b) site s d s')
    (hτ : s'.temps.Grows τ) :
    ∃ vb, s.source? b = some vb ∧ ∀ σ, ∃ σ', Runs p τ s s' σ (.ok σ') ∧ Spare site s σ σ' ∧
      σ'.read p .quad (τ.boundOperand d) = .ok (vb.word p σ) := by
  obtain ⟨src, s₁, hsrc, ⟨-, rfl, rfl⟩ | ⟨v, t, s₂, rfl, ht, rfl, rfl⟩⟩ := divisor_cases h
  · obtain ⟨vb, hvb, -, hruns⟩ := exists_runs_gprSource (p := p) hsrc hτ
    exact ⟨vb, hvb, hruns⟩
  · obtain ⟨r, hr, rfl, rfl⟩ := yields_newTemp.mp ht
    have hτ₁ : s₁.temps.Grows τ := ((emits_newTemp ht).1.later.temps).trans hτ
    obtain ⟨vb, hvb, hkeeps, hruns⟩ := exists_runs_gprSource (p := p) hsrc hτ₁
    obtain ⟨g, hg⟩ : ∃ g, Temporary site τ s₁ { s₁ with temps := r.2 } (.temp r.1 .gpr) g :=
      exists_temporary_of_issue hr hτ rfl
    refine ⟨vb, hvb, fun σ => ?_⟩
    obtain ⟨σ₁, hrun, hspare, hread⟩ := hruns σ
    obtain rfl : v = vb.word p σ := by
      rw [← Except.ok.inj (State.read_imm.symm.trans hread), Width.zeroExtend_quad]
    have hmov := exec_mov_gpr (i := τ.boundInstr (site.instr (.mov .quad)
      [.imm (vb.word p σ), .full (.temp r.1 .gpr)])) rfl (operands_instr_part hg.bound _ _ _) hread
    refine ⟨_, hrun.trans (Runs.trans (.refl rfl) (.push hmov)),
      hspare.trans (.of_temporary hg _) hkeeps, ?_⟩
    rw [read_full hg.bound, State.setGpr_gpr, Width.insert_quad]

lemma exists_exec_upperHalf (site : Site) (signed : Bool) (σ : State) :
    ∃ f, exec p (τ.boundInstr (site.upperHalf signed)) σ =
      .ok ({ σ with flags := f }.setGpr .rdx (BinaryOp.highWord signed (σ.gpr .rax))) := by
  cases signed with
  | true => exact ⟨σ.flags, exec_cqto rfl rfl⟩
  | false => exact exec_xorl_self rfl rfl

lemma Runs.fault_trans {s'' : Session} {e : Fault} (h : Runs p τ s s' σ (.error e))
    (hcode : s'.code.toList <+: s''.code.toList) : Runs p τ s s'' σ (.error e) := by
  obtain ⟨is, his, hexec⟩ := h
  obtain ⟨js, hjs⟩ := hcode
  refine ⟨is ++ js, by rw [← hjs, his, List.append_assoc], ?_⟩
  rw [List.map_append, execAll_append, hexec]
  rfl

lemma exists_runs_dividend {signed : Bool} {d : Operand} {s₁ s₂ : Session}
    (ha : Yields (loadGprInto a { reg := .ofGpr .rax }) site s u s₁)
    (hb : Yields (divisor b) site (s₁.push (site.upperHalf signed)) d s₂)
    (hτ : s₂.temps.Grows τ) :
    ∃ va vb, s.source? a = some va ∧ s.source? b = some vb ∧
      ∀ σ, ∃ σ', Runs p τ s s₂ σ (.ok σ') ∧ σ'.mem = σ.mem ∧ Poised σ σ' ∧
        σ'.gpr .rax = va.word p σ ∧ σ'.gpr .rdx = BinaryOp.highWord signed (va.word p σ) ∧
        σ'.read p .quad (τ.boundOperand d) = .ok (vb.word p σ) := by
  obtain ⟨va, hva, -, hruns⟩ := runs_loadGprInto (p := p) (τ := τ) (g := .rax) ha rfl
  obtain ⟨vb, hvb, hruns'⟩ := exists_runs_divisor (p := p) hb hτ
  have hs₁ : s.Alike (s₁.push (site.upperHalf signed)) := (alike_loadGprInto ha).trans (.push _ _)
  rw [hs₁.source?] at hvb
  refine ⟨va, vb, hva, hvb, fun σ => ?_⟩
  let σ₁ := σ.setGpr .rax (va.word p σ)
  have hrax₁ : σ₁.gpr .rax = va.word p σ := State.setGpr_gpr _ _ _
  obtain ⟨f, hupper⟩ := exists_exec_upperHalf (p := p) (τ := τ) site signed σ₁
  let flagged : State := { σ₁ with flags := f }
  let σ₂ := flagged.setGpr .rdx (BinaryOp.highWord signed (σ₁.gpr .rax))
  have hgpr₂ {g : Gpr} (hg : g ≠ .rdx) : σ₂.gpr g = σ₁.gpr g := flagged.setGpr_gpr_of_ne _ hg
  have hpoised₂ : Poised σ σ₂ := (Poised.setGpr (by decide) _).trans (.setGpr (by decide) _)
  obtain ⟨σ₃, hrun, hspare, hread⟩ := hruns' σ₂
  have hmem₂ : σ₂.mem = σ.mem := rfl
  rw [vb.word_congr hmem₂ hpoised₂.rbp] at hread
  refine ⟨σ₃, ((hruns σ).trans (.push hupper)).trans hrun, hspare.mem.trans hmem₂,
    hpoised₂.trans hspare.poised, ?_, ?_, hread⟩
  · rw [hspare.gpr .rax (by simp), hgpr₂ (by decide), hrax₁]
  · rw [hspare.gpr .rdx (by simp), State.setGpr_gpr, hrax₁]

lemma computes_divide (h : Yields (divide i a b) site s u s') (hτ : s'.temps.Grows τ) :
    Computes p τ s s' i a b i.ty fun x y =>
      (divide? i.ty.isSigned (BinaryOp.highWord i.ty.isSigned x) x y).map fun r =>
        i.ty.extend r.1 := by
  obtain ⟨s₁, d, s₂, ha, hb, hstore⟩ := divide_cases h
  obtain ⟨id, dst, hid, hdefined, htemps, hstored⟩ :=
    exists_runs_storeGpr (p := p) (τ := τ) (g := .rax) hstore rfl (by decide)
  have hτ₂ : s₂.temps.Grows τ := by
    rw [htemps] at hτ
    exact hτ
  obtain ⟨va, vb, hva, hvb, hruns⟩ := exists_runs_dividend (p := p) ha hb hτ₂
  have hs₂ : s.Alike (s₂.push (site.instr (.div i.ty.isSigned) [d])) :=
    (alike_loadGprInto ha).trans ((Session.Alike.push _ _).trans ((alike_divisor hb).trans
      (.push _ _)))
  refine ⟨va, vb, id, dst, hva, hvb, hid, hdefined.of_alike hs₂, fun σ => ?_⟩
  obtain ⟨σ₁, hrun, hmem, hpoised, hrax, hrdx, hread⟩ := hruns σ
  have hdiv := exec_div (p := p) (σ := σ₁) (i := τ.boundInstr (site.instr (.div i.ty.isSigned) [d]))
    rfl rfl hread
  rw [hrax, hrdx] at hdiv
  dsimp only
  cases hquot : divide? i.ty.isSigned (BinaryOp.highWord i.ty.isSigned (va.word p σ))
      (va.word p σ) (vb.word p σ) with
  | none =>
    rw [hquot] at hdiv
    refine ⟨fun w hw => (nomatch hw), fun _ => ?_⟩
    obtain ⟨_, _, _, -, -, hs'⟩ := yields_storeGpr.mp hstore
    refine (hrun.trans (.push hdiv)).fault_trans ?_
    rw [hs']
    exact ⟨_, Array.toList_append.symm⟩
  | some r =>
    rw [hquot] at hdiv
    refine ⟨fun w hw => ?_, fun hnone => (nomatch hnone)⟩
    cases hw
    obtain ⟨σ', hrun', hσ'⟩ := hstored _
    refine ⟨σ', (hrun.trans (.push hdiv)).trans hrun', ?_⟩
    have hrax' : ((σ₁.setGpr .rax r.1).setGpr .rdx r.2).gpr .rax = r.1 := by
      rw [State.setGpr_gpr_of_ne _ _ (by decide), State.setGpr_gpr]
    dsimp only at hσ'
    rw [hrax'] at hσ'
    exact hσ'.of_eq (hpoised.trans ((Poised.setGpr (by decide) _).trans (.setGpr (by decide) _))) hmem

/-- The code of an integer operation stores what the operation makes of the words of its operands. -/
theorem computes_formCode (h : Yields (formCode i op a b (intForm op)) site s u s')
    (hflags : site.flagsOnly = false) (hτ : s'.temps.Grows τ) :
    Computes p τ s s' i a b (op.resultTy i.ty) (op.onWords i.ty) := by
  cases op with
  | add | sub | mul | and | or | xor => exact computes_arith h hτ
  | div => exact computes_divide h hτ
  | shl | shr => exact computes_shift h hτ
  | eq | ne | lt | le | gt | ge => exact computes_compare h hflags hτ

end NativeCode.Selection
