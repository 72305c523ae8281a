import NativeCode.Proofs.Except
import NativeCode.Proofs.Machine.Execution

/-!
# What an instruction can change

Which registers an instruction writes, by name or implicitly, and which of its operands it writes,
can be read off its operation. An instruction that is executed changes nothing else.
-/

namespace NativeCode.Machine

variable {src dst : Operand} {w : Width}

/-- Whether an operation writes its last operand. -/
def Opcode.writesLast : Opcode → Bool
  | .cmp | .ucomi _ | .div _ | .cqto | .push | .jmp | .jcc _ | .call | .ret | .ud2 => false
  | _ => true

/-- The registers that an operation writes without naming them. What a call changes is up to the
callee. -/
def Opcode.implicit : Opcode → List PhysReg
  | .cqto => [.gpr .rdx]
  | .div _ => [.gpr .rax, .gpr .rdx]
  | .push | .pop | .ret => [.gpr .rsp]
  | _ => []

/-- The operations of straight code that leave the stack pointer alone. -/
def Opcode.isPlain : Opcode → Bool
  | .jmp | .jcc _ | .call | .ret | .push | .pop | .ud2 => false
  | _ => true

/-- The operand that an instruction writes. -/
def Instr.dst? (i : Instr) : Option Operand := if i.op.writesLast then i.operands.getLast? else none

def Operand.phys? : Operand → Option PhysReg
  | .reg ⟨.phys r, _⟩ => some r
  | _ => none

/-- The registers that an instruction writes. -/
def Instr.written (i : Instr) : List PhysReg :=
  i.op.implicit ++ (i.dst?.bind Operand.phys?).toList

/-- Two states that differ at most in some registers and in up to eight bytes at one operand. -/
structure Changes (p : Platform) (regs : List PhysReg) (dst : Option Operand) (σ σ' : State) :
    Prop where
  gpr : ∀ r, .gpr r ∉ regs → σ'.gpr r = σ.gpr r
  xmm : ∀ x, .xmm x ∉ regs → σ'.xmm x = σ.xmm x
  mem : σ'.mem = σ.mem ∨
    ∃ o a n v, dst = some o ∧ σ.place p o = .ok a ∧ n ≤ 8 ∧ σ'.mem = σ.mem.store a n v

variable {p : Platform} {σ σ' : State}

lemma Changes.mono {regs regs' : List PhysReg} {dst : Option Operand}
    (h : Changes p regs dst σ σ') (hsub : regs ⊆ regs') : Changes p regs' dst σ σ' where
  gpr r hr := h.gpr r fun hmem => hr (hsub hmem)
  xmm x hx := h.xmm x fun hmem => hx (hsub hmem)
  mem := h.mem

lemma changes_flags (f : Flags) (regs : List PhysReg) (dst : Option Operand) :
    Changes p regs dst σ { σ with flags := f } :=
  ⟨fun _ _ => rfl, fun _ _ => rfl, Or.inl rfl⟩

lemma changes_setGpr (r : Gpr) (v : Word) (f : Flags) (dst : Option Operand) :
    Changes p [.gpr r] dst σ { σ.setGpr r v with flags := f } where
  gpr q hq := σ.setGpr_gpr_of_ne v fun h => hq (by simp [h])
  xmm _ _ := rfl
  mem := Or.inl rfl

lemma changes_setXmm (x : Fin 16) (v : BitVec 128) (dst : Option Operand) :
    Changes p [.xmm x] dst σ (σ.setXmm x v) where
  gpr _ _ := rfl
  xmm y hy := σ.setXmm_xmm_of_ne v fun h => hy (by simp [h])
  mem := Or.inl rfl

lemma changes_writeMem {n : Nat} {v : Word} {o : Operand} (f : Flags) (hn : n ≤ 8)
    (h : { σ with flags := f }.writeMem p n v o = .ok σ') : Changes p [] (some o) σ σ' := by
  cases ha : ({ σ with flags := f } : State).place p o with
  | error e => rw [State.writeMem, ha] at h; cases h
  | ok a =>
    rw [State.writeMem, ha] at h
    cases h
    exact ⟨fun _ _ => rfl, fun _ _ => rfl, Or.inr ⟨o, a, n, v, rfl, ha, hn, rfl⟩⟩

lemma changes_write {v : Word} {o : Operand} (f : Flags)
    (h : { σ with flags := f }.write p w v o = .ok σ') :
    Changes p o.phys?.toList (some o) σ σ' := by
  unfold State.write at h
  split at h
  case h_1 r u =>
    split_ifs at h with hu
    cases h
    exact changes_setGpr r _ f _
  case h_2 => exact (changes_writeMem f w.bytes_le h).mono (List.nil_subset _)

lemma changes_move (h : σ.move p w src dst = .ok σ') :
    Changes p dst.phys?.toList (some dst) σ σ' := by
  unfold State.move at h
  split at h
  case h_1 x u =>
    split_ifs at h
    obtain ⟨v, -, h⟩ := exists_ok_of_bind h
    cases h
    exact changes_setXmm x _ _
  case h_2 =>
    obtain ⟨v, -, h⟩ := exists_ok_of_bind h
    exact changes_write σ.flags h

lemma Precision.bytes_le (q : Precision) : q.bytes ≤ 8 := by cases q <;> decide

lemma changes_moveFloat {q : Precision} (h : σ.moveFloat p q src dst = .ok σ') :
    Changes p dst.phys?.toList (some dst) σ σ' := by
  unfold State.moveFloat at h
  split at h
  case h_1 x u y u' =>
    cases h
    exact changes_setXmm y _ _
  case h_2 y u _ =>
    obtain ⟨v, -, h⟩ := exists_ok_of_bind h
    cases h
    exact changes_setXmm y _ _
  case h_3 x u dst _ _ =>
    exact (changes_writeMem σ.flags (Precision.bytes_le q) h).mono (List.nil_subset _)
  case h_4 => cases h

lemma changes_partLogic {f : Word → Word → Word}
    (h : σ.partLogic p w f src dst = .ok σ') : Changes p dst.phys?.toList (some dst) σ σ' := by
  unfold State.partLogic at h
  obtain ⟨x, -, h⟩ := exists_ok_of_bind h
  obtain ⟨y, -, h⟩ := exists_ok_of_bind h
  exact changes_write _ h

lemma changes_divideBy {loose : Flags} {signed : Bool}
    (h : σ.divideBy p loose signed src = .ok σ') : Changes p [.gpr .rax, .gpr .rdx] none σ σ' := by
  unfold State.divideBy at h
  obtain ⟨d, -, h⟩ := exists_ok_of_bind h
  split at h
  case h_1 => cases h
  case h_2 q r _ =>
    cases h
    refine ⟨fun g hg => ?_, fun _ _ => rfl, Or.inl rfl⟩
    simp only [List.mem_cons, PhysReg.gpr.injEq, List.not_mem_nil, or_false, not_or] at hg
    exact (State.setGpr_gpr_of_ne _ _ hg.2).trans (σ.setGpr_gpr_of_ne _ hg.1)

lemma changes_onFloats {q : Precision} {k : Fin 16 → Word → Word → State}
    {regs : List PhysReg} {d : Option Operand}
    (hk : ∀ x v y, dst.phys? = some (.xmm x) → Changes p regs d σ (k x v y))
    (h : σ.onFloats p q k src dst = .ok σ') : Changes p regs d σ σ' := by
  unfold State.onFloats at h
  split at h
  case h_1 x u =>
    obtain ⟨y, -, h⟩ := exists_ok_of_bind h
    cases h
    exact hk x _ y rfl
  case h_2 => cases h

lemma unary_eq_ok {k : Operand → Except Fault State} {os : List Operand}
    (h : unary k os = .ok σ') : ∃ o, os = [o] ∧ k o = .ok σ' := by
  unfold unary at h
  split at h
  case h_1 o => exact ⟨o, rfl, h⟩
  case h_2 => cases h

lemma binary_eq_ok {k : Operand → Operand → Except Fault State} {os : List Operand}
    (h : binary k os = .ok σ') : ∃ src dst, os = [src, dst] ∧ k src dst = .ok σ' := by
  unfold binary at h
  split at h
  case h_1 src dst => exact ⟨src, dst, rfl, h⟩
  case h_2 => cases h

lemma changes_binary {i : Instr} {k : Operand → Operand → Except Fault State}
    (hk : ∀ src dst, k src dst = .ok σ' → Changes p dst.phys?.toList (some dst) σ σ')
    (hlast : i.op.writesLast = true) (h : binary k i.operands = .ok σ') :
    Changes p i.written i.dst? σ σ' := by
  obtain ⟨src, dst, hos, h⟩ := binary_eq_ok h
  have hdst : i.dst? = some dst := by simp [Instr.dst?, hlast, hos]
  rw [Instr.written, hdst]
  exact (hk src dst h).mono (List.subset_append_right _ _)

/-- An instruction changes the registers it writes, and memory at most at the operand it writes. The
two instructions that move the stack pointer are left out. -/
theorem changes_of_exec {i : Instr} (hplain : i.op.isPlain = true) (h : exec p i σ = .ok σ') :
    Changes p i.written i.dst? σ σ' := by
  cases hop : i.op with
  | mov w =>
    simp only [exec, hop] at h
    exact changes_binary (fun _ _ => changes_move) (by rw [hop]; rfl) h
  | movabs =>
    simp only [exec, hop] at h
    exact changes_binary (fun _ _ => changes_move) (by rw [hop]; rfl) h
  | movzb | movzw | movsb | movsw | movsl | lea =>
    simp only [exec, hop] at h
    refine changes_binary (fun src dst hk => ?_) (by rw [hop]; rfl) h
    obtain ⟨v, -, hk⟩ := exists_ok_of_bind hk
    exact changes_write σ.flags hk
  | alu | shift =>
    simp only [exec, hop] at h
    refine changes_binary (fun src dst hk => ?_) (by rw [hop]; rfl) h
    obtain ⟨x, -, hk⟩ := exists_ok_of_bind hk
    obtain ⟨y, -, hk⟩ := exists_ok_of_bind hk
    exact changes_write _ hk
  | xorl | andb | orb =>
    simp only [exec, hop] at h
    exact changes_binary (fun _ _ => changes_partLogic) (by rw [hop]; rfl) h
  | cqto =>
    simp only [exec, hop, nullary] at h
    split at h
    case h_1 =>
      cases h
      exact (changes_setGpr .rdx _ σ.flags _).mono (by simp [Instr.written, hop, Opcode.implicit])
    case h_2 => cases h
  | div signed =>
    simp only [exec, hop] at h
    obtain ⟨src, -, h⟩ := unary_eq_ok h
    have hdst : i.dst? = none := by simp [Instr.dst?, hop, Opcode.writesLast]
    rw [hdst]
    exact (changes_divideBy h).mono (by simp [Instr.written, hop, Opcode.implicit])
  | cmp =>
    simp only [exec, hop] at h
    obtain ⟨src, dst, -, h⟩ := binary_eq_ok h
    obtain ⟨x, -, h⟩ := exists_ok_of_bind h
    obtain ⟨y, -, h⟩ := exists_ok_of_bind h
    cases h
    exact changes_flags _ _ _
  | set c =>
    simp only [exec, hop] at h
    obtain ⟨dst, hos, h⟩ := unary_eq_ok h
    have hdst : i.dst? = some dst := by simp [Instr.dst?, hop, Opcode.writesLast, hos]
    rw [Instr.written, hdst]
    exact (changes_write σ.flags h).mono (List.subset_append_right _ _)
  | float op q =>
    simp only [exec, hop] at h
    refine changes_binary (fun src dst hk => ?_) (by rw [hop]; rfl) h
    refine changes_onFloats (fun x v y hx => ?_) hk
    rw [hx]
    exact changes_setXmm x _ _
  | ucomi q =>
    simp only [exec, hop] at h
    obtain ⟨src, dst, -, h⟩ := binary_eq_ok h
    exact changes_onFloats (fun _ _ _ _ => changes_flags _ _ _) h
  | movs q =>
    simp only [exec, hop] at h
    exact changes_binary (fun _ _ => changes_moveFloat) (by rw [hop]; rfl) h
  | push | pop | jmp | jcc | call | ret | ud2 =>
    rw [hop] at hplain
    cases hplain

end NativeCode.Machine
