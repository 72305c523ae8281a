import NativeCode.Proofs.Machine.Registers
import NativeCode.Proofs.Temps

/-!
# Instructions that can be encoded

The machine has an encoding for an operation only with operands of certain forms. Two operands are
not both in memory, and immediates are sources: they have 32 bits at most, but for the one move that
takes 64, and as many as the operand they go to. Registers have the class and the part that the
operation works on. A shift count is a short immediate or in `%cl`.

Which register of its class an operand is makes no difference, `%cl` apart, so that replacing
temporaries by registers of their class keeps instructions encodable.
-/

namespace NativeCode.Machine

/-- Immediates of a width reach from minus this number up to it. Operations on eight bytes have
immediates of four. -/
def immBound : Width → Int
  | .byte => 128
  | .word => 32768
  | .long | .quad => 2147483648

namespace Operand

def inMemory : Operand → Bool
  | mem _ | rip _ => true
  | _ => false

/-- Memory that can be addressed: through general-purpose registers, or relative to the instruction
pointer. -/
def isMemory : Operand → Bool
  | mem m =>
    m.base.cls == .gpr && m.index.all fun i => i.1.cls == .gpr && [1, 2, 4, 8].contains i.2
  | rip _ => true
  | _ => false

/-- The part of a general-purpose register at a width. -/
def isGpr (w : Width) : Operand → Bool
  | reg r => r.reg.cls == .gpr && r.width == w
  | _ => false

def isXmm : Operand → Bool
  | reg r => r.reg.cls == .xmm && r.width == .quad
  | _ => false

def isImm (w : Width) : Operand → Bool
  | imm v => decide (-immBound w ≤ v.toInt) && decide (v.toInt < immBound w)
  | _ => false

def isCount : Operand → Bool
  | imm v => decide (0 ≤ v.toInt) && decide (v.toInt ≤ 63)
  | reg r => r == { reg := .ofGpr .rcx, width := .byte }
  | _ => false

def isWide : Operand → Bool
  | imm _ => true
  | _ => false

def isLabel : Operand → Bool
  | label _ => true
  | _ => false

def isSymbol : Operand → Bool
  | symbol _ => true
  | _ => false

def isPlace (w : Width) (o : Operand) : Bool := o.isGpr w || o.isMemory

/-- Source and target of a two-operand operation: one of them is no memory, and the target is no
immediate. -/
def arePair (w : Width) (src dst : Operand) : Bool :=
  (src.isGpr w || src.isImm w) && dst.isPlace w || src.isMemory && dst.isGpr w

end Operand

namespace Opcode

def standsAlone : Opcode → Bool
  | cqto | ret | ud2 => true
  | _ => false

def acceptsOne : Opcode → Operand → Bool
  | div _, o | push, o | pop, o => o.isPlace .quad
  | set _, o => o.isPlace .byte
  | jmp, o | jcc _, o => o.isLabel
  | call, o => o.isSymbol
  | _, _ => false

/-- The operations with a source and a target. Words also move between the two classes of
registers. -/
def acceptsTwo : Opcode → Operand → Operand → Bool
  | mov .quad, src, dst =>
    Operand.arePair .quad src dst || src.isGpr .quad && dst.isXmm || src.isXmm && dst.isGpr .quad
  | mov w, src, dst => Operand.arePair w src dst
  | movabs, src, dst => src.isWide && dst.isGpr .quad
  | movzb, src, dst | movsb, src, dst => src.isPlace .byte && dst.isGpr .quad
  | movzw, src, dst | movsw, src, dst => src.isPlace .word && dst.isGpr .quad
  | movsl, src, dst => src.isPlace .long && dst.isGpr .quad
  | lea, src, dst => src.isMemory && dst.isGpr .quad
  | alu .imul, src, dst => (src.isPlace .quad || src.isImm .quad) && dst.isGpr .quad
  | alu _, src, dst | cmp, src, dst => Operand.arePair .quad src dst
  | xorl, src, dst => Operand.arePair .long src dst
  | andb, src, dst | orb, src, dst => Operand.arePair .byte src dst
  | shift _, count, dst => count.isCount && dst.isPlace .quad
  | float _ _, src, dst | ucomi _, src, dst => (src.isXmm || src.isMemory) && dst.isXmm
  | movs _, src, dst => (src.isXmm || src.isMemory) && dst.isXmm || src.isXmm && dst.isMemory
  | _, _, _ => false

/-- The operands that an operation can be encoded with, sources first. -/
def accepts (op : Opcode) : List Operand → Bool
  | [] => op.standsAlone
  | [o] => op.acceptsOne o
  | [src, dst] => op.acceptsTwo src dst
  | _ => false

end Opcode

/-! ### What all of them have in common -/

lemma forms_of_inMemory {o : Operand} (h : o.inMemory = true) :
    (∀ w, o.isGpr w = false ∧ o.isImm w = false) ∧ o.isXmm = false ∧ o.isCount = false ∧
      o.isWide = false := by
  cases o with
  | mem | rip => exact ⟨fun _ => ⟨rfl, rfl⟩, rfl, rfl, rfl⟩
  | _ => cases h

namespace Opcode

variable {op : Opcode} {src dst : Operand} {os : List Operand} {v : Word}

lemma acceptsTwo_memory (hsrc : src.inMemory = true) (hdst : dst.inMemory = true) :
    op.acceptsTwo src dst = false := by
  obtain ⟨hsrc, hsrc', hcount, hwide⟩ := forms_of_inMemory hsrc
  obtain ⟨hdst, hdst', -⟩ := forms_of_inMemory hdst
  cases op with
  | mov w => cases w <;> simp [acceptsTwo, Operand.arePair, hsrc, hsrc', hdst]
  | alu a => cases a <;> simp [acceptsTwo, Operand.arePair, hsrc, hdst]
  | _ => simp [acceptsTwo, Operand.arePair, hsrc, hsrc', hcount, hwide, hdst, hdst']

lemma acceptsTwo_imm_target : op.acceptsTwo src (.imm v) = false := by
  cases op with
  | mov w => cases w <;> simp [acceptsTwo, Operand.arePair, Operand.isPlace, Operand.isGpr,
      Operand.isMemory, Operand.isXmm]
  | alu a => cases a <;> simp [acceptsTwo, Operand.arePair, Operand.isPlace, Operand.isGpr,
      Operand.isMemory]
  | _ => simp [acceptsTwo, Operand.arePair, Operand.isPlace, Operand.isGpr, Operand.isMemory,
      Operand.isXmm]

lemma isImm_cases {w : Width} (h : (Operand.imm v).isImm w = true) :
    -2147483648 ≤ v.toInt ∧ v.toInt ≤ 2147483647 := by
  have hbound : immBound w ≤ 2147483648 := by cases w <;> decide
  simp only [Operand.isImm, Bool.and_eq_true, decide_eq_true_eq] at h
  omega

lemma arePair_imm {w : Width} (h : Operand.arePair w (.imm v) dst = true) :
    -2147483648 ≤ v.toInt ∧ v.toInt ≤ 2147483647 := by
  simp only [Operand.arePair, Operand.isGpr, Operand.isMemory, Bool.false_or, Bool.false_and,
    Bool.or_false, Bool.and_eq_true] at h
  exact isImm_cases h.1

lemma acceptsTwo_imm_source (h : op.acceptsTwo (.imm v) dst = true) :
    op = .movabs ∨ -2147483648 ≤ v.toInt ∧ v.toInt ≤ 2147483647 := by
  cases op with
  | movabs => exact Or.inl rfl
  | mov w =>
    have hpair : Operand.arePair w (.imm v) dst = true := by
      cases w with
      | quad => simpa [acceptsTwo, Operand.isGpr, Operand.isXmm] using h
      | _ => exact h
    exact Or.inr (arePair_imm hpair)
  | alu a =>
    cases a with
    | imul =>
      simp only [acceptsTwo, Operand.isPlace, Operand.isGpr, Operand.isMemory, Bool.or_false,
        Bool.false_or, Bool.and_eq_true] at h
      exact Or.inr (isImm_cases h.1)
    | _ => exact Or.inr (arePair_imm (w := .quad) h)
  | cmp => exact Or.inr (arePair_imm (w := .quad) h)
  | xorl => exact Or.inr (arePair_imm (w := .long) h)
  | andb | orb => exact Or.inr (arePair_imm (w := .byte) h)
  | shift =>
    simp only [acceptsTwo, Operand.isCount, Bool.and_eq_true, decide_eq_true_eq] at h
    exact Or.inr (by omega)
  | _ => simp [acceptsTwo, Operand.isPlace, Operand.isGpr, Operand.isMemory, Operand.isXmm] at h

lemma acceptsOne_imm : op.acceptsOne (.imm v) = false := by
  cases op <;> rfl

theorem countP_inMemory_of_accepts (h : op.accepts os = true) :
    os.countP Operand.inMemory ≤ 1 := by
  match os with
  | [] => exact Nat.zero_le _
  | [o] => exact List.countP_le_length
  | [src, dst] =>
    rw [List.countP_cons, List.countP_cons, List.countP_nil]
    by_cases hsrc : src.inMemory = true
    · by_cases hdst : dst.inMemory = true
      · rw [accepts, acceptsTwo_memory hsrc hdst] at h
        cases h
      · simp [hsrc, hdst]
    · rw [if_neg hsrc]
      split_ifs <;> simp
  | _ :: _ :: _ :: _ => cases h

/-- Immediates are sources of operations that have a target, and short but for one move. -/
theorem imm_of_accepts (h : op.accepts os = true) (hv : .imm v ∈ os) :
    (∃ dst, os = [.imm v, dst]) ∧
      (op = .movabs ∨ -2147483648 ≤ v.toInt ∧ v.toInt ≤ 2147483647) := by
  match os with
  | [] => cases hv
  | [o] =>
    rw [← List.mem_singleton.mp hv, accepts, acceptsOne_imm] at h
    cases h
  | [src, dst] =>
    rcases List.mem_pair.mp hv with rfl | rfl
    · exact ⟨⟨dst, rfl⟩, acceptsTwo_imm_source h⟩
    · rw [accepts, acceptsTwo_imm_target] at h
      cases h
  | _ :: _ :: _ :: _ => cases h

end Opcode

/-! ### Binding -/

section Binding

variable {τ : Temps} {o : Operand}

lemma forms_boundOperand (h : ∀ r ∈ o.regs, (τ.boundReg r).cls = r.cls) :
    (∀ w, (τ.boundOperand o).isGpr w = o.isGpr w ∧ (τ.boundOperand o).isImm w = o.isImm w) ∧
      (τ.boundOperand o).isXmm = o.isXmm ∧ (τ.boundOperand o).isMemory = o.isMemory ∧
      (τ.boundOperand o).isWide = o.isWide ∧ (τ.boundOperand o).isLabel = o.isLabel ∧
      (τ.boundOperand o).isSymbol = o.isSymbol ∧
      (o.isCount = true → (τ.boundOperand o).isCount = true) := by
  cases o with
  | reg r =>
    have hr := h r.reg (by simp [Operand.regs])
    refine ⟨fun w => ⟨?_, rfl⟩, ?_, rfl, rfl, rfl, rfl, fun hcount => ?_⟩
    · simp [Temps.boundOperand, Operand.isGpr, hr]
    · simp [Temps.boundOperand, Operand.isXmm, hr]
    · -- The count register is no temporary.
      have hrcx : r = { reg := .ofGpr .rcx, width := .byte } := by
        simpa [Operand.isCount] using hcount
      subst hrcx
      rfl
  | mem m =>
    obtain ⟨base, disp, index⟩ := m
    have hbase := h base (by simp [Operand.regs, Operand.address])
    refine ⟨fun _ => ⟨rfl, rfl⟩, rfl, ?_, rfl, rfl, rfl, by rintro ⟨⟩⟩
    cases index with
    | none => simp [Temps.boundOperand, Operand.isMemory, hbase]
    | some i =>
      have hi := h i.1 (by simp [Operand.regs, Operand.address])
      simp [Temps.boundOperand, Operand.isMemory, hbase, hi]
  | imm | label | symbol | rip => exact ⟨fun _ => ⟨rfl, rfl⟩, rfl, rfl, rfl, rfl, rfl, fun h => h⟩

/-- Replacing temporaries by registers of their class keeps an instruction encodable. -/
theorem accepts_boundInstr {i : Instr} (hregs : ∀ r ∈ i.regs, (τ.boundReg r).cls = r.cls)
    (h : i.op.accepts i.operands = true) :
    (τ.boundInstr i).op.accepts (τ.boundInstr i).operands = true := by
  obtain ⟨op, os, comment, origin⟩ := i
  rw [Temps.boundInstr_op, Temps.boundInstr_operands]
  dsimp only at h ⊢
  have hos : ∀ o ∈ os, ∀ r ∈ o.regs, (τ.boundReg r).cls = r.cls := fun o ho r hr =>
    hregs r (List.mem_flatMap.mpr ⟨o, ho, hr⟩)
  match os with
  | [] => exact h
  | [o] =>
    obtain ⟨hgpr, -, hmem, -, hlabel, hsymbol, -⟩ := forms_boundOperand (hos o List.mem_cons_self)
    have hone : op.acceptsOne (τ.boundOperand o) = op.acceptsOne o := by
      cases op <;> simp only [Opcode.acceptsOne, Operand.isPlace, hgpr, hmem, hlabel, hsymbol]
    exact hone.trans h
  | [src, dst] =>
    obtain ⟨hgpr, hxmm, hmem, hwide, -, -, hcount⟩ := forms_boundOperand (hos src List.mem_cons_self)
    obtain ⟨hgpr', hxmm', hmem', -⟩ :=
      forms_boundOperand (hos dst (List.mem_cons_of_mem _ List.mem_cons_self))
    cases op with
    | shift sop =>
      have h : (src.isCount && dst.isPlace .quad) = true := h
      change ((τ.boundOperand src).isCount && (τ.boundOperand dst).isPlace .quad) = true
      rw [Operand.isPlace, hgpr' .quad |>.1, hmem']
      rw [Bool.and_eq_true] at h ⊢
      exact ⟨hcount h.1, h.2⟩
    | mov w =>
      cases w <;> simpa only [Opcode.accepts, Opcode.acceptsTwo, List.map_cons, List.map_nil,
        Operand.arePair, Operand.isPlace, hgpr, hxmm, hmem, hgpr', hxmm', hmem'] using h
    | alu a =>
      cases a <;> simpa only [Opcode.accepts, Opcode.acceptsTwo, List.map_cons, List.map_nil,
        Operand.arePair, Operand.isPlace, hgpr, hmem, hgpr', hmem'] using h
    | _ =>
      simpa only [Opcode.accepts, Opcode.acceptsTwo, List.map_cons, List.map_nil, Operand.arePair,
        Operand.isPlace, hgpr, hxmm, hmem, hwide, hgpr', hxmm', hmem'] using h
  | _ :: _ :: _ :: _ => cases h

end Binding

end NativeCode.Machine
