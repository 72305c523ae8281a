import NativeCode.Proofs.Machine.Execution

/-!
# The effect of each instruction

Instructions whose operands can be read and written have a known effect. Sources are given by the
word that is read from them, so the same lemma serves registers, memory and immediates.
-/

namespace NativeCode.Machine

variable {p : Platform} {σ : State} {i : Instr} {w : Width} {src dst : Operand} {g : Gpr}
  {v x y a : Word} {d : Int}

lemma ok_bind {α β : Type} {a : α} {k : α → Except Fault β} :
    (Except.ok a >>= k) = k a := rfl

namespace State

@[simp] theorem read_gpr : σ.read p w (.part (.ofGpr g) w) = .ok (w.zeroExtend (σ.gpr g)) := by
  simp [read]

@[simp] lemma read_imm : σ.read p w (.imm v) = .ok (w.zeroExtend v) := rfl

@[simp] theorem place_offset : σ.place p (.offset (.ofGpr g) d) = .ok (addr (σ.gpr g) d) := rfl

@[simp] lemma place_rip (asm : String) : σ.place p (.rip asm) = .ok (p.symbol asm) := rfl

@[simp] theorem read_offset :
    σ.read p w (.offset (.ofGpr g) d) = .ok (σ.mem.load (addr (σ.gpr g) d) w.bytes) := rfl

@[simp] lemma write_gpr :
    σ.write p w v (.part (.ofGpr g) w) = .ok (σ.setGpr g (w.insert (σ.gpr g) v)) := by
  simp [write]

lemma writeMem_of_place {n : Nat} (h : σ.place p dst = .ok a) :
    σ.writeMem p n v dst = .ok { σ with mem := σ.mem.store a n v } := by
  rw [writeMem, h]
  rfl

lemma write_of_place (h : σ.place p dst = .ok a) :
    σ.write p w v dst = .ok { σ with mem := σ.mem.store a w.bytes v } := by
  cases dst with
  | mem m => exact writeMem_of_place h
  | rip asm => exact writeMem_of_place h
  | reg | imm | label | symbol => cases h

end State

/-! ### Moves -/

theorem exec_mov_gpr (hop : i.op = .mov w) (hops : i.operands = [src, .part (.ofGpr g) w])
    (hsrc : σ.read p w src = .ok v) :
    exec p i σ = .ok (σ.setGpr g (w.insert (σ.gpr g) v)) := by
  simp only [exec, hop, hops, binary, State.move, hsrc, ok_bind, State.write_gpr]

lemma exec_movabs (hop : i.op = .movabs) (hops : i.operands = [src, .gpr g])
    (hsrc : σ.read p .quad src = .ok v) : exec p i σ = .ok (σ.setGpr g v) := by
  simp only [exec, hop, hops, binary, State.move, hsrc, ok_bind, State.write_gpr, Width.insert_quad]

theorem exec_mov_mem (hop : i.op = .mov w) (hops : i.operands = [src, dst])
    (hsrc : σ.read p w src = .ok v) (hdst : σ.place p dst = .ok a) :
    exec p i σ = .ok { σ with mem := σ.mem.store a w.bytes v } := by
  simp only [exec, hop, hops, binary]
  have hmove : σ.move p w src dst = (do σ.write p w (← σ.read p w src) dst) := by
    cases dst with
    | mem m => rfl
    | rip asm => rfl
    | reg | imm | label | symbol => cases hdst
  rw [hmove, hsrc, ok_bind, State.write_of_place hdst]

theorem exec_lea (hop : i.op = .lea) (hops : i.operands = [src, .gpr g])
    (hsrc : σ.place p src = .ok a) : exec p i σ = .ok (σ.setGpr g a) := by
  simp only [exec, hop, hops, binary, hsrc, ok_bind, State.write_gpr, Width.insert_quad]

theorem exec_movz (hop : (w = .byte ∧ i.op = .movzb) ∨ (w = .word ∧ i.op = .movzw))
    (hops : i.operands = [src, .gpr g]) (hsrc : σ.read p w src = .ok v) :
    exec p i σ = .ok (σ.setGpr g v) := by
  rcases hop with ⟨rfl, hop⟩ | ⟨rfl, hop⟩ <;>
    simp only [exec, hop, hops, binary, hsrc, ok_bind, State.write_gpr, Width.insert_quad]

theorem exec_movs
    (hop : (w = .byte ∧ i.op = .movsb) ∨ (w = .word ∧ i.op = .movsw) ∨ (w = .long ∧ i.op = .movsl))
    (hops : i.operands = [src, .gpr g]) (hsrc : σ.read p w src = .ok v) :
    exec p i σ = .ok (σ.setGpr g (w.signExtend v)) := by
  rcases hop with ⟨rfl, hop⟩ | ⟨rfl, hop⟩ | ⟨rfl, hop⟩ <;>
    simp only [exec, hop, hops, binary, hsrc, ok_bind, State.write_gpr, Width.insert_quad]

/-! ### Vector registers -/

section Vector

variable {q : Precision} {x : Fin 16}

theorem exec_mov_xmm {u : Width} (hop : i.op = .mov .quad)
    (hops : i.operands = [src, .part (.phys (.xmm x)) u]) (hsrc : σ.read p .quad src = .ok v) :
    exec p i σ = .ok (σ.setXmm x (v.setWidth 128)) := by
  simp only [exec, hop, hops, binary, State.move, hsrc, ok_bind, if_true]
  rfl

theorem exec_movs_xmm {u : Width} (hop : i.op = .movs q)
    (hops : i.operands = [.offset (.ofGpr g) d, .part (.phys (.xmm x)) u]) :
    exec p i σ =
      .ok (σ.setXmm x ((σ.mem.load (addr (σ.gpr g) d) q.bytes).setWidth 128)) := by
  simp only [exec, hop, hops, binary, State.moveFloat]
  rfl

theorem exec_movs_mem {u : Width} (hop : i.op = .movs q)
    (hops : i.operands = [.part (.phys (.xmm x)) u, .offset (.ofGpr g) d]) :
    exec p i σ =
      .ok { σ with mem := σ.mem.store (addr (σ.gpr g) d) q.bytes (q.low (σ.xmm x)) } := by
  simp only [exec, hop, hops, binary, State.moveFloat]
  rfl

end Vector

/-! ### Arithmetic -/

theorem exec_alu {op : AluOp} (hop : i.op = .alu op) (hops : i.operands = [src, .gpr g])
    (hsrc : σ.read p .quad src = .ok y) :
    ∃ f, exec p i σ = .ok ({ σ with flags := f }.setGpr g (op.apply (σ.gpr g) y)) := by
  refine ⟨op.flags (p.looseFlags i σ) (σ.gpr g) y, ?_⟩
  simp only [exec, hop, hops, binary, State.read_gpr, Width.zeroExtend_quad, hsrc, ok_bind,
    State.write_gpr, Width.insert_quad]

theorem exec_shift {op : ShiftOp} (hop : i.op = .shift op) (hops : i.operands = [src, .gpr g])
    (hsrc : σ.read p .byte src = .ok y) :
    ∃ f, exec p i σ =
      .ok ({ σ with flags := f }.setGpr g (op.apply (σ.gpr g) (y &&& 63).toNat)) := by
  refine ⟨p.looseFlags i σ, ?_⟩
  simp only [exec, hop, hops, binary, State.read_gpr, Width.zeroExtend_quad, hsrc, ok_bind,
    State.write_gpr, Width.insert_quad]

theorem exec_cmp (hop : i.op = .cmp) (hops : i.operands = [src, dst])
    (hsrc : σ.read p .quad src = .ok y) (hdst : σ.read p .quad dst = .ok x) :
    exec p i σ = .ok { σ with flags := .ofSub x y } := by
  simp only [exec, hop, hops, binary, hsrc, hdst]
  rfl

theorem exec_set {c : Cond} (hop : i.op = .set c) (hops : i.operands = [.part (.ofGpr g) .byte]) :
    exec p i σ =
      .ok (σ.setGpr g (Width.byte.insert (σ.gpr g) (if c.holds σ.flags then 1 else 0))) := by
  simp only [exec, hop, hops, unary, State.write_gpr]

lemma exec_cqto (hop : i.op = .cqto) (hops : i.operands = []) :
    exec p i σ = .ok (σ.setGpr .rdx (if (σ.gpr .rax).msb then -1 else 0)) := by
  simp only [exec, hop, hops, nullary]

lemma exec_xorl_self (hop : i.op = .xorl)
    (hops : i.operands = [.part (.ofGpr g) .long, .part (.ofGpr g) .long]) :
    ∃ f, exec p i σ = .ok ({ σ with flags := f }.setGpr g 0) := by
  refine ⟨{ Flags.ofLogic 0 with sign := (0 : Word).getLsbD (Width.long.bits - 1) }, ?_⟩
  simp only [exec, hop, hops, binary, State.partLogic, State.read_gpr, ok_bind, BitVec.xor_self,
    State.write_gpr, Width.insert_long]
  rfl

theorem exec_div {signed : Bool} (hop : i.op = .div signed) (hops : i.operands = [src])
    (hsrc : σ.read p .quad src = .ok y) :
    exec p i σ =
      match divide? signed (σ.gpr .rdx) (σ.gpr .rax) y with
      | none => .error .divide
      | some (q, r) => .ok { (σ.setGpr .rax q).setGpr .rdx r with flags := p.looseFlags i σ } := by
  simp only [exec, hop, hops, unary, State.divideBy, hsrc]
  rfl

end NativeCode.Machine
