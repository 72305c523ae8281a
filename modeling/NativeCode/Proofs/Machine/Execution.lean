import NativeCode.Proofs.Machine.State

/-!
# Execution of straight code

The effect of one instruction on a state, for the instructions that go on to the next one. What the
instruction set leaves open, and what it takes from outside the program, belongs to the platform:
the addresses of symbols, the arithmetic and order of floats, the flags after multiplications,
shifts and divisions, and the effect of a call on the state of its caller. Operands are taken at
face value; whether they fit an encoding is not asked here.
-/

namespace NativeCode.Machine

inductive Fault where
  /-- A division by zero, or with a quotient that is too large. -/
  | divide
  /-- The instruction that traps. -/
  | invalidOpcode
  /-- No such instruction: operands of the wrong kind or width. -/
  | malformed
  deriving DecidableEq, Inhabited

/-- What comes from outside the program. -/
structure Platform where
  /-- The address of a symbol. -/
  symbol : String → Word
  /-- The float operations, on bit patterns. -/
  arith : FloatOp → Precision → Word → Word → Word
  /-- The order of two floats, if they are ordered. -/
  order : Precision → Word → Word → Option Ordering
  /-- The flags that an instruction leaves in a state where they are not defined. -/
  looseFlags : Instr → State → Flags
  /-- The states in which a call of a symbol can come back. -/
  callee : String → State → State → Prop
  deriving Inhabited

namespace AluOp

/-- The result of an operation on target and source. -/
def apply : AluOp → Word → Word → Word
  | add, x, y => x + y
  | sub, x, y => x - y
  | imul, x, y => x * y
  | and, x, y => x &&& y
  | or, x, y => x ||| y
  | xor, x, y => x ^^^ y

/-- The flags of an operation on target and source; `loose` stands for those left open. -/
def flags (loose : Flags) : AluOp → Word → Word → Flags
  | add, x, y => .ofAdd x y
  | sub, x, y => .ofSub x y
  | imul, _, _ => loose
  | op, x, y => .ofLogic (op.apply x y)

end AluOp

def ShiftOp.apply : ShiftOp → Word → Nat → Word
  | shl, x, n => x <<< n
  | shr, x, n => x >>> n
  | sar, x, n => x.sshiftRight n

/-- Quotient and remainder of a double word, if there is a divisor and the quotient fits. -/
def divide? (signed : Bool) (high low divisor : Word) : Option (Word × Word) :=
  if divisor = 0 then none
  else if signed then
    let dividend := (high ++ low).toInt
    let q := dividend.tdiv divisor.toInt
    if -9223372036854775808 ≤ q ∧ q < 9223372036854775808 then
      some (BitVec.ofInt 64 q, BitVec.ofInt 64 (dividend.tmod divisor.toInt))
    else none
  else
    let dividend := (high ++ low).toNat
    let q := dividend / divisor.toNat
    if q < 18446744073709551616 then
      some (BitVec.ofNat 64 q, BitVec.ofNat 64 (dividend % divisor.toNat))
    else none

namespace State

def address (σ : State) (m : Mem) : Except Fault Word :=
  match m.base, m.index with
  | .phys (.gpr b), none => .ok (addr (σ.gpr b) m.disp)
  | .phys (.gpr b), some (.phys (.gpr i), scale) =>
    .ok (addr (σ.gpr b) m.disp + σ.gpr i * BitVec.ofNat 64 scale)
  | _, _ => .error .malformed

/-- The address that an operand in memory stands for. -/
def place (p : Platform) (σ : State) : Operand → Except Fault Word
  | .mem m => σ.address m
  | .rip s => .ok (p.symbol s)
  | _ => .error .malformed

/-- An operand as an integer source of a width; the bits above are clear. -/
def read (p : Platform) (σ : State) (w : Width) : Operand → Except Fault Word
  | .reg ⟨.phys (.gpr r), u⟩ => if u = w then .ok (w.zeroExtend (σ.gpr r)) else .error .malformed
  | .imm v => .ok (w.zeroExtend v)
  | o => do return σ.mem.load (← σ.place p o) w.bytes

def writeMem (p : Platform) (σ : State) (n : Nat) (v : Word) (o : Operand) :
    Except Fault State := do
  return { σ with mem := σ.mem.store (← σ.place p o) n v }

/-- An operand as the target of an integer of a width. -/
def write (p : Platform) (σ : State) (w : Width) (v : Word) : Operand → Except Fault State
  | .reg ⟨.phys (.gpr r), u⟩ =>
    if u = w then .ok (σ.setGpr r (w.insert (σ.gpr r) v)) else .error .malformed
  | o => σ.writeMem p w.bytes v o

/-- An operand as a float source; the bits above are clear. -/
def readFloat (p : Platform) (σ : State) (q : Precision) : Operand → Except Fault Word
  | .reg ⟨.phys (.xmm x), _⟩ => .ok (q.low (σ.xmm x))
  | o => do return σ.mem.load (← σ.place p o) q.bytes

end State

def nullary (k : Except Fault State) : List Operand → Except Fault State
  | [] => k
  | _ => .error .malformed

def unary (k : Operand → Except Fault State) : List Operand → Except Fault State
  | [o] => k o
  | _ => .error .malformed

/-- An effect of two operands, source and target. -/
def binary (k : Operand → Operand → Except Fault State) : List Operand → Except Fault State
  | [src, dst] => k src dst
  | _ => .error .malformed

namespace State

/-- Moves an integer of a width; eight bytes can also go to a vector register. -/
def move (p : Platform) (σ : State) (w : Width) (src : Operand) : Operand → Except Fault State
  | .reg ⟨.phys (.xmm x), _⟩ =>
    if w = .quad then do return σ.setXmm x ((← σ.read p .quad src).setWidth 128)
    else .error .malformed
  | dst => do σ.write p w (← σ.read p w src) dst

/-- Moves a float between vector registers and memory. A load clears the rest of the register. -/
def moveFloat (p : Platform) (σ : State) (q : Precision) : Operand → Operand → Except Fault State
  | .reg ⟨.phys (.xmm x), _⟩, .reg ⟨.phys (.xmm y), _⟩ =>
    .ok (σ.setXmm y (q.insert (σ.xmm y) (q.low (σ.xmm x))))
  | src, .reg ⟨.phys (.xmm y), _⟩ => do
    return σ.setXmm y ((← σ.readFloat p q src).setWidth 128)
  | .reg ⟨.phys (.xmm x), _⟩, dst => σ.writeMem p q.bytes (q.low (σ.xmm x)) dst
  | _, _ => .error .malformed

/-- A bitwise operation on the low part of a register. Its sign is the highest bit of the part. -/
def partLogic (p : Platform) (σ : State) (w : Width) (f : Word → Word → Word)
    (src dst : Operand) : Except Fault State := do
  let x ← σ.read p w dst
  let y ← σ.read p w src
  let v := f x y
  { σ with flags := { Flags.ofLogic v with sign := v.getLsbD (w.bits - 1) } }.write p w v dst

/-- Puts a word on the stack. -/
def pushWord (σ : State) (v : Word) : State :=
  { σ.setGpr .rsp (addr (σ.gpr .rsp) (-8)) with
    mem := σ.mem.store (addr (σ.gpr .rsp) (-8)) 8 v }

@[simp] lemma pushWord_rsp (σ : State) (v : Word) :
    (σ.pushWord v).gpr .rsp = addr (σ.gpr .rsp) (-8) := by
  simp only [pushWord, setGpr_gpr]

lemma pushWord_gpr_of_ne (σ : State) (v : Word) {r : Gpr} (h : r ≠ .rsp) :
    (σ.pushWord v).gpr r = σ.gpr r := by
  simp only [pushWord, σ.setGpr_gpr_of_ne _ h]

@[simp] lemma pushWord_mem (σ : State) (v : Word) :
    (σ.pushWord v).mem = σ.mem.store (addr (σ.gpr .rsp) (-8)) 8 v := rfl

def divideBy (p : Platform) (σ : State) (loose : Flags) (signed : Bool) (src : Operand) :
    Except Fault State := do
  match divide? signed (σ.gpr .rdx) (σ.gpr .rax) (← σ.read p .quad src) with
  | none => .error .divide
  | some (q, r) => .ok { (σ.setGpr .rax q).setGpr .rdx r with flags := loose }

/-- A scalar float operation on source and target. -/
def onFloats (p : Platform) (σ : State) (q : Precision) (k : Fin 16 → Word → Word → State)
    (src : Operand) : Operand → Except Fault State
  | .reg ⟨.phys (.xmm x), _⟩ => do return k x (q.low (σ.xmm x)) (← σ.readFloat p q src)
  | _ => .error .malformed

end State

/-- The effect of an instruction that goes on to the next one. Jumps, calls and returns have none
here. -/
def exec (p : Platform) (i : Instr) (σ : State) : Except Fault State :=
  let loose := p.looseFlags i σ
  match i.op with
  | .mov w => binary (σ.move p w) i.operands
  | .movabs => binary (σ.move p .quad) i.operands
  | .movzb =>
    binary (fun src dst => do σ.write p .quad (← σ.read p .byte src) dst) i.operands
  | .movzw =>
    binary (fun src dst => do σ.write p .quad (← σ.read p .word src) dst) i.operands
  | .movsb =>
    binary (fun src dst => do
      σ.write p .quad (Width.byte.signExtend (← σ.read p .byte src)) dst) i.operands
  | .movsw =>
    binary (fun src dst => do
      σ.write p .quad (Width.word.signExtend (← σ.read p .word src)) dst) i.operands
  | .movsl =>
    binary (fun src dst => do
      σ.write p .quad (Width.long.signExtend (← σ.read p .long src)) dst) i.operands
  | .lea => binary (fun src dst => do σ.write p .quad (← σ.place p src) dst) i.operands
  | .alu op =>
    binary (fun src dst => do
      let x ← σ.read p .quad dst
      let y ← σ.read p .quad src
      { σ with flags := op.flags loose x y }.write p .quad (op.apply x y) dst) i.operands
  | .xorl => binary (σ.partLogic p .long (· ^^^ ·)) i.operands
  | .andb => binary (σ.partLogic p .byte (· &&& ·)) i.operands
  | .orb => binary (σ.partLogic p .byte (· ||| ·)) i.operands
  | .shift op =>
    binary (fun count dst => do
      let x ← σ.read p .quad dst
      let n := ((← σ.read p .byte count) &&& 63).toNat
      { σ with flags := loose }.write p .quad (op.apply x n) dst) i.operands
  | .cqto => nullary (.ok (σ.setGpr .rdx (if (σ.gpr .rax).msb then -1 else 0))) i.operands
  | .div signed => unary (σ.divideBy p loose signed) i.operands
  | .cmp =>
    binary (fun src dst => do
      let x ← σ.read p .quad dst
      let y ← σ.read p .quad src
      return { σ with flags := .ofSub x y }) i.operands
  | .set c => unary (σ.write p .byte (if c.holds σ.flags then 1 else 0)) i.operands
  | .push =>
    unary (fun src => do return σ.pushWord (← σ.read p .quad src)) i.operands
  | .pop =>
    unary ((σ.setGpr .rsp (addr (σ.gpr .rsp) 8)).write p .quad (σ.mem.load (σ.gpr .rsp) 8))
      i.operands
  | .ud2 => .error .invalidOpcode
  | .float op q =>
    binary (σ.onFloats p q fun x v y => σ.setXmm x (q.insert (σ.xmm x) (p.arith op q v y)))
      i.operands
  | .ucomi q =>
    binary (σ.onFloats p q fun _ v y => { σ with flags := .ofOrdering (p.order q v y) }) i.operands
  | .movs q => binary (σ.moveFloat p q) i.operands
  | .jmp | .jcc _ | .call | .ret => .error .malformed

/-- The effect of a list of instructions. -/
def execAll (p : Platform) : List Instr → State → Except Fault State
  | [], σ => .ok σ
  | i :: is, σ => do execAll p is (← exec p i σ)

@[simp] lemma execAll_nil (p : Platform) (σ : State) : execAll p [] σ = .ok σ := rfl

lemma execAll_cons_ok {p : Platform} {i : Instr} {is : List Instr} {σ σ' : State}
    (h : exec p i σ = .ok σ') : execAll p (i :: is) σ = execAll p is σ' := by
  rw [execAll, h]
  rfl

lemma execAll_cons_error {p : Platform} {i : Instr} {is : List Instr} {σ : State} {e : Fault}
    (h : exec p i σ = .error e) : execAll p (i :: is) σ = .error e := by
  rw [execAll, h]
  rfl

theorem execAll_append (p : Platform) (is js : List Instr) (σ : State) :
    execAll p (is ++ js) σ = (execAll p is σ).bind (execAll p js) := by
  induction is generalizing σ with
  | nil => rfl
  | cons i is ih =>
    cases h : exec p i σ with
    | error e => rw [List.cons_append, execAll_cons_error h, execAll_cons_error h]; rfl
    | ok σ' => rw [List.cons_append, execAll_cons_ok h, execAll_cons_ok h, ih]

lemma execAll_append_ok {p : Platform} {is js : List Instr} {σ σ' : State}
    (h : execAll p is σ = .ok σ') : execAll p (is ++ js) σ = execAll p js σ' := by
  rw [execAll_append, h]
  rfl

lemma execAll_cons_eq_ok {p : Platform} {i : Instr} {is : List Instr} {σ σ' : State}
    (h : execAll p (i :: is) σ = .ok σ') :
    ∃ σ₁, exec p i σ = .ok σ₁ ∧ execAll p is σ₁ = .ok σ' := by
  cases hi : exec p i σ with
  | error e => rw [execAll_cons_error hi] at h; cases h
  | ok σ₁ => exact ⟨σ₁, rfl, by rw [execAll_cons_ok hi] at h; exact h⟩

end NativeCode.Machine
