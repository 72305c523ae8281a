import NativeCode.Machine.Instr

/-!
# Printed instructions

Instructions are printed in the syntax that writes sources first, `%` before registers and `$`
before immediates.
-/

namespace NativeCode.Machine

def widthLetter : Width → String
  | .byte => "b"
  | .word => "w"
  | .long => "l"
  | .quad => "q"

def scalarEnding : Precision → String
  | .single => "ss"
  | .double => "sd"

def AluOp.stem : AluOp → String
  | add => "add"
  | sub => "sub"
  | imul => "imul"
  | and => "and"
  | or => "or"
  | xor => "xor"

def ShiftOp.stem : ShiftOp → String
  | shl => "shl"
  | shr => "shr"
  | sar => "sar"

def FloatOp.stem : FloatOp → String
  | add => "add"
  | sub => "sub"
  | mul => "mul"
  | div => "div"

def Opcode.mnemonic : Opcode → String
  | mov w => "mov" ++ widthLetter w
  | movabs => "movabsq"
  | movzb => "movzbq"
  | movzw => "movzwq"
  | movsb => "movsbq"
  | movsw => "movswq"
  | movsl => "movslq"
  | lea => "leaq"
  | alu op => op.stem ++ "q"
  | xorl => "xorl"
  | andb => "andb"
  | orb => "orb"
  | shift op => op.stem ++ "q"
  | cqto => "cqto"
  | div signed => if signed then "idivq" else "divq"
  | cmp => "cmpq"
  | set c => "set" ++ c.suffix
  | jmp => "jmp"
  | jcc c => "j" ++ c.suffix
  | call => "call"
  | ret => "ret"
  | push => "pushq"
  | pop => "popq"
  | ud2 => "ud2"
  | float op p => op.stem ++ scalarEnding p
  | ucomi p => "ucomi" ++ scalarEnding p
  | movs p => "mov" ++ scalarEnding p

/-- The printed form of the low part of a register; a temporary is printed by its number. -/
def Reg.text (w : Width) : Reg → String
  | phys r => r.text w
  | temp id _ => s!"%t{id}"

/-- The printed form of a memory operand; a zero displacement is left out. -/
def Mem.text (m : Mem) : String :=
  let disp := if m.disp = 0 then "" else toString m.disp
  let index :=
    match m.index with
    | some (r, scale) => ", " ++ r.text .quad ++ s!", {scale}"
    | none => ""
  disp ++ "(" ++ m.base.text .quad ++ index ++ ")"

def Operand.text : Operand → String
  | reg r => r.reg.text r.width
  | imm v => s!"${v.toInt}"
  | mem m => m.text
  | label name => name
  | symbol name => name
  | rip name => name ++ "(%rip)"

namespace Instr

def body (i : Instr) : String :=
  let words := ", ".intercalate (i.operands.map Operand.text)
  i.op.mnemonic ++ if i.operands.isEmpty then "" else " " ++ words

/-- The printed line of an instruction, with its comment if there is one and it is asked for. -/
def line (i : Instr) (comments : Bool) : String :=
  "\t" ++ i.body ++ if comments && !i.comment.isEmpty then "\t# " ++ i.comment else ""

end Instr

end NativeCode.Machine
