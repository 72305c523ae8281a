import NativeCode.Proofs.Ir.Reading

/-!
# Literals of a source text

Every literal that is read from a text is in the range of its own type, and the literal of a named
constant is also in the range of the type of the constant: it is read at this type, unless it is one
of the two boolean words, whose values are in every range.
-/

namespace NativeCode.Ir

def Operand.InRange : Operand → Prop
  | .const ty bits => ty.holds bits = true
  | _ => True

/-- The literals of an instruction are in range, and that of a constant is in the range of the type
of the constant. -/
structure Instr.InRange (i : Instr) : Prop where
  operands : ∀ x ∈ i.operands, x.InRange
  literal : i.kind = .const → ∀ ty bits, .const ty bits ∈ i.operands → i.ty.holds bits = true

structure Block.InRange (b : Block) : Prop where
  instrs : ∀ i ∈ b.instrs, i.InRange
  term : ∀ x, b.term.value = some x → x.InRange

def Function.InRange (f : Function) : Prop := ∀ b ∈ f.blocks, b.InRange

lemma Ty.holds_bool (ty : Ty) (h : Ty.bool.holds v = true) : ty.holds v = true := by
  have hv : v.toInt = 0 ∨ v.toInt = 1 := by simpa [Ty.holds] using h
  cases ty with
  | int signed w => cases signed <;> cases w <;> simp [Ty.holds] <;> omega
  | bool => exact h
  | _ => rfl

namespace Reader

lemma inRange_of_denoted {params : List Param} {expected : Option Ty} {x : Operand}
    (h : Denoted params expected x) :
    x.InRange ∧ ∀ ty, expected = some ty → ∀ ty' bits, x = .const ty' bits → ty.holds bits = true := by
  cases h with
  | value | param | global => exact ⟨trivial, by simp⟩
  | literal hholds hty =>
    refine ⟨hholds, fun ty hexpected _ _ heq => ?_⟩
    cases heq
    rcases hty ty hexpected with rfl | rfl
    · exact hholds
    · exact ty.holds_bool hholds

def Statement.InRange : Statement → Prop
  | .instr kind ty operands => (∀ x ∈ operands, x.InRange) ∧
    (kind = .const → ∀ ty' bits, .const ty' bits ∈ operands → ty.holds bits = true)
  | .exit _ value => ∀ x, value = some x → x.InRange

lemma inRange_of_formed {params : List Param} {ret : Ty} {result : Option Nat}
    {st : Statement} (h : Formed params ret result st) : st.InRange := by
  cases h with
  | binary _ ha hb => exact ⟨by simpa using ⟨(inRange_of_denoted ha).1, (inRange_of_denoted hb).1⟩, by simp⟩
  | load _ ha => exact ⟨by simpa using (inRange_of_denoted ha).1, by simp⟩
  | alloca => exact ⟨by simp, by simp⟩
  | const _ hx =>
    refine ⟨by simpa using (inRange_of_denoted hx).1, fun _ ty' bits hmem => ?_⟩
    exact (inRange_of_denoted hx).2 _ rfl ty' bits (List.mem_singleton.mp hmem).symm
  | store _ hvalue haddress => exact ⟨by simpa using ⟨(inRange_of_denoted hvalue).1, (inRange_of_denoted haddress).1⟩, by simp⟩
  | call _ _ hargs => exact ⟨fun x hx => (inRange_of_denoted (hargs x hx)).1, by simp⟩
  | ret => exact ⟨by simp, by simp⟩
  | retValue _ _ hx => exact ⟨by simpa using (inRange_of_denoted hx).1, by simp⟩
  | jump => simp [Statement.InRange]
  | branch _ hx =>
    rintro x ⟨⟩
    exact (inRange_of_denoted hx).1
  | unreachable => simp [Statement.InRange]

lemma inRange_of_written {params : List Param} {ret : Ty} {b : Block}
    (h : b.Written params ret) : b.InRange := by
  refine ⟨fun i hi => ?_, fun x hx => ?_⟩
  · obtain ⟨hoperands, hliteral⟩ := inRange_of_formed (h.instrs i hi)
    exact ⟨hoperands, hliteral⟩
  · cases h.term with
    | exit result hexit => exact inRange_of_formed hexit x hx
    | ret i hi _ _ hvalue => exact (inRange_of_formed hi).1 x (List.mem_of_head? (hvalue ▸ hx))

/-- The literals of a module that has been read are in range. -/
theorem inRange_of_readModule {file : Nat} {text : String} {m : Module}
    (h : readModule file text = .ok m) : ∀ f ∈ m.functions, f.InRange := fun f hf b hb =>
  inRange_of_written (((written_of_readModule h).functions f hf).blocks b hb)

end Reader

end NativeCode.Ir
