import NativeCode.Proofs.Ir.Reading

/-!
# The shapes of instructions

Every kind of instruction asks for a number of operands and for a result or none, and every block end
for an operand or none. What is read from a text has these shapes, and the parameters that it names
exist.
-/

namespace NativeCode.Ir

/-- A parameter that an operand names is one of the first `n`. -/
def Operand.Declared (n : Nat) : Operand → Prop
  | .param index => index < n
  | _ => True

/-- What a kind of instruction of type `ty` asks for in a function that returns `ret`: whether there
is a result, and how many operands there are. -/
def InstrKind.Asks (ty ret : Ty) (result : Option Nat) (count : Nat) : InstrKind → Prop
  | .binary _ => result.isSome = true ∧ count = 2
  | .load => result.isSome = true ∧ count = 1
  | .store => result = none ∧ count = 2
  | .alloca => result.isSome = true ∧ count = 0
  | .const => result.isSome = true ∧ count = 1
  | .ret => result = none ∧ count ≤ 1 ∧ (ret.isVoid = true → count = 0)
  | .call _ => ty.isVoid = true → result = none

/-- What a way to leave a block asks for in a function that returns `ret`. -/
def Exit.Asks (ret : Ty) (value : Option Operand) : Exit → Prop
  | .ret => ret.isVoid = true → value = none
  | .branch _ _ => value.isSome = true
  | .jump _ | .unreachable => value = none

/-- An instruction of a function with `n` parameters has the operands and the result that its kind
asks for. -/
structure Instr.Shaped (n : Nat) (ret : Ty) (i : Instr) : Prop where
  declared : ∀ x ∈ i.operands, x.Declared n
  asks : i.kind.Asks i.ty ret i.result i.operands.length

/-- A block end of a function with `n` parameters has the operand that it asks for. -/
structure Terminator.Shaped (n : Nat) (ret : Ty) (t : Terminator) : Prop where
  declared : ∀ x, t.value = some x → x.Declared n
  asks : t.exit.Asks ret t.value

/-- The instructions and the end of a block are shaped. -/
structure Block.Shaped (n : Nat) (ret : Ty) (b : Block) : Prop where
  instrs : ∀ i ∈ b.instrs, i.Shaped n ret
  term : b.term.Shaped n ret

/-- A function has blocks, they are shaped, and the numbers and lines of what is in them increase. -/
structure Function.Shaped (f : Function) : Prop where
  nonempty : f.blocks ≠ []
  blocks : ∀ b ∈ f.blocks, b.Shaped f.params.length f.ret
  ids : (f.blocks.flatMap Block.ids).Pairwise (· < ·)
  lines : (f.blocks.flatMap Block.lines).Pairwise (· < ·)

namespace Reader

lemma declared_of_denoted {params : List Param} {expected : Option Ty} {x : Operand}
    (h : Denoted params expected x) : x.Declared params.length := by
  cases h with
  | param h => exact h
  | value | global | literal => trivial

lemma shaped_of_written {params : List Param} {ret : Ty} {i : Instr}
    (h : i.Written params ret) : i.Shaped params.length ret := by
  obtain ⟨id, result, kind, ty, operands, loc⟩ := i
  have hd {expected : Option Ty} {x : Operand} (h : Denoted params expected x) :=
    declared_of_denoted h
  cases h with
  | binary hresult ha hb => exact ⟨by simpa using ⟨hd ha, hd hb⟩, hresult, rfl⟩
  | load hresult ha => exact ⟨by simpa using hd ha, hresult, rfl⟩
  | alloca hresult => exact ⟨by simp, hresult, rfl⟩
  | const hresult hx => exact ⟨by simpa using hd hx, hresult, rfl⟩
  | store hresult ha hb => exact ⟨by simpa using ⟨hd ha, hd hb⟩, hresult, rfl⟩
  | call hresult _ hargs =>
    refine ⟨fun x hx => hd (hargs x hx), fun hvoid => ?_⟩
    cases result with
    | none => rfl
    | some id =>
      rw [hresult rfl] at hvoid
      cases hvoid
  | ret hresult => exact ⟨by simp, hresult, Nat.zero_le 1, fun _ => rfl⟩
  | retValue hresult hret hx =>
    refine ⟨by simpa using hd hx, hresult, le_refl 1, fun hvoid => ?_⟩
    rw [hret] at hvoid
    cases hvoid

lemma shaped_of_writtenTerm {params : List Param} {ret : Ty} {t : Terminator}
    (h : t.Written params ret) : t.Shaped params.length ret := by
  cases h with
  | exit result h =>
    obtain ⟨exit, value, loc⟩ := t
    cases h with
    | jump | unreachable => exact ⟨by simp, rfl⟩
    | branch _ hx =>
      refine ⟨?_, rfl⟩
      rintro x ⟨⟩
      exact declared_of_denoted hx
  | ret i h hkind hexit hvalue =>
    have hi := shaped_of_written h
    have hasks := hi.asks
    rw [hkind] at hasks
    refine ⟨fun x hx => hi.declared x (List.mem_of_head? (hvalue ▸ hx)), ?_⟩
    rw [hexit]
    intro hvoid
    rw [hvalue, List.eq_nil_of_length_eq_zero (hasks.2.2 hvoid)]
    rfl

/-- The functions of a module that has been read are shaped. -/
theorem shaped_of_readModule {file : Nat} {text : String} {m : Module}
    (h : readModule file text = .ok m) : ∀ f ∈ m.functions, f.Shaped := by
  intro f hf
  have hwritten := (written_of_readModule h).functions f hf
  refine ⟨hwritten.nonempty, fun b hb => ?_, hwritten.ids, hwritten.lines⟩
  have hb := hwritten.blocks b hb
  exact ⟨fun i hi => shaped_of_written (hb.instrs i hi), shaped_of_writtenTerm hb.term⟩

end Reader

end NativeCode.Ir
