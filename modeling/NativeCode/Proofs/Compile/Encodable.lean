import NativeCode.Proofs.Compile.Assignment
import NativeCode.Proofs.Compile.Independence

/-!
# Compiled code can be encoded

The code that stores the parameters of a function and the code of its blocks is made of instructions
that the machine has an encoding for. Temporaries are bound to registers of their class, so what has
been selected can be encoded after binding as well.
-/

namespace NativeCode.Machine

/-- An instruction that can be encoded: its operands are of the forms that the operation takes, and
its registers are those of the machine. -/
structure Instr.Encodable (i : Instr) : Prop where
  accepted : i.op.accepts i.operands = true
  physical : ∀ r ∈ i.regs, ∃ q, r = .phys q

lemma exists_boundReg_eq (τ : Temps) (r : Reg) : ∃ q, τ.boundReg r = .phys q := by
  cases r with
  | phys q => exact ⟨q, rfl⟩
  | temp id cls => exact ⟨_, rfl⟩

lemma encodable_boundInstr {τ : Temps} {i : Instr}
    (hregs : ∀ r ∈ i.regs, (τ.boundReg r).cls = r.cls) (h : i.op.accepts i.operands = true) :
    (τ.boundInstr i).Encodable where
  accepted := accepts_boundInstr hregs h
  physical r hr := by
    rw [Temps.regs_boundInstr, List.mem_map] at hr
    obtain ⟨r, -, rfl⟩ := hr
    exact exists_boundReg_eq τ r

end NativeCode.Machine

namespace NativeCode.Compile

open Abi Machine Selection
open Selection (Session)

variable {o : Options} {f : Ir.Function} {s s' start : Session} {x : Stretch}

/-- The code of a construct can be encoded, and is marked with its place. -/
theorem Stretch.Selected.accepts (h : x.Selected o) :
    ∀ i ∈ x.code, i.op.accepts i.operands = true ∧ i.origin = x.site.origin := by
  have hgains : x.before.Gains x.site x.after := by
    have hyields := h.yields
    cases hconstruct : x.construct with
    | instr i =>
      rw [hconstruct] at hyields
      exact (codes_instrCode i hyields).1
    | term b next =>
      rw [hconstruct] at hyields
      exact (codes_leave b.term next hyields).1
  obtain ⟨is, hcode, his⟩ := hgains
  rwa [List.append_cancel_left (h.code.symm.trans hcode)]

lemma Stretch.Selected.cls_boundReg (h : x.Selected o) {τ : Temps} (hτ : x.after.temps.Grows τ)
    {i : Instr} (hi : i ∈ x.code) {r : Reg} (hr : r ∈ i.regs) : (τ.boundReg r).cls = r.cls := by
  have hregular := (h.regular.2 i hi r hr).mono hτ
  cases r with
  | phys q => rfl
  | temp id cls =>
    obtain ⟨-, q, hq, hget⟩ := hregular
    rw [Temps.boundReg_temp hget]
    exact cls_of_pool (c := o.convention) hq

/-- The code that stores parameters in their homes can be encoded. -/
theorem Homes.accepts {index : Nat} {ps : List (Ir.Param × Placement)} {code : List Instr}
    (h : Homes index ps s code s')
    (hps : ∀ q ∈ ps, ∀ r, q.2.place = .register r → r.cls = q.2.cls) :
    ∀ i ∈ code, i.op.accepts i.operands = true := by
  intro i hi
  obtain ⟨q, hq, d, hline, -⟩ := h.exists_homeLine hi
  cases hline with
  | load => exact accepts_extendingLoad q.1.ty rfl (isMemory_slot _)
  | @extend r i hr hcls hextend =>
    exact accepts_extendInPlace (r := .phys r) ((hps q hq r hr).trans hcls) hextend
  | @store r h =>
    have hr : r.cls = .gpr := by
      rcases h with rfl | ⟨hr, hcls⟩
      · rfl
      · exact (hps q hq r hr).trans hcls
    exact accepts_mov_store (r := .phys r) hr .quad (isMemory_slot d)
  | @storeFloat r hr hcls =>
    refine accepts_floatMove q.1.ty ?_
    simp [isXmm_full (r := .phys r) ((hps q hq r hr).trans hcls), isMemory_slot]

lemma Parts.encodable {c : Machine.Function} (parts : Parts o f start c) :
    ∀ i ∈ parts.homing.map parts.last.temps.boundInstr ++ c.blocks.flatMap (·.code),
      i.Encodable := by
  intro i hi
  rcases List.mem_append.mp hi with hi | hi
  · obtain ⟨j, hj, rfl⟩ := List.mem_map.mp hi
    obtain ⟨placements, hplace, -, hhomes⟩ := parts.exists_homes
    refine encodable_boundInstr (fun r hr => ?_) (hhomes.accepts (fun q hq r hr => ?_) j hj)
    · obtain ⟨q, hq, hcls, -⟩ := exists_phys_of_not_occurs (τ := parts.last.temps)
        (fun id => hhomes.not_occurs id) hj hr
      rw [hq]
      exact hcls
    · exact cls_of_place hplace (List.of_mem_zip hq).2 hr
  · obtain ⟨xs, hxs, -, hcode⟩ := parts.exists_selected
    have hbound : c.blocks.flatMap (·.code) =
        (xs.flatMap (·.code)).map parts.last.temps.boundInstr := by
      rw [parts.blocks_eq, List.flatMap_map, ← hcode, List.map_flatMap]
    rw [hbound] at hi
    obtain ⟨j, hj, rfl⟩ := List.mem_map.mp hi
    obtain ⟨x, hx, hj⟩ := List.mem_flatMap.mp hj
    obtain ⟨hselected, -, hafter⟩ := hxs.later_of_mem hx
    exact encodable_boundInstr (fun r hr => hselected.cls_boundReg hafter.temps hj hr)
      (hselected.accepts j hj).1

/-- All code of a module that compiles can be encoded. The prologue of each of its functions sets up
the frame and then stores the parameters. What stores the parameters and the code of the blocks has
operands of the forms that its operations take, all of them registers of the machine. So at most one
of them is in memory, and immediates are sources of operations with a target, of 32 bits but for the
one move of 64. -/
theorem instructions_encodable {m : Ir.Module} {out : Output} (h : compileModule o m = .ok out) :
    ∃ cs, Assembled o m cs out ∧ ∀ f c, (f, c) ∈ m.functions.zip cs →
      ∃ (s s' : Session) (frame : Frame.Layout) (homing : List Instr),
        Makes (compileFunction o f) s c s' ∧
        s'.frame.layout o.target (s'.temps.saved o.target) o.maxFrame = .ok frame ∧
        c.code.prologue = frame.prologue ++ homing ∧
        ∀ i ∈ homing ++ c.code.blocks.flatMap (·.code),
          i.Encodable ∧ i.operands.countP Operand.inMemory ≤ 1 ∧
            ∀ v, .imm v ∈ i.operands → (∃ dst, i.operands = [.imm v, dst]) ∧
              (i.op = .movabs ∨ -2147483648 ≤ v.toInt ∧ v.toInt ≤ 2147483647) := by
  obtain ⟨cs, hcs⟩ := exists_assembled h
  refine ⟨cs, hcs, fun f c hc => ?_⟩
  obtain ⟨s, s', hs, hcompiled⟩ := hcs.compiled
  obtain ⟨s₁, s₂, -, hmakes⟩ := exists_compileFunction_of_mem_zip hcompiled hs (fun _ hf => hf) hc
  obtain ⟨parts, rfl⟩ := exists_parts hmakes
  refine ⟨s₁, parts.last, parts.frame, _, hmakes, parts.layout, parts.prologue_eq, fun i hi => ?_⟩
  have hi := parts.encodable i hi
  exact ⟨hi, Opcode.countP_inMemory_of_accepts hi.accepted, fun v =>
    Opcode.imm_of_accepts hi.accepted⟩

/-- A module whose operands are immediates of all sizes, slots, globals and parameters. -/
def mixesForms : Ir.Module where
  globals := [{ name := "v", ty := .int false .byte }]
  functions := [
    { name := "f"
      params := [{ name := "x", ty := .int true .long }, { name := "y", ty := .float .double }]
      ret := .i64
      blocks := [
        { id := 0
          instrs := [
            { kind := .store, ty := .int false .byte, operands := [.const (.int false .byte) 200, .global "v"] },
            { result := some 0, kind := .binary .div, ty := .i64, operands := [.param 0, .const .i64 7] },
            { result := some 1, kind := .binary .add, ty := .i64,
              operands := [.const .i64 0x123456789ab, .value 0] },
            { result := some 2, kind := .binary .shl, ty := .i64, operands := [.value 1, .param 0] },
            { result := some 3, kind := .binary .eq, ty := .float .double, operands := [.param 1, .param 1] }]
          term := { exit := .branch 1 0, value := some (.value 3) } },
        { id := 1, term := { exit := .ret, value := some (.value 2) } }] }]

/-- All code of this module can be encoded. -/
theorem instructions_encodable_mixesForms :
    ∃ out cs c, compileModule {} mixesForms = .ok out ∧ Assembled {} mixesForms cs out ∧
      c ∈ cs ∧ ∀ i ∈ c.code.blocks.flatMap (·.code), i.Encodable := by
  have hok : (compileModule {} mixesForms).toBool = true := by decide +kernel
  cases h : compileModule {} mixesForms with
  | error e =>
    rw [h] at hok
    cases hok
  | ok out =>
    obtain ⟨cs, hcs, hall⟩ := instructions_encodable h
    obtain ⟨c, rfl⟩ := List.length_eq_one_iff.mp hcs.length
    obtain ⟨s, s', frame, homing, -, -, -, hcode⟩ := hall _ c List.mem_cons_self
    refine ⟨out, [c], c, rfl, hcs, List.mem_singleton_self c, fun i hi => ?_⟩
    exact (hcode i (List.mem_append_right _ hi)).1

end NativeCode.Compile
