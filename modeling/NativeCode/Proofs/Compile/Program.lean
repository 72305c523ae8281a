import NativeCode.Proofs.Compile.Lines
import NativeCode.Proofs.Frame.Setup
import NativeCode.Proofs.Machine.Run

/-!
# The program of a function

The lines of a compiled function are its name, the prologue, the code that stores parameters, the
blocks and the epilogue. All temporaries are bound, so every line writes registers of the machine:
never the stack pointer or the frame pointer outside prologue and epilogue, and a register that a
callee has to keep only if the prologue saves it.
-/

namespace NativeCode.Compile

open Abi NativeCode.Frame Machine Selection

variable {o : Options} {f : Ir.Function} {start : Session} {c : Machine.Function}

/-! ### Registers and memory that bound code writes -/

lemma dst?_bound (τ : Temps) (i : Instr) :
    (τ.boundInstr i).dst? = i.dst?.map τ.boundOperand := by
  unfold Instr.dst?
  rw [Temps.boundInstr_op, Temps.boundInstr_operands, List.getLast?_map]
  split_ifs <;> rfl

lemma implicit_of_isPlain {op : Opcode} (h : op.isPlain = true) :
    ∀ r ∈ op.implicit, r ∈ [PhysReg.gpr .rax, .gpr .rcx, .gpr .rdx, .xmm 0] := by
  cases op <;> simp_all [Opcode.isPlain, Opcode.implicit]

lemma pool_of_temp {s : Session} (hs : s.Inv o.target) {id : Nat} {r : PhysReg}
    (hr : s.temps.regs[id]? = some r) :
    r ≠ .gpr .rsp ∧ r ≠ .gpr .rbp ∧
      (o.target.keeps r = true → r ∈ s.temps.saved o.target) := by
  have hmem : r ∈ s.temps.regs.toList := by
    rw [← Array.getElem?_toList] at hr
    exact List.mem_of_getElem? hr
  have hsaved : r ∈ o.target.tempGpr ++ o.target.tempXmm → o.target.keeps r = true →
      r ∈ s.temps.saved o.target := by
    intro hpool hkeeps
    rw [Temps.saved, List.mem_filter]
    exact ⟨hpool, by simpa [hkeeps] using hmem⟩
  rcases hs.temps r hmem with h | h
  · obtain ⟨g, rfl, hg, -⟩ := pool_gpr (c := o.convention) h
    refine ⟨fun e => ?_, fun e => ?_, hsaved (List.mem_append_left _ h)⟩
    · cases e; simp at hg
    · cases e; simp at hg
  · obtain ⟨x, rfl, -, -⟩ := pool_xmm (c := o.convention) h
    exact ⟨by simp, by simp, hsaved (List.mem_append_right _ h)⟩

lemma scratch_ne {r : PhysReg} (h : o.target.Scratch r) :
    r ≠ .gpr .rsp ∧ r ≠ .gpr .rbp ∧ (o.target.keeps r = true → False) := by
  refine ⟨h.2, fun e => ?_, fun hk => ?_⟩
  · have := keeps_rbp o.convention
    rw [← e] at this
    rw [show o.convention.target = o.target from rfl, h.1] at this
    cases this
  · rw [h.1] at hk
    cases hk

/-- Bound code writes neither stack pointer nor frame pointer, and the registers that a callee has
to keep only if they are saved. -/
theorem written_of_tame {s : Session} (hs : s.Inv o.target) {i : Instr}
    (h : Tame o.target s i) :
    ∀ r ∈ (s.temps.boundInstr i).written, r ≠ .gpr .rsp ∧ r ≠ .gpr .rbp ∧
      (o.target.keeps r = true → r ∈ s.temps.saved o.target) := by
  intro r hr
  have hscratch : o.target.Scratch r → r ≠ .gpr .rsp ∧ r ≠ .gpr .rbp ∧
      (o.target.keeps r = true → r ∈ s.temps.saved o.target) := fun h =>
    ⟨(scratch_ne h).1, (scratch_ne h).2.1, fun hk => absurd hk (scratch_ne h).2.2⟩
  cases h with
  | call f hop hargs hcalls =>
    simp [Instr.written, Instr.dst?, hop, Opcode.implicit, Opcode.writesLast] at hr
  | plain hop hdst =>
    rw [Instr.written, List.mem_append, dst?_bound, Temps.boundInstr_op] at hr
    rcases hr with hr | hr
    · exact hscratch (scratch_of_mem (c := o.convention) (implicit_of_isPlain hop r hr))
    · cases hd : i.dst? with
      | none => simp [hd] at hr
      | some d =>
        rw [hd] at hr
        rw [Option.map_some, Option.bind_some, Option.mem_toList] at hr
        cases hdst d hd with
        | @reg q w hw =>
          cases q with
          | phys q =>
            cases hr
            exact hscratch hw
          | temp id cls =>
            have hget : s.temps.regs[id]? = some s.temps.regs[id] :=
              Array.getElem?_eq_getElem hw
            rw [Temps.boundOperand, Temps.boundReg_temp hget] at hr
            cases hr
            exact pool_of_temp hs hget
        | slot | outgoing | symbol => cases hr
        | pointer => cases hr

/-! ### The frame of a function -/

namespace Parts

variable (parts : Parts o f start c)

lemma sound : parts.frame.Sound parts.last.frame (parts.last.temps.saved o.target) :=
  Needs.layout_eq_ok parts.inv.locals.1 parts.inv.outgoing.1 parts.layout

lemma exists_saved_eq (τ : Temps) :
    ∃ gs : List Gpr, τ.saved o.target = gs.map .gpr ∧ gs.Nodup ∧ .rsp ∉ gs ∧ .rbp ∉ gs ∧
      gs.length ≤ 16 := by
  have hpool : ∀ cv : Convention, ∃ gs : List Gpr, cv.target.tempGpr = gs.map .gpr ∧ gs.Nodup ∧
      .rsp ∉ gs ∧ .rbp ∉ gs ∧ gs.length ≤ 16 ∧ ∀ x ∈ cv.target.tempXmm, cv.target.keeps x = false := by
    intro cv
    cases cv with
    | sysv => exact ⟨[.r10, .r11, .rbx, .r12, .r13, .r14, .r15], by decide⟩
    | win64 => exact ⟨[.r10, .r11, .rbx, .rsi, .rdi, .r12, .r13, .r14, .r15], by decide⟩
  obtain ⟨gs, hgs, hnodup, hrsp, hrbp, hlen, hxmm⟩ := hpool o.convention
  let keep : Gpr → Bool := fun g => o.target.keeps (.gpr g) && τ.regs.contains (.gpr g)
  refine ⟨gs.filter keep, ?_, hnodup.filter _, fun h => hrsp (List.mem_of_mem_filter h),
    fun h => hrbp (List.mem_of_mem_filter h), (List.length_filter_le _ _).trans hlen⟩
  have hnone : o.target.tempXmm.filter (fun r => o.target.keeps r && τ.regs.contains r) = [] := by
    rw [List.filter_eq_nil_iff]
    intro x hx
    rw [show o.target.keeps x = false from hxmm x hx]
    simp
  rw [Temps.saved, List.filter_append, hnone, List.append_nil,
    show o.target.tempGpr = gs.map .gpr from hgs, List.filter_map]
  rfl

theorem moderate : parts.frame.Moderate := by
  have hs := parts.sound
  have hlocals := parts.inv.locals
  have hout := parts.inv.outgoing
  have hlimit : Temps.limit = 65535 := rfl
  refine ⟨⟨hs.adjust_nonneg, ?_⟩, ⟨?_, ?_⟩, ?_, hs.outgoing_aligned, ?_⟩
  · have := hs.adjust_le
    omega
  · exact hout.1.trans hs.outgoing_ge
  · have := hs.outgoing_le
    omega
  · rw [hs.pushes]
    exact hs.aligned
  · rw [hs.pushes]
    exact exists_saved_eq _

lemma keeps_saved : ∀ r ∈ parts.frame.saved, o.target.keeps r = true := by
  intro r hr
  rw [parts.sound.pushes, Temps.saved, List.mem_filter] at hr
  exact (Bool.and_eq_true_iff.mp hr.2).1

lemma boundInstr_layout (τ : Temps) (l : Layout) :
    ∀ i ∈ l.prologue ++ l.epilogue, τ.boundInstr i = i := by
  intro i hi
  cases Layout.line_of_mem hi <;> rfl

lemma name_eq : c.name = parts.last.symbol :=
  congrArg Machine.Function.name (Temps.bind_eq_ok parts.bound)

lemma prologue_eq :
    c.prologue = parts.frame.prologue ++ parts.homing.map parts.last.temps.boundInstr := by
  refine (congrArg Machine.Function.prologue (Temps.bind_eq_ok parts.bound)).trans ?_
  rw [List.map_append, List.map_congr_left fun i hi => boundInstr_layout _ _ i (List.mem_append_left _ hi), List.map_id']

lemma blocks_eq : c.blocks = parts.blocks.map fun b =>
    { b with code := b.code.map parts.last.temps.boundInstr } :=
  congrArg Machine.Function.blocks (Temps.bind_eq_ok parts.bound)

def body : List Item :=
  (parts.homing.map Item.instr ++ parts.blocks.flatMap blockItems).map parts.last.temps.boundItem

def tail : List Item :=
  if parts.last.returns then .label parts.last.epilogueLabel :: parts.frame.epilogue.map .instr
  else []

lemma exists_bodyLine {item : Item} (h : item ∈ parts.body) :
    ∃ line, BodyLine o.target parts.last line ∧ item = parts.last.temps.boundItem line := by
  obtain ⟨line, hline, rfl⟩ := List.mem_map.mp h
  refine ⟨line, ?_, rfl⟩
  rcases List.mem_append.mp hline with h | h
  · obtain ⟨i, hi, rfl⟩ := List.mem_map.mp h
    exact .tame (parts.tame_homing i hi)
  · exact parts.bodyLine line h

theorem functionItems_eq :
    Listing.functionItems c =
      [.directive (".globl " ++ parts.last.symbol), .directive ".p2align 4",
        .label parts.last.symbol] ++
      (parts.frame.prologue.map .instr ++ (parts.body ++ parts.tail)) := by
  have hinstr : ∀ (is : List Instr), (∀ i ∈ is, parts.last.temps.boundInstr i = i) →
      (is.map Item.instr).map parts.last.temps.boundItem = is.map .instr := by
    intro is his
    rw [List.map_map]
    exact List.map_congr_left fun i hi => congrArg Item.instr (his i hi)
  rw [Temps.functionItems_bind parts.bound, Listing.functionItems]
  have hlabel : parts.last.epilogueLabel.isEmpty = false := by
    rw [epilogueLabel_eq, String.isEmpty_eq_false_iff]
    exact localLabel_ne_empty _ _
  have htail : (if (if parts.last.returns then parts.last.epilogueLabel else "").isEmpty then []
      else Item.label (if parts.last.returns then parts.last.epilogueLabel else "") ::
        (if parts.last.returns then parts.frame.epilogue else []).map Item.instr).map
          parts.last.temps.boundItem = parts.tail := by
    unfold tail
    by_cases hr : parts.last.returns = true
    · simp only [hr, if_true, hlabel, Bool.false_eq_true, if_false, List.map_cons]
      rw [hinstr _ fun i hi => boundInstr_layout _ _ i (List.mem_append_right _ hi)]
      rfl
    · simp only [hr, Bool.false_eq_true, if_false]
      rfl
  have hblocks : (parts.blocks.flatMap fun b => Item.label b.label :: b.code.map Item.instr) =
      parts.blocks.flatMap blockItems := rfl
  dsimp only
  rw [hblocks, List.map_append, List.map_append, List.map_append, htail, List.map_append,
    List.map_append, hinstr _ fun i hi => boundInstr_layout _ _ i (List.mem_append_left _ hi), body, List.map_append]
  simp only [List.append_assoc]
  rfl

end Parts

end NativeCode.Compile
