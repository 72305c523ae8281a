import NativeCode.Proofs.Compile.Program
import NativeCode.Proofs.Compile.Stretches
import NativeCode.Proofs.Selection.Temporaries

/-!
# Registers for temporaries

The temporaries in the code of a construct were issued for it, are settled before they are needed,
and are in registers that nothing else in this code uses. Binding replaces every temporary of a
function by its register, everywhere by the same one.
-/

namespace NativeCode.Temps

open Machine

lemma regs_boundOperand (τ : Temps) (o : Operand) :
    (τ.boundOperand o).regs = o.regs.map τ.boundReg := by
  cases o with
  | reg r => rfl
  | mem m =>
    obtain ⟨base, disp, index⟩ := m
    cases index <;> rfl
  | imm | label | symbol | rip => rfl

lemma regs_boundInstr (τ : Temps) (i : Instr) :
    (τ.boundInstr i).regs = i.regs.map τ.boundReg := by
  simp only [Instr.regs, boundInstr_operands, List.flatMap_map, List.map_flatMap, regs_boundOperand]

end NativeCode.Temps

namespace NativeCode.Compile

open Abi NativeCode.Frame Machine Selection
open Selection (Session)

variable {o : Options} {f : Ir.Function} {s s' start : Session} {c : Machine.Function} {x : Stretch}
  {xs : List Stretch} {q : PhysReg} {is : List Instr}

def Occurs (id : Nat) (code : List Instr) : Prop := ∃ i ∈ code, ∃ cls, .temp id cls ∈ i.regs

/-- Some code uses a physical register, by name or implicitly. -/
def Uses (q : PhysReg) (code : List Instr) : Prop :=
  ∃ i ∈ code, .phys q ∈ i.regs ∨ q ∈ i.op.implicit

/-- The temporaries in the code of a construct have registers of their own: they were issued for it,
are settled before they are needed, and are in different registers, none of which the code uses
otherwise or has a task. -/
structure Stretch.Assigned (t : Target) (τ : Temps) (x : Stretch) : Prop where
  issued : ∀ id, Occurs id x.code → x.before.temps.count ≤ id ∧ id < x.after.temps.count
  prepared : Prepared [] x.code
  distinct : ∀ id id' q, Occurs id x.code → Occurs id' x.code → τ.regs[id]? = some q →
    τ.regs[id']? = some q → id = id'
  spare : ∀ id q, Occurs id x.code → τ.regs[id]? = some q →
    ¬ Uses q x.code ∧ q ∉ taskRegs ∧ ∀ cls, q ∉ t.args cls ∧ q ≠ t.result cls

/-- `c` is `u` with every temporary replaced by its register, of the same class. -/
structure Binds (τ : Temps) (u c : Machine.Function) : Prop where
  prologue : c.prologue = u.prologue.map τ.boundInstr
  blocks : c.blocks = u.blocks.map fun b => { b with code := b.code.map τ.boundInstr }
  epilogue : c.epilogue = u.epilogue.map τ.boundInstr
  physical : ∀ i ∈ u.prologue ++ (u.blocks.flatMap (·.code) ++ u.epilogue),
    (τ.boundInstr i).regs = i.regs.map τ.boundReg ∧
      ∀ r ∈ i.regs, ∃ q, τ.boundReg r = .phys q ∧ q.cls = r.cls ∧
        ∀ id cls, r = .temp id cls → τ.regs[id]? = some q

/-! ### Code of constructs -/

lemma Stretch.Selected.exists_advances (h : x.Selected o) (n : Nat) :
    ∃ k', Advances o.target n x.before [] x.after k' := by
  have hyields := h.yields
  rw [← h.options]
  cases hconstruct : x.construct with
  | instr i =>
    rw [hconstruct] at hyields
    exact exists_advances_instrCode hyields
  | term b next =>
    rw [hconstruct] at hyields
    exact exists_advances_leave hyields

lemma Stretch.Selected.regular (h : x.Selected o) :
    Prepared [] x.code ∧
      ∀ i ∈ x.code, ∀ r ∈ i.regs, Regular o.target x.before.temps.count x.after.temps r := by
  obtain ⟨k', e⟩ := h.exists_advances x.before.temps.count
  obtain ⟨-, is, hcode, hprepared, -, hregs⟩ := e.code le_rfl (by simp)
  rw [List.append_cancel_left (h.code.symm.trans hcode)]
  exact ⟨hprepared, hregs⟩

lemma fixed_of_result {c : Convention} (cls : RegClass) :
    c.target.Fixed (c.target.result cls) := by
  cases c <;> cases cls <;> decide

lemma fixed_of_implicit {c : Convention} {op : Opcode} (h : q ∈ op.implicit) :
    c.target.Fixed q := by
  refine fixed_of_task ?_
  cases op with
  | cqto | div | push | pop | ret =>
    simp only [Opcode.implicit, List.mem_cons, List.not_mem_nil, or_false] at h
    rcases h with rfl | rfl <;> decide
  | _ => cases h

lemma not_fixed_of_pool {t : Target} {cls : RegClass} (h : q ∈ t.pool cls) : ¬ t.Fixed q := by
  rintro ⟨hgpr, hxmm⟩
  cases cls with
  | gpr => exact hgpr h
  | xmm => exact hxmm h

/-- The temporaries in the code of a construct have registers of their own. -/
theorem Stretch.Selected.assigned (h : x.Selected o) {τ : Temps} (hτ : x.after.temps.Grows τ) :
    x.Assigned o.target τ := by
  obtain ⟨hprepared, hregs⟩ := h.regular
  have hwindow : Temps.Window x.before.temps.count x.after.temps := by
    obtain ⟨k', e⟩ := h.exists_advances x.before.temps.count
    exact (Temps.window_size x.before.temps).issues e.temps
  have hoccurs (id : Nat) (hid : Occurs id x.code) : x.before.temps.count ≤ id ∧
      ∃ q cls, q ∈ o.target.pool cls ∧ x.after.temps.regs[id]? = some q := by
    obtain ⟨i, hi, cls, hr⟩ := hid
    obtain ⟨hle, q, hq, hget⟩ := hregs i hi _ hr
    exact ⟨hle, q, cls, hq, hget⟩
  -- A temporary that occurs has its register already when the construct is done.
  have hafter (id : Nat) (q : PhysReg) (hid : Occurs id x.code) (hq : τ.regs[id]? = some q) :
      x.after.temps.regs[id]? = some q := by
    obtain ⟨-, q', -, -, hget⟩ := hoccurs id hid
    rw [hget, ← hq, hτ.getElem? hget]
  refine ⟨fun id hid => ?_, hprepared, fun id id' q hid hid' hq hq' => ?_, fun id q hid hq => ?_⟩
  · obtain ⟨hle, q, -, -, hget⟩ := hoccurs id hid
    exact ⟨hle, (Array.getElem?_eq_some_iff.mp hget).1⟩
  · exact hwindow.distinct id id' q (hoccurs id hid).1 (hoccurs id' hid').1 (hafter id q hid hq)
      (hafter id' q hid' hq')
  · obtain ⟨-, q', cls, hpool, hget⟩ := hoccurs id hid
    obtain rfl : q' = q := Option.some.inj (hget.symm.trans (hafter id q hid hq))
    have hfree := not_fixed_of_pool hpool
    refine ⟨?_, fun htask => hfree (fixed_of_task (c := o.convention) htask), fun cls' =>
      ⟨fun hargs => hfree (fixed_of_args (c := o.convention) hargs), ?_⟩⟩
    · rintro ⟨i, hi, hreg | himplicit⟩
      · exact hfree (hregs i hi _ hreg)
      · exact hfree (fixed_of_implicit (c := o.convention) himplicit)
    · rintro rfl
      exact hfree (fixed_of_result (c := o.convention) cls')

lemma Stretches.pairwise_occurs (h : Stretches o s xs s') :
    xs.Pairwise fun x y => ∀ id, Occurs id x.code → ¬ Occurs id y.code := by
  induction h with
  | nil => exact .nil
  | @cons x xs s s' hx hnext hrest ih =>
    refine .cons (fun y hy id hid hid' => ?_) ih
    obtain ⟨hy, hbefore, -⟩ := hrest.later_of_mem hy
    have hlt := ((hx.assigned (.refl _)).issued id hid).2
    have hle := ((hy.assigned (.refl _)).issued id hid').1
    have hsize := (hnext.later.trans hbefore).temps.size_le
    exact absurd hlt (not_lt.mpr (hsize.trans hle))

/-! ### Functions -/

lemma not_occurs_append {id : Nat} {js : List Instr} (his : ¬ Occurs id is)
    (hjs : ¬ Occurs id js) : ¬ Occurs id (is ++ js) := by
  rintro ⟨i, hi, hoccurs⟩
  rcases List.mem_append.mp hi with hi | hi
  · exact his ⟨i, hi, hoccurs⟩
  · exact hjs ⟨i, hi, hoccurs⟩

lemma not_occurs {id : Nat} (h : ∀ i ∈ is, ∀ cls, .temp id cls ∉ i.regs) : ¬ Occurs id is := by
  rintro ⟨i, hi, cls, hr⟩
  exact h i hi cls hr

lemma not_occurs_layout (id : Nat) (l : Layout) : ¬ Occurs id (l.prologue ++ l.epilogue) := by
  refine not_occurs fun i hi cls => ?_
  cases Layout.line_of_mem hi <;>
    simp [Instr.regs, Operand.regs, Operand.address, Layout.moveStack, Frame.pushInstr, Frame.popInstr, Frame.copyInstr]

lemma Homes.not_occurs {index : Nat} {ps : List (Ir.Param × Placement)}
    {code : List Instr} (h : Homes index ps s code s') (id : Nat) : ¬ Occurs id code := by
  refine Compile.not_occurs fun i hi cls => ?_
  obtain ⟨q, -, d, hline, -⟩ := h.exists_homeLine hi
  cases hline with
  | load =>
    unfold extendingLoad
    split <;> simp [Instr.regs, Operand.regs, Operand.address]
  | extend _ _ hextend =>
    unfold extendInPlace at hextend
    split at hextend <;> cases hextend <;> simp [Instr.regs, Operand.regs]
  | store | storeFloat => simp [homeStore, Instr.regs, Operand.regs, Operand.address]

lemma exists_phys_of_not_occurs {τ : Temps} (h : ∀ id, ¬ Occurs id is) {i : Instr} (hi : i ∈ is)
    {r : Reg} (hr : r ∈ i.regs) :
    ∃ q, τ.boundReg r = .phys q ∧ q.cls = r.cls ∧ ∀ id cls, r = .temp id cls →
      τ.regs[id]? = some q := by
  cases r with
  | phys q => exact ⟨q, rfl, rfl, fun id cls h => by cases h⟩
  | temp id cls => exact absurd ⟨i, hi, cls, hr⟩ (h id)

lemma cls_of_pool {c : Convention} {cls : RegClass} (h : q ∈ c.target.pool cls) : q.cls = cls := by
  have hall : ∀ q ∈ c.target.pool cls, q.cls = cls := by cases c <;> cases cls <;> decide
  exact hall q h

/-- The temporaries of a compiled function: its code is selected construct by construct, each of them
with temporaries of its own, and then every temporary is replaced by its register. -/
theorem temporaries_assigned {c : Compiled} (h : (compileFunction o f).run start = .ok (c, s)) :
    ∃ (order : List Ir.Block) (u : Machine.Function) (first : Session) (xs : List Stretch),
      ControlFlow.order f = .ok order ∧ Stretches o first xs s ∧
      xs.map (·.construct) = constructs order ∧
      u.blocks.flatMap (·.code) = xs.flatMap (·.code) ∧
      (∀ x ∈ xs, x.Assigned o.target s.temps) ∧
      xs.Pairwise (fun x y => ∀ id, Occurs id x.code → ¬ Occurs id y.code) ∧
      (∀ id, ¬ Occurs id (u.prologue ++ u.epilogue)) ∧ Binds s.temps u c.code := by
  obtain ⟨parts, rfl⟩ := exists_parts h
  obtain ⟨xs, hxs, hconstructs, hcode⟩ := parts.exists_selected
  obtain ⟨placements, -, -, hhomes⟩ := parts.exists_homes
  have hprologue (id : Nat) : ¬ Occurs id (parts.frame.prologue ++ parts.homing) :=
    not_occurs_append (fun ⟨i, hi, hoccurs⟩ =>
      not_occurs_layout id _ ⟨i, List.mem_append_left _ hi, hoccurs⟩) (hhomes.not_occurs id)
  have hepilogue (id : Nat) :
      ¬ Occurs id (if parts.last.returns then parts.frame.epilogue else []) := by
    split_ifs
    · exact fun ⟨i, hi, hoccurs⟩ => not_occurs_layout id _ ⟨i, List.mem_append_right _ hi, hoccurs⟩
    · simp [Occurs]
  have hbound := Temps.bind_eq_ok parts.bound
  refine ⟨parts.order, _, _, xs, parts.ordered, hxs, hconstructs, hcode, fun x hx => ?_,
    hxs.pairwise_occurs, fun id => not_occurs_append (hprologue id) (hepilogue id),
    congrArg Machine.Function.prologue hbound, congrArg Machine.Function.blocks hbound,
    congrArg Machine.Function.epilogue hbound, fun i hi => ⟨Temps.regs_boundInstr _ i, ?_⟩⟩
  · obtain ⟨hselected, -, hafter⟩ := hxs.later_of_mem hx
    exact hselected.assigned hafter.temps
  · intro r hr
    simp only [List.mem_append] at hi
    rcases hi with hi | hi | hi
    · exact exists_phys_of_not_occurs hprologue (List.mem_append.mpr hi) hr
    · rw [hcode, List.mem_flatMap] at hi
      obtain ⟨x, hx, hi⟩ := hi
      obtain ⟨hselected, -, hafter⟩ := hxs.later_of_mem hx
      have hregular := (hselected.regular.2 i hi r hr).mono hafter.temps
      cases r with
      | phys q => exact ⟨q, rfl, rfl, fun id cls h => by cases h⟩
      | temp id cls =>
        obtain ⟨-, q, hq, hget⟩ := hregular
        refine ⟨q, Temps.boundReg_temp hget cls, cls_of_pool (c := o.convention) hq, ?_⟩
        intro id' cls' heq
        cases heq
        exact hget
    · exact exists_phys_of_not_occurs hepilogue hi hr

/-- Two floats are equal if they are ordered and neither is less: two conditions, in a temporary
each. -/
def equalsFloats : Ir.Function where
  params := [⟨"x", .float .double⟩, ⟨"y", .float .double⟩]
  ret := .bool
  blocks :=
    [{ instrs :=
        [{ kind := .binary .eq, ty := .float .double, operands := [.param 0, .param 1], result := some 0 }]
       term := { exit := .ret, value := some (.value 0) } }]

lemma temps_equalsFloats :
    ((compileFunction {} equalsFloats).run {}).map (fun r => r.2.temps.regs.toList) =
      .ok [.xmm 8, .gpr .r10, .gpr .r11] := by
  decide +kernel

/-- The comparison of two floats has three temporaries, in three registers. -/
theorem temporaries_assigned_equalsFloats :
    ∃ c s u, ∃ xs : List Stretch, (compileFunction {} equalsFloats).run {} = .ok (c, s) ∧
      s.temps.regs.toList = [.xmm 8, .gpr .r10, .gpr .r11] ∧
      u.blocks.flatMap (·.code) = xs.flatMap (·.code) ∧
      (∀ x ∈ xs, x.Assigned sysv s.temps) ∧ Binds s.temps u c.code := by
  have htemps := temps_equalsFloats
  cases hrun : (compileFunction {} equalsFloats).run {} with
  | error e =>
    rw [hrun] at htemps
    cases htemps
  | ok r =>
    rw [hrun] at htemps
    obtain ⟨order, u, first, xs, -, -, -, hcode, hassigned, -, -, hbinds⟩ :=
      temporaries_assigned (s := r.2) (c := r.1) hrun
    exact ⟨r.1, r.2, u, xs, rfl, Except.ok.inj htemps, hcode, hassigned, hbinds⟩

end NativeCode.Compile
