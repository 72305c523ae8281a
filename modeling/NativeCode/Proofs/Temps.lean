import NativeCode.Listing
import NativeCode.Proofs.Except
import NativeCode.Temps

/-!
# Temporaries and their registers

A temporary keeps the register it was issued, so code can be bound to the registers of any later
state of the temporaries. Binding changes nothing but the registers of operands.
-/

namespace NativeCode.Temps

open Abi Machine

variable {t t' : Temps}

/-- A new temporary has the next number, and the first register of its pool that no live one
holds. -/
theorem exists_first_of_issue {target : Target} {cls : RegClass} {r : Nat × Temps}
    (h : t.issue target cls = .ok r) :
    ∃ front q back, target.pool cls = front ++ q :: back ∧ (∀ p ∈ front, t.holds p = true) ∧
      t.holds q = false ∧ t.regs.size < limit ∧
      r = (t.regs.size, { regs := t.regs.push q, live := t.live ++ [t.regs.size] }) := by
  unfold issue at h
  split_ifs at h with hlimit
  · cases h
  · split at h
    case h_1 => cases h
    case h_2 q hq =>
      obtain ⟨hfree, front, back, hpool, hfront⟩ := List.find?_eq_some_iff_append.mp hq
      exact ⟨front, q, back, hpool, fun p hp => by simpa using hfront p hp, by simpa using hfree,
        not_le.mp hlimit, (Except.ok.inj h).symm⟩

lemma issue_eq_ok {target : Target} {cls : RegClass} {r : Nat × Temps}
    (h : t.issue target cls = .ok r) :
    ∃ q, q ∈ target.pool cls ∧ t.holds q = false ∧ t.regs.size < limit ∧
      r = (t.regs.size, { regs := t.regs.push q, live := t.live ++ [t.regs.size] }) := by
  obtain ⟨front, q, back, hpool, -, hrest⟩ := exists_first_of_issue h
  exact ⟨q, by simp [hpool], hrest⟩

def Grows (t t' : Temps) : Prop := t.regs.toList <+: t'.regs.toList

lemma Grows.refl (t : Temps) : t.Grows t := List.prefix_rfl

lemma Grows.trans {t'' : Temps} (h : t.Grows t') (h' : t'.Grows t'') : t.Grows t'' :=
  List.IsPrefix.trans h h'

lemma Grows.getElem? (h : t.Grows t') {id : Nat} {r : PhysReg} (hr : t.regs[id]? = some r) :
    t'.regs[id]? = some r := by
  obtain ⟨hlt, -⟩ := Array.getElem?_eq_some_iff.mp hr
  rw [← Array.getElem?_toList] at hr ⊢
  rw [← hr]
  exact (List.prefix_iff_getElem?.mp h id (by simpa using hlt)).trans (by simp [hlt])

lemma Grows.size_le (h : t.Grows t') : t.regs.size ≤ t'.regs.size := by
  simpa using h.length_le

lemma grows_push (t : Temps) (q : PhysReg) (live : List Nat) :
    t.Grows { regs := t.regs.push q, live } := by
  rw [Grows, Array.toList_push]
  exact List.prefix_append _ _

/-! ### Binding -/

/-- A register with a temporary replaced by its register. -/
def boundReg (t : Temps) : Reg → Reg
  | .phys r => .phys r
  | .temp id _ => .phys (t.regs.getD id (.gpr .rax))

def boundOperand (t : Temps) : Operand → Operand
  | .reg r => .reg { r with reg := t.boundReg r.reg }
  | .mem m =>
    .mem { m with
      base := t.boundReg m.base
      index := m.index.map fun i => (t.boundReg i.1, i.2) }
  | o => o

/-- An instruction with its temporaries replaced. -/
def boundInstr (t : Temps) (i : Instr) : Instr := { i with operands := i.operands.map t.boundOperand }

def boundItem (t : Temps) : Item → Item
  | .instr i => .instr (t.boundInstr i)
  | item => item

@[simp] lemma boundInstr_op (t : Temps) (i : Instr) : (t.boundInstr i).op = i.op := rfl

@[simp] lemma boundInstr_operands (t : Temps) (i : Instr) :
    (t.boundInstr i).operands = i.operands.map t.boundOperand := rfl

lemma boundReg_temp {id : Nat} {r : PhysReg} (h : t.regs[id]? = some r) (cls : RegClass) :
    t.boundReg (.temp id cls) = .phys r := by
  rw [boundReg, Array.getD_eq_getD_getElem?, h, Option.getD_some]

lemma bindReg_eq_ok {r r' : Reg} (h : t.bindReg r = .ok r') : r' = t.boundReg r := by
  cases r with
  | phys r => exact (Except.ok.inj h).symm
  | temp id cls =>
    rw [bindReg, reg] at h
    cases hr : t.regs[id]? with
    | none => rw [hr] at h; cases h
    | some q =>
      rw [hr] at h
      rw [boundReg_temp hr]
      exact (Except.ok.inj h).symm

lemma bindOperand_eq_ok {o o' : Operand} (h : t.bindOperand o = .ok o') :
    o' = t.boundOperand o := by
  cases o with
  | reg r =>
    obtain ⟨r', hr, h⟩ := exists_ok_of_bind h
    rw [boundOperand, ← bindReg_eq_ok hr]
    exact (Except.ok.inj h).symm
  | mem m =>
    obtain ⟨base, disp, index⟩ := m
    obtain ⟨base', hb, h⟩ := exists_ok_of_bind h
    cases index with
    | none =>
      rw [boundOperand, ← bindReg_eq_ok hb]
      exact (Except.ok.inj h).symm
    | some index =>
      obtain ⟨r', hr, h⟩ := exists_ok_of_bind h
      rw [boundOperand, ← bindReg_eq_ok hb, Option.map_some, ← bindReg_eq_ok hr]
      exact (Except.ok.inj h).symm
  | imm v | label l | symbol l | rip l => exact (Except.ok.inj h).symm

lemma mapM_eq_ok {α β : Type} {f : α → Except Failure β} {g : α → β}
    (hf : ∀ a b, f a = .ok b → b = g a) {as : List α} {bs : List β} (h : as.mapM f = .ok bs) :
    bs = as.map g := by
  induction as generalizing bs with
  | nil =>
    rw [List.mapM_nil] at h
    exact (Except.ok.inj h).symm
  | cons a as ih =>
    rw [List.mapM_cons] at h
    obtain ⟨b, ha, h⟩ := exists_ok_of_bind h
    obtain ⟨bs', has, h⟩ := exists_ok_of_bind h
    rw [List.map_cons, ← hf a b ha, ← ih has]
    exact (Except.ok.inj h).symm

lemma bindInstr_eq_ok {i i' : Instr} (h : t.bindInstr i = .ok i') :
    i' = t.boundInstr i := by
  obtain ⟨os, hos, h⟩ := exists_ok_of_bind h
  rw [boundInstr, ← mapM_eq_ok (fun _ _ => bindOperand_eq_ok) hos]
  exact (Except.ok.inj h).symm

lemma bindBlock_eq_ok {b b' : Block} (h : t.bindBlock b = .ok b') :
    b' = { b with code := b.code.map t.boundInstr } := by
  obtain ⟨code, hcode, h⟩ := exists_ok_of_bind h
  rw [← mapM_eq_ok (fun _ _ => bindInstr_eq_ok) hcode]
  exact (Except.ok.inj h).symm

lemma bind_eq_ok {f f' : Function} (h : t.bind f = .ok f') :
    f' = { f with
      prologue := f.prologue.map t.boundInstr
      blocks := f.blocks.map fun b => { b with code := b.code.map t.boundInstr }
      epilogue := f.epilogue.map t.boundInstr } := by
  obtain ⟨prologue, hp, h⟩ := exists_ok_of_bind h
  obtain ⟨blocks, hb, h⟩ := exists_ok_of_bind h
  obtain ⟨epilogue, he, h⟩ := exists_ok_of_bind h
  rw [← mapM_eq_ok (fun _ _ => bindInstr_eq_ok) hp, ← mapM_eq_ok (fun _ _ => bindBlock_eq_ok) hb,
    ← mapM_eq_ok (fun _ _ => bindInstr_eq_ok) he]
  exact (Except.ok.inj h).symm

/-- The lines of a bound function are the bound lines of the function. -/
theorem functionItems_bind {f f' : Function} (h : t.bind f = .ok f') :
    Listing.functionItems f' = (Listing.functionItems f).map t.boundItem := by
  rw [bind_eq_ok h]
  simp only [Listing.functionItems, List.map_append, List.map_cons, List.map_nil, List.map_map,
    boundItem, List.map_flatMap, List.flatMap_map]
  congr 1
  split_ifs <;> simp [boundItem, Function.comp_def]

end NativeCode.Temps
