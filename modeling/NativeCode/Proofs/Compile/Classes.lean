import NativeCode.Proofs.Compile.Typing

/-!
# Register classes of operands

Where an operand stands decides what its type has to be like: operands of an operation and stored
values belong to the register class of the instruction, addresses are pointers, and conditions are
integers. In a module that compiles, the operands of all blocks that can be reached are as they
should be, with two exceptions: no check is made of the literal of a constant, nor of what a function
without a float result returns.
-/

namespace NativeCode.Ir

open Machine

/-- What the place of an operand asks of its type. -/
inductive Need where
  /-- Values of a register class. -/
  | inClass (cls : RegClass)
  | integer
  | pointer
  deriving DecidableEq

/-- A type is as it should be. -/
def Need.Met : Need → Ty → Prop
  | .inClass cls, ty => ty.regClass = cls
  | .integer, ty => ty.isInteger = true
  | .pointer, ty => ty = .ptr

instance (need : Need) (ty : Ty) : Decidable (need.Met ty) :=
  match need with
  | .inClass cls => inferInstanceAs (Decidable (ty.regClass = cls))
  | .integer => inferInstanceAs (Decidable (ty.isInteger = true))
  | .pointer => inferInstanceAs (Decidable (ty = .ptr))

/-- The places where operands stand. -/
inductive Role where
  | operand
  | stored
  | address
  | literal
  | returned
  | condition
  deriving DecidableEq

/-- An operand stands somewhere in a block, where something is asked of its type. -/
inductive Plays (f : Function) (b : Block) : Role → Operand → Need → Prop
  | operand {i : Instr} {op : BinaryOp} {x : Operand} (hi : i ∈ b.instrs)
      (hkind : i.kind = .binary op) (hx : x ∈ i.operands) :
      Plays f b .operand x (.inClass i.ty.regClass)
  | stored {i : Instr} {x : Operand} (hi : i ∈ b.instrs) (hkind : i.kind = .store)
      (hx : i.operands[0]? = some x) : Plays f b .stored x (.inClass i.ty.regClass)
  | storeAddress {i : Instr} {x : Operand} (hi : i ∈ b.instrs) (hkind : i.kind = .store)
      (hx : i.operands[1]? = some x) : Plays f b .address x .pointer
  | loadAddress {i : Instr} {x : Operand} (hi : i ∈ b.instrs) (hkind : i.kind = .load)
      (hx : x ∈ i.operands) : Plays f b .address x .pointer
  | literal {i : Instr} {x : Operand} (hi : i ∈ b.instrs) (hkind : i.kind = .const)
      (hx : x ∈ i.operands) : Plays f b .literal x (.inClass i.ty.regClass)
  | earlyReturned {i : Instr} {x : Operand} (hi : i ∈ b.instrs) (hkind : i.kind = .ret)
      (hx : x ∈ i.operands) : Plays f b .returned x (.inClass f.ret.regClass)
  | returned {x : Operand} (hexit : b.term.exit = .ret) (hx : b.term.value = some x) :
      Plays f b .returned x (.inClass f.ret.regClass)
  | condition {x : Operand} {onTrue onFalse : Nat} (hexit : b.term.exit = .branch onTrue onFalse)
      (hx : b.term.value = some x) : Plays f b .condition x .integer

/-- The places that are checked. The condition of a branch whose two targets are the same is not
looked at. -/
def Role.Checked (f : Function) (b : Block) : Role → Prop
  | .operand | .stored | .address => True
  | .literal => False
  | .returned => f.ret.isFloat = true
  | .condition => ∀ id, b.term.exit ≠ .branch id id

end NativeCode.Ir

namespace NativeCode.Compile

open Ir (Need Role Plays)
open Machine Selection
open Selection (Session)

variable {o : Options} {f : Ir.Function} {b : Ir.Block} {i : Ir.Instr} {x : Ir.Operand} {need : Need}
  {s s' start : Session} {c : Machine.Function} {site : Site} {u : Unit}

namespace Typed

lemma exists_met (h : Typed f s) {r : Reach} (hr : s.reach? x = some r)
    (hmet : need.Met r.ty) : ∃ ty, f.typeOf? x = some ty ∧ need.Met ty :=
  ⟨r.ty, h.typeOf?_of_reach hr, hmet⟩

lemma met_binary {op : Ir.BinaryOp} (h : Typed f s)
    (hcode : Yields (binary i op) site s u s') (hx : x ∈ i.operands) :
    ∃ ty, f.typeOf? x = some ty ∧ (Need.inClass i.ty.regClass).Met ty := by
  obtain ⟨form, a, b, ra, rb, -, hops, hra, hclsa, hrb, hclsb, -⟩ := yields_binary.mp hcode
  rw [hops, List.mem_cons, List.mem_singleton] at hx
  rcases hx with rfl | rfl
  · exact h.exists_met hra hclsa
  · exact h.exists_met hrb hclsb

lemma met_addressOf {dst : Operand} (h : Typed f s)
    (hcode : Yields (addressOf x) site s dst s') :
    ∃ ty, f.typeOf? x = some ty ∧ Need.pointer.Met ty := by
  obtain ⟨r, hr, hptr, -⟩ := addressOf_cases hcode
  exact h.exists_met hr hptr

lemma met_load (h : Typed f s) (hcode : Yields (load i) site s u s')
    (hx : x ∈ i.operands) : ∃ ty, f.typeOf? x = some ty ∧ Need.pointer.Met ty := by
  obtain ⟨pointer, src, s₁, value, s₂, hops, -, hsrc, -⟩ := load_cases hcode
  rw [hops, List.mem_singleton] at hx
  subst hx
  exact h.met_addressOf hsrc

lemma met_store (h : Typed f s) (hcode : Yields (store i) site s u s') :
    (∀ x, i.operands[0]? = some x →
        ∃ ty, f.typeOf? x = some ty ∧ (Need.inClass i.ty.regClass).Met ty) ∧
      ∀ x, i.operands[1]? = some x → ∃ ty, f.typeOf? x = some ty ∧ Need.pointer.Met ty := by
  obtain ⟨value, pointer, r, src, s₁, dst, s₂, hops, -, hr, hcls, hdst, hend⟩ := store_cases hcode
  -- the value is loaded before the address
  have hs₁ : Typed f s₁ := by
    have hs : s.Alike s₁ ∧ s₁.function = s.function := by
      obtain ⟨-, t, ht, -⟩ | ⟨-, hsrc, -⟩ := hend
      · obtain ⟨is, he, -⟩ := emits_loadXmm ht
        exact ⟨alike_loadXmm ht, he.later.function⟩
      · obtain ⟨is, he⟩ := emits_storeSource hsrc
        exact ⟨alike_storeSource hsrc, he.later.function⟩
    exact h.congr hs.2 hs.1.params hs.1.values
  rw [hops]
  refine ⟨fun x hx => ?_, fun x hx => ?_⟩
  · cases hx
    exact h.exists_met hr hcls
  · cases hx
    exact hs₁.met_addressOf hdst

lemma met_returnValue {value : Option Ir.Operand} {text : String} (h : Typed f s)
    (hfloat : f.ret.isFloat = true) (hcode : Yields (returnValue value text) site s u s')
    (hx : value = some x) :
    ∃ ty, f.typeOf? x = some ty ∧ (Need.inClass f.ret.regClass).Met ty := by
  obtain ⟨g, hg, ⟨hnone, -⟩ | ⟨v, hv, -, -, ⟨-, hload⟩ | ⟨hne, -⟩⟩⟩ := returnValue_cases hcode
  · rw [hnone] at hx
    cases hx
  · obtain rfl : v = x := Option.some.inj (hv.symm.trans hx)
    obtain ⟨r, hr, hrfloat, -⟩ := loadXmmInto_cases hload
    refine h.exists_met (r := r) hr ?_
    simp only [Need.Met, Ir.Ty.regClass, hrfloat, hfloat]
  · obtain rfl : g = f := Option.some.inj (hg.symm.trans h.function)
    rw [hfloat] at hne
    cases hne

end Typed

lemma met_of_fuses (hf : WellFormed.Sound f) (hb : b ∈ f.blocks) (hi : i ∈ b.instrs)
    (hfuses : fuses s i b.term = true) (hx : b.term.value = some x) :
    ∃ ty, f.typeOf? x = some ty ∧ Need.integer.Met ty := by
  unfold fuses at hfuses
  split at hfuses
  case h_2 => cases hfuses
  case h_1 op id onTrue onFalse v hkind hid _ hvalue =>
    simp only [Bool.and_eq_true, beq_iff_eq] at hfuses
    obtain ⟨⟨⟨⟨hcmp, -⟩, rfl⟩, -⟩, -⟩ := hfuses
    obtain rfl : x = .value v := Option.some.inj (hx.symm.trans hvalue)
    refine ⟨i.resultTy, Ir.Function.typeOf?_value hf hb hi hid, ?_⟩
    simp [Need.Met, Ir.Instr.resultTy, hkind, Ir.BinaryOp.resultTy, hcmp, Ir.Ty.isInteger]

lemma met_branch (h : Typed f s) (hf : WellFormed.Sound f) (hb : b ∈ f.blocks)
    {onTrue onFalse : Nat} {next : Option Nat} (hne : onTrue ≠ onFalse)
    (hpending : s.pending = none ∨ ∃ i ∈ b.instrs, fuses s i b.term = true)
    (hcode : Yields (branch b.term.value onTrue onFalse next) site s u s')
    (hx : b.term.value = some x) : ∃ ty, f.typeOf? x = some ty ∧ Need.integer.Met ty := by
  rcases branch_cases hcode with ⟨heq, -⟩ | ⟨condition, -, hvalue, ⟨cond, hcond, -⟩ | ⟨r, -, hr, hint, -⟩⟩
  · exact absurd heq hne
  · rcases hpending with hnone | ⟨i, hi, hfuses⟩
    · rw [hnone] at hcond
      cases hcond
    · exact met_of_fuses hf hb hi hfuses hx
  · obtain rfl : condition = x := Option.some.inj (hvalue.symm.trans hx)
    exact h.exists_met hr hint

namespace Parts

lemma exists_selected_construct (parts : Parts o f start c) (hf : WellFormed.Sound f)
    {x : Construct} (hx : x ∈ constructs parts.order) :
    ∃ y : Stretch, y.construct = x ∧ y.Selected o ∧ Typed f y.before := by
  obtain ⟨xs, hxs, hconstructs, -, -, htyped⟩ := parts.exists_stretches hf
  rw [← hconstructs, List.mem_map] at hx
  obtain ⟨y, hy, hconstruct⟩ := hx
  exact ⟨y, hconstruct, (hxs.later_of_mem hy).1, (htyped y hy).1⟩

lemma exists_selected_instr (parts : Parts o f start c) (hf : WellFormed.Sound f)
    (hb : b ∈ parts.order) (hi : i ∈ b.instrs) :
    ∃ site s s', site.options = o ∧ Typed f s ∧ Yields (instrCode i) site s () s' := by
  obtain ⟨y, hconstruct, hselected, htyped⟩ :=
    parts.exists_selected_construct hf (instr_mem_constructs hb hi)
  have hyields := hselected.yields
  rw [hconstruct] at hyields
  exact ⟨y.site, y.before, y.after, hselected.options, htyped, hyields⟩

lemma exists_selected_term (parts : Parts o f start c) (hf : WellFormed.Sound f)
    (hb : b ∈ parts.order) :
    ∃ site s s' next, Typed f s ∧ Yields (leave b.term next) site s () s' ∧
      (s.pending = none ∨ ∃ i ∈ b.instrs, fuses s i b.term = true) := by
  obtain ⟨next, hmem⟩ := term_mem_constructs hb
  obtain ⟨y, hconstruct, hselected, htyped⟩ := parts.exists_selected_construct hf hmem
  have hyields := hselected.yields
  rw [hconstruct] at hyields
  exact ⟨y.site, y.before, y.after, next, htyped, hyields, (hselected.term b next hconstruct).2⟩

lemma need_met (parts : Parts o f start c) (hf : WellFormed.Sound f) (hb : f.Reached b)
    {role : Role} (hx : Plays f b role x need) (hrole : role.Checked f b) :
    ∃ ty, f.typeOf? x = some ty ∧ need.Met ty := by
  have hmem := parts.mem_order hf hb
  have hblock := parts.ordered_order.mem b hmem
  obtain ⟨site, s, s', next, hs, hleave, hpending⟩ := parts.exists_selected_term hf hmem
  have hinstr {i : Ir.Instr} (hi : i ∈ b.instrs) := parts.exists_selected_instr hf hmem hi
  cases hx with
  | operand hi hkind hx =>
    obtain ⟨site, s, s', -, hs, hcode⟩ := hinstr hi
    rw [instrCode, hkind] at hcode
    exact hs.met_binary hcode hx
  | stored hi hkind hx =>
    obtain ⟨site, s, s', -, hs, hcode⟩ := hinstr hi
    rw [instrCode, hkind] at hcode
    exact (hs.met_store hcode).1 x hx
  | storeAddress hi hkind hx =>
    obtain ⟨site, s, s', -, hs, hcode⟩ := hinstr hi
    rw [instrCode, hkind] at hcode
    exact (hs.met_store hcode).2 x hx
  | loadAddress hi hkind hx =>
    obtain ⟨site, s, s', -, hs, hcode⟩ := hinstr hi
    rw [instrCode, hkind] at hcode
    exact hs.met_load hcode hx
  | literal => exact hrole.elim
  | @earlyReturned i x hi hkind hx =>
    obtain ⟨site, s, s', -, hs, hcode⟩ := hinstr hi
    rw [instrCode, hkind] at hcode
    obtain ⟨s₁, hvalue⟩ := exists_returnValue_of_earlyReturn hcode hx
    exact hs.met_returnValue hrole hvalue rfl
  | returned hexit hx =>
    rw [leave, hexit, yields_bind] at hleave
    obtain ⟨⟨⟩, s₁, hvalue, -⟩ := hleave
    exact hs.met_returnValue hrole hvalue hx
  | @condition x onTrue onFalse hexit hx =>
    rw [leave, hexit] at hleave
    have hne : onTrue ≠ onFalse := fun h => hrole onFalse (h ▸ hexit)
    exact met_branch hs hf hblock hne hpending hleave hx

end Parts

/-- In a module that compiles, checked operands of blocks that can be reached are as they should
be. -/
theorem need_met_of_compileModule {m : Ir.Module} {out : Output} (h : compileModule o m = .ok out)
    (hmem : f ∈ m.functions) (hb : f.Reached b) {role : Role} (hx : Plays f b role x need)
    (hrole : role.Checked f b) : ∃ ty, f.typeOf? x = some ty ∧ need.Met ty := by
  obtain ⟨hf, s, c, s', hmakes⟩ := exists_makes_of_compileModule h hmem
  obtain ⟨parts, -⟩ := exists_parts hmakes
  exact parts.need_met hf hb hx hrole

/-- A module whose function stores and loads a float, compares integers, and returns a sum. -/
def sumsFloats : Ir.Module where
  functions := [{
    params := [⟨"x", .float .double⟩, ⟨"n", .i64⟩]
    ret := .float .double
    blocks := [
      { id := 0
        instrs := [
          { result := some 0, kind := .alloca, ty := .float .double },
          { kind := .store, ty := .float .double, operands := [.param 0, .value 0] },
          { result := some 1, kind := .load, ty := .float .double, operands := [.value 0] },
          { result := some 2, kind := .binary .lt, operands := [.param 1, .const .i64 3] }]
        term := { exit := .branch 1 2, value := some (.value 2) } },
      { id := 1
        instrs := [{ result := some 3, kind := .binary .add, ty := .float .double
                     operands := [.value 1, .param 0] }]
        term := { exit := .ret, value := some (.value 3) } },
      { id := 2, term := { exit := .ret, value := some (.param 0) } }] }]

lemma isOk_sumsFloats : (compileModule {} sumsFloats).isOk = true := by decide +kernel

/-- The returned sum of a compiled module is a float. -/
theorem need_met_sumsFloats :
    ∃ out f b, compileModule {} sumsFloats = .ok out ∧ f ∈ sumsFloats.functions ∧ f.Reached b ∧
      Plays f b .returned (.value 3) (.inClass .xmm) ∧
      ∃ ty, f.typeOf? (.value 3) = some ty ∧ (Need.inClass .xmm).Met ty := by
  have hok := isOk_sumsFloats
  cases hout : compileModule {} sumsFloats with
  | error e => rw [hout] at hok; cases hok
  | ok out =>
    obtain ⟨f, hf⟩ : ∃ f, sumsFloats.functions = [f] := ⟨_, rfl⟩
    obtain ⟨b₀, b₁, b₂, hblocks⟩ : ∃ b₀ b₁ b₂, f.blocks = [b₀, b₁, b₂] := by
      cases hf
      exact ⟨_, _, _, rfl⟩
    have hmem : f ∈ sumsFloats.functions := by simp [hf]
    have hreached : f.Reached b₁ := by
      refine .step (b := b₀) (.entry (by rw [hblocks]; rfl)) (by simp [hblocks]) ?_
      cases hf
      cases hblocks
      decide
    have hplays : Plays f b₁ .returned (.value 3) (.inClass .xmm) := by
      cases hf
      cases hblocks
      exact .returned rfl rfl
    have hchecked : Role.returned.Checked f b₁ := by
      cases hf
      rfl
    exact ⟨out, f, b₁, rfl, hmem, hreached, hplays,
      need_met_of_compileModule hout hmem hreached hplays hchecked⟩

/-- A module whose function has an integer result but returns a float, and names a boolean as a
float constant. -/
def mixesClasses : Ir.Module where
  functions := [{
    params := [⟨"x", .float .double⟩]
    ret := .i64
    blocks := [
      { instrs := [
          { result := some 0, kind := .const, ty := .float .double, operands := [.const .bool 1] }]
        term := { exit := .ret, value := some (.param 0) } }] }]

/-- Neither what a function without a float result returns nor the literal of a constant is
checked. -/
theorem exists_unmet_mixesClasses :
    ∃ f b, f ∈ mixesClasses.functions ∧ f.Reached b ∧
      (compileModule {} mixesClasses).isOk = true ∧
      (Plays f b .returned (.param 0) (.inClass .gpr) ∧
        ∀ ty, f.typeOf? (.param 0) = some ty → ¬ (Need.inClass .gpr).Met ty) ∧
      (Plays f b .literal (.const .bool 1) (.inClass .xmm) ∧
        ∀ ty, f.typeOf? (.const .bool 1) = some ty → ¬ (Need.inClass .xmm).Met ty) := by
  let i : Ir.Instr :=
    { result := some 0, kind := .const, ty := .float .double, operands := [.const .bool 1] }
  refine ⟨_, _, List.mem_singleton.mpr rfl, .entry rfl, by decide +kernel, ⟨.returned rfl rfl, ?_⟩,
    ⟨.literal (i := i) List.mem_cons_self rfl List.mem_cons_self, ?_⟩⟩
  · rintro ty h
    cases h
    decide
  · rintro ty h
    cases h
    decide

end NativeCode.Compile
