import NativeCode.Proofs.Compile.Positions
import NativeCode.Proofs.Selection.Accesses

/-!
# Values in the frame

A function on integers computes with integers and keeps them in slots of integers. While its code runs,
the state mirrors the environment of its run. Every operand that has a value stands for the word of
that value, wherever it is, and every slot that has been stored into holds the bytes of its value. Only
the result of a comparison that is fused into a branch has no word. Each instruction keeps this up.
-/

namespace NativeCode.Ir

namespace Function

/-- The type of the slot that a result is the address of. -/
def slotTy? (f : Function) (id : Nat) : Option Ty :=
  match (f.blocks.flatMap (·.instrs)).find? (·.result == some id) with
  | some i => if i.kind = .alloca then some i.ty else none
  | none => none

end Function

/-- Instructions on integers. Operands have the type of the instruction, constants are values of their
type, and loads and stores go through the address of a slot of their type. -/
def Instr.onIntegers (f : Function) (i : Instr) : Bool :=
  match i.kind, i.operands with
  | .const, [.const ty bits] => i.ty.isInteger && i.ty.Has (ty.literal bits)
  | .binary _, [x, y] => i.ty.isInteger && f.typeOf? x == some i.ty && f.typeOf? y == some i.ty
  | .alloca, _ => i.ty.isInteger
  | .load, [.value slot] => i.ty.isInteger && f.slotTy? slot == some i.ty
  | .store, [_, .value slot] => i.ty.isInteger && f.slotTy? slot == some i.ty
  | .ret, [] => true
  | .ret, [x] => f.typeOf? x == some f.ret
  | _, _ => false

/-- Ends of blocks that return integers. -/
def Terminator.onIntegers (f : Function) (t : Terminator) : Bool :=
  match t.exit, t.value with
  | .ret, some x => f.typeOf? x == some f.ret
  | _, _ => true

/-- Functions on integers. -/
def Function.onIntegers (f : Function) : Bool :=
  f.params.all (·.ty.isInteger) && (f.ret.isInteger || f.ret.isVoid) &&
    f.blocks.all fun b => b.instrs.all (·.onIntegers f) && b.term.onIntegers f

namespace Function

variable {f : Function} {b : Block}

lemma isFloat_ret_of_onIntegers (h : f.onIntegers = true) : f.ret.isFloat = false := by
  rw [onIntegers, Bool.and_eq_true, Bool.and_eq_true, Bool.or_eq_true] at h
  obtain ⟨⟨-, hint | hvoid⟩, -⟩ := h
  · exact Ty.isFloat_eq_false_of_isInteger hint
  · cases hret : f.ret <;> simp_all [Ty.isVoid, Ty.isFloat]

lemma block_of_onIntegers (h : f.onIntegers = true) (hb : b ∈ f.blocks) :
    (∀ i ∈ b.instrs, i.onIntegers f = true) ∧ b.term.onIntegers f = true := by
  rw [onIntegers, Bool.and_eq_true] at h
  have hblock := List.all_eq_true.mp h.2 b hb
  rw [Bool.and_eq_true, List.all_eq_true] at hblock
  exact hblock

end Function

end NativeCode.Ir

namespace NativeCode.Compile

open Abi NativeCode.Frame
open Ir (BinaryOp Env)
open Machine Selection
open Selection (Session)

variable {o : Options} {f : Ir.Function} {start s s₁ : Session} {c : Machine.Function} {b : Ir.Block}
  {i : Ir.Instr} {x : Ir.Operand} {code : List Instr} {p : Platform} {σ σ' : State} {ρ ρ' : Env}
  {id : Nat} {r : Residence} {v : Int}

namespace Parts

variable {parts : Parts o f start c}

/-! ### Results of fused comparisons -/

/-- The result of a comparison that is fused into the branch after it. -/
def Flagged (parts : Parts o f start c) (x : Ir.Operand) : Prop :=
  ∃ b ∈ f.blocks, ∃ i id, b.instrs.getLast?.filter (fuses parts.last · b.term) = some i ∧
    i.result = some id ∧ x = .value id

lemma Flagged.exists_reader (h : parts.Flagged x) :
    ∃ b ∈ f.blocks, b.instrs.getLast?.filter (fuses parts.last · b.term) ≠ none ∧
      ∀ b' ∈ f.blocks, (∀ j ∈ b'.instrs, x ∉ j.operands) ∧ (b'.term.value = some x → b' = b) := by
  obtain ⟨b, hb, i, id, hlast, hid, rfl⟩ := h
  obtain ⟨-, id', -, -, -, hid', -, hvalue, -, -, -, hcount⟩ :=
    fuses_cases (Option.filter_eq_some_iff.mp hlast).2
  obtain rfl : id = id' := Option.some.inj (hid.symm.trans hid')
  have hreads : parts.last.reads = f.reads := parts.lowers.grown.later.reads
  rw [Session.useCount, hreads] at hcount
  exact ⟨b, hb, by rw [hlast]; exact Option.some_ne_none i, Ir.Function.reader_unique hcount hb hvalue⟩

/-- No instruction reads the result of a fused comparison. -/
theorem not_flagged_of_mem (hb : b ∈ f.blocks) (hi : i ∈ b.instrs) (hx : x ∈ i.operands) :
    ¬parts.Flagged x := by
  intro h
  obtain ⟨_, -, -, hreader⟩ := h.exists_reader
  exact (hreader b hb).1 i hi hx

lemma not_flagged_of_value (hb : b ∈ f.blocks)
    (hlast : b.instrs.getLast?.filter (fuses parts.last · b.term) = none)
    (hx : b.term.value = some x) : ¬parts.Flagged x := by
  intro h
  obtain ⟨b', -, hlast', hreader⟩ := h.exists_reader
  obtain rfl := (hreader b hb).2 hx
  exact hlast' hlast

/-! ### States that mirror environments -/

/-- The state `σ` mirrors the environment `ρ`. -/
structure Mirrors (parts : Parts o f start c) (p : Platform) (ρ : Env) (σ : State) : Prop where
  operand : ∀ x v src ty, ρ.operand? x = some v → ¬parts.Flagged x →
    parts.last.source? x = some src → f.typeOf? x = some ty → ty.literal (src.word p σ) = v
  slot : ∀ id u, ρ.slots id = some u → ∃ r, parts.last.reach? (.value id) = some (.residence r) ∧
    r.access = .address ∧ ∀ v ty, u = some v → f.slotTy? id = some ty →
      ty.literal (ty.extend (σ.mem.load (addr (σ.gpr .rbp) r.disp) 8)) = v

namespace Mirrors

lemma congr (h : parts.Mirrors p ρ σ) (hmem : σ'.mem = σ.mem) (hrbp : σ'.gpr .rbp = σ.gpr .rbp) :
    parts.Mirrors p ρ σ' where
  operand x v src ty hv hx hsrc hty := by
    rw [src.word_congr hmem hrbp]
    exact h.operand x v src ty hv hx hsrc hty
  slot id u hu := by
    rw [hmem, hrbp]
    exact h.slot id u hu

lemma exists_literal (h : parts.Mirrors p ρ σ) (hf : WellFormed.Sound f)
    (hv : ρ.operand? x = some v) (hx : ¬parts.Flagged x) {src : Source}
    (hsrc : parts.last.source? x = some src) :
    ∃ ty, f.typeOf? x = some ty ∧ ty.literal (src.word p σ) = v := by
  cases hr : parts.last.reach? x with
  | none =>
    rw [Session.source?, hr] at hsrc
    cases hsrc
  | some r =>
    have hty := (parts.typed hf).typeOf?_of_reach hr
    exact ⟨r.ty, hty, h.operand x v src r.ty hv hx hsrc hty⟩

theorem flag (h : parts.Mirrors p ρ σ) (hid : parts.Flagged (.value id)) (v : Int) :
    parts.Mirrors p (ρ.define id v) σ where
  operand x w src ty hw hx hsrc hty := by
    have hne : x ≠ .value id := fun h => hx (h ▸ hid)
    rw [Env.operand?_define, if_neg hne] at hw
    exact h.operand x w src ty hw hx hsrc hty
  slot := h.slot

/-- A result has been stored in its place, or is known. -/
theorem define (h : parts.Mirrors p ρ σ) (hf : WellFormed.Sound f)
    (hcount : f.params.length < 268435456) (hwrites : parts.WritesAt id σ σ')
    (hr : parts.last.reach? (.value id) = some (.residence r)) (haccess : r.access ≠ .address)
    (hword : r.ty.literal ((Source.residence r).word p σ') = v) :
    parts.Mirrors p (ρ.define id v) σ' where
  operand x w src ty hw hx hsrc hty := by
    rw [Env.operand?_define] at hw
    split_ifs at hw with hxid
    · subst hxid
      obtain rfl := Option.some.inj ((Session.source?_of_residence hr).symm.trans hsrc)
      obtain rfl := Option.some.inj (((parts.typed hf).typeOf?_of_reach hr).symm.trans hty)
      exact hword.trans (Option.some.inj hw)
    · rw [hwrites.word hcount hxid hsrc]
      exact h.operand x w src ty hw hx hsrc hty
  slot id' u hu := by
    obtain ⟨q, hq, hq', hload⟩ := h.slot id' u hu
    refine ⟨q, hq, hq', fun v ty hv hty => ?_⟩
    have hne : Ir.Operand.value id' ≠ .value id := by
      rintro ⟨⟩
      rw [hr] at hq
      cases hq
      exact haccess hq'
    rw [hwrites.load hcount hne hq (by rw [hq']; decide)]
    exact hload v ty hv hty

theorem put (h : parts.Mirrors p ρ σ) (hcount : f.params.length < 268435456) {u : Option Int}
    (hwrites : parts.WritesAt id σ σ') (hr : parts.last.reach? (.value id) = some (.residence r))
    (haccess : r.access = .address)
    (hload : ∀ v ty, u = some v → f.slotTy? id = some ty →
      ty.literal (ty.extend (σ'.mem.load (addr (σ'.gpr .rbp) r.disp) 8)) = v) :
    parts.Mirrors p (ρ.put id u) σ' where
  operand x w src ty hw hx hsrc hty := by
    rw [Env.operand?_put] at hw
    rw [← h.operand x w src ty hw hx hsrc hty]
    congr 1
    by_cases hxid : x = .value id
    · -- the address of a slot does not depend on memory
      subst hxid
      obtain rfl := Option.some.inj ((Session.source?_of_residence hr).symm.trans hsrc)
      rw [Source.word, Source.word, haccess]
      dsimp only
      rw [hwrites.rbp]
    · exact hwrites.word hcount hxid hsrc
  slot id' u' hu := by
    rw [Env.slots_put] at hu
    split_ifs at hu with hid
    · obtain rfl := Option.some.inj hu
      rw [hid]
      exact ⟨r, hr, haccess, hload⟩
    · obtain ⟨q, hq, hq', hload'⟩ := h.slot id' u' hu
      refine ⟨q, hq, hq', fun v ty hv hty => ?_⟩
      rw [hwrites.load hcount (fun h => hid (Ir.Operand.value.inj h)) hq (by rw [hq']; decide)]
      exact hload' v ty hv hty

end Mirrors

/-! ### Instructions -/

/-- Code leads from `σ` to a state that mirrors `ρ`, and writes the place of one result at most. -/
def Attains (parts : Parts o f start c) (p : Platform) (code : List Instr) (σ : State) (ρ : Env) :
    Prop :=
  ∃ σ' id, execAll p (code.map parts.last.temps.boundInstr) σ = .ok σ' ∧ parts.WritesAt id σ σ' ∧
    parts.Mirrors p ρ σ'

section Instructions

variable {e : Emit Unit} {site : Site} {op : BinaryOp} {y : Ir.Operand} {slot : Nat}

lemma Selects.reach?_result (h : parts.Selects e site s code s₁) (hf : WellFormed.Sound f)
    (hvalues : s₁.values = (id, r) :: s.values) :
    parts.last.reach? (.value id) = some (.residence r) := by
  refine reach?_of_later h.after (parts.nodup_values hf) ?_
  rw [Session.reach?, hvalues, List.lookup_cons_self]
  rfl

lemma Selects.eq_of_source? (h : parts.Selects e site s code s₁) (hf : WellFormed.Sound f)
    (hr : parts.last.reach? x = some (.residence r)) {q : Source} (hq : s.source? x = some q) :
    q = .residence r :=
  Option.some.inj ((source?_of_later h.before (parts.nodup_values hf) hq).symm.trans
    (Session.source?_of_residence hr))

lemma Selects.code_eq_nil (h : parts.Selects e site s code s₁) (hcode : s₁.code = s.code) :
    code = [] := by
  have happended := h.appended
  rw [hcode] at happended
  exact List.self_eq_append_right.mp happended

lemma WritesAt.refl (parts : Parts o f start c) (id : Nat) (σ : State) : parts.WritesAt id σ σ :=
  ⟨rfl, .inl rfl⟩

variable (hf : WellFormed.Sound f) (hcount : f.params.length < 268435456) (hρ : parts.Mirrors p ρ σ)

include hf hcount hρ

lemma Selects.attains_of_stored (h : parts.Selects e site s code s₁) {ty : Ir.Ty} {d : Int}
    (hdefined : s.Defined s₁ id ty d) (hrun : Runs p parts.last.temps s s₁ σ (.ok σ')) {w : Word}
    (hstored : Stored σ d w σ') (hw : ty.literal w = v) :
    parts.Attains p code σ (ρ.define id v) := by
  have hmem : (id, _) ∈ parts.last.values :=
    h.after.values.subset (hdefined.values ▸ List.mem_cons_self)
  have hwrites : parts.WritesAt id σ σ' := .of_stored hmem (by simp) hstored
  refine ⟨σ', id, hrun.execAll_eq h.appended, hwrites,
    hρ.define hf hcount hwrites (h.reach?_result hf hdefined.values) (by simp) ?_⟩
  rw [← hw]
  exact congrArg _ hstored.load_self

lemma Selects.binary (h : parts.Selects (binary i op) site s code s₁)
    (hflags : site.flagsOnly = false) (hb : b ∈ f.blocks) (hi : i ∈ b.instrs)
    (hops : i.operands = [x, y]) (hint : i.ty.isInteger = true) (hx : f.typeOf? x = some i.ty)
    (hy : f.typeOf? y = some i.ty) {w : Int} (hv : ρ.operand? x = some v)
    (hw : ρ.operand? y = some w) (hid : i.result = some id) :
    (∀ z, op.eval i.ty v w = some z → parts.Attains p code σ (ρ.define id z)) ∧
      (op.eval i.ty v w = none →
        execAll p (code.map parts.last.temps.boundInstr) σ = .error .divide) := by
  obtain ⟨form, x', y', -, -, hform, hops', -, -, -, -, hcode⟩ := yields_binary.mp h.yields
  obtain ⟨rfl, rfl⟩ : x = x' ∧ y = y' := by simpa using hops.symm.trans hops'
  rw [form?, if_pos hint, Option.some.injEq] at hform
  subst hform
  obtain ⟨vx, vy, id', d, hvx, hvy, hid', hdefined, hruns⟩ :=
    computes_formCode (p := p) hcode hflags h.after.temps
  obtain rfl : id = id' := Option.some.inj (hid.symm.trans hid')
  have hword {a : Ir.Operand} {u : Int} {src : Source} (ha : a ∈ i.operands)
      (hty : f.typeOf? a = some i.ty) (hu : ρ.operand? a = some u) (hsrc : s.source? a = some src) :
      i.ty.literal (src.word p σ) = u :=
    hρ.operand a u src i.ty hu (not_flagged_of_mem hb hi ha)
      (source?_of_later h.before (parts.nodup_values hf) hsrc) hty
  have hwords := BinaryOp.literal_onWords op hint (vx.word p σ) (vy.word p σ)
  rw [hword (by simp [hops]) hx hv hvx, hword (by simp [hops]) hy hw hvy] at hwords
  refine ⟨fun z hz => ?_, fun hnone => ?_⟩
  · rw [hz, Option.map_eq_some_iff] at hwords
    obtain ⟨u, hu, hz⟩ := hwords
    obtain ⟨σ', hrun, hstored⟩ := (hruns σ).1 u hu
    exact h.attains_of_stored hf hcount hρ hdefined hrun hstored hz
  · rw [hnone, Option.map_eq_none_iff] at hwords
    exact ((hruns σ).2 hwords).execAll_eq h.appended

lemma Selects.constant (h : parts.Selects (constant i) site s code s₁) {ty : Ir.Ty} {bits : Word}
    (hops : i.operands = [.const ty bits]) (hint : i.ty.isInteger = true)
    (hhas : i.ty.Has (ty.literal bits)) (hid : i.result = some id) :
    parts.Attains p code σ (ρ.define id (i.ty.wrap (ty.literal bits))) := by
  obtain ⟨literal, id', q, bits', hops', hid', hq, hknown, rfl⟩ := constant_cases h.yields
  obtain rfl : id = id' := Option.some.inj (hid.symm.trans hid')
  obtain rfl : Ir.Operand.const ty bits = literal := by simpa using hops.symm.trans hops'
  cases hq
  cases hknown
  obtain rfl := h.code_eq_nil rfl
  refine ⟨σ, id, rfl, .refl parts id σ,
    hρ.define hf hcount (.refl parts id σ) (h.reach?_result hf rfl) (by simp) ?_⟩
  have hliteral : i.ty.literal bits = ty.literal bits := by
    rw [← Ir.Ty.literal_ofInt hint hhas, Ir.Ty.ofInt_literal]
  rw [show i.ty.wrap (ty.literal bits) = ty.literal bits from hhas]
  exact hliteral

lemma Selects.alloca (h : parts.Selects (alloca i) site s code s₁) (hid : i.result = some id) :
    parts.Attains p code σ (ρ.put id none) := by
  obtain ⟨id', d, frame, hid', -, rfl⟩ := alloca_cases h.yields
  obtain rfl : id = id' := Option.some.inj (hid.symm.trans hid')
  obtain rfl := h.code_eq_nil rfl
  exact ⟨σ, id, rfl, .refl parts id σ,
    hρ.put hcount (.refl parts id σ) (h.reach?_result hf rfl) rfl nofun⟩

lemma Selects.load (h : parts.Selects (load i) site s code s₁) (hops : i.operands = [.value slot])
    (hint : i.ty.isInteger = true) (hty : f.slotTy? slot = some i.ty)
    (hv : ρ.slots slot = some (some v)) (hid : i.result = some id) :
    parts.Attains p code σ (ρ.define id v) := by
  obtain ⟨r, hr, haccess, hload⟩ := hρ.slot slot _ hv
  obtain ⟨q, id', d, hq, hid', hdefined, hruns⟩ :=
    exists_runs_load (p := p) h.yields hint hops h.after.temps
  obtain rfl : id = id' := Option.some.inj (hid.symm.trans hid')
  obtain rfl := h.eq_of_source? hf hr hq
  obtain ⟨σ', hrun, hstored⟩ := hruns σ
  refine h.attains_of_stored hf hcount hρ hdefined hrun hstored ?_
  rw [Ir.Ty.extend_load hint, Source.word, haccess]
  exact hload v i.ty rfl hty

lemma Selects.store (h : parts.Selects (store i) site s code s₁) (hb : b ∈ f.blocks)
    (hi : i ∈ b.instrs) (hops : i.operands = [x, .value slot]) (hint : i.ty.isInteger = true)
    (hty : f.slotTy? slot = some i.ty) (hv : ρ.operand? x = some v) {u : Option Int}
    (hu : ρ.slots slot = some u) : parts.Attains p code σ (ρ.put slot (some (i.ty.wrap v))) := by
  obtain ⟨r, hr, haccess, -⟩ := hρ.slot slot u hu
  obtain ⟨src, q, hsrc, hq, hruns⟩ :=
    exists_runs_store (p := p) h.yields hint hops h.after.temps
  obtain rfl := h.eq_of_source? hf hr hq
  obtain ⟨σ', hrun, hpoised, hmem⟩ := hruns σ
  rw [Source.word, haccess] at hmem
  have hslot : (slot, r) ∈ parts.last.values := by
    obtain ⟨id, hid, hmem⟩ | ⟨k, hk, -⟩ | ⟨ty, bits, hbits, -⟩ := Session.residence_cases hr
    · cases hid
      exact hmem
    · cases hk
    · cases hbits
  have hsize : i.ty.size ≤ 8 := by
    rw [← Ir.Ty.bytes_ofBytes hint]
    exact Width.bytes_le _
  have hwrites : parts.WritesAt slot σ σ' :=
    ⟨hpoised.rbp, .inr ⟨r, i.ty.size, _, hslot, by rw [haccess]; decide, hsize, hmem⟩⟩
  refine ⟨σ', slot, hrun.execAll_eq h.appended, hwrites,
    hρ.put hcount hwrites hr haccess fun w ty hw hty' => ?_⟩
  cases hw
  obtain rfl : i.ty = ty := Option.some.inj (hty.symm.trans hty')
  obtain ⟨ty, -, hword⟩ := hρ.exists_literal hf hv (not_flagged_of_mem hb hi (by simp [hops]))
    (source?_of_later h.before (parts.nodup_values hf) hsrc)
  rw [← Ir.Ty.extend_load hint, hmem, hpoised.rbp, Ir.Ty.extend_load_store hint]
  exact Ir.Ty.literal_extend hint (by rw [← hword, Ir.Ty.ofInt_literal])

/-- The code of an instruction leads to a state that mirrors the environment after it. -/
theorem Selects.attains (h : parts.Selects (instrCode i) site s code s₁)
    (hflags : site.flagsOnly = false) (hb : b ∈ f.blocks) (hi : i ∈ b.instrs)
    (hon : i.onIntegers f = true) (heffect : i.effect? ρ = some (.onward ρ')) :
    parts.Attains p code σ ρ' := by
  rw [instrCode] at h
  rw [Ir.Instr.onIntegers] at hon
  cases Ir.Instr.acts_of_effect? heffect with
  | @const x v id hkind hops hv hid =>
    rw [hkind] at h hon
    rw [hops] at hon
    cases x with
    | const ty bits =>
      rw [Bool.and_eq_true, decide_eq_true_iff] at hon
      cases hv
      exact h.constant hf hcount hρ hops hon.1 hon.2 hid
    | value | param | global => cases hon
  | binary hkind hops hv hw hid hz =>
    rw [hkind] at h hon
    rw [hops] at hon
    simp only [Bool.and_eq_true, beq_iff_eq] at hon
    obtain ⟨⟨hint, hx⟩, hy⟩ := hon
    exact (h.binary hf hcount hρ hflags hb hi hops hint hx hy hv hw hid).1 _ hz
  | alloca hkind hid =>
    rw [hkind] at h
    exact h.alloca hf hcount hρ hid
  | load hkind hops hv hid =>
    rw [hkind] at h hon
    rw [hops] at hon
    simp only [Bool.and_eq_true, beq_iff_eq] at hon
    exact h.load hf hcount hρ hops hon.1 hon.2 hv hid
  | store hkind hops hv hu =>
    rw [hkind] at h hon
    rw [hops] at hon
    simp only [Bool.and_eq_true, beq_iff_eq] at hon
    exact h.store hf hcount hρ hb hi hops hon.1 hon.2 hv hu

/-- The code of an instruction without a result faults. -/
theorem Selects.faults (h : parts.Selects (instrCode i) site s code s₁)
    (hflags : site.flagsOnly = false) (hb : b ∈ f.blocks) (hi : i ∈ b.instrs)
    (hon : i.onIntegers f = true) (heffect : i.effect? ρ = some .fault) :
    execAll p (code.map parts.last.temps.boundInstr) σ = .error .divide := by
  rw [instrCode] at h
  rw [Ir.Instr.onIntegers] at hon
  cases Ir.Instr.acts_of_effect? heffect with
  | fault hkind hops hv hw hid hz =>
    rw [hkind] at h hon
    rw [hops] at hon
    simp only [Bool.and_eq_true, beq_iff_eq] at hon
    obtain ⟨⟨hint, hx⟩, hy⟩ := hon
    exact (h.binary hf hcount hρ hflags hb hi hops hint hx hy hv hw hid).2 hz

end Instructions

end Parts

end NativeCode.Compile
