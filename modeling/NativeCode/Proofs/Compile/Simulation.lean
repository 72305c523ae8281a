import NativeCode.Proofs.Compile.Mirroring

/-!
# The code of a function on integers

The run of the code of a function follows the run of the function. A step of the function is followed
by some steps of the code, and by none only if fewer instructions of the block remain than before. So
where the run of the function ends the run of its code ends in the same way, and if the one never ends
then neither does the other.
-/

namespace NativeCode.Ir

/-- How many steps remain until the end of a block is left. -/
def Config.remaining : Config → Nat
  | .inside _ rest _ => rest.length + 1
  | _ => 0

end NativeCode.Ir

namespace NativeCode.Compile

open Abi NativeCode.Frame
open Ir (BinaryOp Env)
open Machine Selection
open Selection (Session)

variable {o : Options} {f : Ir.Function} {start s s₁ s₂ : Session} {c : Machine.Function}
  {b : Ir.Block} {i : Ir.Instr} {rest : List Ir.Instr} {code : List Instr} {after : List Item}
  {p : Platform} {σ₀ σ σ' : State} {ρ ρ' : Env} {d d' : Ir.Config} {m : Machine.Config}

namespace Parts

/-- A point of the run of a function and a point of the run of its code that correspond to each other.
The code was entered in the state `σ₀`. -/
inductive Sim (parts : Parts o f start c) (p : Platform) (σ₀ : State) :
    Ir.Config → Machine.Config → Prop
  /-- Both are at the same position of a block. -/
  | inside {b : Ir.Block} {rest : List Ir.Instr} {ρ : Env} {lines : List Item} {σ : State}
      (hb : b ∈ parts.order) (hrest : rest <:+ b.instrs)
      (hplain : rest = [] → b.instrs.getLast?.filter (fuses parts.last · b.term) = none)
      (hlines : parts.Remains b rest lines) (hin : InFrame o.target parts.frame σ₀ σ)
      (hρ : parts.Mirrors p ρ σ) : Sim parts p σ₀ (.inside b rest ρ) (.at lines σ)
  /-- The function has made a comparison that in the code belongs to the end of the block. -/
  | fused {b : Ir.Block} {i : Ir.Instr} {ρ ρ' : Env} {lines : List Item} {σ : State}
      (hb : b ∈ parts.order)
      (hlast : b.instrs.getLast?.filter (fuses parts.last · b.term) = some i)
      (hlines : parts.Remains b [i] lines) (hin : InFrame o.target parts.frame σ₀ σ)
      (hρ : parts.Mirrors p ρ σ) (heffect : i.effect? ρ = some (.onward ρ')) :
      Sim parts p σ₀ (.inside b [] ρ') (.at lines σ)
  | returned {v : Option Int} {a : Word} {σ : State} (hkept : Kept o.target σ₀ a σ)
      (hvalue : ∀ z, v = some z → f.ret.literal (σ.gpr .rax) = z) :
      Sim parts p σ₀ (.returned v) (.returned a σ)
  | faulted {σ : State} : Sim parts p σ₀ .faulted (.faulted .divide σ)
  /-- What the code does is only known if it traps. -/
  | unreachable {m : Machine.Config}
      (htrap : o.unreachable = .trap → ∃ σ, m = .faulted .invalidOpcode σ) :
      Sim parts p σ₀ .unreachable m

/-- From the point `m` the code goes on to a point that corresponds to `d'`. It does so in no steps only
if fewer steps of a block remain there than at `d`. -/
def Continues (parts : Parts o f start c) (p : Platform) (σ₀ : State) (d d' : Ir.Config)
    (m : Machine.Config) : Prop :=
  ∃ n m', Steps p (Listing.functionItems c) n m m' ∧ parts.Sim p σ₀ d' m' ∧
    (n = 0 → d'.remaining < d.remaining)

variable {parts : Parts o f start c}

/-! ### Ends of blocks -/

lemma sim_of_leadsTo (hf : WellFormed.Sound f) (hb : b ∈ parts.order) {id : Nat}
    (hid : id ∈ b.term.successors) (hcode : ∀ j ∈ code, BodyLine o.target parts.last (.instr j))
    (hin : InFrame o.target parts.frame σ₀ σ) (hρ : parts.Mirrors p ρ σ)
    (hleads : LeadsTo p parts.last.temps (Listing.functionItems c) after code σ
      (parts.last.blockLabel id) σ') (henter : f.enter? id ρ = some d') :
    parts.Continues p σ₀ d d' (.at (boundLines parts.last.temps code ++ after) σ) := by
  obtain ⟨b', hb', hblock, rfl⟩ := parts.exists_block hf hb hid
  rw [Ir.Function.enter?, hblock, Option.map_some, Option.some.injEq] at henter
  subst henter
  obtain ⟨n, lines, hsteps, hremains⟩ := exists_steps_of_leadsTo hb' hleads
  refine ⟨n + 1, .at lines σ', hsteps, .inside hb' List.suffix_rfl (fun hnil => ?_) hremains
    (inFrame_of_leadsTo hcode hin hleads) (hρ.congr hleads.mem hleads.rbp), nofun⟩
  rw [hnil]
  rfl

lemma sim_of_returnValue {e : Emit Unit} {site : Site} {js : List Instr}
    {value : Option Ir.Operand} {text : String} {v : Option Int}
    (h : parts.Selects e site s code (s₁.pushAll js)) (hf : WellFormed.Sound f)
    (hyields : Yields (returnValue value text) site s () s₁)
    (hjs : js = [site.exit s₁] ∨
      js = [] ∧ seek parts.last.epilogueLabel (Listing.functionItems c) = some after)
    (hfloat : f.ret.isFloat = false) (hreturns : parts.last.returns = true)
    (hin : InFrame o.target parts.frame σ₀ σ) (hρ : parts.Mirrors p ρ σ)
    (hvalue : ∀ z, v = some z → ∃ x, value = some x ∧ ρ.operand? x = some z ∧
      f.typeOf? x = some f.ret ∧ ¬parts.Flagged x) (hd : 0 < d.remaining) :
    parts.Continues p σ₀ d (.returned v) (.at (boundLines parts.last.temps code ++ after) σ) := by
  have hlabel : s₁.epilogueLabel = parts.last.epilogueLabel := by
    rw [Session.epilogueLabel, Session.epilogueLabel, h.after.symbol]
    rfl
  rw [← hlabel] at hjs
  obtain ⟨f', hf', hleads⟩ := leadsTo_ret (p := p) hyields h.appended h.after.temps hjs
  obtain rfl : f = f' := by
    rw [← h.before.function, (parts.typed hf).function] at hf'
    exact Option.some.inj hf'
  obtain ⟨σ₁, hleads, hrax⟩ := hleads σ
  rw [hlabel] at hleads
  obtain ⟨a, σ₂, ⟨n, hsteps⟩, hkept, hrax'⟩ :=
    exists_returned_of_leadsTo hreturns h.lines hin hleads
  refine ⟨n, _, hsteps, .returned hkept fun z hz => ?_, fun _ => hd⟩
  obtain ⟨x, hx, hz, hty, hflag⟩ := hvalue z hz
  obtain ⟨src, hsrc, hword⟩ := hrax x hx hfloat
  rw [hrax', hword]
  exact hρ.operand x z src f.ret hz hflag (source?_of_later h.before (parts.nodup_values hf) hsrc) hty

section Ends

variable {next : Option Nat} (hf : WellFormed.Sound f) (hb : b ∈ parts.order)
  (h : parts.Selects (leave b.term next) (termSite o b.term) s code s₁)
  (hfollows : parts.Follows b next after) (hin : InFrame o.target parts.frame σ₀ σ)
  (hρ : parts.Mirrors p ρ σ) (hnext : b.term.next f ρ = some d')

include h hfollows in
lemma seek_next : ∀ id, next = some id →
    seek (s.blockLabel id) (Listing.functionItems c) = some after := by
  intro id hid
  rw [blockLabel_congr h.before.symbol]
  exact hfollows.block id hid

include hf hb h hfollows hin hρ hnext

lemma continues_jump {target : Nat} (hexit : b.term.exit = .jump target)
    (hs₁ : s₁ = s.pushAll ((termSite o b.term).goto s target next)) :
    parts.Continues p σ₀ d d' (.at (boundLines parts.last.temps code ++ after) σ) := by
  subst hs₁
  rw [Ir.Terminator.next, hexit] at hnext
  have hleads := leadsTo_goto (p := p) (τ := parts.last.temps) (σ := σ) h.appended
    (seek_next h hfollows)
  rw [blockLabel_congr h.before.symbol] at hleads
  exact sim_of_leadsTo hf hb (by simp [Ir.Terminator.successors, hexit, Ir.Exit.successors]) h.lines
    hin hρ hleads hnext

lemma continues_branch {onTrue onFalse : Nat} (hexit : b.term.exit = .branch onTrue onFalse)
    (hpending : s.pending = none) (hflag : ∀ x, b.term.value = some x → ¬parts.Flagged x)
    (hbranch : Yields (branch b.term.value onTrue onFalse next) (termSite o b.term) s () s₁) :
    parts.Continues p σ₀ d d' (.at (boundLines parts.last.temps code ++ after) σ) := by
  rw [Ir.Terminator.next, hexit] at hnext
  cases hvalue : b.term.value with
  | none =>
    rw [hvalue] at hnext
    cases hnext
  | some x =>
    rw [hvalue] at hnext
    obtain ⟨v, hv, hnext⟩ := Option.bind_eq_some_iff.mp hnext
    have hmem : (if v ≠ 0 then onTrue else onFalse) ∈ b.term.successors := by
      rw [Ir.Terminator.successors, hexit, Ir.Exit.successors]
      split_ifs <;> simp
    suffices hleads : ∃ σ', LeadsTo p parts.last.temps (Listing.functionItems c) after code σ
        (s.blockLabel (if v ≠ 0 then onTrue else onFalse)) σ' by
      obtain ⟨σ', hleads⟩ := hleads
      rw [blockLabel_congr h.before.symbol] at hleads
      exact sim_of_leadsTo hf hb hmem h.lines hin hρ hleads hnext
    by_cases heq : onTrue = onFalse
    · subst heq
      obtain ⟨-, rfl⟩ | ⟨-, hne, -⟩ := branch_cases hbranch
      · rw [ite_self]
        exact ⟨σ, leadsTo_goto h.appended (seek_next h hfollows)⟩
      · exact absurd rfl hne
    · obtain ⟨condition, src, hcondition, hsrc, hleads⟩ := leadsTo_branch (p := p) hpending heq
        hbranch h.appended h.after.temps (seek_next h hfollows)
      obtain rfl : x = condition := Option.some.inj (hvalue.symm.trans hcondition)
      obtain ⟨ty, -, hword⟩ := hρ.exists_literal hf hv (hflag x hvalue)
        (source?_of_later h.before (parts.nodup_values hf) hsrc)
      obtain ⟨σ', hleads⟩ := hleads σ
      refine ⟨σ', ?_⟩
      rw [← hword]
      simpa only [ne_eq, Ir.Ty.literal_eq_zero_iff] using hleads

omit hf hb hfollows hin hρ in
lemma continues_unreachable (hexit : b.term.exit = .unreachable) (hd : 0 < d.remaining) :
    parts.Continues p σ₀ d d' (.at (boundLines parts.last.temps code ++ after) σ) := by
  rw [Ir.Terminator.next, hexit, Option.some.injEq] at hnext
  subst hnext
  have hcode := code_of_unreachable hexit h.yields h.appended
  by_cases htrap : o.unreachable = .trap
  · rw [show (termSite o b.term).options.unreachable = .trap from htrap, if_pos rfl] at hcode
    subst hcode
    exact ⟨1, .faulted .invalidOpcode σ, .single (.next rfl), .unreachable fun _ => ⟨σ, rfl⟩, nofun⟩
  · exact ⟨0, _, .refl _, .unreachable fun h => absurd h htrap, fun _ => hd⟩

lemma continues_ret {s₂ : Session} (hexit : b.term.exit = .ret)
    (hon : b.term.onIntegers f = true) (hfloat : f.ret.isFloat = false)
    (hflag : ∀ x, b.term.value = some x → ¬parts.Flagged x)
    (hvalue : Yields (returnValue b.term.value b.term.text) (termSite o b.term) s () s₂)
    (hs₁ : s₁ = s₂.pushAll (if next.isSome then [(termSite o b.term).exit s₂] else []))
    (hd : 0 < d.remaining) :
    parts.Continues p σ₀ d d' (.at (boundLines parts.last.temps code ++ after) σ) := by
  subst hs₁
  rw [Ir.Terminator.next, hexit] at hnext
  rw [Ir.Terminator.onIntegers, hexit] at hon
  have hreturns : parts.last.returns = true :=
    parts.returns_iff.mpr ⟨b, hb, by simp [Ir.Block.returns, hexit]⟩
  have hjs : (if next.isSome then [(termSite o b.term).exit s₂] else []) =
        [(termSite o b.term).exit s₂] ∨
      (if next.isSome then [(termSite o b.term).exit s₂] else []) = [] ∧
        seek parts.last.epilogueLabel (Listing.functionItems c) = some after := by
    cases next with
    | none => exact .inr ⟨rfl, hfollows.epilogue rfl hexit⟩
    | some id => exact .inl rfl
  cases hx : b.term.value with
  | none =>
    rw [hx] at hnext
    cases hnext
    exact sim_of_returnValue h hf hvalue hjs hfloat hreturns hin hρ (by rintro z ⟨⟩) hd
  | some x =>
    rw [hx] at hnext hon
    obtain ⟨v, hv, rfl⟩ := Option.map_eq_some_iff.mp hnext
    refine sim_of_returnValue h hf hvalue hjs hfloat hreturns hin hρ (fun z hz => ?_) hd
    cases hz
    exact ⟨x, hx, hv, by simpa using hon, hflag x hx⟩

end Ends

lemma continues_end {lines : List Item} (hf : WellFormed.Sound f)
    (hon : f.onIntegers = true) (hb : b ∈ parts.order)
    (hplain : b.instrs.getLast?.filter (fuses parts.last · b.term) = none)
    (hlines : parts.Remains b [] lines) (hin : InFrame o.target parts.frame σ₀ σ)
    (hρ : parts.Mirrors p ρ σ) (hnext : b.term.next f ρ = some d') :
    parts.Continues p σ₀ (.inside b [] ρ) d' (.at lines σ) := by
  have hmem := parts.ordered_order.mem b hb
  have hflag {x : Ir.Operand} (hx : b.term.value = some x) : ¬parts.Flagged x :=
    not_flagged_of_value hmem hplain hx
  obtain ⟨s, code, s₁, next, after, hpending, h, hfollows, rfl⟩ := hlines.exists_end
  obtain ⟨s₂, hexit, hvalue, hs₁⟩ | ⟨target, hexit, hs₁⟩ | ⟨onTrue, onFalse, hexit, hbranch⟩ |
    ⟨hexit, -⟩ := leave_cases h.yields
  · exact continues_ret hf hb h hfollows hin hρ hnext hexit (Ir.Function.block_of_onIntegers hon hmem).2
      (Ir.Function.isFloat_ret_of_onIntegers hon) (fun _ => hflag) hvalue hs₁ Nat.one_pos
  · exact continues_jump hf hb h hfollows hin hρ hnext hexit hs₁
  · exact continues_branch hf hb h hfollows hin hρ hnext hexit hpending (fun _ => hflag) hbranch
  · exact continues_unreachable h hnext hexit Nat.one_pos

lemma continues_fused {lines : List Item} (hf : WellFormed.Sound f)
    (hon : f.onIntegers = true) (hb : b ∈ parts.order)
    (hlast : b.instrs.getLast?.filter (fuses parts.last · b.term) = some i)
    (hlines : parts.Remains b [i] lines) (hin : InFrame o.target parts.frame σ₀ σ)
    (hρ : parts.Mirrors p ρ σ) (heffect : i.effect? ρ = some (.onward ρ'))
    (hnext : b.term.next f ρ' = some d') :
    parts.Continues p σ₀ (.inside b [] ρ') d' (.at lines σ) := by
  have hmem := parts.ordered_order.mem b hb
  obtain ⟨hi, hfuses⟩ := Option.filter_eq_some_iff.mp hlast
  have hi : i ∈ b.instrs := List.mem_of_getLast? hi
  obtain ⟨op, id, onTrue, onFalse, hkind, hid, hexit, hvalue, hcmp, -, hne, -⟩ := fuses_cases hfuses
  obtain ⟨s, code, s₂, next, after, ⟨s₁, hcode, hleave, happended⟩, hs, hs₂, hbody, hfollows, rfl⟩ :=
    hlines.exists_fused hfuses
  -- the function compares the values of the operands
  have hon : i.onIntegers f = true := (Ir.Function.block_of_onIntegers hon hmem).1 i hi
  cases Ir.Instr.acts_of_effect? heffect with
  | const hkind' | alloca hkind' | load hkind' | store hkind' =>
    rw [hkind] at hkind'
    cases hkind'
  | @binary op' x y v w z id' hkind' hops hv hw hid' hz =>
    obtain rfl : op = op' := Ir.InstrKind.binary.inj (hkind.symm.trans hkind')
    obtain rfl : id = id' := Option.some.inj (hid.symm.trans hid')
    rw [BinaryOp.eval_of_isComparison hcmp, Option.some.injEq] at hz
    rw [Ir.Instr.onIntegers, hkind, hops] at hon
    simp only [Bool.and_eq_true, beq_iff_eq] at hon
    -- the code compares their words
    obtain ⟨op', x', y', hkind', hops', hcompare⟩ :=
      exists_compare_of_fuses ((fuses_congr hs.reads i b.term).symm.trans hfuses) hcode
    obtain rfl : op = op' := Ir.InstrKind.binary.inj (hkind.symm.trans hkind')
    obtain ⟨rfl, rfl⟩ : x = x' ∧ y = y' := by simpa using hops.symm.trans hops'
    rw [leave, hexit] at hleave
    obtain ⟨vx, vy, hvx, hvy, hleads⟩ := leadsTo_fused (p := p) hcompare rfl hne hleave happended
      hs₂.temps fun id hid => by
        rw [blockLabel_congr hs.symbol]
        exact hfollows.block id hid
    obtain ⟨σ', hleads⟩ := hleads σ
    have hword {a : Ir.Operand} {u : Int} {src : Source} (ha : a ∈ i.operands)
        (hty : f.typeOf? a = some i.ty) (hu : ρ.operand? a = some u) (hsrc : s.source? a = some src) :
        i.ty.literal (src.word p σ) = u :=
      hρ.operand a u src i.ty hu (not_flagged_of_mem hmem hi ha)
        (source?_of_later hs (parts.nodup_values hf) hsrc) hty
    rw [blockLabel_congr hs.symbol, BinaryOp.test_eq_orders,
      hword (by simp [hops]) hon.1.2 hv hvx, hword (by simp [hops]) hon.2 hw hvy] at hleads
    rw [Ir.Terminator.next, hexit, hvalue] at hnext
    obtain ⟨u, hu, hnext⟩ := Option.bind_eq_some_iff.mp hnext
    rw [Env.operand?_define, if_pos rfl, Option.some.injEq] at hu
    have htarget : (if u ≠ 0 then onTrue else onFalse) = if op.orders v w then onTrue else onFalse := by
      rw [← hu, ← hz]
      cases op.orders v w <;> rfl
    rw [htarget] at hnext
    refine sim_of_leadsTo hf hb ?_ hbody hin (hρ.flag ⟨b, hmem, i, id, hlast, hid, rfl⟩ z) hleads hnext
    rw [Ir.Terminator.successors, hexit, Ir.Exit.successors]
    split_ifs <;> simp

/-! ### Instructions -/

lemma getLast?_of_suffix {is : List Ir.Instr} (h : [i] <:+ is) : is.getLast? = some i := by
  obtain ⟨front, rfl⟩ := h
  exact List.getLast?_concat

lemma continues_instr {lines : List Item} (hf : WellFormed.Sound f)
    (hcount : f.params.length < 268435456) (hon : f.onIntegers = true) (hb : b ∈ parts.order)
    (hrest : i :: rest <:+ b.instrs) (hplain : rest = [] → fuses parts.last i b.term = false)
    (hlines : parts.Remains b (i :: rest) lines) (hin : InFrame o.target parts.frame σ₀ σ)
    (hρ : parts.Mirrors p ρ σ) {e : Ir.Effect} (heffect : i.effect? ρ = some e) :
    parts.Continues p σ₀ (.inside b (i :: rest) ρ) (e.config b rest) (.at lines σ) := by
  have hmem := parts.ordered_order.mem b hb
  have hi : i ∈ b.instrs := hrest.subset List.mem_cons_self
  have hion : i.onIntegers f = true := (Ir.Function.block_of_onIntegers hon hmem).1 i hi
  obtain ⟨s, code, s₁, after, h, rfl, hafter⟩ := hlines.exists_instr hplain
  cases e with
  | onward ρ' =>
    have hkind : i.kind ≠ .ret := by
      intro hkind
      cases Ir.Instr.acts_of_effect? heffect <;> simp_all
    obtain ⟨σ', id, hexec, hwrites, hρ'⟩ := h.attains hf hcount hρ rfl hmem hi hion heffect
    refine ⟨_, _, .of_execAll hexec, .inside hb ((List.suffix_cons i rest).trans hrest) ?_
      (hafter hkind) (hwrites.inFrame (steady_of_execAll h.lines hexec) hin) hρ', fun _ => ?_⟩
    · rintro rfl
      rw [getLast?_of_suffix hrest, Option.filter_some, hplain rfl]
      rfl
    · simp [Ir.Config.remaining, Ir.Effect.config]
  | ret v =>
    have hkind : i.kind = .ret ∧ ∀ z, v = some z → ∃ x, i.operands = [x] ∧ ρ.operand? x = some z := by
      cases Ir.Instr.acts_of_effect? heffect with
      | ret hkind => exact ⟨hkind, by rintro z ⟨⟩⟩
      | retValue hkind hops hv => exact ⟨hkind, fun z hz => ⟨_, hops, hz ▸ hv⟩⟩
    obtain ⟨hkind, hvalue⟩ := hkind
    have hyields := h.yields
    rw [instrCode, hkind] at hyields
    obtain ⟨s₂, -, hreturn, rfl⟩ := earlyReturn_cases hyields
    rw [← Session.pushAll_singleton] at h
    have hreturns : parts.last.returns = true :=
      parts.returns_iff.mpr ⟨b, hb, by simpa [Ir.Block.returns] using .inl ⟨i, hi, by rw [hkind]; rfl⟩⟩
    refine sim_of_returnValue h hf hreturn (.inl rfl) (Ir.Function.isFloat_ret_of_onIntegers hon)
      hreturns hin hρ (fun z hz => ?_) (Nat.succ_pos _)
    obtain ⟨x, hops, hx⟩ := hvalue z hz
    rw [Ir.Instr.onIntegers, hkind, hops] at hion
    exact ⟨x, by rw [hops]; rfl, hx, by simpa using hion,
      not_flagged_of_mem hmem hi (by rw [hops]; exact List.mem_cons_self)⟩
  | fault =>
    have hfaults := h.faults hf hcount hρ rfl hmem hi hion heffect
    obtain ⟨σ', n, hsteps⟩ :=
      @Reaches.of_execAll_error _ (Listing.functionItems c) after _ _ _ hfaults (by decide)
    exact ⟨n, _, hsteps, .faulted, fun _ => by simp [Ir.Config.remaining, Ir.Effect.config]⟩

/-! ### Runs -/

section Runs

variable (hf : WellFormed.Sound f) (hcount : f.params.length < 268435456) (hon : f.onIntegers = true)

include hf hcount hon

theorem Sim.step (h : parts.Sim p σ₀ d m) (hnext : Ir.next f d = some d') :
    parts.Continues p σ₀ d d' m := by
  cases h with
  | @inside b rest ρ lines σ hb hrest hplain hlines hin hρ =>
    cases rest with
    | nil => exact continues_end hf hon hb (hplain rfl) hlines hin hρ hnext
    | cons i rest =>
      obtain ⟨e, heffect, rfl⟩ := Option.map_eq_some_iff.mp hnext
      by_cases hfused : rest = [] ∧ fuses parts.last i b.term = true
      · -- the comparison is left for the end of the block
        obtain ⟨rfl, hfuses⟩ := hfused
        have hlast : b.instrs.getLast?.filter (fuses parts.last · b.term) = some i := by
          rw [getLast?_of_suffix hrest, Option.filter_some, if_pos hfuses]
        obtain ⟨ρ', rfl⟩ : ∃ ρ', e = .onward ρ' := by
          obtain ⟨op, -, -, -, hkind, -, -, -, hcmp, -⟩ := fuses_cases hfuses
          cases Ir.Instr.acts_of_effect? heffect with
          | const | binary | alloca | load | store => exact ⟨_, rfl⟩
          | fault hkind' _ _ _ _ hnone =>
            obtain rfl := Ir.InstrKind.binary.inj (hkind.symm.trans hkind')
            rw [BinaryOp.eval_of_isComparison hcmp] at hnone
            cases hnone
          | ret hkind' | retValue hkind' =>
            rw [hkind] at hkind'
            cases hkind'
        exact ⟨0, _, .refl _, .fused hb hlast hlines hin hρ heffect, fun _ => by
          simp [Ir.Config.remaining, Ir.Effect.config]⟩
      · refine continues_instr hf hcount hon hb hrest (fun hnil => ?_) hlines hin hρ heffect
        rw [← Bool.not_eq_true]
        exact fun hfuses => hfused ⟨hnil, hfuses⟩
  | fused hb hlast hlines hin hρ heffect =>
    exact continues_fused hf hon hb hlast hlines hin hρ heffect hnext
  | returned | faulted | unreachable => cases hnext

theorem Sim.run (h : parts.Sim p σ₀ d m) {n : Nat} (hrun : Ir.run f n d = some d') :
    ∃ m', Reaches p (Listing.functionItems c) m m' ∧ parts.Sim p σ₀ d' m' := by
  induction n generalizing d m with
  | zero =>
    cases hrun
    exact ⟨m, .refl m, h⟩
  | succ n ih =>
    obtain ⟨d₁, hnext, hrun⟩ := Option.bind_eq_some_iff.mp hrun
    obtain ⟨k, m₁, hsteps, h₁, -⟩ := h.step hf hcount hon hnext
    obtain ⟨m', hreaches, h'⟩ := ih h₁ hrun
    exact ⟨m', Reaches.trans ⟨k, hsteps⟩ hreaches, h'⟩

end Runs

end Parts

end NativeCode.Compile
