import NativeCode.Proofs.Machine.Instructions
import NativeCode.Proofs.Selection.Residences

/-!
# The words of operands

In a state of the machine every operand of a function stands for a word: the contents of its home,
the address of its slot or symbol, or its known value. Code that is emitted for an operand brings
this word into a register or reads it in place, and keeps memory and the frame pointer.
-/

namespace NativeCode.Ir

/-- The low part of a word that a type has, extended to 64 bits. -/
def Ty.extend : Ty → Word → Word
  | .int true w, v => w.signExtend v
  | .int false w, v => w.zeroExtend v
  | .bool, v => Width.byte.zeroExtend v
  | _, v => v

end NativeCode.Ir

namespace NativeCode.Selection

open Ir (Ty)
open Abi Machine

variable {p : Platform} {τ : Temps} {site : Site} {s s' s'' : Session} {σ σ' : State}

/-- The word that an operand stands for in a state. -/
def Source.word (p : Platform) (σ : State) : Source → Word
  | symbol asm => p.symbol asm
  | residence r =>
    match r.access with
    | .home => σ.mem.load (addr (σ.gpr .rbp) r.disp) 8
    | .address => addr (σ.gpr .rbp) r.disp
    | .constant => r.bits

lemma Source.word_congr (v : Source) (hmem : σ'.mem = σ.mem)
    (hrbp : σ'.gpr .rbp = σ.gpr .rbp) : v.word p σ' = v.word p σ := by
  unfold word
  rw [hmem, hrbp]

lemma exists_source?_of_known {o : Ir.Operand} {r : Reach} {bits : Word}
    (hr : s.reach? o = some r) (hknown : r.known? = some bits) :
    ∃ v, s.source? o = some v ∧ ∀ p σ, v.word p σ = bits := by
  cases r with
  | symbol name => cases hknown
  | residence r =>
    refine ⟨_, Session.source?_of_residence hr, fun p σ => ?_⟩
    rw [Reach.known?] at hknown
    split_ifs at hknown with hconst
    cases hknown
    rw [Source.word, hconst]

/-! ### Runs of emitted code -/

/-- What the code between two sessions does to a state, once it is bound to registers. -/
def Runs (p : Platform) (τ : Temps) (s s' : Session) (σ : State) (r : Except Fault State) : Prop :=
  ∃ is, s'.code.toList = s.code.toList ++ is ∧ execAll p (is.map τ.boundInstr) σ = r

namespace Runs

variable {r : Except Fault State}

lemma refl (h : s'.code = s.code) : Runs p τ s s' σ (.ok σ) := ⟨[], by rw [h]; simp, rfl⟩

lemma trans (h : Runs p τ s s' σ (.ok σ')) (h' : Runs p τ s' s'' σ' r) : Runs p τ s s'' σ r := by
  obtain ⟨is, hcode, his⟩ := h
  obtain ⟨js, hcode', hjs⟩ := h'
  refine ⟨is ++ js, by rw [hcode', hcode, List.append_assoc], ?_⟩
  rw [List.map_append, execAll_append_ok his]
  exact hjs

lemma push {i : Instr} (h : exec p (τ.boundInstr i) σ = r) : Runs p τ s (s.push i) σ r := by
  refine ⟨[i], by simp [Session.push], ?_⟩
  cases r with
  | ok σ' => rw [List.map_singleton, execAll_cons_ok h, execAll_nil]
  | error e => rw [List.map_singleton, execAll_cons_error h]

lemma execAll_eq {is : List Instr} (h : Runs p τ s s' σ r)
    (hcode : s'.code.toList = s.code.toList ++ is) : execAll p (is.map τ.boundInstr) σ = r := by
  obtain ⟨js, hcode', hjs⟩ := h
  rw [hcode', List.append_right_inj] at hcode
  rw [← hcode]
  exact hjs

end Runs

/-! ### Sessions around code -/

/-- The result `id` has got a home of type `ty` at the displacement `d`. -/
structure Session.Defined (s s' : Session) (id : Nat) (ty : Ty) (d : Int) : Prop where
  allocated : s.frame.allocate 8 = .ok (d, s'.frame)
  values : s'.values = (id, { access := .home, ty, disp := d }) :: s.values

lemma Session.Defined.of_alike {s₁ : Session} {id : Nat} {ty : Ty} {d : Int}
    (h : s₁.Defined s' id ty d) (hs : s.Alike s₁) : s.Defined s' id ty d := by
  obtain ⟨hallocated, hvalues⟩ := h
  rw [hs.frame] at hallocated
  rw [hs.values] at hvalues
  exact ⟨hallocated, hvalues⟩

/-- The registers that point into the frame are kept. -/
def Poised (σ σ' : State) : Prop := ∀ g ∈ [Gpr.rsp, .rbp], σ'.gpr g = σ.gpr g

lemma Poised.refl (σ : State) : Poised σ σ := fun _ _ => rfl

lemma Poised.trans {σ'' : State} (h : Poised σ σ') (h' : Poised σ' σ'') : Poised σ σ'' :=
  fun g hg => (h' g hg).trans (h g hg)

lemma Poised.rbp (h : Poised σ σ') : σ'.gpr .rbp = σ.gpr .rbp := h _ (by simp)

lemma Poised.rsp (h : Poised σ σ') : σ'.gpr .rsp = σ.gpr .rsp := h _ (by simp)

lemma Poised.setGpr {g : Gpr} (hg : g ∉ [Gpr.rsp, .rbp]) (v : Word) : Poised σ (σ.setGpr g v) :=
  fun _ hq => σ.setGpr_gpr_of_ne v fun e => hg (e ▸ hq)

structure Stored (σ : State) (d : Int) (w : Word) (σ' : State) : Prop where
  poised : Poised σ σ'
  mem : σ'.mem = σ.mem.store (addr (σ.gpr .rbp) d) 8 w

lemma Stored.of_eq {σ₁ : State} {d : Int} {w : Word} (h : Stored σ₁ d w σ')
    (hpoised : Poised σ σ₁) (hmem : σ₁.mem = σ.mem) : Stored σ d w σ' :=
  ⟨hpoised.trans h.poised, by rw [h.mem, hpoised.rbp, hmem]⟩

lemma Stored.load_self {d : Int} {w : Word} (h : Stored σ d w σ') :
    σ'.mem.load (addr (σ'.gpr .rbp) d) 8 = w := by
  rw [h.mem, h.poised.rbp]
  exact (Memory.load_store_self σ.mem _ .quad w).trans (Width.zeroExtend_quad w)

lemma Stored.load_apart {d e : Int} {w : Word} {k : Nat} (h : Stored σ d w σ')
    (hapart : Apart d 8 e k) :
    σ'.mem.load (addr (σ'.gpr .rbp) e) k = σ.mem.load (addr (σ.gpr .rbp) e) k := by
  rw [h.mem, h.poised.rbp]
  exact Memory.load_store_apart _ _ _ hapart

/-! ### Registers of temporaries -/

/-- The temporary `t`, which was issued between two sessions, is the register `g`. No live temporary
held it, and it has no task of its own. -/
structure Temporary (site : Site) (τ : Temps) (s s' : Session) (t : Reg) (g : Gpr) : Prop where
  bound : τ.boundReg t = .ofGpr g
  task : g ∉ [Gpr.rax, .rcx, .rdx, .rsp, .rbp]
  args : .gpr g ∉ site.options.target.intArgs
  free : s.temps.holds (.gpr g) = false
  held : s'.temps.holds (.gpr g) = true
  keeps : ∀ q, s.temps.holds q = true → s'.temps.holds q = true

lemma Temporary.not_mem_frame {t : Reg} {g : Gpr} (h : Temporary site τ s s' t g) :
    g ∉ [Gpr.rsp, .rbp] := fun hg => h.task (by grind)

lemma exists_register_of_issue {cls : RegClass} {r : Nat × Temps}
    (h : s.temps.issue site.target cls = .ok r) (hτ : r.2.Grows τ) (hs' : s'.temps = r.2) :
    ∃ q ∈ site.target.pool cls, τ.boundReg (.temp r.1 cls) = .phys q ∧
      s.temps.holds q = false ∧ s'.temps.holds q = true ∧
      ∀ q', s.temps.holds q' = true → s'.temps.holds q' = true := by
  obtain ⟨q, hq, hfree, -, rfl⟩ := Temps.issue_eq_ok h
  have hget : (s.temps.regs.push q)[s.temps.regs.size]? = some q := Array.getElem?_push_size
  refine ⟨q, hq, Temps.boundReg_temp (hτ.getElem? hget) _, hfree, ?_, fun q' hq' => ?_⟩
  · simp only [hs', Temps.holds, List.any_append, List.any_cons, hget]
    simp
  · simp only [hs', Temps.holds, List.any_append, List.any_eq_true, Bool.or_eq_true] at hq' ⊢
    obtain ⟨id, hid, hreg⟩ := hq'
    have hreg : s.temps.regs[id]? = some q' := by simpa using hreg
    refine Or.inl ⟨id, hid, ?_⟩
    rw [Array.getElem?_push_lt (Array.getElem?_eq_some_iff.mp hreg).1]
    simpa using (Array.getElem?_eq_some_iff.mp hreg).2

lemma exists_temporary_of_issue {r : Nat × Temps} (h : s.temps.issue site.target .gpr = .ok r)
    (hτ : r.2.Grows τ) (hs' : s'.temps = r.2) : ∃ g, Temporary site τ s s' (.temp r.1 .gpr) g := by
  obtain ⟨q, hq, hbound, hfree, hheld, hkeeps⟩ := exists_register_of_issue h hτ hs'
  obtain ⟨g, rfl, htask, hargs⟩ := pool_gpr (c := site.options.convention) hq
  exact ⟨g, hbound, htask, hargs, hfree, hheld, hkeeps⟩

/-- States that differ at most in flags and in registers that are free for temporaries. -/
structure Spare (site : Site) (s : Session) (σ σ' : State) : Prop where
  mem : σ'.mem = σ.mem
  xmm : σ'.xmm = σ.xmm
  gpr : ∀ g, s.temps.holds (.gpr g) = true ∨ g ∈ [Gpr.rax, .rcx, .rdx, .rsp, .rbp] ∨
    .gpr g ∈ site.options.target.intArgs → σ'.gpr g = σ.gpr g

namespace Spare

lemma refl (site : Site) (s : Session) (σ : State) : Spare site s σ σ :=
  ⟨rfl, rfl, fun _ _ => rfl⟩

lemma poised (h : Spare site s σ σ') : Poised σ σ' := fun g hg => h.gpr g (by grind)

lemma rbp (h : Spare site s σ σ') : σ'.gpr .rbp = σ.gpr .rbp := h.poised.rbp

lemma trans {σ'' : State} (h : Spare site s σ σ') (h' : Spare site s' σ' σ'')
    (hs : ∀ q, s.temps.holds q = true → s'.temps.holds q = true) : Spare site s σ σ'' where
  mem := h'.mem.trans h.mem
  xmm := h'.xmm.trans h.xmm
  gpr g hg := (h'.gpr g (hg.imp_left (hs _))).trans (h.gpr g hg)

lemma of_temporary {t : Reg} {g : Gpr} (ht : Temporary site τ s s' t g) (v : Word) :
    Spare site s σ (σ.setGpr g v) where
  mem := rfl
  xmm := rfl
  gpr q hq := by
    refine σ.setGpr_gpr_of_ne v fun e => ?_
    subst e
    rcases hq with hq | hq | hq
    · rw [ht.free] at hq
      cases hq
    · exact ht.task hq
    · exact ht.args hq

end Spare

/-! ### Operands -/

section Operands

variable {o : Ir.Operand} {r t : Reg} {g : Gpr} {u : Unit} {ty : Ty} {src : Operand}

lemma boundOperand_part (hr : τ.boundReg r = .ofGpr g) (w : Width) :
    τ.boundOperand (.part r w) = .part (.ofGpr g) w := by
  rw [Temps.boundOperand, hr]

lemma operands_instr_part (hr : τ.boundReg r = .ofGpr g) (op : Opcode) (src : Operand) (w : Width) :
    (τ.boundInstr (site.instr op [src, .part r w])).operands =
      [τ.boundOperand src, .part (.ofGpr g) w] := by
  rw [Temps.boundInstr_operands, Site.instr, List.map_cons, List.map_singleton, boundOperand_part hr]

theorem exec_load (v : Source) (h : τ.boundReg r = .ofGpr g) :
    exec p (τ.boundInstr (v.load site { reg := r })) σ = .ok (σ.setGpr g (v.word p σ)) := by
  rcases v with asm | ⟨access, ty, d, bits⟩
  · exact exec_lea rfl (operands_instr_part h _ _ _) (State.place_rip asm)
  · cases access with
    | home => exact exec_mov_gpr rfl (operands_instr_part h _ _ _) State.read_offset
    | address => exact exec_lea rfl (operands_instr_part h _ _ _) State.place_offset
    | constant =>
      have hread : σ.read p .quad (.imm bits) = .ok bits := by simp
      simp only [Source.load, Source.word]
      split_ifs
      · exact exec_mov_gpr rfl (operands_instr_part h _ _ _) hread
      · exact exec_movabs rfl (operands_instr_part h _ _ _) hread

lemma runs_loadGprInto (h : Yields (loadGprInto o { reg := r }) site s u s')
    (hr : τ.boundReg r = .ofGpr g) :
    ∃ v, s.source? o = some v ∧ s'.temps = s.temps ∧
      ∀ σ, Runs p τ s s' σ (.ok (σ.setGpr g (v.word p σ))) := by
  obtain ⟨v, hv, rfl⟩ := yields_loadGprInto.mp h
  exact ⟨v, hv, rfl, fun σ => .push (exec_load v hr)⟩

theorem exists_runs_loadGpr (h : Yields (loadGpr o) site s t s') (hτ : s'.temps.Grows τ) :
    ∃ v g, s.source? o = some v ∧ Temporary site τ s s' t g ∧
      ∀ σ, Runs p τ s s' σ (.ok (σ.setGpr g (v.word p σ))) := by
  obtain ⟨r, v, hr, hv, rfl, rfl⟩ := yields_loadGpr.mp h
  obtain ⟨g, hg⟩ : ∃ g, Temporary site τ s ({ s with temps := r.2 }.push
      (v.load site { reg := .temp r.1 .gpr })) (.temp r.1 .gpr) g :=
    exists_temporary_of_issue hr hτ rfl
  exact ⟨v, g, hv, hg, fun σ => Runs.trans (.refl rfl) (.push (exec_load v hg.bound))⟩

lemma read_full (hr : τ.boundReg r = .ofGpr g) :
    σ.read p .quad (τ.boundOperand (.full r)) = .ok (σ.gpr g) := by
  rw [boundOperand_part hr, State.read_gpr, Width.zeroExtend_quad]

lemma read_direct {v : Source} (h : v.direct? = some src) :
    σ.read p .quad (τ.boundOperand src) = .ok (v.word p σ) := by
  rcases v with asm | ⟨access, ty, d, bits⟩
  · cases h
  · cases access with
    | home =>
      cases h
      exact State.read_offset
    | address => cases h
    | constant =>
      simp only [Source.direct?] at h
      split_ifs at h
      cases h
      exact State.read_imm.trans (by rw [Width.zeroExtend_quad]; rfl)

/-- An operand as a source: its word can be read there. -/
theorem exists_runs_gprSource (h : Yields (gprSource o) site s src s') (hτ : s'.temps.Grows τ) :
    ∃ v, s.source? o = some v ∧ (∀ q, s.temps.holds q = true → s'.temps.holds q = true) ∧
      ∀ σ, ∃ σ', Runs p τ s s' σ (.ok σ') ∧ Spare site s σ σ' ∧
        σ'.read p .quad (τ.boundOperand src) = .ok (v.word p σ) := by
  obtain ⟨v, hv, ⟨hdirect, rfl⟩ | ⟨t, ht, rfl⟩⟩ := gprSource_cases h
  · exact ⟨v, hv, fun _ h => h, fun σ => ⟨σ, .refl rfl, .refl _ _ _, read_direct hdirect⟩⟩
  · obtain ⟨v', g, hv', hg, hruns⟩ := exists_runs_loadGpr ht hτ
    obtain rfl : v = v' := Option.some.inj (hv.symm.trans hv')
    refine ⟨v, hv, hg.keeps, fun σ => ⟨_, hruns σ, .of_temporary hg _, ?_⟩⟩
    rw [read_full hg.bound, State.setGpr_gpr]

lemma floatMove_eq (ty : Ty) : floatMove ty = .movs (precision ty) := by
  cases ty with
  | float q => cases q <;> rfl
  | int | bool | ptr | void | array | struct => rfl

theorem exists_runs_loadXmmInto {x : Fin 16} (h : Yields (loadXmmInto o { reg := r }) site s u s')
    (hr : τ.boundReg r = .phys (.xmm x)) (hτ : s'.temps.Grows τ) :
    ∃ v ty, s.source? o = some v ∧ (s.reach? o).map (·.ty) = some ty ∧ ty.isFloat = true ∧
      ∀ σ, ∃ σ' w, Runs p τ s s' σ (.ok (σ'.setXmm x w)) ∧ Spare site s σ σ' ∧
        (precision ty).low w = (precision ty).width.zeroExtend (v.word p σ) := by
  obtain ⟨reach, hreach, hfloat, hend⟩ := loadXmmInto_cases h
  have hdst (w : Width) : τ.boundOperand (.part r w) = .part (.phys (.xmm x)) w := by
    rw [Temps.boundOperand, hr]
  obtain ⟨res, rfl, hhome, rfl⟩ | ⟨t, s₁, ht, rfl⟩ := hend
  · refine ⟨.residence res, res.ty, Session.source?_of_residence hreach, by rw [hreach]; rfl, hfloat,
      fun σ => ⟨σ, (σ.mem.load (addr (σ.gpr .rbp) res.disp) (precision res.ty).bytes).setWidth 128,
        .push ?_, .refl _ _ _, ?_⟩⟩
    · rw [floatMove_eq]
      refine exec_movs_xmm (u := .quad) rfl ?_
      rw [Temps.boundInstr_operands, Site.instr, List.map_cons, List.map_singleton, hdst]
      rfl
    · have hword : Source.word p σ (.residence res) =
          σ.mem.load (addr (σ.gpr .rbp) res.disp) 8 := by
        rw [Source.word, hhome]
      rw [Precision.low_setWidth, hword, ← Precision.bytes_width, Memory.load_of_le _ _ _
        (Width.bytes_le _), Width.zeroExtend_zeroExtend]
  · obtain ⟨v, g, hv, hg, hruns⟩ := exists_runs_loadGpr ht hτ
    refine ⟨v, reach.ty, hv, by rw [hreach]; rfl, hfloat, fun σ => ?_⟩
    let σ₁ := σ.setGpr g (v.word p σ)
    have hread : σ₁.read p .quad (τ.boundOperand (.full t)) = .ok (v.word p σ) := by
      rw [read_full hg.bound, State.setGpr_gpr]
    have hops : (τ.boundInstr (site.instr (.mov .quad) [.full t, .full r])).operands =
        [τ.boundOperand (.full t), .part (.phys (.xmm x)) .quad] := by
      rw [Temps.boundInstr_operands, Site.instr, List.map_cons, List.map_singleton, hdst]
    exact ⟨σ₁, _, (hruns σ).trans (.push (exec_mov_xmm rfl hops hread)), .of_temporary hg _,
      Precision.low_setWidth _ _⟩

theorem exists_runs_returnValue {value : Option Ir.Operand} {text : String}
    (h : Yields (returnValue value text) site s u s') (hτ : s'.temps.Grows τ) :
    ∃ f, s.function = some f ∧ ∀ σ, ∃ σ', Runs p τ s s' σ (.ok σ') ∧ σ'.mem = σ.mem ∧
      Poised σ σ' ∧
      ∀ v, value = some v → f.ret.isFloat = false →
        ∃ src, s.source? v = some src ∧ σ'.gpr .rax = src.word p σ := by
  have hresult : site.target.intResult = .gpr .rax ∧
      site.target.floatResult = .xmm 0 := results site.options.convention
  have hreturns : s.Alike { s with returns := true } := ⟨rfl, rfl, rfl, rfl⟩
  obtain ⟨f, hf, ⟨rfl, -, rfl⟩ | ⟨v, rfl, -, -, ⟨hfloat, h⟩ | ⟨-, h⟩⟩⟩ := returnValue_cases h
  · exact ⟨f, hf, fun σ => ⟨σ, .refl rfl, rfl, .refl σ, fun v hv => by cases hv⟩⟩
  · refine ⟨f, hf, fun σ => ?_⟩
    obtain ⟨src, ty, -, -, -, hruns⟩ := exists_runs_loadXmmInto (p := p) (x := 0) h
      (by rw [hresult.2]; rfl) hτ
    obtain ⟨σ', w, hrun, hspare, -⟩ := hruns σ
    refine ⟨_, Runs.trans (.refl rfl) hrun, hspare.mem, hspare.poised, ?_⟩
    intro _ _ hint
    rw [hfloat] at hint
    cases hint
  · refine ⟨f, hf, fun σ => ?_⟩
    obtain ⟨src, hsrc, -, hruns⟩ := runs_loadGprInto (p := p) (τ := τ) (g := .rax) h
      (by rw [hresult.1]; rfl)
    rw [hreturns.source?] at hsrc
    refine ⟨_, Runs.trans (.refl rfl) (hruns σ), rfl, .setGpr (by decide) _, fun v hv _ => ?_⟩
    cases hv
    exact ⟨src, hsrc, State.setGpr_gpr _ _ _⟩

/-! ### Results -/

lemma extend_eq_self (h : extendInPlace { reg := r } ty = none) (v : Word) : ty.extend v = v := by
  cases ty with
  | int signed w =>
    cases signed <;> cases w <;> first
      | exact Width.zeroExtend_quad _
      | exact Width.signExtend_quad _
      | cases h
  | bool => cases h
  | float | ptr | void | array | struct => rfl

/-- The width that a value of a type has in memory. -/
def loadWidth : Ty → Width
  | .int _ w => w
  | .bool => .byte
  | _ => .quad

theorem exec_extendingLoad {i : Instr} {v : Word}
    (hop : i.op = (extendingLoad src { reg := r } ty).op)
    (hops : i.operands = (extendingLoad src { reg := r } ty).operands.map τ.boundOperand)
    (hr : τ.boundReg r = .ofGpr g)
    (hread : σ.read p (loadWidth ty) (τ.boundOperand src) = .ok ((loadWidth ty).zeroExtend v)) :
    exec p i σ = .ok (σ.setGpr g (ty.extend v)) := by
  have hparts (u : Width) (hi : (extendingLoad src { reg := r } ty).operands = [src, .part r u]) :
      i.operands = [τ.boundOperand src, .part (.ofGpr g) u] := by
    rw [hops, hi, List.map_cons, List.map_singleton, boundOperand_part hr u]
  have hquad (hop : i.op = .mov .quad) (hw : loadWidth ty = .quad)
      (hi : (extendingLoad src { reg := r } ty).operands = [src, .part r .quad])
      (hty : ty.extend v = v) : exec p i σ = .ok (σ.setGpr g (ty.extend v)) := by
    rw [exec_mov_gpr hop (hparts _ hi) (hw ▸ hread), Width.insert_quad, Width.zeroExtend_quad, hty]
  cases ty with
  | int signed w =>
    cases signed <;> cases w
    · exact exec_movz (Or.inl ⟨rfl, hop⟩) (hparts _ rfl) hread
    · exact exec_movz (Or.inr ⟨rfl, hop⟩) (hparts _ rfl) hread
    · rw [exec_mov_gpr hop (hparts _ rfl) hread, Width.insert_long, loadWidth,
        Width.zeroExtend_zeroExtend]
      rfl
    · exact hquad hop rfl rfl (Width.zeroExtend_quad _)
    · rw [exec_movs (Or.inl ⟨rfl, hop⟩) (hparts _ rfl) hread, loadWidth, Width.signExtend_zeroExtend]
      rfl
    · rw [exec_movs (Or.inr (Or.inl ⟨rfl, hop⟩)) (hparts _ rfl) hread, loadWidth,
        Width.signExtend_zeroExtend]
      rfl
    · rw [exec_movs (Or.inr (Or.inr ⟨rfl, hop⟩)) (hparts _ rfl) hread, loadWidth,
        Width.signExtend_zeroExtend]
      rfl
    · exact hquad hop rfl rfl (Width.signExtend_quad _)
  | bool => exact exec_movz (Or.inl ⟨rfl, hop⟩) (hparts _ rfl) hread
  | float | ptr | void | array | struct => exact hquad hop rfl rfl rfl

/-- Extending a register in place by a type is a load from the register. -/
theorem exec_extend {e i : Instr} (he : extendInPlace { reg := r } ty = some e) (hop : i.op = e.op)
    (hops : i.operands = e.operands.map τ.boundOperand) (hr : τ.boundReg r = .ofGpr g) :
    exec p i σ = .ok (σ.setGpr g (ty.extend (σ.gpr g))) := by
  obtain rfl : e = extendingLoad (.part r (loadWidth ty)) { reg := r } ty := by
    unfold extendInPlace at he
    split at he <;> cases he <;> rfl
  exact exec_extendingLoad hop hops hr (by rw [boundOperand_part hr, State.read_gpr])

lemma runs_extension (ty : Ty) (hr : τ.boundReg r = .ofGpr g) :
    Runs p τ s (s.pushAll (site.extension r ty)) σ (.ok (σ.setGpr g (ty.extend (σ.gpr g)))) := by
  rw [Site.extension]
  cases he : extendInPlace { reg := r } ty with
  | some e =>
    rw [Option.toList_some, List.map_singleton, Session.pushAll_singleton]
    exact .push (exec_extend he rfl rfl hr)
  | none =>
    rw [extend_eq_self he, State.setGpr_self]
    exact .refl (by simp)

lemma grows_of_storeGpr {i : Ir.Instr} (h : Yields (storeGpr i r ty) site s u s')
    (hτ : s'.temps.Grows τ) : s.temps.Grows τ := by
  obtain ⟨_, _, _, -, -, rfl⟩ := yields_storeGpr.mp h
  exact hτ

/-- A register, extended by a type, in the home of a result. -/
theorem exists_runs_storeGpr {i : Ir.Instr} (h : Yields (storeGpr i r ty) site s u s')
    (hr : τ.boundReg r = .ofGpr g) (hg : g ∉ [Gpr.rsp, .rbp]) :
    ∃ id d, i.result = some id ∧ s.Defined s' id ty d ∧ s'.temps = s.temps ∧
      ∀ σ, ∃ σ', Runs p τ s s' σ (.ok σ') ∧ Stored σ d (ty.extend (σ.gpr g)) σ' := by
  obtain ⟨id, d, frame, hid, hframe, rfl⟩ := yields_storeGpr.mp h
  refine ⟨id, d, hid, ⟨hframe, rfl⟩, rfl, fun σ => ?_⟩
  let σ₁ := σ.setGpr g (ty.extend (σ.gpr g))
  have hext : Runs p τ s (s.pushAll (site.extension r ty)) σ (.ok σ₁) := runs_extension ty hr
  have hpoised : Poised σ σ₁ := .setGpr hg _
  have hread : σ₁.read p .quad (τ.boundOperand (.full r)) = .ok (ty.extend (σ.gpr g)) := by
    rw [read_full hr, State.setGpr_gpr]
  have hplace : σ₁.place p (τ.boundOperand (.slot d)) = .ok (addr (σ.gpr .rbp) d) := by
    rw [← hpoised.rbp]
    exact State.place_offset
  have hstore : Runs p τ (s.pushAll (site.extension r ty))
      ((s.pushAll (site.extension r ty)).push (site.instr (.mov .quad) [.full r, .slot d])) σ₁ _ :=
    .push (exec_mov_mem rfl rfl hread hplace)
  obtain ⟨is, hcode, his⟩ := hext.trans hstore
  refine ⟨_, ⟨is, ?_, his⟩, ⟨hpoised, rfl⟩⟩
  rw [← hcode]
  simp [Session.pushAll, Session.push]

end Operands

end NativeCode.Selection
