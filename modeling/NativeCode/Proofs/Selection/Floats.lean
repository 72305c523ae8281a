import NativeCode.Proofs.Real.Order
import NativeCode.Proofs.Selection.Integers
import NativeCode.Proofs.Selection.Supplies

/-!
# Float comparisons

A float comparison loads its first operand into a vector register, takes the second one from its
home or from another register, and reads a boolean off the flags. Only the conditions for "above"
are false on operands that are not ordered, so that less-than exchanges its operands, and equality
and inequality look at the parity flag as well.
-/

namespace NativeCode.Machine

variable {p : Platform} {σ : State} {i : Instr} {g g' : Gpr} {x : Fin 16} {q : Precision}

/-- Floats are compared as the numbers that their low bits stand for. -/
def Platform.ComparesExactly (p : Platform) : Prop :=
  ∀ q x y, p.order q x y = q.format.order x.toNat y.toNat

def Platform.exact (p : Platform) : Platform :=
  { p with order := fun q x y => q.format.order x.toNat y.toNat }

lemma Platform.comparesExactly_exact (p : Platform) : p.exact.ComparesExactly := fun _ _ _ => rfl

lemma exec_ucomi {src : Operand} {w : Width} {v : Word} (hop : i.op = .ucomi q)
    (hops : i.operands = [src, .part (.phys (.xmm x)) w]) (hsrc : σ.readFloat p q src = .ok v) :
    exec p i σ = .ok { σ with flags := .ofOrdering (p.order q (q.low (σ.xmm x)) v) } := by
  simp only [exec, hop, hops, binary, State.onFloats, Operand.part, hsrc]
  rfl

lemma exec_combine {k : Word → Word → Word}
    (hop : i.op = .andb ∧ k = (· &&& ·) ∨ i.op = .orb ∧ k = (· ||| ·))
    (hops : i.operands = [.part (.ofGpr g') .byte, .part (.ofGpr g) .byte]) :
    ∃ f, exec p i σ = .ok ({ σ with flags := f }.setGpr g
      (Width.byte.insert (σ.gpr g)
        (k (Width.byte.zeroExtend (σ.gpr g)) (Width.byte.zeroExtend (σ.gpr g'))))) := by
  have hlogic : σ.partLogic p .byte k (.part (.ofGpr g') .byte) (.part (.ofGpr g) .byte) =
      exec p i σ := by
    rcases hop with ⟨hop, rfl⟩ | ⟨hop, rfl⟩ <;> simp only [exec, hop, hops, binary]
  rw [← hlogic]
  simp only [State.partLogic, State.read_gpr, bind, Except.bind, State.write_gpr]
  exact ⟨_, rfl⟩

end NativeCode.Machine

namespace NativeCode.Selection

open Ir (Ty BinaryOp)
open Abi Machine

variable {p : Platform} {τ : Temps} {site : Site} {s s' s₁ s₂ : Session} {i : Ir.Instr}
  {op : BinaryOp} {a b : Ir.Operand} {q : Precision} {u : Unit} {lhs r : Reg} {rhs : Operand}

/-! ### Flags -/

/-- The boolean that a comparison reads off the flags. -/
def floatTest (op : BinaryOp) (f : Flags) : Bool :=
  match op with
  | .eq => Cond.e.holds f && Cond.np.holds f
  | .ne => Cond.ne.holds f || Cond.p.holds f
  | .lt | .gt => Cond.a.holds f
  | _ => Cond.ae.holds f

/-- The flags tell what a comparison says, if less-than has its operands exchanged. -/
theorem floatTest_ofOrdering (hop : op.isComparison = true) (f : Real.Format) (x y : Nat) :
    floatTest op (.ofOrdering (if op = .lt ∨ op = .le then f.order y x else f.order x y)) =
      f.test op x y := by
  rw [f.test_eq_ofOrder, f.order_swap x y]
  cases f.order x y with
  | none => cases op <;> rfl
  | some o => cases op <;> first | exact absurd hop (by decide) | (cases o <;> rfl)

/-! ### Operands -/

def Source.floatBits (p : Platform) (σ : State) (q : Precision) (v : Source) : Nat :=
  (q.width.zeroExtend (v.word p σ)).toNat

lemma holds_of_loadXmmInto {dst : RegOperand} (h : Yields (loadXmmInto a dst) site s u s')
    {r : PhysReg} (hr : s.temps.holds r = true) : s'.temps.holds r = true := by
  obtain ⟨-, -, -, ⟨res, -, -, rfl⟩ | ⟨t, s₁, ht, rfl⟩⟩ := loadXmmInto_cases h
  · exact hr
  · obtain ⟨t, v, hissue, -, -, rfl⟩ := yields_loadGpr.mp ht
    have htemps : ({ s with temps := t.2 } : Session).temps = t.2 := rfl
    obtain ⟨-, -, -, -, -, hkeeps⟩ := exists_register_of_issue hissue (.refl _) htemps
    exact hkeeps r hr

lemma exists_runs_loadXmm {t : Reg} (h : Yields (loadXmm a) site s t s')
    (hτ : s'.temps.Grows τ) (ha : s.Has a (· = .float q)) :
    ∃ v x, s.source? a = some v ∧ τ.boundReg t = .phys (.xmm x) ∧
      s.temps.holds (.xmm x) = false ∧ s'.temps.holds (.xmm x) = true ∧
      ∀ σ, ∃ σ' w, Runs p τ s s' σ (.ok (σ'.setXmm x w)) ∧ Spare site s σ σ' ∧
        q.low w = q.width.zeroExtend (v.word p σ) := by
  obtain ⟨r, hr, rfl, hload⟩ := yields_loadXmm.mp h
  obtain ⟨-, hw⟩ := Emits.issue hr
  obtain ⟨is, he⟩ := emits_loadXmmInto hw hload
  have htemps : ({ s with temps := r.2 } : Session).temps = r.2 := rfl
  obtain ⟨reg, hpool, hbound, hfree, hheld, hkeeps⟩ :=
    exists_register_of_issue hr (he.later.temps.trans hτ) htemps
  obtain ⟨x, rfl, -⟩ := pool_xmm (c := site.options.convention) hpool
  obtain ⟨v, ty, hv, hty, -, hruns⟩ := exists_runs_loadXmmInto (p := p) hload hbound hτ
  obtain rfl : .float q = ty := by
    obtain ⟨reach, hreach, hq⟩ := ha.reach
    have hty : (s.reach? a).map (·.ty) = some ty := hty
    rw [hreach, Option.map_some, hq] at hty
    exact Option.some.inj hty
  have hprecision : precision (.float q) = q := by cases q <;> rfl
  rw [hprecision] at hruns
  refine ⟨v, x, hv, hbound, hfree, holds_of_loadXmmInto hload hheld, fun σ => ?_⟩
  obtain ⟨σ', w, hrun, hspare, hlow⟩ := hruns σ
  exact ⟨σ', w, Runs.trans (.refl rfl) hrun, (Spare.refl site s σ).trans hspare hkeeps, hlow⟩

/-- The first operand in a vector register and the second one as a source. -/
theorem exists_runs_floatPair (ha : Yields (loadXmm a) site s lhs s₁)
    (hb : Yields (xmmSource b) site s₁ rhs s₂) (hτ : s₂.temps.Grows τ)
    (hta : s.Has a (· = .float q)) (htb : s.Has b (· = .float q)) :
    ∃ va vb x, s.source? a = some va ∧ s.source? b = some vb ∧ τ.boundReg lhs = .phys (.xmm x) ∧
      ∀ σ, ∃ σ', Runs p τ s s₂ σ (.ok σ') ∧ σ'.mem = σ.mem ∧ Poised σ σ' ∧
        q.low (σ'.xmm x) = q.width.zeroExtend (va.word p σ) ∧
        σ'.readFloat p q (τ.boundOperand rhs) = .ok (q.width.zeroExtend (vb.word p σ)) := by
  have halike := alike_loadXmm ha
  obtain ⟨is, he⟩ := emits_xmmSource hb
  obtain ⟨va, x, hva, hbound, -, hheld, hruns⟩ :=
    exists_runs_loadXmm (p := p) ha (he.later.temps.trans hτ) hta
  obtain ⟨res, hres, hhome, rfl, rfl⟩ | ⟨t, ht, rfl⟩ := xmmSource_cases hb
  · -- the second operand is read in its home
    rw [halike.reach?] at hres
    refine ⟨va, .residence res, x, hva, Session.source?_of_residence hres, hbound, fun σ => ?_⟩
    obtain ⟨σ', w, hrun, hspare, hlow⟩ := hruns σ
    refine ⟨_, hrun, hspare.mem, hspare.poised, by rw [State.setXmm_xmm, hlow], ?_⟩
    have hread : (σ'.setXmm x w).readFloat p q (τ.boundOperand (.slot res.disp)) =
        .ok (σ'.mem.load (addr (σ'.gpr .rbp) res.disp) q.bytes) := rfl
    rw [hread, hspare.mem, hspare.rbp, Source.word, hhome, ← Precision.bytes_width,
      Memory.load_of_le _ _ _ (Width.bytes_le _)]
  · -- the second operand goes to another register, because the first one is held
    obtain ⟨vb, y, hvb, hbound', hfree, -, hruns'⟩ :=
      exists_runs_loadXmm (p := p) ht hτ (halike.has htb)
    have hne : x ≠ y := fun e => by
      rw [e, hfree] at hheld
      cases hheld
    refine ⟨va, vb, x, hva, (halike.source? b) ▸ hvb, hbound, fun σ => ?_⟩
    obtain ⟨σ₁, w, hrun, hspare, hlow⟩ := hruns σ
    obtain ⟨σ₂, w', hrun', hspare', hlow'⟩ := hruns' (σ₁.setXmm x w)
    have hmem : (σ₁.setXmm x w).mem = σ.mem := hspare.mem
    have hpoised : Poised σ (σ₁.setXmm x w) := hspare.poised
    refine ⟨_, hrun.trans hrun', hspare'.mem.trans hmem, hpoised.trans hspare'.poised, ?_, ?_⟩
    · rw [State.setXmm_xmm_of_ne _ _ hne, hspare'.xmm, State.setXmm_xmm, hlow]
    · have hread : (σ₂.setXmm y w').readFloat p q (τ.boundOperand (.full t)) =
          .ok (q.low ((σ₂.setXmm y w').xmm y)) := by
        rw [show τ.boundOperand (.full t) = .full (.phys (.xmm y)) by
          rw [Operand.full, Temps.boundOperand, hbound']]
        rfl
      rw [hread, State.setXmm_xmm, hlow', vb.word_congr hmem hpoised.rbp]

lemma exists_runs_ucomi (ha : Yields (loadXmm a) site s lhs s₁)
    (hb : Yields (xmmSource b) site s₁ rhs s₂) (hτ : s₂.temps.Grows τ)
    (hta : s.Has a (· = .float q)) (htb : s.Has b (· = .float q)) (hp : p.ComparesExactly) :
    ∃ va vb, s.source? a = some va ∧ s.source? b = some vb ∧
      ∀ σ, ∃ σ', Runs p τ s (s₂.push (site.instr (.ucomi q) [rhs, .full lhs])) σ (.ok σ') ∧
        σ'.mem = σ.mem ∧ Poised σ σ' ∧ σ'.flags =
          .ofOrdering (q.format.order (va.floatBits p σ q) (vb.floatBits p σ q)) := by
  obtain ⟨va, vb, x, hva, hvb, hbound, hruns⟩ := exists_runs_floatPair (p := p) ha hb hτ hta htb
  refine ⟨va, vb, hva, hvb, fun σ => ?_⟩
  obtain ⟨σ', hrun, hmem, hpoised, hlow, hread⟩ := hruns σ
  have hops : (τ.boundInstr (site.instr (.ucomi q) [rhs, .full lhs])).operands =
      [τ.boundOperand rhs, .part (.phys (.xmm x)) .quad] := by
    rw [← hbound]
    rfl
  have hexec := exec_ucomi rfl hops hread
  rw [hp q, hlow] at hexec
  exact ⟨_, hrun.trans (.push hexec), hmem, fun g hg => hpoised g hg, rfl⟩

/-! ### Results -/

lemma floatFlags_test (h : Yields (floatFlags op r) site s u s') :
    (∃ c : Cond, s' = s.push (site.instr (.set c) [.part r .byte]) ∧
        ∀ f, floatTest op f = c.holds f) ∨
      ∃ t s₁, ∃ c c' : Cond, ∃ combine k, Yields (newTemp .gpr) site s t s₁ ∧
        s' = ((s₁.push (site.instr (.set c) [.part r .byte])).push
          (site.instr (.set c') [.part t .byte])).push
          (site.instr combine [.part t .byte, .part r .byte]) ∧
        (combine = .andb ∧ k = (· &&& ·) ∨ combine = .orb ∧ k = (· ||| ·)) ∧
        ∀ f, k (if c.holds f then 1 else 0) (if c'.holds f then 1 else 0) =
          if floatTest op f then (1 : Word) else 0 := by
  unfold floatFlags at h
  split at h
  case h_1 =>
    obtain ⟨t, s₁, ht, h⟩ := yields_bind.mp h
    simp only [yields_emit_bind, yields_emit] at h
    refine Or.inr ⟨t, s₁, .e, .np, .andb, _, ht, h.symm, Or.inl ⟨rfl, rfl⟩, fun f => ?_⟩
    rw [floatTest]
    cases Cond.e.holds f <;> cases Cond.np.holds f <;> rfl
  case h_2 =>
    obtain ⟨t, s₁, ht, h⟩ := yields_bind.mp h
    simp only [yields_emit_bind, yields_emit] at h
    refine Or.inr ⟨t, s₁, .ne, .p, .orb, _, ht, h.symm, Or.inr ⟨rfl, rfl⟩, fun f => ?_⟩
    rw [floatTest]
    cases Cond.ne.holds f <;> cases Cond.p.holds f <;> rfl
  case h_3 => exact Or.inl ⟨.a, (yields_emit.mp h).symm, fun _ => rfl⟩
  case h_4 => exact Or.inl ⟨.a, (yields_emit.mp h).symm, fun _ => rfl⟩
  case h_5 heq hne hlt hgt =>
    refine Or.inl ⟨.ae, (yields_emit.mp h).symm, fun f => ?_⟩
    cases op <;> first | rfl | contradiction

lemma zeroExtend_ite (b : Bool) :
    Width.byte.zeroExtend (if b then 1 else 0) = if b then 1 else 0 := by
  cases b <;> rfl

lemma runs_set {c : Cond} {g : Gpr} {σ : State} (hr : τ.boundReg r = .ofGpr g) :
    Runs p τ s (s.push (site.instr (.set c) [.part r .byte])) σ
      (.ok (σ.setGpr g (Width.byte.insert (σ.gpr g) (if c.holds σ.flags then 1 else 0)))) := by
  refine .push (exec_set rfl ?_)
  rw [Temps.boundInstr_operands, Site.instr, List.map_singleton, boundOperand_part hr]

/-- The boolean of a comparison in the low byte of a register. -/
theorem exists_runs_floatFlags {g : Gpr} (h : Yields (floatFlags op r) site s u s')
    (hr : τ.boundReg r = .ofGpr g) (hg : s.temps.holds (.gpr g) = true)
    (hframe : g ∉ [Gpr.rsp, .rbp]) (hτ : s'.temps.Grows τ) (σ : State) :
    ∃ σ', Runs p τ s s' σ (.ok σ') ∧ σ'.mem = σ.mem ∧ Poised σ σ' ∧
      Width.byte.zeroExtend (σ'.gpr g) = if floatTest op σ.flags then 1 else 0 := by
  obtain ⟨c, rfl, htest⟩ | ⟨t, s₁, c, c', combine, k, ht, rfl, hk, htest⟩ := floatFlags_test h
  · refine ⟨_, runs_set hr, rfl, .setGpr hframe _, ?_⟩
    rw [State.setGpr_gpr, zeroExtend_insert_byte, zeroExtend_ite, htest]
  · obtain ⟨t, hissue, rfl, rfl⟩ := yields_newTemp.mp ht
    obtain ⟨g', hg'⟩ : ∃ g', Temporary site τ s { s with temps := t.2 } (.temp t.1 .gpr) g' :=
      exists_temporary_of_issue hissue hτ rfl
    -- the first register is held, so that the second condition goes to another one
    have hne : g ≠ g' := fun e => by
      rw [e, hg'.free] at hg
      cases hg
    let σ₁ := σ.setGpr g (Width.byte.insert (σ.gpr g) (if c.holds σ.flags then 1 else 0))
    let σ₂ := σ₁.setGpr g' (Width.byte.insert (σ₁.gpr g') (if c'.holds σ.flags then 1 else 0))
    have hops : (τ.boundInstr (site.instr combine [.part (.temp t.1 .gpr) .byte,
        .part r .byte])).operands = [.part (.ofGpr g') .byte, .part (.ofGpr g) .byte] := by
      rw [operands_instr_part hr, boundOperand_part hg'.bound]
    obtain ⟨f, hcombine⟩ := exec_combine (p := p) (σ := σ₂) hk hops
    have hfirst : Width.byte.zeroExtend (σ₂.gpr g) = if c.holds σ.flags then 1 else 0 := by
      rw [State.setGpr_gpr_of_ne _ _ hne, State.setGpr_gpr, zeroExtend_insert_byte, zeroExtend_ite]
    have hsecond : Width.byte.zeroExtend (σ₂.gpr g') = if c'.holds σ.flags then 1 else 0 := by
      rw [State.setGpr_gpr, zeroExtend_insert_byte, zeroExtend_ite]
    have hpoised : Poised σ σ₂ :=
      (Poised.setGpr hframe _).trans (.setGpr hg'.not_mem_frame _)
    refine ⟨_, Runs.trans (Runs.trans (Runs.trans (.refl rfl) (runs_set hr)) (runs_set hg'.bound))
      (.push hcombine), rfl, hpoised.trans fun q hq => ?_, ?_⟩
    · exact State.setGpr_gpr_of_ne _ _ fun e => hframe (e ▸ hq)
    · rw [State.setGpr_gpr, zeroExtend_insert_byte, hfirst, hsecond, htest, zeroExtend_ite]

lemma exists_runs_ordered {first second : Ir.Operand} (hop : op.isComparison = true)
    (hswap : (first, second) = if op = .lt ∨ op = .le then (b, a) else (a, b))
    (hfirst : Yields (loadXmm first) site s lhs s₁)
    (hsecond : Yields (xmmSource second) site s₁ rhs s₂) (hτ : s₂.temps.Grows τ)
    (ha : s.Has a (· = .float q)) (hb : s.Has b (· = .float q)) (hp : p.ComparesExactly) :
    ∃ va vb, s.source? a = some va ∧ s.source? b = some vb ∧
      ∀ σ, ∃ σ', Runs p τ s (s₂.push (site.instr (.ucomi q) [rhs, .full lhs])) σ (.ok σ') ∧
        σ'.mem = σ.mem ∧ Poised σ σ' ∧
        floatTest op σ'.flags = q.format.test op (va.floatBits p σ q) (vb.floatBits p σ q) := by
  split_ifs at hswap with hless
  · obtain ⟨rfl, rfl⟩ := Prod.mk.inj hswap
    obtain ⟨vb, va, hvb, hva, hruns⟩ := exists_runs_ucomi hfirst hsecond hτ hb ha hp
    refine ⟨va, vb, hva, hvb, fun σ => ?_⟩
    obtain ⟨σ', hrun, hmem, hpoised, hflags⟩ := hruns σ
    refine ⟨σ', hrun, hmem, hpoised, ?_⟩
    rw [hflags, ← floatTest_ofOrdering hop, if_pos hless]
  · obtain ⟨rfl, rfl⟩ := Prod.mk.inj hswap
    obtain ⟨va, vb, hva, hvb, hruns⟩ := exists_runs_ucomi hfirst hsecond hτ ha hb hp
    refine ⟨va, vb, hva, hvb, fun σ => ?_⟩
    obtain ⟨σ', hrun, hmem, hpoised, hflags⟩ := hruns σ
    refine ⟨σ', hrun, hmem, hpoised, ?_⟩
    rw [hflags, ← floatTest_ofOrdering hop, if_neg hless]

theorem computes_floatCompare (h : Yields (floatCompare i op a b) site s u s')
    (hop : op.isComparison = true) (hty : i.ty = .float q) (ha : s.Has a (· = .float q))
    (hb : s.Has b (· = .float q)) (hp : p.ComparesExactly) (hτ : s'.temps.Grows τ) :
    Computes p τ s s' i a b .bool fun x y => some
      (if q.format.test op (q.width.zeroExtend x).toNat (q.width.zeroExtend y).toNat then 1
        else 0) := by
  obtain ⟨first, second, lhs, s₁, rhs, s₂, result, s₃, s₄, hswap, hlhs, hrhs, hresult, hflags,
    hstore⟩ := floatCompare_cases h
  have hτ₄ : s₄.temps.Grows τ := grows_of_storeGpr hstore hτ
  obtain ⟨hissued, hwritable⟩ := emits_newTemp hresult
  obtain ⟨_, hread⟩ := emits_floatFlags hwritable hflags
  have hτ₃ : s₃.temps.Grows τ := hread.later.temps.trans hτ₄
  have hτ₂ : s₂.temps.Grows τ := hissued.later.temps.trans hτ₃
  have hq : precision i.ty = q := by
    rw [hty]
    cases q <;> rfl
  rw [hq] at hresult
  obtain ⟨va, vb, hva, hvb, hruns⟩ := exists_runs_ordered hop hswap hlhs hrhs hτ₂ ha hb hp
  have hs₄ : s.Alike s₄ := (alike_loadXmm hlhs).trans ((alike_xmmSource hrhs).trans
    ((Session.Alike.push _ _).trans ((alike_newTemp hresult).trans (alike_floatFlags hflags))))
  obtain ⟨t, hissue, rfl, hs₃⟩ := yields_newTemp.mp hresult
  have htemps : s₃.temps = t.2 := by rw [hs₃]
  obtain ⟨g, hg⟩ := exists_temporary_of_issue hissue (htemps ▸ hτ₃) htemps
  refine computes_of_storeGpr hs₄ hva hvb (fun σ => ?_) hstore hg.bound hg.not_mem_frame
  obtain ⟨σ₁, hrun, hmem, hpoised, htest⟩ := hruns σ
  obtain ⟨σ₂, hrun', hmem', hpoised', hbyte⟩ :=
    exists_runs_floatFlags (p := p) hflags hg.bound hg.held hg.not_mem_frame hτ₄ σ₁
  refine ⟨σ₂, hrun.trans (Runs.trans (.refl (by rw [hs₃])) hrun'), hmem'.trans hmem,
    hpoised.trans hpoised', ?_⟩
  rw [Ty.extend, hbyte, htest]
  rfl

/-! ### Selecting comparisons -/

lemma ends_floatFlags (op : BinaryOp) (r : Reg) : Ends 1 0 (floatFlags op r) site s := by
  have hpair (c c' : Cond) (combine : Opcode) :
      Ends 1 0 (do
        let parity ← newTemp .gpr
        emit (.set c) [.part r .byte]
        emit (.set c') [.part parity .byte]
        emit combine [.part parity .byte, .part r .byte]) site s :=
    ends_bind (m := 0) (n := 0) ends_newGpr fun _ _ _ =>
      ends_emit_bind (ends_emit_bind (ends_emit _ _))
  have hsingle (c : Cond) : Ends 1 0 (emit (.set c) [.part r .byte]) site s :=
    (ends_emit _ _).mono (Nat.zero_le _) (Nat.zero_le _)
  unfold floatFlags
  split
  case h_1 => exact hpair .e .np .andb
  case h_2 => exact hpair .ne .p .orb
  case h_3 => exact hsingle .a
  case h_4 => exact hsingle .a
  case h_5 => exact hsingle .ae

/-- Four general-purpose and two vector temporaries are enough for a comparison. -/
theorem ends_floatCompare (ha : s.Has a (·.isFloat = true)) (hb : s.Has b (·.isFloat = true))
    {id : Nat} (hid : i.result = some id) (hframe : s.frame.locals + 8 ≤ 2147483647) :
    Ends 4 2 (floatCompare i op a b) site s := by
  rw [floatCompare]
  rcases hswap : (if op = .lt ∨ op = .le then (b, a) else (a, b)) with ⟨first, second⟩
  dsimp only
  have hpair : s.Has first (·.isFloat = true) ∧ s.Has second (·.isFloat = true) := by
    split_ifs at hswap
    · cases hswap
      exact ⟨hb, ha⟩
    · cases hswap
      exact ⟨ha, hb⟩
  refine ends_bind (m := 3) (n := 1) (ends_loadXmm hpair.1) fun lhs s₁ hlhs => ?_
  have hs₁ := alike_loadXmm hlhs
  refine ends_bind (m := 2) (n := 0) (ends_xmmSource (hs₁.has hpair.2)) fun rhs s₂ hrhs => ?_
  refine ends_emit_bind ?_
  refine ends_bind (m := 1) (n := 0) ends_newGpr fun result s₃ hresult => ?_
  refine ends_bind (m := 0) (n := 0) (ends_floatFlags op result) fun _ s₄ hflags => ?_
  refine ends_storeGpr hid ?_ result
  have hs₄ : s.Alike s₄ := hs₁.trans ((alike_xmmSource hrhs).trans
    ((Session.Alike.push _ _).trans ((alike_newTemp hresult).trans (alike_floatFlags hflags))))
  rw [hs₄.frame]
  exact hframe

/-! ### Main result -/

lemma load_of_defined {σ σ' : State} {id : Nat} {ty : Ty} {d e : Int} {w : Word} {k : Nat}
    (hd : s.Defined s' id ty d) (h : Stored σ d w σ') (he : -s.frame.locals ≤ e)
    (hk : e + k ≤ 9223372036854775807) :
    σ'.mem.load (addr (σ'.gpr .rbp) e) k = σ.mem.load (addr (σ.gpr .rbp) e) k := by
  obtain ⟨rfl, hbelow, -, hlimit, -⟩ := Frame.Needs.allocate_eq_ok hd.allocated
  exact h.load_apart (Or.inl ⟨by push_cast; omega, by omega⟩)

/-- Comparisons of floats hold of the numbers that their operands stand for, whatever the two
operands and the context. The home of the result holds one if the comparison does and zero if not;
on what is not a number, only inequality holds. No other byte of the frame changes. A comparison can
be selected if its operands are found with its type, and there is room for its temporaries and for
the home. -/
theorem float_comparison {i : Ir.Instr} {op : BinaryOp} {a b : Ir.Operand} {q : Precision}
    (hop : op.isComparison = true) (hty : i.ty = .float q) (site : Site) (s : Session)
    (ha : s.Has a (· = .float q)) (hb : s.Has b (· = .float q)) :
    (i.result.isSome = true → s.frame.locals + 8 ≤ 2147483647 →
      s.Supplies site.options.target 4 2 → ∃ u s', Yields (floatCompare i op a b) site s u s') ∧
    ∀ p u s' τ, p.ComparesExactly → Yields (floatCompare i op a b) site s u s' →
      s'.temps.Grows τ →
      ∃ x y id d, s.source? a = some x ∧ s.source? b = some y ∧ i.result = some id ∧
        s.Defined s' id .bool d ∧ ∀ σ, ∃ σ', Runs p τ s s' σ (.ok σ') ∧
          Stored σ d
            (if q.format.test op (x.floatBits p σ q) (y.floatBits p σ q) then 1 else 0) σ' ∧
          (q.format.value? (x.floatBits p σ q) = none ∨ q.format.value? (y.floatBits p σ q) = none →
            Stored σ d (if op = .ne then 1 else 0) σ') ∧
          ∀ (e : Int) (k : Nat), -s.frame.locals ≤ e → e + k ≤ 9223372036854775807 →
            σ'.mem.load (addr (σ'.gpr .rbp) e) k = σ.mem.load (addr (σ.gpr .rbp) e) k := by
  have hfloat {x : Ir.Operand} (hx : s.Has x (· = .float q)) : s.Has x (·.isFloat = true) :=
    hx.mono fun ty hty => by rw [hty]; rfl
  refine ⟨fun hid hframe hs => ?_, fun p u s' τ hp h hτ => ?_⟩
  · obtain ⟨id, hid⟩ := Option.isSome_iff_exists.mp hid
    exact (ends_floatCompare (hfloat ha) (hfloat hb) hid hframe).exists_yields hs
  · obtain ⟨x, y, id, d, hx, hy, hid, hdefined, hruns⟩ :=
      computes_floatCompare h hop hty ha hb hp hτ
    refine ⟨x, y, id, d, hx, hy, hid, hdefined, fun σ => ?_⟩
    obtain ⟨σ', hrun, hstored⟩ := (hruns σ).1 _ rfl
    refine ⟨σ', hrun, hstored, fun hnan => ?_, fun e k he hk =>
      load_of_defined hdefined hstored he hk⟩
    have htest := Real.Format.test_of_unordered hnan op
    rw [Source.floatBits, Source.floatBits] at htest
    simpa [htest] using hstored

def singleHome : Session where
  values := [(0, { access := .home, ty := .float .single, disp := -8 })]
  frame := { locals := 8 }

/-- A comparison of the single for inequality with what is not a number. -/
def differsFromNaN : Ir.Instr where
  kind := .binary .ne
  ty := .float .single
  operands := [.value 0, .const (.float .single) 0x7fc00000]
  result := some 1

/-- Everything is different from what is not a number. -/
theorem float_comparison_nan :
    BinaryOp.isComparison .ne = true ∧ differsFromNaN.ty = .float .single ∧
    ∃ s', Yields (floatCompare differsFromNaN .ne (.value 0) (.const (.float .single) 0x7fc00000))
        { options := {} } singleHome () s' ∧
      ∀ (p : Platform) σ, ∃ σ', Runs p.exact s'.temps singleHome s' σ (.ok σ') ∧
        σ'.mem.load (addr (σ'.gpr .rbp) (-16)) 8 = 1 ∧
        σ'.mem.load (addr (σ'.gpr .rbp) (-8)) 8 = σ.mem.load (addr (σ.gpr .rbp) (-8)) 8 := by
  have ha : singleHome.Has (.value 0) (· = .float .single) := ⟨⟨_, rfl⟩, _, rfl, rfl⟩
  have hb : singleHome.Has (.const (.float .single) 0x7fc00000) (· = .float .single) :=
    ⟨⟨_, rfl⟩, _, rfl, rfl⟩
  obtain ⟨s', hs'⟩ : ∃ s', Yields (floatCompare differsFromNaN .ne (.value 0)
      (.const (.float .single) 0x7fc00000)) { options := {} } singleHome () s' := ⟨_, rfl⟩
  have hop : BinaryOp.isComparison .ne = true := rfl
  refine ⟨hop, rfl, s', hs', fun p σ => ?_⟩
  obtain ⟨-, hruns⟩ := float_comparison (i := differsFromNaN) hop rfl { options := {} } singleHome
    ha hb
  obtain ⟨x, y, id, d, -, hy, -, hdefined, hruns⟩ :=
    hruns p.exact () s' s'.temps p.comparesExactly_exact hs' (.refl _)
  cases hy
  obtain ⟨σ', hrun, -, hnan, hbytes⟩ := hruns σ
  have hd : .ok (-16, { locals := 16 }) = Except.ok (d, s'.frame) := hdefined.allocated
  obtain ⟨rfl, -⟩ := Prod.mk.inj (Except.ok.inj hd)
  have hvalue : Precision.single.format.value? 0x7fc00000 = none := by decide
  exact ⟨σ', hrun, (hnan (Or.inr hvalue)).load_self, hbytes (-8) 8 (by decide) (by decide)⟩

end NativeCode.Selection
