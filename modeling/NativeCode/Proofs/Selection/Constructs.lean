import NativeCode.Proofs.Selection.Yields

/-!
# The steps of each construct

The code of an instruction or terminator is taken apart into the steps that emit it, with the
sessions between them. Everything that is proved of selected code starts from these lemmas.
-/

namespace NativeCode.Selection

open Ir (Ty BinaryOp)
open Machine

variable {site : Site} {s s' : Session} {i : Ir.Instr} {a b o : Ir.Operand} {u : Unit}
  {op : BinaryOp} {next : Option Nat} {name : String}

/-! ### Two-operand operations -/

theorem arith_cases {op : AluOp} (h : Yields (arith i op a b) site s u s') :
    ∃ acc s₁ rhs s₂, Yields (loadGpr a) site s acc s₁ ∧ Yields (gprSource b) site s₁ rhs s₂ ∧
      Yields (storeGpr i acc i.ty) site (s₂.push (site.instr (.alu op) [rhs, .full acc])) () s' := by
  obtain ⟨acc, s₁, hacc, h⟩ := yields_bind.mp h
  obtain ⟨rhs, s₂, hrhs, h⟩ := yields_bind.mp h
  exact ⟨acc, s₁, rhs, s₂, hacc, hrhs, h⟩

lemma divisor_cases {d : Operand} (h : Yields (divisor b) site s d s') :
    ∃ src s₁, Yields (gprSource b) site s src s₁ ∧
      (((∀ v, src ≠ .imm v) ∧ d = src ∧ s' = s₁) ∨
        ∃ v t s₂, src = .imm v ∧ Yields (newTemp .gpr) site s₁ t s₂ ∧ d = .full t ∧
          s' = s₂.push (site.instr (.mov .quad) [.imm v, .full t])) := by
  obtain ⟨src, s₁, hsrc, h⟩ := yields_bind.mp h
  refine ⟨src, s₁, hsrc, ?_⟩
  split at h
  case h_1 v =>
    obtain ⟨t, s₂, ht, h⟩ := yields_bind.mp h
    simp only [yields_emit_bind, yields_pure] at h
    exact Or.inr ⟨v, t, s₂, rfl, ht, h.1.symm, h.2.symm⟩
  case h_2 himm =>
    simp only [yields_pure] at h
    exact Or.inl ⟨himm, h.1.symm, h.2.symm⟩

/-- The upper half of a dividend: the sign of the lower half, or zero. -/
def Site.upperHalf (site : Site) (signed : Bool) : Instr :=
  if signed then site.instr .cqto []
  else site.instr .xorl [.part (.ofGpr .rdx) .long, .part (.ofGpr .rdx) .long]

theorem divide_cases (h : Yields (divide i a b) site s u s') :
    ∃ s₁ d s₂, Yields (loadGprInto a { reg := .ofGpr .rax }) site s () s₁ ∧
      Yields (divisor b) site (s₁.push (site.upperHalf i.ty.isSigned)) d s₂ ∧
      Yields (storeGpr i (.ofGpr .rax) i.ty) site
        (s₂.push (site.instr (.div i.ty.isSigned) [d])) () s' := by
  obtain ⟨⟨⟩, s₁, ha, h⟩ := yields_bind.mp h
  cases hs : i.ty.isSigned
  all_goals
    simp only [hs, Bool.false_eq_true, if_false, if_true, yields_emit_bind] at h
    obtain ⟨d, s₂, hd, h⟩ := yields_bind.mp h
    exact ⟨s₁, d, s₂, ha, hd, h⟩

/-- The shift by a known count, or by a count that was copied into `%cl`. -/
theorem shift_cases {toRight : Bool} (h : Yields (shift i toRight a b) site s u s') :
    ∃ value s₁ r s₂, Yields (loadGpr a) site s value s₁ ∧ s₁.reach? b = some r ∧
      ((∃ count, r.known? = some count ∧
          s₂ = s₁.push (site.instr (.shift (shiftOp toRight i.ty))
            [.imm (count &&& 63), .full value])) ∨
        ∃ s₃, r.known? = none ∧ Yields (loadGprInto b { reg := .ofGpr .rcx }) site s₁ () s₃ ∧
          s₂ = s₃.push (site.instr (.shift (shiftOp toRight i.ty))
            [.part (.ofGpr .rcx) .byte, .full value])) ∧
      Yields (storeGpr i value i.ty) site s₂ () s' := by
  obtain ⟨value, s₁, hvalue, h⟩ := yields_bind.mp h
  rw [yields_constantValue_bind] at h
  obtain ⟨r, hr, h⟩ := h
  cases hknown : r.known? with
  | some count =>
    rw [hknown] at h
    exact ⟨value, s₁, r, _, hvalue, hr, Or.inl ⟨count, hknown, rfl⟩, h⟩
  | none =>
    rw [hknown] at h
    dsimp only at h
    obtain ⟨⟨⟩, s₃, hload, h⟩ := yields_bind.mp h
    exact ⟨value, s₁, r, _, hvalue, hr, Or.inr ⟨s₃, hknown, hload, rfl⟩, h⟩

/-- A comparison ends in the flags, or stores its result. -/
theorem yields_compare :
    Yields (compare i op a b) site s u s' ↔
      ∃ lhs s₁ rhs s₂ s₃, Yields (loadGpr a) site s lhs s₁ ∧ Yields (gprSource b) site s₁ rhs s₂ ∧
        s₃ = s₂.push (site.instr .cmp [rhs, .full lhs]) ∧
        ((site.flagsOnly = true ∧ s' = { s₃ with pending := some (intCond op i.ty.isSigned) }) ∨
          (site.flagsOnly = false ∧
            Yields (storeGpr i lhs .bool) site
              (s₃.push (site.instr (.set (intCond op i.ty.isSigned)) [.part lhs .byte])) () s')) := by
  rw [compare, yields_bind]
  constructor
  · rintro ⟨lhs, s₁, hlhs, h⟩
    obtain ⟨rhs, s₂, hrhs, h⟩ := yields_bind.mp h
    refine ⟨lhs, s₁, rhs, s₂, _, hlhs, hrhs, rfl, ?_⟩
    rw [yields_emit_bind, yields_read_bind] at h
    cases hflags : site.flagsOnly
    all_goals
      simp only [hflags, Bool.false_eq_true, if_false, if_true, yields_modify] at h
    · exact Or.inr ⟨rfl, h⟩
    · exact Or.inl ⟨rfl, h.symm⟩
  · rintro ⟨lhs, s₁, rhs, s₂, _, hlhs, hrhs, rfl, h⟩
    refine ⟨lhs, s₁, hlhs, yields_bind.mpr ⟨rhs, s₂, hrhs, ?_⟩⟩
    rw [yields_emit_bind, yields_read_bind]
    obtain ⟨hflags, rfl⟩ | ⟨hflags, h⟩ := h
    · simp only [hflags, if_true, yields_modify]
    · simp only [hflags, Bool.false_eq_true, if_false]
      exact h

theorem floatArith_cases {op : FloatOp} (h : Yields (floatArith i op a b) site s u s') :
    ∃ acc s₁ rhs s₂, Yields (loadXmm a) site s acc s₁ ∧ Yields (xmmSource b) site s₁ rhs s₂ ∧
      Yields (storeXmm i acc i.ty) site
        (s₂.push (site.instr (.float op (precision i.ty)) [rhs, .full acc])) () s' := by
  obtain ⟨acc, s₁, hacc, h⟩ := yields_bind.mp h
  obtain ⟨rhs, s₂, hrhs, h⟩ := yields_bind.mp h
  exact ⟨acc, s₁, rhs, s₂, hacc, hrhs, h⟩

/-- The boolean of a float comparison is one condition, or two that are combined through a second
temporary. -/
lemma floatFlags_cases {r : Reg} (h : Yields (floatFlags op r) site s u s') :
    (∃ c, s' = s.push (site.instr (.set c) [.part r .byte])) ∨
      ∃ t s₁ c c' combine, (combine = .andb ∨ combine = .orb) ∧
        Yields (newTemp .gpr) site s t s₁ ∧
        s' = ((s₁.push (site.instr (.set c) [.part r .byte])).push
          (site.instr (.set c') [.part t .byte])).push
          (site.instr combine [.part t .byte, .part r .byte]) := by
  unfold floatFlags at h
  split at h
  case h_1 =>
    obtain ⟨t, s₁, ht, h⟩ := yields_bind.mp h
    simp only [yields_emit_bind, yields_emit] at h
    exact Or.inr ⟨t, s₁, _, _, _, Or.inl rfl, ht, h.symm⟩
  case h_2 =>
    obtain ⟨t, s₁, ht, h⟩ := yields_bind.mp h
    simp only [yields_emit_bind, yields_emit] at h
    exact Or.inr ⟨t, s₁, _, _, _, Or.inr rfl, ht, h.symm⟩
  all_goals exact Or.inl ⟨_, (yields_emit.mp h).symm⟩

theorem floatCompare_cases (h : Yields (floatCompare i op a b) site s u s') :
    ∃ first second lhs s₁ rhs s₂ result s₃ s₄,
      (first, second) = (if op = .lt ∨ op = .le then (b, a) else (a, b)) ∧
      Yields (loadXmm first) site s lhs s₁ ∧ Yields (xmmSource second) site s₁ rhs s₂ ∧
      Yields (newTemp .gpr) site (s₂.push (site.instr (.ucomi (precision i.ty)) [rhs, .full lhs]))
        result s₃ ∧
      Yields (floatFlags op result) site s₃ () s₄ ∧
      Yields (storeGpr i result .bool) site s₄ () s' := by
  unfold floatCompare at h
  rcases hswap : (if op = .lt ∨ op = .le then (b, a) else (a, b)) with ⟨first, second⟩
  rw [hswap] at h
  dsimp only at h
  obtain ⟨lhs, s₁, hlhs, h⟩ := yields_bind.mp h
  obtain ⟨rhs, s₂, hrhs, h⟩ := yields_bind.mp h
  rw [yields_emit_bind, yields_bind] at h
  obtain ⟨result, s₃, hresult, h⟩ := h
  obtain ⟨⟨⟩, s₄, hflags, h⟩ := yields_bind.mp h
  exact ⟨first, second, lhs, s₁, rhs, s₂, result, s₃, s₄, rfl, hlhs, hrhs, hresult, hflags, h⟩

lemma yields_checkClass_bind {β : Type} {f : Unit → Emit β} {v : β} :
    Yields (checkClass i o >>= f) site s v s' ↔
      ∃ r, s.reach? o = some r ∧ r.ty.regClass = i.ty.regClass ∧ Yields (f ()) site s v s' := by
  rw [checkClass, bind_assoc, yields_typeOf_bind]
  refine exists_congr fun r => and_congr_right fun _ => ?_
  by_cases hcls : r.ty.regClass = i.ty.regClass <;> simp [hcls]

def formCode (i : Ir.Instr) (op : BinaryOp) (a b : Ir.Operand) : Form → Emit Unit
  | .arith alu => arith i alu a b
  | .divide => divide i a b
  | .shift toRight => shift i toRight a b
  | .compare => compare i op a b
  | .floatArith f => floatArith i f a b
  | .floatCompare => floatCompare i op a b

/-- A two-operand instruction has a form and two operands in its register class. -/
theorem yields_binary :
    Yields (binary i op) site s u s' ↔
      ∃ form a b ra rb, form? op i.ty = some form ∧ i.operands = [a, b] ∧
        s.reach? a = some ra ∧ ra.ty.regClass = i.ty.regClass ∧
        s.reach? b = some rb ∧ rb.ty.regClass = i.ty.regClass ∧
        Yields (formCode i op a b form) site s () s' := by
  unfold binary
  cases hform : form? op i.ty with
  | none => simp
  | some form =>
    simp only [operandPair, yields_bind]
    constructor
    · rintro ⟨⟨a, b⟩, s₁, hpair, h⟩
      split at hpair
      case h_1 a' b' hops =>
        simp only [yields_checkClass_bind, yields_pure, Prod.mk.injEq] at hpair
        obtain ⟨ra, hra, hca, rb, hrb, hcb, ⟨rfl, rfl⟩, rfl⟩ := hpair
        exact ⟨form, a', b', ra, rb, rfl, hops, hra, hca, hrb, hcb, h⟩
      case h_2 => exact absurd hpair not_yields_stopHere
    · rintro ⟨form', a, b, ra, rb, hform', hops, hra, hca, hrb, hcb, h⟩
      obtain rfl := Option.some.inj hform'
      refine ⟨(a, b), s, ?_, h⟩
      rw [hops]
      simp only [yields_checkClass_bind, yields_pure]
      exact ⟨ra, hra, hca, rb, hrb, hcb, trivial, trivial⟩

/-! ### Storage -/

lemma yields_requireScalar_bind {β : Type} {f : Unit → Emit β} {v : β} :
    Yields (requireScalar i >>= f) site s v s' ↔
      (i.ty.isAggregate = false ∧ i.ty.isVoid = false) ∧ Yields (f ()) site s v s' := by
  rw [requireScalar]
  by_cases h : i.ty.isAggregate || i.ty.isVoid
  · have hn : ¬ (i.ty.isAggregate = false ∧ i.ty.isVoid = false) := by
      rcases Bool.or_eq_true_iff.mp h with h | h <;> simp [h]
    simp [h, hn]
  · have hy : i.ty.isAggregate = false ∧ i.ty.isVoid = false := by simpa using h
    simp [hy]

theorem load_cases (h : Yields (load i) site s u s') :
    ∃ pointer src s₁ value s₂, i.operands = [pointer] ∧
      (i.ty.isAggregate = false ∧ i.ty.isVoid = false) ∧
      Yields (addressOf pointer) site s src s₁ ∧ Yields (newTemp i.ty.regClass) site s₁ value s₂ ∧
      ((i.ty.isFloat = true ∧
          Yields (storeXmm i value i.ty) site
            (s₂.push (site.instr (floatMove i.ty) [src, .full value])) () s') ∨
        ∃ home s₃, i.ty.isFloat = false ∧
          Yields (defineHome i i.ty) site
            (s₂.push (site.instr (extendingLoad src { reg := value } i.ty).op
              (extendingLoad src { reg := value } i.ty).operands)) home s₃ ∧
          s' = s₃.push (site.instr (.mov .quad) [.full value, home])) := by
  unfold load at h
  split at h
  case h_1 pointer hops =>
    rw [yields_requireScalar_bind, yields_bind] at h
    obtain ⟨hscalar, src, s₁, hsrc, h⟩ := h
    refine ⟨pointer, src, s₁, ?_⟩
    cases hfloat : i.ty.isFloat
    all_goals
      have hcls : i.ty.regClass = if i.ty.isFloat then .xmm else .gpr := rfl
      simp only [hfloat, Bool.false_eq_true, if_false, if_true] at h hcls
      obtain ⟨value, s₂, hvalue, h⟩ := yields_bind.mp h
      rw [hcls]
      refine ⟨value, s₂, hops, hscalar, hsrc, hvalue, ?_⟩
    · rw [yields_emit_bind, yields_bind] at h
      obtain ⟨home, s₃, hhome, h⟩ := h
      exact Or.inr ⟨home, s₃, rfl, hhome, (yields_emit.mp h).symm⟩
    · exact Or.inl ⟨rfl, h⟩
  case h_2 => exact absurd h not_yields_stopHere

lemma storeSource_cases {w : Width} {src : Operand} (h : Yields (storeSource o w) site s src s') :
    ∃ r, s.reach? o = some r ∧
      ((∃ bits, r.known? = some bits ∧ src = .imm (w.signExtend bits) ∧ s' = s) ∨
        ∃ t, Yields (loadGpr o) site s t s' ∧ src = .part t w) := by
  rw [storeSource, yields_constantValue_bind] at h
  obtain ⟨r, hr, h⟩ := h
  have hload : Yields (do return .part (← loadGpr o) w) site s src s' →
      ∃ t, Yields (loadGpr o) site s t s' ∧ src = .part t w := by
    intro h
    simp only [yields_bind, yields_pure] at h
    obtain ⟨t, _, ht, rfl, rfl⟩ := h
    exact ⟨t, ht, rfl⟩
  refine ⟨r, hr, ?_⟩
  cases hknown : r.known? with
  | none =>
    rw [hknown] at h
    exact Or.inr (hload h)
  | some bits =>
    rw [hknown] at h
    dsimp only at h
    split_ifs at h
    · simp only [yields_pure] at h
      exact Or.inl ⟨bits, rfl, h.1.symm, h.2.symm⟩
    · exact Or.inr (hload h)

theorem store_cases (h : Yields (store i) site s u s') :
    ∃ value pointer r src s₁ dst s₂, i.operands = [value, pointer] ∧
      (i.ty.isAggregate = false ∧ i.ty.isVoid = false) ∧
      s.reach? value = some r ∧ r.ty.regClass = i.ty.regClass ∧
      Yields (addressOf pointer) site s₁ dst s₂ ∧
      ((i.ty.isFloat = true ∧ ∃ t, Yields (loadXmm value) site s t s₁ ∧ src = .full t ∧
          s' = s₂.push (site.instr (floatMove i.ty) [src, dst])) ∨
        (i.ty.isFloat = false ∧
          Yields (storeSource value (Width.ofBytes i.ty.size)) site s src s₁ ∧
          s' = s₂.push (site.instr (.mov (Width.ofBytes i.ty.size)) [src, dst]))) := by
  unfold store at h
  split at h
  case h_1 value pointer hops =>
    rw [yields_requireScalar_bind, yields_typeOf_bind] at h
    obtain ⟨hscalar, r, hr, h⟩ := h
    dsimp only at h
    rw [yields_ite_right not_yields_stopHere_bind] at h
    obtain ⟨hcls, h⟩ := h
    cases hfloat : i.ty.isFloat
    all_goals
      simp only [hfloat, Bool.false_eq_true, if_false, if_true] at h
      obtain ⟨src, s₁, hsrc, h⟩ := yields_bind.mp h
      obtain ⟨dst, s₂, hdst, h⟩ := yields_bind.mp h
      have h := (yields_emit.mp h).symm
    · exact ⟨value, pointer, r, src, s₁, dst, s₂, hops, hscalar, hr, not_not.mp hcls, hdst,
        Or.inr ⟨rfl, hsrc, h⟩⟩
    · exact ⟨value, pointer, r, .full src, s₁, dst, s₂, hops, hscalar, hr, not_not.mp hcls, hdst,
        Or.inl ⟨rfl, src, hsrc, rfl, h⟩⟩
  case h_2 => exact absurd h not_yields_stopHere

theorem alloca_cases (h : Yields (alloca i) site s u s') :
    ∃ id d frame, i.result = some id ∧ s.frame.allocate i.ty.size = .ok (d, frame) ∧
      s' = { s with
        frame
        values := (id, { access := .address, ty := .ptr, disp := d }) :: s.values } := by
  unfold alloca at h
  dsimp only at h
  rw [yields_ite_right not_yields_stopHere_bind] at h
  obtain ⟨-, h⟩ := h
  split at h
  case h_1 => exact absurd h not_yields_stopHere
  case h_2 id hid =>
    obtain ⟨d, s₁, hd, h⟩ := yields_bind.mp h
    obtain ⟨frame, hframe, rfl⟩ := yields_allocate.mp hd
    exact ⟨id, d, frame, hid, hframe, (yields_modify.mp h).symm⟩

theorem constant_cases (h : Yields (constant i) site s u s') :
    ∃ literal id r bits, i.operands = [literal] ∧ i.result = some id ∧
      s.reach? literal = some r ∧ r.known? = some bits ∧
      s' = { s with values := (id, { access := .constant, ty := i.ty, bits }) :: s.values } := by
  unfold constant at h
  split at h
  case h_1 literal hops =>
    rw [yields_requireScalar_bind] at h
    obtain ⟨-, h⟩ := h
    split at h
    case h_1 => exact absurd h not_yields_stopHere
    case h_2 id hid =>
      rw [yields_constantValue_bind] at h
      obtain ⟨r, hr, h⟩ := h
      cases hknown : r.known? with
      | none =>
        rw [hknown] at h
        exact absurd h not_yields_stopHere
      | some bits =>
        rw [hknown] at h
        exact ⟨literal, id, r, bits, hops, hid, hr, hknown, (yields_modify.mp h).symm⟩
  case h_2 => exact absurd h not_yields_stopHere

/-! ### Calls -/

lemma stackArguments_cons_cases {p : Abi.Placement} {rest : List (Ir.Operand × Abi.Placement)}
    (h : Yields (stackArguments ((o, p) :: rest)) site s u s') :
    ∃ s₁, Yields (stackArguments rest) site s₁ () s' ∧
      ((∃ r, p.place = .register r ∧ s₁ = s) ∨
        ∃ offset t s₂, p.place = .stack offset ∧ Yields (loadGpr o) site s t s₂ ∧
          s₁ = s₂.push (site.instr (.mov .quad) [.full t, .offset (.ofGpr .rsp) offset])) := by
  rw [stackArguments] at h
  cases hp : p.place with
  | register r =>
    rw [hp] at h
    exact ⟨s, h, Or.inl ⟨r, rfl, rfl⟩⟩
  | stack offset =>
    rw [hp] at h
    dsimp only at h
    obtain ⟨t, s₂, ht, h⟩ := yields_bind.mp h
    exact ⟨_, h, Or.inr ⟨offset, t, s₂, rfl, ht, rfl⟩⟩

lemma registerArguments_cons_cases {p : Abi.Placement} {rest : List (Ir.Operand × Abi.Placement)}
    (h : Yields (registerArguments ((o, p) :: rest)) site s u s') :
    ∃ s₁, Yields (registerArguments rest) site s₁ () s' ∧
      ((∃ offset, p.place = .stack offset ∧ s₁ = s) ∨
        (∃ r, p.place = .register r ∧ p.cls = .gpr ∧
          Yields (loadGprInto o { reg := .phys r }) site s () s₁) ∨
        ∃ r, p.place = .register r ∧ p.cls = .xmm ∧
          Yields (loadXmmInto o { reg := .phys r }) site s () s₁) := by
  rw [registerArguments] at h
  cases hp : p.place with
  | stack offset =>
    rw [hp] at h
    exact ⟨s, h, Or.inl ⟨offset, rfl, rfl⟩⟩
  | register r =>
    rw [hp] at h
    dsimp only at h
    cases hcls : p.cls
    all_goals
      rw [hcls] at h
      dsimp only at h
      obtain ⟨⟨⟩, s₁, hload, h⟩ := yields_bind.mp h
    · exact ⟨s₁, h, Or.inr (Or.inl ⟨r, rfl, rfl, hload⟩)⟩
    · exact ⟨s₁, h, Or.inr (Or.inr ⟨r, rfl, rfl, hload⟩)⟩

lemma yields_callee_bind {β : Type} {f : String → Emit β} {v : β} :
    Yields (callee name >>= f) site s v s' ↔
      ∃ e symbols, s.symbols.callee name = .ok (e, symbols) ∧
        Yields (f e.asm) site { s with symbols } v s' := by
  rw [callee, bind_assoc, yields_get_bind, bind_assoc, yields_lift_bind]
  constructor
  · rintro ⟨⟨e, symbols⟩, he, h⟩
    exact ⟨e, symbols, he, h⟩
  · rintro ⟨e, symbols, he, h⟩
    exact ⟨(e, symbols), he, h⟩

lemma mapM_typeOf_cases {os : List Ir.Operand} {tys : List Ty}
    (h : Yields (os.mapM typeOf) site s tys s') :
    s' = s ∧ List.Forall₂ (fun o ty => ∃ r, s.reach? o = some r ∧ r.ty = ty) os tys := by
  induction os generalizing tys s' with
  | nil =>
    rw [List.mapM_nil, yields_pure] at h
    obtain ⟨rfl, rfl⟩ := h
    exact ⟨rfl, .nil⟩
  | cons o os ih =>
    rw [List.mapM_cons, yields_typeOf_bind] at h
    obtain ⟨r, hr, h⟩ := h
    obtain ⟨rest, s₁, hrest, hpure⟩ := yields_bind.mp h
    obtain ⟨rfl, hall⟩ := ih hrest
    obtain ⟨rfl, rfl⟩ := yields_pure.mp hpure
    exact ⟨rfl, .cons ⟨r, hr, rfl⟩ hall⟩

lemma callResult_cases (h : Yields (callResult i name) site s u s') :
    (i.ty.isVoid = false ∧ i.ty.isAggregate = false) ∧
      ((i.ty.isFloat = true ∧
          Yields (storeXmm i (.phys site.options.target.floatResult) i.ty) site s () s') ∨
        (i.ty.isFloat = false ∧
          Yields (storeGpr i (.phys site.options.target.intResult) i.ty) site s () s')) := by
  rw [callResult, yields_read_bind] at h
  dsimp only at h
  rw [yields_ite_right not_yields_stopHere_bind, yields_ite_right not_yields_stopHere_bind] at h
  obtain ⟨hvoid, hagg, h⟩ := h
  refine ⟨⟨by simpa using hvoid, by simpa using hagg⟩, ?_⟩
  cases hfloat : i.ty.isFloat
  all_goals simp only [hfloat, Bool.false_eq_true, if_false, if_true] at h
  · exact Or.inr ⟨rfl, h⟩
  · exact Or.inl ⟨rfl, h⟩

/-- A call writes its stack arguments, then its register arguments, and stores the result last. -/
theorem call_cases (h : Yields (call i name) site s u s') :
    ∃ e symbols tys placements s₁ s₂ s₃,
      s.symbols.callee name = .ok (e, symbols) ∧
      List.Forall₂ (fun o ty => ∃ r, s.reach? o = some r ∧ r.ty = ty) i.operands tys ∧
      site.options.target.place tys = .ok placements ∧
      Yields (stackArguments (i.operands.zip placements)) site { s with symbols } () s₁ ∧
      Yields (registerArguments (i.operands.zip placements)) site s₁ () s₂ ∧
      s₃ = { s₂.push (site.instr .call [.symbol e.asm]) with
        frame := s₂.frame.noteCall (site.options.target.outgoingBytes placements) } ∧
      ((i.result = none ∧ s' = s₃) ∨
        i.result.isSome = true ∧ Yields (callResult i name) site s₃ () s') := by
  rw [call, yields_read_bind, yields_callee_bind] at h
  obtain ⟨e, symbols, he, h⟩ := h
  obtain ⟨tys, _, hmap, h⟩ := yields_bind.mp h
  obtain ⟨rfl, htys⟩ := mapM_typeOf_cases hmap
  rw [yields_lift_bind] at h
  obtain ⟨placements, hplace, h⟩ := h
  dsimp only at h
  obtain ⟨⟨⟩, s₁, hstack, h⟩ := yields_bind.mp h
  obtain ⟨⟨⟩, s₂, hregs, h⟩ := yields_bind.mp h
  rw [yields_emit_bind, yields_modify_bind] at h
  refine ⟨e, symbols, tys, placements, s₁, s₂, _, he, htys, hplace, hstack, hregs, rfl, ?_⟩
  cases hresult : i.result with
  | none =>
    simp only [hresult, Option.isSome_none, Bool.false_eq_true, if_false, yields_pure] at h
    exact Or.inl ⟨rfl, h.2.symm⟩
  | some id =>
    simp only [hresult, Option.isSome_some, if_true] at h
    exact Or.inr ⟨rfl, h⟩

/-! ### Returns and block ends -/

/-- A returned value is put into its register once the function is known to return. -/
theorem returnValue_cases {value : Option Ir.Operand} {text : String}
    (h : Yields (returnValue value text) site s u s') :
    ∃ f, s.function = some f ∧
      ((value = none ∧ f.ret.isVoid = true ∧ s' = { s with returns := true }) ∨
        ∃ v, value = some v ∧ f.ret.isVoid = false ∧ f.ret.isAggregate = false ∧
          ((f.ret.isFloat = true ∧
              Yields (loadXmmInto v { reg := .phys site.options.target.floatResult }) site
                { s with returns := true } () s') ∨
            (f.ret.isFloat = false ∧
              Yields (loadGprInto v { reg := .phys site.options.target.intResult }) site
                { s with returns := true } () s'))) := by
  rw [returnValue, yields_read_bind, yields_get_bind, yields_lift_bind] at h
  obtain ⟨f, hf, h⟩ := h
  have hfunction : s.function = some f := by
    rw [Session.current] at hf
    split at hf
    case h_1 g hg => exact hg.trans (congrArg some (Except.ok.inj hf))
    case h_2 => cases hf
  refine ⟨f, hfunction, ?_⟩
  rw [yields_modify_bind] at h
  split at h
  case h_1 =>
    rw [yields_ite_left not_yields_stop, yields_pure] at h
    exact Or.inl ⟨rfl, h.1, h.2.2.symm⟩
  case h_2 v =>
    dsimp only at h
    rw [yields_ite_right not_yields_stop_bind, yields_ite_right not_yields_stop_bind] at h
    obtain ⟨hvoid, hagg, h⟩ := h
    refine Or.inr ⟨v, rfl, by simpa using hvoid, by simpa using hagg, ?_⟩
    cases hfloat : f.ret.isFloat
    all_goals simp only [hfloat, Bool.false_eq_true, if_false, if_true] at h
    · exact Or.inr ⟨rfl, h⟩
    · exact Or.inl ⟨rfl, h⟩

def Site.exit (site : Site) (s : Session) : Instr := site.instr .jmp [.label s.epilogueLabel]

lemma yields_jumpToEpilogue :
    Yields jumpToEpilogue site s u s' ↔ s' = s.push (site.exit s) := by
  rw [jumpToEpilogue, yields_get_bind, yields_emit, Site.exit, eq_comm]

lemma earlyReturn_cases (h : Yields (earlyReturn i) site s u s') :
    ∃ s₁, i.operands.length ≤ 1 ∧ Yields (returnValue i.operands.head? i.text) site s () s₁ ∧
      s' = s₁.push (site.exit s₁) := by
  rw [earlyReturn] at h
  dsimp only at h
  rw [yields_ite_right not_yields_stopHere_bind, yields_bind] at h
  obtain ⟨hlen, ⟨⟩, s₁, hvalue, h⟩ := h
  exact ⟨s₁, not_lt.mp hlen, hvalue, yields_jumpToEpilogue.mp h⟩

lemma exists_returnValue_of_earlyReturn (h : Yields (earlyReturn i) site s u s') {x : Ir.Operand}
    (hx : x ∈ i.operands) : ∃ s₁, Yields (returnValue (some x) i.text) site s () s₁ := by
  obtain ⟨s₁, harity, hvalue, -⟩ := earlyReturn_cases h
  cases hops : i.operands with
  | nil => rw [hops] at hx; cases hx
  | cons y ys =>
    rw [hops, List.length_cons] at harity
    obtain rfl : ys = [] := List.length_eq_zero_iff.mp (by omega)
    rw [hops] at hx hvalue
    cases List.mem_singleton.mp hx
    exact ⟨s₁, hvalue⟩

def Site.goto (site : Site) (s : Session) (target : Nat) (next : Option Nat) : List Instr :=
  if next = some target then [] else [site.instr .jmp [.label (s.blockLabel target)]]

/-- The jumps to one of two blocks by a condition. -/
def Site.fork (site : Site) (s : Session) (cond : Cond) (onTrue onFalse : Nat)
    (next : Option Nat) : List Instr :=
  if next = some onTrue then [site.instr (.jcc cond.invert) [.label (s.blockLabel onFalse)]]
  else site.instr (.jcc cond) [.label (s.blockLabel onTrue)] :: site.goto s onFalse next

lemma yields_jumpTo {target : Nat} :
    Yields (jumpTo target next) site s u s' ↔ s' = s.pushAll (site.goto s target next) := by
  rw [jumpTo, Site.goto]
  split_ifs with hnext
  · simp [eq_comm]
  · rw [yields_get_bind, yields_emit, Session.pushAll_singleton, eq_comm]

lemma yields_jumpOn {cond : Cond} {onTrue onFalse : Nat} :
    Yields (jumpOn cond onTrue onFalse next) site s u s' ↔
      s' = s.pushAll (site.fork s cond onTrue onFalse next) := by
  rw [jumpOn, yields_get_bind, Site.fork]
  by_cases htrue : next = some onTrue
  · rw [if_pos htrue, if_pos htrue, yields_emit, Session.pushAll_singleton, eq_comm]
  · rw [if_neg htrue, if_neg htrue, yields_emit_bind, Site.goto]
    by_cases hfalse : next = some onFalse
    · simp [hfalse, Session.pushAll_singleton, eq_comm]
    · simp [hfalse, Session.pushAll_cons, eq_comm]

lemma branch_cases {value : Option Ir.Operand} {onTrue onFalse : Nat}
    (h : Yields (branch value onTrue onFalse next) site s u s') :
    (onTrue = onFalse ∧
        s' = { s with pending := none }.pushAll (site.goto s onTrue next)) ∨
      ∃ condition, onTrue ≠ onFalse ∧ value = some condition ∧
        ((∃ cond, s.pending = some cond ∧
            s' = { s with pending := none }.pushAll (site.fork s cond onTrue onFalse next)) ∨
          ∃ r, s.pending = none ∧ s.reach? condition = some r ∧ r.ty.isInteger = true ∧
            ((∃ bits, r.known? = some bits ∧
                s' = s.pushAll (site.goto s (if bits ≠ 0 then onTrue else onFalse) next)) ∨
              ∃ src s₁, r.known? = none ∧ Yields (gprSource condition) site s src s₁ ∧
                s' = (s₁.push (site.instr .cmp [.imm 0, src])).pushAll
                  (site.fork s₁ .ne onTrue onFalse next))) := by
  unfold branch at h
  split_ifs at h with heq
  · rw [yields_modify_bind, yields_jumpTo] at h
    exact Or.inl ⟨heq, h⟩
  · cases value with
    | none => exact absurd h not_yields_stop
    | some condition =>
      refine Or.inr ⟨condition, heq, rfl, ?_⟩
      dsimp only at h
      rw [yields_get_bind] at h
      cases hpending : s.pending with
      | some cond =>
        simp only [hpending, yields_modify_bind, yields_jumpOn] at h
        exact Or.inl ⟨cond, rfl, h⟩
      | none =>
        simp only [hpending] at h
        rw [jumpOnValue, yields_typeOf_bind] at h
        obtain ⟨r, hr, h⟩ := h
        dsimp only at h
        rw [yields_ite_left not_yields_stop_bind, yields_constantValue_bind] at h
        obtain ⟨hint, r', hr', h⟩ := h
        obtain rfl : r = r' := Option.some.inj (hr.symm.trans hr')
        refine Or.inr ⟨r, rfl, hr, hint, ?_⟩
        cases hknown : r.known? with
        | some bits =>
          simp only [hknown, yields_jumpTo] at h
          exact Or.inl ⟨bits, rfl, h⟩
        | none =>
          simp only [hknown] at h
          obtain ⟨src, s₁, hsrc, h⟩ := yields_bind.mp h
          rw [yields_emit_bind, yields_jumpOn] at h
          exact Or.inr ⟨src, s₁, rfl, hsrc, h⟩

/-- The instruction that marks a point that cannot be reached. -/
def Site.trap (site : Site) : Instr :=
  { op := .ud2, comment := "unreachable", origin := site.origin }

theorem leave_cases {t : Ir.Terminator} (h : Yields (leave t next) site s u s') :
    (∃ s₁, t.exit = .ret ∧ Yields (returnValue t.value t.text) site s () s₁ ∧
        s' = s₁.pushAll (if next.isSome then [site.exit s₁] else [])) ∨
      (∃ target, t.exit = .jump target ∧ s' = s.pushAll (site.goto s target next)) ∨
      (∃ onTrue onFalse, t.exit = .branch onTrue onFalse ∧
        Yields (branch t.value onTrue onFalse next) site s () s') ∨
      t.exit = .unreachable ∧
        s' = s.pushAll (if site.options.unreachable = .trap then [site.trap] else []) := by
  rw [leave] at h
  split at h
  case h_1 hexit =>
    obtain ⟨⟨⟩, s₁, hvalue, h⟩ := yields_bind.mp h
    refine Or.inl ⟨s₁, hexit, hvalue, ?_⟩
    split_ifs at h ⊢
    · rw [yields_jumpToEpilogue] at h
      rw [h, Session.pushAll_singleton]
    · rw [yields_pure] at h
      rw [← h.2, Session.pushAll_nil]
  case h_2 target hexit => exact Or.inr (Or.inl ⟨target, hexit, yields_jumpTo.mp h⟩)
  case h_3 onTrue onFalse hexit => exact Or.inr (Or.inr (Or.inl ⟨onTrue, onFalse, hexit, h⟩))
  case h_4 hexit =>
    refine Or.inr (Or.inr (Or.inr ⟨hexit, ?_⟩))
    rw [yields_read_bind] at h
    split_ifs at h ⊢
    · rw [Session.pushAll_singleton]
      cases h
      rfl
    · rw [yields_pure] at h
      rw [← h.2, Session.pushAll_nil]

end NativeCode.Selection
