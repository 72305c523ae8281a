import NativeCode.Proofs.Ir.Shapes
import NativeCode.Proofs.Machine.Encoding
import NativeCode.Proofs.Selection.Failures
import NativeCode.Proofs.Selection.Yields

/-!
# The steps of code selection

All code selection is composed of a few steps. A judgement on computations that holds of these steps,
and that is kept when they are composed, holds of the code of every instruction and of every block
end. What is known at a step is part of its rule: the causes for which it stops, the operands that are
found, the temporaries that are taken, and the operands of what is emitted. None of the steps looks at
the table of symbols, except for the name of a callee or of a piece of data, and none of them looks at
the options, except for the convention and the policy for points that cannot be reached.
-/

namespace NativeCode

/-- Options that agree on all that code depends on. They may differ in what is shown beside the code:
the comments, the line map and the trace. -/
structure Options.Agrees (o o' : Options) : Prop where
  convention : o'.convention = o.convention
  unreachable : o'.unreachable = o.unreachable
  maxFrame : o'.maxFrame = o.maxFrame
  stem : o'.stem = o.stem

lemma Options.Agrees.target {o o' : Options} (h : o.Agrees o') : o'.target = o.target :=
  congrArg Abi.Convention.target h.convention

end NativeCode

namespace NativeCode.Selection

open Ir (Ty BinaryOp)
open Abi Machine

attribute [local simp] Opcode.accepts Opcode.acceptsTwo Operand.arePair Operand.isPlace

def Session.under (s : Session) (t : Symbols) : Session := { s with symbols := t }

/-! ### Runs of single steps -/

section Runs

variable {α β : Type} (site : Site) (s : Session)

lemma run_lift_bind (x : Except Failure α) (k : α → Emit β) :
    ((liftM x >>= k : Emit β).run site).run s = x >>= fun a => ((k a).run site).run s := by
  cases x <;> rfl

lemma run_newTemp (cls : RegClass) : ((newTemp cls).run site).run s =
    s.temps.issue site.options.target cls >>= fun r =>
      .ok (.temp r.1 cls, { s with temps := r.2 }) := by
  let k (r : Nat × Temps) : Emit Reg := do
    modify fun s : Session => { s with temps := r.2 }
    return .temp r.1 cls
  exact run_lift_bind site { s with temps := {} } (s.temps.issue site.options.target cls) k

lemma run_allocate (bytes : Nat) :
    ((allocate bytes).run site).run s = s.allocate bytes := by
  let k (r : Int × Session) : Emit Int := do
    set r.2
    return r.1
  refine (run_lift_bind site s (s.allocate bytes) k).trans ?_
  cases s.allocate bytes <;> rfl

lemma run_callee (name : String) : ((callee name).run site).run s =
    s.symbols.callee name >>= fun r => .ok (r.1.asm, { s with symbols := r.2 }) := by
  let k (r : Symbol × Symbols) : Emit String := do
    set { s with symbols := r.2 }
    return r.1.asm
  exact run_lift_bind site s (s.symbols.callee name) k

end Runs

/-! ### Operands that can be encoded -/

section Accepts

variable {r : Reg} {src dst : Operand}

lemma isGpr_full (h : r.cls = .gpr) (w : Width) : (Operand.part r w).isGpr w = true := by
  simp [Operand.isGpr, h]

lemma isXmm_full (h : r.cls = .xmm) : (Operand.full r).isXmm = true := by
  simp [Operand.isXmm, h]

@[simp] lemma isMemory_slot (d : Int) : (Operand.slot d).isMemory = true := rfl

lemma isImm_of_fitsImm32 {v : Word} (h : fitsImm32 v = true) : (Operand.imm v).isImm .quad = true := by
  simp only [fitsImm32, Bool.and_eq_true, decide_eq_true_eq] at h
  rw [Operand.isImm, Bool.and_eq_true, decide_eq_true_eq, decide_eq_true_eq, immBound]
  omega

lemma isImm_signExtend {w : Width} {bits : Word} (h : fitsImm32 (w.signExtend bits) = true) :
    (Operand.imm (w.signExtend bits)).isImm w = true := by
  have hle : w.bits ≤ 64 := by cases w <;> decide
  have hlow := BitVec.le_toInt (bits.setWidth w.bits)
  have hhigh := BitVec.toInt_lt (x := bits.setWidth w.bits)
  rw [← BitVec.toInt_signExtend_of_le hle] at hlow hhigh
  have hquad := isImm_of_fitsImm32 h
  rw [Operand.isImm, Bool.and_eq_true, decide_eq_true_eq, decide_eq_true_eq] at hquad ⊢
  cases w with
  | byte | word => exact ⟨hlow, hhigh⟩
  | long | quad => exact hquad

lemma isCount_and (count : Word) : (Operand.imm (count &&& 63)).isCount = true := by
  have hlt : (count &&& 63).toNat < 64 := by
    rw [BitVec.toNat_and]
    exact Nat.lt_of_le_of_lt Nat.and_le_right (by decide)
  simp only [Operand.isCount, BitVec.toInt_eq_toNat_cond, Bool.and_eq_true, decide_eq_true_eq]
  split_ifs <;> omega

lemma accepts_floatMove (ty : Ty)
    (h : ((src.isXmm || src.isMemory) && dst.isXmm || src.isXmm && dst.isMemory) = true) :
    (floatMove ty).accepts [src, dst] = true := by
  unfold floatMove
  split <;> exact h

lemma accepts_extendInPlace {i : Instr} {ty : Ty} (hr : r.cls = .gpr)
    (h : extendInPlace { reg := r } ty = some i) : i.op.accepts i.operands = true := by
  unfold extendInPlace at h
  split at h <;> cases h <;>
    simp [Operand.isGpr, hr]

lemma accepts_extendingLoad (ty : Ty) (hr : r.cls = .gpr) (hsrc : src.isMemory = true) :
    (extendingLoad src { reg := r } ty).op.accepts (extendingLoad src { reg := r } ty).operands =
      true := by
  unfold extendingLoad
  split <;>
    simp [Operand.isGpr, hr, hsrc]

lemma accepts_mov_store (hr : r.cls = .gpr) (w : Width) (hdst : dst.isMemory = true) :
    (Opcode.mov w).accepts [.part r w, dst] = true := by
  cases w <;>
    simp [Operand.isGpr, hr, hdst]

lemma accepts_mov_target {w : Width} (hsrc : (src.isGpr w || src.isImm w) = true)
    (hdst : dst.isMemory = true) : (Opcode.mov w).accepts [src, dst] = true := by
  cases w <;> simp [hsrc, hdst]

lemma accepts_alu (op : AluOp) (hr : r.cls = .gpr)
    (hsrc : (src.isPlace .quad || src.isImm .quad) = true) :
    (Opcode.alu op).accepts [src, .full r] = true := by
  have hdst := isGpr_full hr .quad
  simp only [Operand.isPlace, Bool.or_eq_true] at hsrc
  cases op <;> simp only [Opcode.accepts, Opcode.acceptsTwo, Operand.arePair, Operand.isPlace, hdst,
    Bool.or_eq_true, Bool.and_eq_true, and_true, true_or] <;> tauto

lemma accepts_div {d : Operand} {signed : Bool} (h : d.isPlace .quad = true) :
    (Opcode.div signed).accepts [d] = true := h

lemma accepts_cmp (hr : r.cls = .gpr) (hsrc : (src.isPlace .quad || src.isImm .quad) = true) :
    Opcode.cmp.accepts [src, .full r] = true := accepts_alu .sub hr hsrc

lemma accepts_cmp_zero (h : src.isPlace .quad = true) :
    Opcode.cmp.accepts [.imm 0, src] = true := by
  have hzero : (Operand.imm 0#64).isImm .quad = true := by decide
  simp [-Operand.isPlace, hzero, h]

lemma accepts_set (c : Cond) (hr : r.cls = .gpr) :
    (Opcode.set c).accepts [.part r .byte] = true := by
  simp [Opcode.acceptsOne, isGpr_full hr .byte]

lemma cls_of_place {c : Convention} {tys : List Ty} {ps : List Placement}
    (h : c.target.place tys = .ok ps) {p : Placement} (hp : p ∈ ps) {r : PhysReg}
    (hr : p.place = .register r) : r.cls = p.cls := by
  obtain ⟨ty, hfits⟩ := exists_fits (place_eq_ok h).2 hp
  exact (args_scratch (hfits.register r hr)).1

end Accepts

/-! ### Judgements on computations -/

/-- An operand names at most a piece of data or a label that some session with property `I` knows. -/
def Known (I : Session → Prop) : Operand → Prop
  | .symbol _ => False
  | .rip name => ∃ s, I s ∧ ∃ e ∈ s.symbols.entries, e.kind ≠ .function ∧ e.asm = name
  | .label name => ∃ s, I s ∧ (name = s.epilogueLabel ∨ ∃ id, name = s.blockLabel id)
  | .reg _ | .imm _ | .mem _ => True

attribute [local simp] Known

lemma known_of_data {I : Session → Prop} {s : Session} (hs : I s) {name : String} {e : Symbol}
    (h : s.symbols.data name = .ok e) : Known I (.rip e.asm) := by
  delta Symbols.data at h
  cases hfind : s.symbols.find? name with
  | none =>
    rw [hfind] at h
    cases h
  | some e' =>
    rw [hfind] at h
    dsimp only at h
    split_ifs at h with hkind
    · cases h
    · cases h
      exact ⟨s, hs, e, List.mem_of_find?_eq_some hfind, hkind, rfl⟩

lemma ne_call_of_accepts {I : Session → Prop} {op : Opcode} {os : List Operand}
    (h : op.accepts os = true) (hos : os.Forall (Known I)) : op ≠ .call := by
  rintro rfl
  rcases os with _ | ⟨x, _ | ⟨y, _ | ⟨z, os⟩⟩⟩
  case cons.nil =>
    cases x with
    | symbol => exact hos
    | reg | imm | mem | label | rip => cases h
  all_goals cases h

/-- A property of sessions that is kept when a function is called. -/
def Callable (I : Session → Prop) (asm : String) : Prop :=
  ∀ s origin, I s → I (s.push { op := .call, operands := [.symbol asm], origin })

/-- A property of sessions that a call to `name` keeps: the table may grow by the name, and the call
is emitted. -/
def Admits (I : Session → Prop) (name : String) : Prop :=
  ∀ s e symbols, I s → s.symbols.callee name = .ok (e, symbols) →
    I { s with symbols } ∧ Callable I e.asm

/-- The changes of a session other than new code, temporaries and frame space. -/
inductive Change : (Session → Session) → Prop
  | define (id : Nat) (r : Residence) : Change (·.setValue id r)
  | flags (pending : Option Cond) : Change fun s => { s with pending }
  | returns : Change fun s => { s with returns := true }
  | called (bytes : Int) : Change fun s => { s with frame := s.frame.noteCall bytes }

/-- What is given when a construct is compiled. -/
structure Setting where
  /-- What the open function returns. -/
  ret : Ty := .void
  /-- Whether the construct has the shape that its kind asks for. -/
  shaped : Prop := False
  /-- The causes for which its code may be given up. -/
  allowed : Cause → Prop := fun _ => True
  /-- What its operands have in common. -/
  operand : Ir.Operand → Prop := fun _ => True
  /-- What all sessions on the way have in common. -/
  session : Session → Prop := fun _ => True

/-- What is given fits together: code can be given up for plain causes and for shapes that are
missing, and what is not found is a cause as well. -/
structure Setting.Fits (σ : Setting) : Prop where
  allows : ∀ {c : Cause}, Allows σ.shaped c → c.isShortage = false → σ.allowed c
  value : ∀ {s : Session} {id : Nat}, σ.session s → σ.operand (.value id) →
    Fails σ.allowed (s.value id)
  param : ∀ {s : Session} {index : Nat}, σ.session s → σ.operand (.param index) →
    Fails σ.allowed (s.param index)
  current : ∀ {s : Session}, σ.session s → Fails σ.allowed s.current
  returns : ∀ {s : Session} {f : Ir.Function}, σ.session s → s.current = .ok f → σ.shaped →
    f.ret = σ.ret

lemma Setting.fits_default : Setting.Fits {} where
  allows _ _ := trivial
  value _ _ _ _ := trivial
  param _ _ _ _ := trivial
  current _ _ _ := trivial
  returns _ _ hshaped := hshaped.elim

/-- A judgement on computations that is kept by the steps of code selection. A computation starts with
room for `g` general-purpose and `v` vector temporaries, leaves room for `g'` and `v'` of them, and its
result has property `Q`. What is read from a session must not be its table, what is read from a site
must not depend on what is shown only, and what fails without looking at the site names no place. -/
structure Compositional (σ : Setting)
    (P : ∀ ⦃α : Type⦄, Nat → Nat → Nat → Nat → (α → Prop) → Emit α → Prop) : Prop
    extends σ.Fits where
  holds_pure : ∀ {α : Type} {g v : Nat} {Q : α → Prop} {a : α}, Q a → P g v g v Q (pure a)
  holds_bind : ∀ {α β : Type} {g v g' v' g'' v'' : Nat} {R : α → Prop} {Q : β → Prop} {x : Emit α}
    {k : α → Emit β}, P g v g' v' R x → (∀ a, R a → P g' v' g'' v'' Q (k a)) →
    P g v g'' v'' Q (x >>= k)
  holds_mono : ∀ {α : Type} {g v g' v' g'' v'' : Nat} {Q : α → Prop} {x : Emit α},
    P g v g' v' Q x → g ≤ g'' → v ≤ v'' → P g'' v'' g' v' Q x
  holds_get_bind : ∀ {β : Type} {g v g' v' : Nat} {Q : β → Prop} {k : Session → Emit β},
    (∀ s t, k (s.under t) = k s) → (∀ s, σ.session s → P g v g' v' Q (k s)) →
    P g v g' v' Q (get >>= k)
  holds_read_bind : ∀ {β : Type} {g v g' v' : Nat} {Q : β → Prop} {k : Site → Emit β},
    (∀ site o, site.options.Agrees o → k { site with options := o } = k site) →
    (∀ site, P g v g' v' Q (k site)) → P g v g' v' Q (read >>= k)
  holds_lift_bind : ∀ {α β : Type} {g v g' v' : Nat} {Q : β → Prop} {x : Except Failure α}
    {k : α → Emit β}, Raises σ.allowed x → (∀ a, x = .ok a → P g v g' v' Q (k a)) →
    P g v g' v' Q (liftM x >>= k)
  holds_data_bind : ∀ {β : Type} {g v g' v' : Nat} {Q : β → Prop} {name : String}
    {k : String → Emit β}, (∀ asm, Known σ.session (.rip asm) → P g v g' v' Q (k asm)) →
    P g v g' v' Q (do k (← (← get).symbols.data name).asm)
  holds_newGpr : ∀ {g v : Nat}, P (g + 1) v g v (fun r => r.cls = .gpr) (newTemp .gpr)
  holds_newXmm : ∀ {g v : Nat}, P g (v + 1) g v (fun r => r.cls = .xmm) (newTemp .xmm)
  holds_allocate : ∀ {g v : Nat} (bytes : Nat), P g v g v ⊤ (allocate bytes)
  holds_modify : ∀ {g v : Nat} {k : Session → Session}, Change k → P g v g v ⊤ (modify k)
  holds_callee : ∀ {g v : Nat} {name : String}, Admits σ.session name →
    P g v g v (Callable σ.session) (callee name)
  holds_emit : ∀ {g v : Nat} {op : Opcode} {os : List Operand}, op.accepts os = true →
    os.Forall (Known σ.session) → P g v g v ⊤ (emit op os)
  holds_emitCall : ∀ {g v : Nat} {asm : String}, Callable σ.session asm →
    P g v g v ⊤ (emit .call [.symbol asm])
  holds_trap : ∀ {g v : Nat}, P g v g v ⊤ (emit .ud2 [] "unreachable")
  holds_stop : ∀ {α : Type} {g v g' v' : Nat} {Q : α → Prop} {c : Cause} (t : String),
    σ.allowed c → P g v g' v' Q (stop c t)
  holds_stopHere : ∀ {α : Type} {g v g' v' : Nat} {Q : α → Prop} {c : Cause} (t : String),
    σ.allowed c → P g v g' v' Q (stopHere c t)

namespace Setting.Fits

variable {σ : Setting} (h : σ.Fits)

include h

lemma plain {c : Cause} (hc : c.isPlain = true) : σ.allowed c :=
  h.allows ((Cause.isPlain_iff.mp hc).1 _) (Cause.isPlain_iff.mp hc).2

lemma misshapen {c : Cause} (hshape : σ.shaped → False)
    (hc : (decide (c.kind = .unsupportedConstruct) || c.isShortage) = false) : σ.allowed c := by
  obtain ⟨hkind, hshortage⟩ := Bool.or_eq_false_iff.mp hc
  exact h.allows (allows_of hkind fun hW => (hshape hW).elim) hshortage

lemma raises {α : Type} {x : Except Failure α} (hx : Raises (·.isPlain = true) x) :
    Raises σ.allowed x := hx.of_fails (hx.fails fun _ => h.plain)

end Setting.Fits

namespace Compositional

variable {σ : Setting} {P : ∀ ⦃α : Type⦄, Nat → Nat → Nat → Nat → (α → Prop) → Emit α → Prop}
  (h : Compositional σ P) {α β : Type} {g v g' v' : Nat} {Q : β → Prop}

include h

/-! ### Composition -/

lemma holds_mapM {k : α → Emit β} {l : List α} (hk : ∀ a ∈ l, P g v g v ⊤ (k a)) :
    P g v g v ⊤ (l.mapM k) := by
  induction l with
  | nil => exact h.holds_pure trivial
  | cons a l ih =>
    rw [List.mapM_cons]
    refine h.holds_bind (hk a List.mem_cons_self) fun b _ => ?_
    exact h.holds_bind (ih fun x hx => hk x (List.mem_cons_of_mem a hx)) fun _ _ =>
      h.holds_pure trivial

lemma holds_check {b : Prop} [Decidable b] {y : Emit PUnit} {k : PUnit → Emit β}
    (hy : b → P g v g v ⊤ y) (hk : ∀ u, P g v g' v' Q (k u)) :
    P g v g' v' Q (if b then y >>= k else k ⟨⟩) := by
  split_ifs with hb
  · exact h.holds_bind (hy hb) fun u _ => hk u
  · exact hk _

lemma holds_require {b : Prop} [Decidable b] {y : Emit PUnit} {k : PUnit → Emit β}
    (hy : P g v g v ⊤ y) (hk : ∀ u, P g v g' v' Q (k u)) :
    P g v g' v' Q (if b then k ⟨⟩ else y >>= k) := by
  split_ifs
  · exact hk _
  · exact h.holds_bind hy fun u _ => hk u

/-! ### Operands and results -/

section Access

variable {o : Ir.Operand} {i : Ir.Instr} {dst : RegOperand} {r : Reg}

lemma holds_reach (ho : σ.operand o) : P g v g v ⊤ (reach o) := by
  cases o with
  | value id =>
    exact h.holds_get_bind (fun _ _ => rfl) fun s hs =>
      h.holds_lift_bind ((s.raises_value id).of_fails (h.value hs ho)) fun _ _ => h.holds_pure trivial
  | param index =>
    exact h.holds_get_bind (fun _ _ => rfl) fun s hs =>
      h.holds_lift_bind ((s.raises_param index).of_fails (h.param hs ho)) fun _ _ =>
        h.holds_pure trivial
  | global name => exact h.holds_pure trivial
  | const ty bits => exact h.holds_pure trivial

lemma holds_typeOf (ho : σ.operand o) : P g v g v ⊤ (typeOf o) := by
  refine h.holds_bind (h.holds_reach ho) fun r _ => ?_
  cases r <;> exact h.holds_pure trivial

lemma holds_constantValue (ho : σ.operand o) : P g v g v ⊤ (constantValue o) := by
  refine h.holds_bind (h.holds_reach ho) fun r _ => ?_
  cases r <;> exact h.holds_pure trivial

lemma holds_loadGprInto (ho : σ.operand o) (hdst : (Operand.reg dst).isGpr .quad = true) :
    P g v g v ⊤ (loadGprInto o dst) := by
  refine h.holds_bind (h.holds_reach ho) fun r _ => ?_
  cases r with
  | symbol name =>
    refine h.holds_data_bind (k := fun asm => emit .lea [.rip asm, .reg dst]) fun asm hasm => ?_
    refine h.holds_emit ?_ ⟨hasm, trivial⟩
    simp [Operand.isMemory, hdst]
  | residence r =>
    obtain ⟨access, ty, disp, bits⟩ := r
    cases access with
    | home =>
      refine h.holds_emit ?_ ⟨trivial, trivial⟩
      simp [hdst]
    | address =>
      refine h.holds_emit ?_ ⟨trivial, trivial⟩
      simp [hdst]
    | constant =>
      refine h.holds_emit ?_ ⟨trivial, trivial⟩
      split_ifs with hfits
      · simp [isImm_of_fitsImm32 hfits, hdst]
      · simp [Operand.isWide, hdst]

lemma holds_loadGpr (ho : σ.operand o) : P (g + 1) v g v (fun r => r.cls = .gpr) (loadGpr o) :=
  h.holds_bind h.holds_newGpr fun _ hr =>
    h.holds_bind (h.holds_loadGprInto ho (isGpr_full hr .quad)) fun _ _ => h.holds_pure hr

lemma holds_loadXmmInto (ho : σ.operand o) (hdst : (Operand.reg dst).isXmm = true) :
    P (g + 1) v g v ⊤ (loadXmmInto o dst) := by
  refine h.holds_bind (h.holds_typeOf ho) fun ty _ => ?_
  refine h.holds_require (h.holds_stopHere _ (h.plain rfl)) fun _ => ?_
  have hbits : P (g + 1) v g v ⊤ (do
      let bits ← loadGpr o
      emit (.mov .quad) [.full bits, .reg dst]) := by
    refine h.holds_bind (h.holds_loadGpr ho) fun r hr => h.holds_emit ?_ ⟨trivial, trivial⟩
    simp [isGpr_full hr .quad, hdst]
  refine h.holds_bind (h.holds_reach ho) fun r _ => ?_
  cases r with
  | symbol name => exact hbits
  | residence r =>
    obtain ⟨access, rty, disp, rbits⟩ := r
    cases access with
    | home =>
      have haccepts : (floatMove ty).accepts [.slot disp, .reg dst] = true :=
        accepts_floatMove ty (by simp [hdst])
      exact h.holds_mono (h.holds_emit haccepts ⟨trivial, trivial⟩) (Nat.le_succ g) le_rfl
    | address | constant => exact hbits

lemma holds_loadXmm (ho : σ.operand o) :
    P (g + 1) (v + 1) g v (fun r => r.cls = .xmm) (loadXmm o) :=
  h.holds_bind h.holds_newXmm fun _ hr =>
    h.holds_bind (h.holds_loadXmmInto ho (isXmm_full hr)) fun _ _ => h.holds_pure hr

/-- A 64-bit source of an operand that has been found. -/
private def sourceFrom (o : Ir.Operand) (r : Reach) : Emit Operand :=
  match r with
  | .residence { access := .home, disp, .. } => return .slot disp
  | .residence { access := .constant, bits, .. } =>
    if fitsImm32 bits then return .imm bits else return .full (← loadGpr o)
  | _ => return .full (← loadGpr o)

omit h in
lemma gprSource_eq (o : Ir.Operand) : gprSource o = reach o >>= sourceFrom o := by
  refine bind_congr fun r => ?_
  rcases r with name | ⟨_ | _ | _, ty, disp, bits⟩ <;> rfl

lemma holds_sourceFrom (ho : σ.operand o) (r : Reach) :
    P (g + 1) v g v (fun src => (Known σ.session src ∧ (src.isPlace .quad || src.isImm .quad) = true) ∧
      (r.known? = none → src.isPlace .quad = true)) (sourceFrom o r) := by
  have hload : P (g + 1) v g v (fun src => (Known σ.session src ∧
      (src.isPlace .quad || src.isImm .quad) = true) ∧
      (r.known? = none → src.isPlace .quad = true))
      (do return Operand.full (← loadGpr o)) := by
    refine h.holds_bind (h.holds_loadGpr ho) fun t ht => h.holds_pure ?_
    simp [isGpr_full ht .quad]
  rcases r with name | ⟨access, ty, disp, bits⟩
  · exact hload
  · cases access with
    | home =>
      refine h.holds_mono (h.holds_pure ?_) (Nat.le_succ g) le_rfl
      simp
    | address => exact hload
    | constant =>
      rw [sourceFrom]
      split_ifs with hfits
      · refine h.holds_mono (h.holds_pure ⟨⟨trivial, ?_⟩, fun hunknown => ?_⟩) (Nat.le_succ g) le_rfl
        · simp [isImm_of_fitsImm32 hfits]
        · cases hunknown
      · exact hload

lemma holds_gprSource (ho : σ.operand o) :
    P (g + 1) v g v
      (fun src => Known σ.session src ∧ (src.isPlace .quad || src.isImm .quad) = true)
      (gprSource o) := by
  rw [gprSource_eq, ← bind_pure (reach o >>= sourceFrom o), bind_assoc]
  refine h.holds_bind (h.holds_reach ho) fun r _ => ?_
  exact h.holds_bind (h.holds_sourceFrom ho r) fun _ hsrc => h.holds_pure hsrc.1

lemma holds_xmmSource (ho : σ.operand o) :
    P (g + 1) (v + 1) g v (fun src => Known σ.session src ∧ (src.isXmm || src.isMemory) = true)
      (xmmSource o) := by
  have hload : P (g + 1) (v + 1) g v
      (fun src => Known σ.session src ∧ (src.isXmm || src.isMemory) = true)
      (do return Operand.full (← loadXmm o)) :=
    h.holds_bind (h.holds_loadXmm ho) fun r hr => h.holds_pure (by simp [isXmm_full hr])
  refine h.holds_bind (h.holds_reach ho) fun r _ => ?_
  cases r with
  | symbol name => exact hload
  | residence r =>
    obtain ⟨access, ty, disp, bits⟩ := r
    cases access with
    | home =>
      exact h.holds_mono (h.holds_pure (by simp)) (Nat.le_succ g)
        (Nat.le_succ v)
    | address | constant => exact hload

lemma holds_addressOf (ho : σ.operand o) :
    P (g + 1) v g v (fun dst => Known σ.session dst ∧ dst.isMemory = true) (addressOf o) := by
  refine h.holds_bind (h.holds_typeOf ho) fun ty _ => ?_
  refine h.holds_require (h.holds_stopHere _ (h.plain rfl)) fun _ => ?_
  have hload : P (g + 1) v g v (fun dst => Known σ.session dst ∧ dst.isMemory = true)
      (do return Operand.offset (← loadGpr o) 0) :=
    h.holds_bind (h.holds_loadGpr ho) fun r hr =>
      h.holds_pure (by simp [Operand.isMemory, hr])
  refine h.holds_bind (h.holds_reach ho) fun r _ => ?_
  cases r with
  | symbol name =>
    exact h.holds_data_bind fun asm hasm =>
      h.holds_mono (h.holds_pure ⟨hasm, rfl⟩) (Nat.le_succ g) le_rfl
  | residence r =>
    obtain ⟨access, rty, disp, bits⟩ := r
    cases access with
    | address =>
      exact h.holds_mono (h.holds_pure ⟨trivial, isMemory_slot disp⟩) (Nat.le_succ g) le_rfl
    | home | constant => exact hload

omit h in
lemma not_of_result_eq_none {W : Prop} (hresult : W → i.result.isSome = true)
    (hnone : i.result = none) : ¬ W := by
  intro hW
  have hsome := hresult hW
  rw [hnone] at hsome
  cases hsome

lemma holds_defineHome (hi : σ.shaped → i.result.isSome = true) (ty : Ty) :
    P g v g v (fun home => Known σ.session home ∧ home.isMemory = true) (defineHome i ty) := by
  delta defineHome
  cases hresult : i.result with
  | none => exact h.holds_stopHere _ (h.misshapen (not_of_result_eq_none hi hresult) rfl)
  | some id =>
    refine h.holds_bind (h.holds_allocate 8) fun d _ => ?_
    exact h.holds_bind (h.holds_modify (.define id _)) fun _ _ =>
      h.holds_pure ⟨trivial, isMemory_slot d⟩

lemma holds_normalize (hr : r.cls = .gpr) (ty : Ty) : P g v g v ⊤ (normalize r ty) := by
  delta normalize
  cases hextend : extendInPlace { reg := r } ty with
  | none => exact h.holds_pure trivial
  | some i =>
    refine h.holds_emit (accepts_extendInPlace hr hextend) ?_
    unfold extendInPlace at hextend
    split at hextend <;> cases hextend <;> exact ⟨trivial, trivial⟩

lemma holds_storeGpr (hi : σ.shaped → i.result.isSome = true) (hr : r.cls = .gpr) (ty : Ty) :
    P g v g v ⊤ (storeGpr i r ty) :=
  h.holds_bind (h.holds_normalize hr ty) fun _ _ => h.holds_bind (h.holds_defineHome hi ty)
    fun _ hhome => h.holds_emit (accepts_mov_store hr .quad hhome.2) ⟨trivial, hhome.1⟩

lemma holds_storeXmm (hi : σ.shaped → i.result.isSome = true) (hr : r.cls = .xmm) (ty : Ty) :
    P g v g v ⊤ (storeXmm i r ty) :=
  h.holds_bind (h.holds_defineHome hi ty) fun _ hhome =>
    h.holds_emit (accepts_floatMove ty (by simp [isXmm_full hr, hhome.2])) ⟨trivial, hhome.1⟩

end Access

/-! ### Two-operand instructions -/

section Binary

variable {i : Ir.Instr} {a b : Ir.Operand}

lemma holds_checkClass (ha : σ.operand a) : P g v g v ⊤ (checkClass i a) := by
  refine h.holds_bind (h.holds_typeOf ha) fun ty _ => ?_
  split_ifs
  · exact h.holds_stopHere _ (h.plain rfl)
  · exact h.holds_pure trivial

lemma holds_operandPair (op : BinaryOp) (hcount : σ.shaped → i.operands.length = 2)
    (ho : ∀ x ∈ i.operands, σ.operand x) :
    P g v g v (fun r : Ir.Operand × Ir.Operand => σ.operand r.1 ∧ σ.operand r.2)
      (operandPair i op) := by
  delta operandPair
  split
  · rename_i a b hab
    have ha : σ.operand a := ho a (by simp [hab])
    have hb : σ.operand b := ho b (by simp [hab])
    exact h.holds_bind (h.holds_checkClass ha) fun _ _ => h.holds_bind (h.holds_checkClass hb)
      fun _ _ => h.holds_pure ⟨ha, hb⟩
  · rename_i os hne
    refine h.holds_stopHere _ (h.misshapen (fun hW => ?_) rfl)
    obtain ⟨a, b, hab⟩ := List.length_eq_two.1 (hcount hW)
    exact hne a b hab

variable (hi : σ.shaped → i.result.isSome = true) (ha : σ.operand a) (hb : σ.operand b)

include hi ha hb

lemma holds_arith (op : AluOp) : P (g + 2) v g v ⊤ (arith i op a b) :=
  h.holds_bind (h.holds_loadGpr ha) fun _ hacc => h.holds_bind (h.holds_gprSource hb) fun _ hrhs =>
    h.holds_bind (h.holds_emit (accepts_alu op hacc hrhs.2) ⟨hrhs.1, trivial⟩) fun _ _ =>
      h.holds_storeGpr hi hacc _

omit hi ha in
lemma holds_divisor :
    P (g + 2) v g v (fun d => Known σ.session d ∧ d.isPlace .quad = true) (divisor b) := by
  refine h.holds_bind (h.holds_gprSource hb) fun src hsrc => ?_
  cases src with
  | imm n =>
    have himm : (Operand.imm n).isImm .quad = true := by
      simpa [Operand.isGpr, Operand.isMemory] using hsrc.2
    refine h.holds_bind h.holds_newGpr fun t ht => ?_
    have hdst := isGpr_full ht .quad
    refine h.holds_bind (h.holds_emit ?_ ⟨trivial, trivial⟩) fun _ _ =>
      h.holds_pure ⟨trivial, by simp [hdst]⟩
    simp [himm, hdst]
  | reg | mem | label | symbol | rip =>
    refine h.holds_mono (h.holds_pure ⟨hsrc.1, ?_⟩) (Nat.le_succ g) le_rfl
    simpa [Operand.isImm] using hsrc.2

lemma holds_divide : P (g + 2) v g v ⊤ (divide i a b) := by
  refine h.holds_bind (h.holds_loadGprInto ha rfl) fun _ _ => ?_
  have hrest : P (g + 2) v g v ⊤ (do
      let d ← divisor b
      emit (.div i.ty.isSigned) [d]
      storeGpr i (.ofGpr .rax) i.ty) :=
    h.holds_bind (h.holds_divisor hb) fun d hd =>
      h.holds_bind (h.holds_emit (accepts_div hd.2) hd.1) fun _ _ => h.holds_storeGpr hi rfl _
  dsimp only
  split_ifs
  · exact h.holds_bind (h.holds_emit rfl trivial) fun _ _ => hrest
  · exact h.holds_bind (h.holds_emit rfl ⟨trivial, trivial⟩) fun _ _ => hrest

lemma holds_shift (toRight : Bool) : P (g + 1) v g v ⊤ (shift i toRight a b) := by
  refine h.holds_bind (h.holds_loadGpr ha) fun value hvalue => ?_
  have hdst : (Operand.full value).isPlace .quad = true := by
    simp [isGpr_full hvalue .quad]
  refine h.holds_bind (h.holds_constantValue hb) fun count _ => ?_
  cases count with
  | some count =>
    refine h.holds_bind (h.holds_emit ?_ ⟨trivial, trivial⟩) fun _ _ => h.holds_storeGpr hi hvalue _
    exact Bool.and_eq_true_iff.mpr ⟨isCount_and count, hdst⟩
  | none =>
    refine h.holds_bind (h.holds_loadGprInto hb rfl) fun _ _ => ?_
    refine h.holds_bind (h.holds_emit ?_ ⟨trivial, trivial⟩) fun _ _ => h.holds_storeGpr hi hvalue _
    simp [-Operand.isPlace, Operand.isCount, hdst]

lemma holds_compare (op : BinaryOp) : P (g + 2) v g v ⊤ (compare i op a b) := by
  refine h.holds_bind (h.holds_loadGpr ha) fun lhs hlhs => ?_
  refine h.holds_bind (h.holds_gprSource hb) fun rhs hrhs => ?_
  refine h.holds_bind (h.holds_emit (accepts_cmp hlhs hrhs.2) ⟨hrhs.1, trivial⟩) fun _ _ => ?_
  refine h.holds_read_bind (fun _ _ _ => rfl) fun site => ?_
  split_ifs
  · exact h.holds_modify (.flags _)
  · exact h.holds_bind (h.holds_emit (accepts_set _ hlhs) trivial) fun _ _ =>
      h.holds_storeGpr hi hlhs _

lemma holds_floatArith (op : FloatOp) :
    P (g + 2) (v + 2) g v ⊤ (floatArith i op a b) := by
  refine h.holds_bind (h.holds_loadXmm ha) fun acc hacc => ?_
  refine h.holds_bind (h.holds_xmmSource hb) fun rhs hrhs => ?_
  refine h.holds_bind (h.holds_emit ?_ ⟨hrhs.1, trivial⟩) fun _ _ => h.holds_storeXmm hi hacc _
  simp [hrhs.2, isXmm_full hacc]

omit hi ha hb in
lemma holds_floatFlags (op : BinaryOp) {result : Reg} (hr : result.cls = .gpr) :
    P (g + 1) v g v ⊤ (floatFlags op result) := by
  have hpair (c c' : Cond) (combine : Opcode) (hop : combine = .andb ∨ combine = .orb) :
      P (g + 1) v g v ⊤ (do
        let parity ← newTemp .gpr
        emit (.set c) [.part result .byte]
        emit (.set c') [.part parity .byte]
        emit combine [.part parity .byte, .part result .byte]) := by
    refine h.holds_bind h.holds_newGpr fun parity hparity => ?_
    refine h.holds_bind (h.holds_emit (accepts_set _ hr) trivial) fun _ _ => ?_
    refine h.holds_bind (h.holds_emit (accepts_set _ hparity) trivial) fun _ _ => ?_
    refine h.holds_emit ?_ ⟨trivial, trivial⟩
    rcases hop with rfl | rfl <;> simp [isGpr_full hparity .byte, isGpr_full hr .byte]
  cases op with
  | eq => exact hpair _ _ _ (.inl rfl)
  | ne => exact hpair _ _ _ (.inr rfl)
  | _ => exact h.holds_mono (h.holds_emit (accepts_set _ hr) trivial) (Nat.le_succ g) le_rfl

lemma holds_floatCompare (op : BinaryOp) :
    P (g + 4) (v + 2) g v ⊤ (floatCompare i op a b) := by
  have hrest {x y : Ir.Operand} (hx : σ.operand x) (hy : σ.operand y) :
      P (g + 4) (v + 2) g v ⊤ (do
        let lhs ← loadXmm x
        let rhs ← xmmSource y
        emit (.ucomi (precision i.ty)) [rhs, .full lhs]
        let result ← newTemp .gpr
        floatFlags op result
        storeGpr i result .bool) := by
    refine h.holds_bind (h.holds_loadXmm hx) fun lhs hlhs => ?_
    refine h.holds_bind (h.holds_xmmSource hy) fun rhs hrhs => ?_
    refine h.holds_bind (h.holds_emit ?_ ⟨hrhs.1, trivial⟩) fun _ _ => ?_
    · simp [hrhs.2, isXmm_full hlhs]
    · exact h.holds_bind h.holds_newGpr fun result hresult =>
        h.holds_bind (h.holds_floatFlags op hresult) fun _ _ => h.holds_storeGpr hi hresult _
  rw [floatCompare]
  split_ifs
  · exact hrest hb ha
  · exact hrest ha hb

omit hi ha hb in
lemma holds_binary (op : BinaryOp) (hops : ∀ x ∈ i.operands, σ.operand x)
    (hasks : σ.shaped → i.result.isSome = true ∧ i.operands.length = 2) :
    P (g + 4) (v + 2) g v ⊤ (binary i op) := by
  have hi (hW : σ.shaped) := (hasks hW).1
  delta binary
  cases form? op i.ty with
  | none => exact h.holds_stopHere _ (h.plain rfl)
  | some form =>
    refine h.holds_bind (h.holds_operandPair op (fun hW => (hasks hW).2) hops) ?_
    rintro ⟨a, b⟩ ⟨ha, hb⟩
    cases form with
    | arith alu => exact h.holds_mono (h.holds_arith hi ha hb alu) (by omega) (by omega)
    | divide => exact h.holds_mono (h.holds_divide hi ha hb) (by omega) (by omega)
    | shift toRight => exact h.holds_mono (h.holds_shift hi ha hb toRight) (by omega) (by omega)
    | compare => exact h.holds_mono (h.holds_compare hi ha hb op) (by omega) (by omega)
    | floatArith f => exact h.holds_mono (h.holds_floatArith hi ha hb f) (by omega) le_rfl
    | floatCompare => exact h.holds_floatCompare hi ha hb op

end Binary

/-! ### Memory -/

section Memory

variable {i : Ir.Instr} (hops : ∀ x ∈ i.operands, σ.operand x)

lemma holds_requireScalar : P g v g v ⊤ (requireScalar i) := by
  delta requireScalar
  split_ifs
  · exact h.holds_stopHere _ (h.plain rfl)
  · exact h.holds_pure trivial

lemma holds_alloca (hasks : σ.shaped → i.result.isSome = true) : P g v g v ⊤ (alloca i) := by
  delta alloca
  refine h.holds_check (fun _ => h.holds_stopHere _ (h.plain rfl)) fun _ => ?_
  cases hresult : i.result with
  | none => exact h.holds_stopHere _ (h.misshapen (not_of_result_eq_none hasks hresult) rfl)
  | some id => exact h.holds_bind (h.holds_allocate _) fun _ _ => h.holds_modify (.define id _)

omit h in
lemma known_extendingLoad {src : Operand} (hsrc : Known σ.session src) (dst : RegOperand)
    (ty : Ty) : (extendingLoad src dst ty).operands.Forall (Known σ.session) := by
  delta extendingLoad
  split <;> exact ⟨hsrc, trivial⟩

include hops

lemma holds_load (hasks : σ.shaped → i.result.isSome = true ∧ i.operands.length = 1) :
    P (g + 2) (v + 1) g v ⊤ (load i) := by
  have hi (hW : σ.shaped) := (hasks hW).1
  delta load
  split
  · rename_i pointer hoperands
    refine h.holds_bind h.holds_requireScalar fun _ _ => ?_
    refine h.holds_bind (h.holds_addressOf (hops pointer (by simp [hoperands]))) fun src hsrc => ?_
    split_ifs
    · refine h.holds_mono (h.holds_bind h.holds_newXmm fun value hvalue => ?_) (Nat.le_succ g) le_rfl
      have haccepts : (floatMove i.ty).accepts [src, .full value] = true :=
        accepts_floatMove i.ty (by simp [hsrc.2, isXmm_full hvalue])
      exact h.holds_bind (h.holds_emit haccepts ⟨hsrc.1, trivial⟩) fun _ _ =>
        h.holds_storeXmm hi hvalue _
    · refine h.holds_mono (h.holds_bind h.holds_newGpr fun value hvalue => ?_) le_rfl (Nat.le_succ v)
      refine h.holds_bind (h.holds_emit (accepts_extendingLoad _ hvalue hsrc.2) ?_) fun _ _ => ?_
      · exact known_extendingLoad hsrc.1 _ _
      · exact h.holds_bind (h.holds_defineHome hi _) fun home hhome =>
          h.holds_emit (accepts_mov_store hvalue .quad hhome.2) ⟨trivial, hhome.1⟩
  · rename_i os hne
    refine h.holds_stopHere _ (h.misshapen (fun hW => ?_) rfl)
    obtain ⟨x, hx⟩ := List.length_eq_one_iff.1 (hasks hW).2
    exact hne x hx

omit hops in
lemma holds_storeSource {o : Ir.Operand} (ho : σ.operand o) (w : Width) :
    P (g + 1) v g v (fun src => Known σ.session src ∧ (src.isGpr w || src.isImm w) = true)
      (storeSource o w) := by
  have hload : P (g + 1) v g v
      (fun src => Known σ.session src ∧ (src.isGpr w || src.isImm w) = true)
      (do return Operand.part (← loadGpr o) w) :=
    h.holds_bind (h.holds_loadGpr ho) fun r hr => h.holds_pure (by simp [isGpr_full hr w])
  refine h.holds_bind (h.holds_constantValue ho) fun bits _ => ?_
  cases bits with
  | none => exact hload
  | some bits =>
    dsimp only
    split_ifs with hfits
    · refine h.holds_mono (h.holds_pure ?_) (Nat.le_succ g) le_rfl
      simp [isImm_signExtend hfits]
    · exact hload

lemma holds_store (hcount : σ.shaped → i.operands.length = 2) :
    P (g + 2) (v + 1) g v ⊤ (store i) := by
  delta store
  split
  · rename_i value pointer hoperands
    have hvalue : σ.operand value := hops value (by simp [hoperands])
    have hpointer : σ.operand pointer := hops pointer (by simp [hoperands])
    refine h.holds_bind h.holds_requireScalar fun _ _ => ?_
    refine h.holds_bind (h.holds_typeOf hvalue) fun ty _ => ?_
    refine h.holds_check (fun _ => h.holds_stopHere _ (h.plain rfl)) fun _ => ?_
    split_ifs
    · refine h.holds_bind (h.holds_loadXmm hvalue) fun src hsrc => ?_
      refine h.holds_bind (h.holds_addressOf hpointer) fun dst hdst => ?_
      exact h.holds_emit (accepts_floatMove _ (by simp [isXmm_full hsrc, hdst.2])) ⟨trivial, hdst.1⟩
    · refine h.holds_mono (h.holds_bind (h.holds_storeSource hvalue _) fun src hsrc => ?_) le_rfl
        (Nat.le_succ v)
      refine h.holds_bind (h.holds_addressOf hpointer) fun dst hdst => ?_
      exact h.holds_emit (accepts_mov_target hsrc.2 hdst.2) ⟨hsrc.1, hdst.1⟩
  · rename_i os hne
    refine h.holds_stopHere _ (h.misshapen (fun hW => ?_) rfl)
    obtain ⟨x, y, hxy⟩ := List.length_eq_two.1 (hcount hW)
    exact hne x y hxy

lemma holds_constant (hasks : σ.shaped → i.result.isSome = true ∧ i.operands.length = 1) :
    P g v g v ⊤ (constant i) := by
  delta constant
  split
  · rename_i literal hoperands
    refine h.holds_bind h.holds_requireScalar fun _ _ => ?_
    cases hresult : i.result with
    | none =>
      refine h.holds_stopHere _ (h.misshapen ?_ rfl)
      exact not_of_result_eq_none (fun hW => (hasks hW).1) hresult
    | some id =>
      refine h.holds_bind (h.holds_constantValue (hops literal (by simp [hoperands]))) fun bits _ => ?_
      cases bits with
      | none => exact h.holds_stopHere _ (h.plain rfl)
      | some bits => exact h.holds_modify (.define id _)
  · rename_i os hne
    refine h.holds_stopHere _ (h.misshapen (fun hW => ?_) rfl)
    obtain ⟨x, hx⟩ := List.length_eq_one_iff.1 (hasks hW).2
    exact hne x hx

end Memory

/-! ### Calls -/

section Call

variable {i : Ir.Instr}

lemma holds_stackArguments {l : List (Ir.Operand × Placement)} (hl : ∀ x ∈ l, σ.operand x.1) :
    P (g + l.length) v g v ⊤ (stackArguments l) := by
  induction l with
  | nil => exact h.holds_pure trivial
  | cons x l ih =>
    obtain ⟨o, p⟩ := x
    obtain ⟨ho, hl⟩ := List.forall_mem_cons.mp hl
    have hrest := ih hl
    rw [stackArguments]
    cases p.place with
    | stack offset =>
      refine h.holds_bind (h.holds_loadGpr ho) fun slot hslot => ?_
      exact h.holds_bind (h.holds_emit (accepts_mov_store hslot .quad rfl) ⟨trivial, trivial⟩)
        fun _ _ => hrest
    | register r => exact h.holds_mono hrest (by rw [List.length_cons]; omega) le_rfl

lemma holds_registerArguments {l : List (Ir.Operand × Placement)}
    (hl : ∀ x ∈ l, σ.operand x.1 ∧ ∀ r, x.2.place = .register r → r.cls = x.2.cls) :
    P (g + l.length) v g v ⊤ (registerArguments l) := by
  induction l with
  | nil => exact h.holds_pure trivial
  | cons x l ih =>
    obtain ⟨o, p⟩ := x
    obtain ⟨⟨ho, hp⟩, hl⟩ := List.forall_mem_cons.mp hl
    have hrest := ih hl
    have hless : P (g + (l.length + 1)) v g v ⊤ (registerArguments l) :=
      h.holds_mono hrest (by omega) le_rfl
    rw [registerArguments]
    cases hplace : p.place with
    | stack offset => exact hless
    | register r =>
      have hr := hp r hplace
      dsimp only at hr
      cases hcls : p.cls with
      | xmm =>
        rw [hcls] at hr
        exact h.holds_bind (h.holds_loadXmmInto ho (isXmm_full (r := .phys r) hr)) fun _ _ => hrest
      | gpr =>
        rw [hcls] at hr
        exact h.holds_bind (h.holds_loadGprInto ho (isGpr_full (r := .phys r) hr .quad)) fun _ _ =>
          hless

lemma holds_callResult (name : String) (hsome : i.result.isSome = true)
    (hvoid : σ.shaped → i.ty.isVoid = true → i.result = none) :
    P g v g v ⊤ (callResult i name) := by
  refine h.holds_read_bind (fun site o ho => by dsimp only; rw [ho.target]) fun site => ?_
  obtain ⟨hint, hfloat⟩ := results site.options.convention
  refine h.holds_check (fun hty => ?_) fun _ => ?_
  · refine h.holds_stopHere _ (h.misshapen (fun hW => ?_) rfl)
    rw [hvoid hW hty] at hsome
    cases hsome
  · refine h.holds_check (fun _ => h.holds_stopHere _ (h.plain rfl)) fun _ => ?_
    split_ifs
    · exact h.holds_storeXmm (r := .phys _) (fun _ => hsome) (congrArg PhysReg.cls hfloat) _
    · exact h.holds_storeGpr (r := .phys _) (fun _ => hsome) (congrArg PhysReg.cls hint) _

lemma holds_call {name : String} (hname : Admits σ.session name)
    (hops : ∀ x ∈ i.operands, σ.operand x)
    (hvoid : σ.shaped → i.ty.isVoid = true → i.result = none) :
    P (g + i.operands.length + i.operands.length) v g v ⊤ (call i name) := by
  refine h.holds_read_bind (fun site o ho => by dsimp only; rw [ho.target]) fun site => ?_
  refine h.holds_bind (h.holds_callee hname) fun asm hasm => ?_
  refine h.holds_bind (h.holds_mapM fun x hx => h.holds_typeOf (hops x hx)) fun tys _ => ?_
  refine h.holds_lift_bind (h.raises (raises_place site.options.convention tys)) fun ps hps => ?_
  have harguments : ∀ x ∈ i.operands.zip ps,
      σ.operand x.1 ∧ ∀ r, x.2.place = .register r → r.cls = x.2.cls := fun x hx =>
    ⟨hops x.1 (List.of_mem_zip hx).1, fun r hr => cls_of_place hps (List.of_mem_zip hx).2 hr⟩
  have hlen : (i.operands.zip ps).length ≤ i.operands.length := by
    rw [List.length_zip]
    exact min_le_left _ _
  refine h.holds_bind (h.holds_mono (h.holds_stackArguments fun x hx => (harguments x hx).1)
    (Nat.add_le_add_left hlen _) le_rfl) fun _ _ => ?_
  refine h.holds_bind (h.holds_mono (h.holds_registerArguments harguments)
    (Nat.add_le_add_left hlen _) le_rfl) fun _ _ => ?_
  refine h.holds_bind (h.holds_emitCall hasm) fun _ _ => ?_
  refine h.holds_bind (h.holds_modify (.called _)) fun _ _ => ?_
  split_ifs with hsome
  · exact h.holds_callResult name hsome hvoid
  · exact h.holds_pure trivial

end Call

/-! ### Returns and block ends -/

section Exit

lemma holds_returnValue {value : Option Ir.Operand} (construct : String)
    (hvalue : ∀ x, value = some x → σ.operand x)
    (hvoid : σ.shaped → σ.ret.isVoid = true → value = none) :
    P (g + 1) v g v ⊤ (returnValue value construct) := by
  refine h.holds_read_bind (fun site o ho => by dsimp only; rw [ho.target]) fun site => ?_
  obtain ⟨hint, hfloat⟩ := results site.options.convention
  refine h.holds_get_bind (fun _ _ => rfl) fun s hs => ?_
  refine h.holds_lift_bind (s.raises_current.of_fails (h.current hs)) fun f hf => ?_
  refine h.holds_bind (h.holds_modify .returns) fun _ _ => ?_
  cases value with
  | none =>
    dsimp only
    split_ifs
    · exact h.holds_mono (h.holds_pure trivial) (Nat.le_succ g) le_rfl
    · exact h.holds_stop _ (h.plain rfl)
  | some x =>
    have hx := hvalue x rfl
    refine h.holds_check (fun hret => ?_) fun _ => ?_
    · refine h.holds_stop _ (h.misshapen (fun hW => ?_) rfl)
      rw [h.returns hs hf hW] at hret
      exact Option.some_ne_none x (hvoid hW hret)
    · refine h.holds_check (fun _ => h.holds_stop _ (h.plain rfl)) fun _ => ?_
      split_ifs
      · exact h.holds_loadXmmInto hx (isXmm_full (r := .phys _) (congrArg PhysReg.cls hfloat))
      · exact h.holds_mono (h.holds_loadGprInto hx
          (isGpr_full (r := .phys _) (congrArg PhysReg.cls hint) .quad)) (Nat.le_succ g) le_rfl

lemma holds_jumpToEpilogue : P g v g v ⊤ jumpToEpilogue :=
  h.holds_get_bind (fun _ _ => rfl) fun s hs => h.holds_emit rfl ⟨s, hs, Or.inl rfl⟩

lemma holds_earlyReturn {i : Ir.Instr} (hops : ∀ x ∈ i.operands, σ.operand x)
    (hasks : σ.shaped → i.operands.length ≤ 1 ∧ (σ.ret.isVoid = true → i.operands.length = 0)) :
    P (g + 1) v g v ⊤ (earlyReturn i) := by
  delta earlyReturn
  refine h.holds_check (fun hcount => ?_) fun _ => ?_
  · exact h.holds_stopHere _ (h.misshapen (fun hW => absurd (hasks hW).1 (not_le.mpr hcount)) rfl)
  · refine h.holds_bind (h.holds_returnValue _ ?_ ?_) fun _ _ => h.holds_jumpToEpilogue
    · exact fun x hx => hops x (List.mem_of_head? hx)
    · intro hW hret
      rw [List.eq_nil_of_length_eq_zero ((hasks hW).2 hret)]
      rfl

omit h in
lemma known_blockLabel {s : Session} (hs : σ.session s) (id : Nat) :
    Known σ.session (.label (s.blockLabel id)) := ⟨s, hs, Or.inr ⟨id, rfl⟩⟩

lemma holds_jumpTo (target : Nat) (next : Option Nat) : P g v g v ⊤ (jumpTo target next) := by
  delta jumpTo
  split_ifs
  · exact h.holds_pure trivial
  · exact h.holds_get_bind (fun _ _ => rfl) fun s hs => h.holds_emit rfl (known_blockLabel hs target)

lemma holds_jumpOn (cond : Cond) (onTrue onFalse : Nat) (next : Option Nat) :
    P g v g v ⊤ (jumpOn cond onTrue onFalse next) := by
  refine h.holds_get_bind (fun _ _ => rfl) fun s hs => ?_
  split_ifs
  · exact h.holds_emit rfl (known_blockLabel hs _)
  · exact h.holds_bind (h.holds_emit rfl (known_blockLabel hs _)) fun _ _ => h.holds_pure trivial
  · exact h.holds_bind (h.holds_emit rfl (known_blockLabel hs _)) fun _ _ =>
      h.holds_emit rfl (known_blockLabel hs _)

omit h in
lemma constantValue_bind {o : Ir.Operand} {k : Option Word → Emit β}
    {B : Operand → Emit β} (hk : k none = gprSource o >>= B) : constantValue o >>= k =
      reach o >>= fun r => if r.known? = none then sourceFrom o r >>= B else k r.known? := by
  have hconstant : constantValue o = reach o >>= fun r => pure r.known? :=
    bind_congr fun r => by cases r <;> rfl
  funext site s
  obtain ⟨x, hx⟩ : ∃ x : Except Failure Reach, ((reach o).run site).run s = x.map (·, s) := by
    cases o with
    | value id =>
      refine ⟨Reach.residence <$> s.value id, ?_⟩
      change ((liftM (s.value id) >>= fun r => pure (.residence r) : Emit Reach).run site).run s = _
      cases s.value id <;> rfl
    | param index =>
      refine ⟨Reach.residence <$> s.param index, ?_⟩
      change ((liftM (s.param index) >>= fun r => pure (.residence r) : Emit Reach).run site).run s = _
      cases s.param index <;> rfl
    | global name => exact ⟨.ok _, rfl⟩
    | const ty bits => exact ⟨.ok _, rfl⟩
  have hrun (k : Reach → Emit β) : ((reach o >>= k).run site).run s =
      x >>= fun r => ((k r).run site).run s := by
    rw [ReaderT.run_bind, StateT.run_bind, hx]
    cases x <;> rfl
  change ((constantValue o >>= k).run site).run s = ((reach o >>= _).run site).run s
  rw [hconstant, bind_assoc, hrun, hrun]
  cases x with
  | error e => rfl
  | ok r =>
    change ((pure r.known? >>= k).run site).run s = ((ite _ _ _ : Emit β).run site).run s
    rw [pure_bind]
    split_ifs with hknown
    · rw [hknown, hk, gprSource_eq, bind_assoc, hrun]
      rfl
    · rfl

lemma holds_constantValue_bind {o : Ir.Operand} (ho : σ.operand o)
    {k : Option Word → Emit β} {B : Operand → Emit β} (hk : k none = gprSource o >>= B)
    (hknown : ∀ bits, P (g + 1) v g' v' Q (k (some bits)))
    (hB : ∀ src, Known σ.session src → src.isPlace .quad = true → P g v g' v' Q (B src)) :
    P (g + 1) v g' v' Q (constantValue o >>= k) := by
  rw [constantValue_bind hk]
  refine h.holds_bind (h.holds_reach ho) fun r _ => ?_
  cases hr : r.known? with
  | some bits => exact hknown bits
  | none =>
    exact h.holds_bind (h.holds_sourceFrom ho r) fun src hsrc => hB src hsrc.1.1 (hsrc.2 hr)

lemma holds_jumpOnValue {condition : Ir.Operand} (hc : σ.operand condition)
    (onTrue onFalse : Nat) (next : Option Nat) :
    P (g + 1) v g v ⊤ (jumpOnValue condition onTrue onFalse next) := by
  refine h.holds_bind (h.holds_typeOf hc) fun ty _ => ?_
  refine h.holds_require (h.holds_stop _ (h.plain rfl)) fun _ => ?_
  refine h.holds_constantValue_bind hc rfl (fun _ => ?_) fun src hsrc hplace => ?_
  · exact h.holds_mono (h.holds_jumpTo _ _) (Nat.le_succ g) le_rfl
  · exact h.holds_bind (h.holds_emit (accepts_cmp_zero hplace) ⟨trivial, hsrc⟩)
      fun _ _ => h.holds_jumpOn _ _ _ _

lemma holds_branch {value : Option Ir.Operand}
    (hvalue : ∀ x, value = some x → σ.operand x) (hsome : σ.shaped → value.isSome = true)
    (onTrue onFalse : Nat) (next : Option Nat) :
    P (g + 1) v g v ⊤ (branch value onTrue onFalse next) := by
  have hclear : P (g + 1) v g v ⊤ (modify fun s => { s with pending := none }) :=
    h.holds_mono (h.holds_modify (.flags none)) (Nat.le_succ g) le_rfl
  delta branch
  split_ifs
  · exact h.holds_bind hclear fun _ _ => h.holds_jumpTo _ _
  · cases value with
    | none =>
      exact h.holds_stop _ (h.misshapen (fun hW => absurd (hsome hW) Bool.false_ne_true) rfl)
    | some condition =>
      refine h.holds_get_bind (fun _ _ => rfl) fun s _ => ?_
      cases s.pending with
      | some cond => exact h.holds_bind hclear fun _ _ => h.holds_jumpOn _ _ _ _
      | none => exact h.holds_jumpOnValue (hvalue condition rfl) _ _ _

end Exit

end Compositional

/-! ### Instructions and block ends -/

/-- How many general-purpose temporaries the code of an instruction takes at most. -/
def gprDemand (i : Ir.Instr) : Nat :=
  match i.kind with
  | .call _ => i.operands.length + i.operands.length
  | _ => 4

namespace Compositional

variable {σ : Setting} {P : ∀ ⦃α : Type⦄, Nat → Nat → Nat → Nat → (α → Prop) → Emit α → Prop}
  (h : Compositional σ P)

include h

theorem holds_instrCode {i : Ir.Instr} (hcall : ∀ name, i.kind = .call name → Admits σ.session name)
    (hops : ∀ x ∈ i.operands, σ.operand x)
    (hasks : σ.shaped → i.kind.Asks i.ty σ.ret i.result i.operands.length) :
    P (gprDemand i) 2 0 0 ⊤ (instrCode i) := by
  rw [instrCode, gprDemand]
  cases hkind : i.kind <;> rw [hkind] at hasks <;> dsimp only
  case binary op => exact h.holds_binary op hops hasks
  case load => exact h.holds_mono (h.holds_load hops hasks) (by omega) (by omega)
  case store =>
    exact h.holds_mono (h.holds_store hops fun hW => (hasks hW).2) (by omega) (by omega)
  case call name =>
    exact h.holds_mono (h.holds_call (hcall name hkind) hops hasks) (by omega) (Nat.zero_le 2)
  case ret =>
    exact h.holds_mono (h.holds_earlyReturn hops fun hW => (hasks hW).2) (by omega) (by omega)
  case alloca => exact h.holds_mono (h.holds_alloca fun hW => (hasks hW).1) (by omega) (by omega)
  case const => exact h.holds_mono (h.holds_constant hops hasks) (by omega) (by omega)

theorem holds_leave {t : Ir.Terminator} (hvalue : ∀ x, t.value = some x → σ.operand x)
    (hasks : σ.shaped → t.exit.Asks σ.ret t.value) (next : Option Nat) :
    P 1 0 0 0 ⊤ (leave t next) := by
  rw [leave]
  cases hexit : t.exit <;> rw [hexit] at hasks
  case ret =>
    refine h.holds_bind (h.holds_returnValue _ hvalue hasks) fun _ _ => ?_
    split_ifs
    · exact h.holds_jumpToEpilogue
    · exact h.holds_pure trivial
  case jump target => exact h.holds_mono (h.holds_jumpTo _ _) (by omega) le_rfl
  case branch onTrue onFalse => exact h.holds_branch hvalue hasks _ _ _
  case unreachable =>
    refine h.holds_read_bind (fun site o ho => by dsimp only; rw [ho.unreachable]) fun site => ?_
    split_ifs
    · exact h.holds_mono h.holds_trap (by omega) le_rfl
    · exact h.holds_mono (h.holds_pure trivial) (by omega) le_rfl

end Compositional

end NativeCode.Selection
