import NativeCode.Proofs.Abi.Placements
import NativeCode.Proofs.Frame.Layout
import NativeCode.Proofs.Machine.Effect
import NativeCode.Proofs.Selection.Constructs
import NativeCode.Proofs.Symbols
import NativeCode.Proofs.Temps

/-!
# What selected code can do

Along a function a session only grows: residences, temporaries and frame space are added, and what
there is stays. The code that is emitted on the way writes temporaries, registers that need not be
saved, slots of the frame, the space for outgoing arguments, and what pointers and symbols lead to.
-/

namespace NativeCode.Selection

open Ir (Ty BinaryOp)
open Abi Machine

structure Session.Later (s s' : Session) : Prop where
  function : s'.function = s.function
  symbol : s'.symbol = s.symbol
  params : s'.params = s.params
  reads : s'.reads = s.reads
  temps : s.temps.Grows s'.temps
  values : s.values <:+ s'.values
  locals : s.frame.locals ≤ s'.frame.locals
  outgoing : s.frame.outgoing ≤ s'.frame.outgoing
  hasCalls : s.frame.hasCalls = true → s'.frame.hasCalls = true
  symbols : ∀ name e, s.symbols.find? name = some e → s'.symbols.find? name = some e

namespace Session.Later

variable {s s' s'' : Session}

lemma refl (s : Session) : s.Later s :=
  ⟨rfl, rfl, rfl, rfl, .refl _, List.suffix_rfl, le_rfl, le_rfl, fun h => h, fun _ _ h => h⟩

lemma trans (h : s.Later s') (h' : s'.Later s'') : s.Later s'' where
  function := h'.function.trans h.function
  symbol := h'.symbol.trans h.symbol
  params := h'.params.trans h.params
  reads := h'.reads.trans h.reads
  temps := h.temps.trans h'.temps
  values := h.values.trans h'.values
  locals := h.locals.trans h'.locals
  outgoing := h.outgoing.trans h'.outgoing
  hasCalls hs := h'.hasCalls (h.hasCalls hs)
  symbols name e he := h'.symbols name e (h.symbols name e he)

end Session.Later

/-- What holds of every session of a function: slots lie in the frame, a later one below an earlier
one, and all sizes are small. -/
structure Session.Inv (t : Target) (s : Session) : Prop where
  temps : ∀ r ∈ s.temps.regs.toList, r ∈ t.pool .gpr ∨ r ∈ t.pool .xmm
  count : s.temps.regs.size ≤ Temps.limit
  locals : 0 ≤ s.frame.locals ∧ s.frame.locals ≤ 2147483647
  outgoing : 0 ≤ s.frame.outgoing ∧ s.frame.outgoing ≤ 8 * (4 + Temps.limit)
  slots : ∀ e ∈ s.values, e.2.access ≠ .constant →
    -s.frame.locals ≤ e.2.disp ∧ e.2.disp ≤ -8
  apart : s.values.Pairwise fun e e' =>
    e.2.access ≠ .constant → e'.2.access ≠ .constant → e.2.disp + 8 ≤ e'.2.disp
  params : ∀ r ∈ s.params, r.access = .home ∧
    (16 ≤ r.disp ∨ -s.frame.locals ≤ r.disp ∧ r.disp ≤ -8)
  paramsApart : ∀ e ∈ s.values, e.2.access ≠ .constant → ∀ r ∈ s.params, e.2.disp + 8 ≤ r.disp

/-- A register that selected code can write when `n` temporaries have been issued. -/
def Writable (t : Target) (n : Nat) : Reg → Prop
  | .phys r => t.Scratch r
  | .temp id _ => id < n

/-- The operands that selected code can write. -/
inductive MayWrite (t : Target) (s : Session) : Operand → Prop
  | reg {r : Reg} {w : Width} (h : Writable t s.temps.regs.size r) : MayWrite t s (.part r w)
  | slot {d : Int} (h : -s.frame.locals ≤ d) (h' : d ≤ -8) : MayWrite t s (.slot d)
  | outgoing {d : Int} (h : 0 ≤ d) (h' : d + 8 ≤ s.frame.outgoing) :
      MayWrite t s (.offset (.ofGpr .rsp) d)
  | pointer {id : Nat} {cls : RegClass} (h : id < s.temps.regs.size) :
      MayWrite t s (.offset (.temp id cls) 0)
  | symbol (asm : String) : MayWrite t s (.rip asm)

/-- Instructions that only write what selected code can write. -/
inductive Tame (t : Target) (s : Session) (i : Instr) : Prop
  | plain (hop : i.op.isPlain = true) (hdst : ∀ o, i.dst? = some o → MayWrite t s o)
  | call (f : String) (hop : i.op = .call) (hargs : i.operands = [.symbol f])
      (hcalls : s.frame.hasCalls = true)

section Mono

variable {t : Target} {s s' : Session}

lemma Writable.mono {n n' : Nat} {r : Reg} (h : Writable t n r) (hn : n ≤ n') :
    Writable t n' r := by
  cases r with
  | phys r => exact h
  | temp id cls => exact lt_of_lt_of_le h hn

lemma MayWrite.mono {o : Operand} (h : MayWrite t s o) (hs : s.Later s') : MayWrite t s' o := by
  have hsize := hs.temps.size_le
  have hlocals := hs.locals
  have houtgoing := hs.outgoing
  cases h with
  | reg h => exact .reg (h.mono hsize)
  | slot h h' => exact .slot (by omega) h'
  | outgoing h h' => exact .outgoing h (by omega)
  | pointer h => exact .pointer (lt_of_lt_of_le h hsize)
  | symbol asm => exact .symbol asm

lemma Tame.mono {i : Instr} (h : Tame t s i) (hs : s.Later s') : Tame t s' i := by
  cases h with
  | plain hop hdst => exact .plain hop fun o ho => (hdst o ho).mono hs
  | call f hop hargs hcalls => exact .call f hop hargs (hs.hasCalls hcalls)

end Mono

/-- Selected code `is` between the sessions `s` and `s'`. -/
structure Emits (site : Site) (s s' : Session) (is : List Instr) : Prop where
  later : s.Later s'
  code : s'.code.toList = s.code.toList ++ is
  labels : s'.labels = s.labels
  returns : s'.returns = s.returns
  pending : site.flagsOnly = false → s'.pending = s.pending
  inv : s.Inv site.options.target → s'.Inv site.options.target
  tame : s.Inv site.options.target → ∀ i ∈ is, Tame site.options.target s' i

namespace Emits

variable {site : Site} {s s' s'' : Session} {is js : List Instr}

lemma refl (site : Site) (s : Session) : Emits site s s [] where
  later := .refl s
  code := by simp
  labels := rfl
  returns := rfl
  pending _ := rfl
  inv h := h
  tame := by simp

lemma trans (h : Emits site s s' is) (h' : Emits site s' s'' js) :
    Emits site s s'' (is ++ js) where
  later := h.later.trans h'.later
  code := by rw [h'.code, h.code, List.append_assoc]
  labels := h'.labels.trans h.labels
  returns := h'.returns.trans h.returns
  pending hf := (h'.pending hf).trans (h.pending hf)
  inv hi := h'.inv (h.inv hi)
  tame hi i hmem := by
    rcases List.mem_append.mp hmem with hmem | hmem
    · exact (h.tame hi i hmem).mono h'.later
    · exact h'.tame (h.inv hi) i hmem

lemma push {i : Instr} (h : s.Inv site.target → Tame site.target s i) :
    Emits site s (s.push i) [i] where
  later := { Session.Later.refl s with }
  code := by simp [Session.push]
  labels := rfl
  returns := rfl
  pending _ := rfl
  inv hi := { hi with }
  tame hi j hj := by
    rw [List.mem_singleton.mp hj]
    exact (h hi).mono { Session.Later.refl s with }

lemma pushTo {op : Opcode} {os : List Operand} {o : Operand} (hop : op.isPlain = true)
    (hos : os.getLast? = some o) (h : s.Inv site.target → MayWrite site.target s o) :
    Emits site s (s.push (site.instr op os)) [site.instr op os] := by
  refine push fun hi => .plain hop fun o' ho' => ?_
  have hlast : o' = o := by
    unfold Instr.dst? Site.instr at ho'
    dsimp only at ho'
    split_ifs at ho' with hw
    exact Option.some.inj (ho'.symm.trans hos)
  rw [hlast]
  exact h hi

lemma pushFlags {op : Opcode} {os : List Operand} (hop : op.isPlain = true)
    (hw : op.writesLast = false) : Emits site s (s.push (site.instr op os)) [site.instr op os] := by
  refine push fun _ => .plain hop fun o ho => ?_
  simp [Instr.dst?, Site.instr, hw] at ho

lemma issue {cls : RegClass} {r : Nat × Temps} (h : s.temps.issue site.target cls = .ok r) :
    Emits site s { s with temps := r.2 } [] ∧
      Writable site.target r.2.regs.size (.temp r.1 cls) := by
  obtain ⟨q, hq, -, hlimit, rfl⟩ := Temps.issue_eq_ok h
  refine ⟨⟨{ Session.Later.refl s with temps := Temps.grows_push _ _ _ }, by simp, rfl, rfl,
    fun _ => rfl, fun hi => ?_, by simp⟩, ?_⟩
  · refine { hi with temps := fun x hx => ?_, count := ?_ }
    · rw [Array.toList_push, List.mem_append, List.mem_singleton] at hx
      rcases hx with hx | rfl
      · exact hi.temps x hx
      · cases cls with
        | gpr => exact Or.inl hq
        | xmm => exact Or.inr hq
    · simpa using hlimit
  · simp [Writable]

lemma define {bytes id : Nat} {d : Int} {frame : Frame.Needs} {r : Residence}
    (h : s.frame.allocate bytes = .ok (d, frame)) (hd : r.disp = d) :
    Emits site s { s with frame, values := (id, r) :: s.values } [] := by
  obtain ⟨hdisp, hlt, -, hlimit, hframe⟩ := Frame.Needs.allocate_eq_ok h
  have hout : frame.outgoing = s.frame.outgoing := by rw [hframe]
  have hcalls : frame.hasCalls = s.frame.hasCalls := by rw [hframe]
  refine ⟨⟨rfl, rfl, rfl, rfl, .refl _, List.suffix_cons _ _, ?_, ?_, hcalls.trans,
    fun _ _ h => h⟩, by simp, rfl, rfl, fun _ => rfl, fun hi => ?_, by simp⟩
  · change s.frame.locals ≤ frame.locals
    omega
  · exact le_of_eq hout.symm
  · obtain ⟨hlocals, -⟩ := hi.locals
    refine ⟨hi.temps, hi.count, ⟨?_, hlimit⟩, hout ▸ hi.outgoing, ?_, ?_, ?_, ?_⟩
    · change 0 ≤ frame.locals
      omega
    · intro e he hne
      change -frame.locals ≤ e.2.disp ∧ e.2.disp ≤ -8
      rcases List.mem_cons.mp he with rfl | he
      · dsimp only
        omega
      · have := hi.slots e he hne
        omega
    · refine List.pairwise_cons.mpr ⟨fun e he _ hne => ?_, hi.apart⟩
      have := hi.slots e he hne
      dsimp only
      omega
    · intro q hq
      obtain ⟨hhome, hq⟩ := hi.params q hq
      change q.access = .home ∧ (16 ≤ q.disp ∨ -frame.locals ≤ q.disp ∧ q.disp ≤ -8)
      exact ⟨hhome, by omega⟩
    · intro e he hne q hq
      rcases List.mem_cons.mp he with rfl | he
      · have := (hi.params q hq).2
        dsimp only
        omega
      · exact hi.paramsApart e he hne q hq

lemma defineConstant {id : Nat} {r : Residence} (hr : r.access = .constant) :
    Emits site s { s with values := (id, r) :: s.values } [] := by
  refine ⟨{ Session.Later.refl s with values := List.suffix_cons _ _ }, by simp, rfl, rfl, fun _ => rfl, fun hi => ?_, by simp⟩
  refine { hi with slots := ?_, apart := ?_, paramsApart := ?_ }
  · intro e he hne
    rcases List.mem_cons.mp he with rfl | he
    · exact absurd hr hne
    · exact hi.slots e he hne
  · exact List.pairwise_cons.mpr ⟨fun e _ hne => absurd hr hne, hi.apart⟩
  · intro e he hne q hq
    rcases List.mem_cons.mp he with rfl | he
    · exact absurd hr hne
    · exact hi.paramsApart e he hne q hq

lemma leaveFlags {cond : Option Cond} (h : site.flagsOnly = true) :
    Emits site s { s with pending := cond } [] where
  later := { Session.Later.refl s with }
  code := by simp
  labels := rfl
  returns := rfl
  pending hf := by rw [h] at hf; cases hf
  inv hi := { hi with }
  tame := by simp

lemma note {bytes : Int} (h : s.Inv site.target → bytes ≤ 8 * (4 + Temps.limit)) :
    Emits site s { s with frame := s.frame.noteCall bytes } [] := by
  refine ⟨{ Session.Later.refl s with outgoing := le_max_left _ _, hasCalls := fun _ => rfl },
    by simp, rfl, rfl, fun _ => rfl, fun hi => ?_, by simp⟩
  obtain ⟨h₁, h₂⟩ := hi.outgoing
  exact { hi with outgoing := ⟨le_trans h₁ (le_max_left _ _), max_le h₂ (h hi)⟩ }

lemma declare {name : String} {e : Symbol} {symbols : Symbols}
    (h : s.symbols.callee name = .ok (e, symbols)) : Emits site s { s with symbols } [] := by
  refine ⟨{ Session.Later.refl s with symbols := fun n d hd => ?_ }, by simp, rfl, rfl,
    fun _ => rfl, fun hi => { hi with }, by simp⟩
  change symbols.find? n = some d
  rcases Symbols.callee_cases h with ⟨-, -, rfl⟩ | ⟨-, -, rfl⟩
  · exact hd
  · rw [Symbols.find?] at hd ⊢
    rw [Symbols.push, List.find?_append, hd, Option.some_or]

end Emits

/-! ### Operands and results -/

section Access

variable {site : Site} {s s' : Session} {i : Ir.Instr} {o : Ir.Operand} {u : Unit} {ty : Ty}
  {dst : RegOperand} {r t : Reg} {src : Operand}

lemma emits_load (v : Source) (hw : Writable site.target s.temps.regs.size dst.reg) :
    Emits site s (s.push (v.load site dst)) [v.load site dst] := by
  have hdst : s.Inv site.target → MayWrite site.target s (.reg dst) :=
    fun _ => .reg hw
  unfold Source.load
  split
  · exact .pushTo rfl rfl hdst
  · split
    · exact .pushTo rfl rfl hdst
    · exact .pushTo rfl rfl hdst
    · exact .pushTo (by split_ifs <;> rfl) rfl hdst

lemma emits_loadGprInto (hw : Writable site.target s.temps.regs.size dst.reg)
    (h : Yields (loadGprInto o dst) site s u s') : ∃ is, Emits site s s' is := by
  obtain ⟨v, -, rfl⟩ := yields_loadGprInto.mp h
  exact ⟨_, emits_load v hw⟩

lemma emits_newTemp {cls : RegClass} (h : Yields (newTemp cls) site s t s') :
    Emits site s s' [] ∧ Writable site.target s'.temps.regs.size t := by
  obtain ⟨r, hr, rfl, rfl⟩ := yields_newTemp.mp h
  exact Emits.issue hr

lemma emits_loadGpr (h : Yields (loadGpr o) site s t s') :
    ∃ is, Emits site s s' is ∧ Writable site.target s'.temps.regs.size t := by
  obtain ⟨r, v, hr, -, rfl, rfl⟩ := yields_loadGpr.mp h
  obtain ⟨he, hw⟩ := Emits.issue hr
  exact ⟨_, he.trans (emits_load v hw), hw⟩

lemma emits_gprSource (h : Yields (gprSource o) site s src s') :
    ∃ is, Emits site s s' is := by
  obtain ⟨v, -, ⟨-, rfl⟩ | ⟨t, ht, -⟩⟩ := gprSource_cases h
  · exact ⟨[], .refl site s'⟩
  · obtain ⟨is, he, -⟩ := emits_loadGpr ht
    exact ⟨is, he⟩

lemma emits_loadXmmInto (hw : Writable site.target s.temps.regs.size dst.reg)
    (h : Yields (loadXmmInto o dst) site s u s') : ∃ is, Emits site s s' is := by
  obtain ⟨r, -, -, ⟨res, -, -, rfl⟩ | ⟨t, s₁, ht, rfl⟩⟩ := loadXmmInto_cases h
  · refine ⟨_, .pushTo ?_ rfl fun _ => .reg hw⟩
    unfold floatMove
    split <;> rfl
  · obtain ⟨is, he, -⟩ := emits_loadGpr ht
    exact ⟨_, he.trans (.pushTo rfl rfl fun _ => .reg (hw.mono he.later.temps.size_le))⟩

lemma emits_loadXmm (h : Yields (loadXmm o) site s t s') :
    ∃ is, Emits site s s' is ∧ Writable site.target s'.temps.regs.size t := by
  obtain ⟨r, hr, rfl, h⟩ := yields_loadXmm.mp h
  obtain ⟨he, hw⟩ := Emits.issue hr
  obtain ⟨is, he'⟩ := emits_loadXmmInto hw h
  exact ⟨_, he.trans he', hw.mono he'.later.temps.size_le⟩

lemma emits_xmmSource (h : Yields (xmmSource o) site s src s') :
    ∃ is, Emits site s s' is := by
  obtain ⟨res, -, -, -, rfl⟩ | ⟨t, ht, -⟩ := xmmSource_cases h
  · exact ⟨[], .refl site s'⟩
  · obtain ⟨is, he, -⟩ := emits_loadXmm ht
    exact ⟨is, he⟩

lemma Session.Inv.slot_of_reach {t : Target} (hi : s.Inv t) {r : Residence}
    (h : s.reach? o = some (.residence r)) (hr : r.access = .address) :
    -s.frame.locals ≤ r.disp ∧ r.disp ≤ -8 := by
  obtain ⟨id, -, hmem⟩ | ⟨k, -, hget⟩ | ⟨ty, bits, -, rfl⟩ := Session.residence_cases h
  · exact hi.slots (id, r) hmem (by rw [hr]; decide)
  · have hhome := (hi.params r (List.mem_of_getElem? hget)).1
    rw [hr] at hhome
    cases hhome
  · cases hr

lemma emits_addressOf {dst : Operand} (h : Yields (addressOf o) site s dst s') :
    ∃ is, Emits site s s' is ∧
      (s'.Inv site.target → MayWrite site.target s' dst) := by
  obtain ⟨r, hr, -, ⟨asm, -, rfl, rfl⟩ | ⟨res, rfl, hres, rfl, rfl⟩ | ⟨t, res, -, -, ht, rfl⟩⟩ :=
    addressOf_cases h
  · exact ⟨[], .refl site s', fun _ => .symbol asm⟩
  · exact ⟨[], .refl site s', fun hi => .slot (hi.slot_of_reach hr hres).1
      (hi.slot_of_reach hr hres).2⟩
  · obtain ⟨is, he, hw⟩ := emits_loadGpr ht
    obtain ⟨q, v, -, -, rfl, -⟩ := yields_loadGpr.mp ht
    exact ⟨is, he, fun _ => .pointer hw⟩

lemma emits_defineHome {home : Operand} (h : Yields (defineHome i ty) site s home s') :
    Emits site s s' [] ∧ (s'.Inv site.target → MayWrite site.target s' home) := by
  obtain ⟨id, d, frame, -, hframe, rfl, rfl⟩ := yields_defineHome.mp h
  refine ⟨.define hframe rfl, fun hi => ?_⟩
  obtain ⟨h₁, h₂⟩ := hi.slots (id, { access := .home, ty, disp := d }) List.mem_cons_self (by simp)
  exact .slot h₁ h₂

lemma emits_normalize (hw : Writable site.target s.temps.regs.size r)
    (h : Yields (normalize r ty) site s u s') : ∃ is, Emits site s s' is := by
  rw [normalize] at h
  cases he : extendInPlace { reg := r } ty with
  | none =>
    rw [he] at h
    obtain ⟨-, rfl⟩ := yields_pure.mp h
    exact ⟨[], .refl site s⟩
  | some e =>
    rw [he] at h
    obtain rfl := yields_emit.mp h
    refine ⟨[site.instr e.op e.operands], ?_⟩
    unfold extendInPlace at he
    split at he
    case h_8 => cases he
    all_goals
      cases he
      exact .pushTo rfl rfl fun _ => .reg hw

lemma emits_storeGpr (hw : Writable site.target s.temps.regs.size r)
    (h : Yields (storeGpr i r ty) site s u s') : ∃ is, Emits site s s' is := by
  obtain ⟨⟨⟩, s₁, hnorm, h⟩ := yields_bind.mp h
  obtain ⟨home, s₂, hhome, h⟩ := yields_bind.mp h
  obtain rfl := yields_emit.mp h
  obtain ⟨is, he⟩ := emits_normalize hw hnorm
  obtain ⟨he', hm⟩ := emits_defineHome hhome
  exact ⟨_, he.trans (he'.trans (.pushTo rfl rfl hm))⟩

lemma emits_storeXmm (h : Yields (storeXmm i r ty) site s u s') : ∃ is, Emits site s s' is := by
  obtain ⟨home, s₁, hhome, h⟩ := yields_bind.mp h
  obtain rfl := yields_emit.mp h
  obtain ⟨he, hm⟩ := emits_defineHome hhome
  refine ⟨_, he.trans (.pushTo ?_ rfl hm)⟩
  unfold floatMove
  split <;> rfl

end Access

/-! ### Instructions -/

section Instructions

variable {site : Site} {s s' : Session} {i : Ir.Instr} {a b : Ir.Operand} {u : Unit}
  {op : BinaryOp} {src : Operand} {args : List (Ir.Operand × Placement)}

lemma writable_task {r : PhysReg} {n : Nat}
    (h : r ∈ [PhysReg.gpr .rax, .gpr .rcx, .gpr .rdx, .xmm 0]) :
    Writable site.target n (.phys r) := scratch_of_mem h

lemma emits_arith {op : AluOp} (h : Yields (arith i op a b) site s u s') :
    ∃ is, Emits site s s' is := by
  obtain ⟨acc, s₁, rhs, s₂, hacc, hrhs, hstore⟩ := arith_cases h
  obtain ⟨is₁, e₁, hw⟩ := emits_loadGpr hacc
  obtain ⟨is₂, e₂⟩ := emits_gprSource hrhs
  have hw₂ := hw.mono e₂.later.temps.size_le
  obtain ⟨is₃, e₃⟩ := emits_storeGpr (s := s₂.push _) hw₂ hstore
  exact ⟨_, e₁.trans (e₂.trans (.trans (.pushTo rfl rfl fun _ => .reg hw₂) e₃))⟩

lemma emits_divisor {d : Operand} (h : Yields (divisor b) site s d s') :
    ∃ is, Emits site s s' is := by
  obtain ⟨src, s₁, hsrc, ⟨-, -, rfl⟩ | ⟨v, t, s₂, -, ht, -, rfl⟩⟩ := divisor_cases h
  · exact emits_gprSource hsrc
  · obtain ⟨is, e⟩ := emits_gprSource hsrc
    obtain ⟨e', hw⟩ := emits_newTemp ht
    exact ⟨_, e.trans (e'.trans (.pushTo rfl rfl fun _ => .reg hw))⟩

lemma emits_divide (h : Yields (divide i a b) site s u s') :
    ∃ is, Emits site s s' is := by
  obtain ⟨s₁, d, s₂, ha, hd, hstore⟩ := divide_cases h
  obtain ⟨is₁, e₁⟩ := emits_loadGprInto (writable_task (by simp)) ha
  have e₂ : Emits site s₁ (s₁.push (site.upperHalf i.ty.isSigned))
      [site.upperHalf i.ty.isSigned] := by
    unfold Site.upperHalf
    split_ifs
    · exact .pushFlags rfl rfl
    · exact .pushTo rfl rfl fun _ => .reg (writable_task (by simp))
  obtain ⟨is₃, e₃⟩ := emits_divisor hd
  obtain ⟨is₄, e₄⟩ := emits_storeGpr (writable_task (by simp)) hstore
  exact ⟨_, e₁.trans (e₂.trans (e₃.trans (.trans (.pushFlags rfl rfl) e₄)))⟩

lemma emits_shift {toRight : Bool} (h : Yields (shift i toRight a b) site s u s') :
    ∃ is, Emits site s s' is := by
  obtain ⟨value, s₁, r, s₂, hvalue, -, hcount, hstore⟩ := shift_cases h
  obtain ⟨is₁, e₁, hw⟩ := emits_loadGpr hvalue
  obtain ⟨is₂, e₂⟩ : ∃ is, Emits site s₁ s₂ is := by
    obtain ⟨count, -, rfl⟩ | ⟨s₃, -, hload, rfl⟩ := hcount
    · exact ⟨_, .pushTo rfl rfl fun _ => .reg hw⟩
    · obtain ⟨is, e⟩ := emits_loadGprInto (writable_task (by simp)) hload
      exact ⟨_, e.trans (.pushTo rfl rfl fun _ => .reg (hw.mono e.later.temps.size_le))⟩
  obtain ⟨is₃, e₃⟩ := emits_storeGpr (hw.mono e₂.later.temps.size_le) hstore
  exact ⟨_, e₁.trans (e₂.trans e₃)⟩

lemma emits_floatArith {op : FloatOp} (h : Yields (floatArith i op a b) site s u s') :
    ∃ is, Emits site s s' is := by
  obtain ⟨acc, s₁, rhs, s₂, hacc, hrhs, hstore⟩ := floatArith_cases h
  obtain ⟨is₁, e₁, hw⟩ := emits_loadXmm hacc
  obtain ⟨is₂, e₂⟩ := emits_xmmSource hrhs
  obtain ⟨is₃, e₃⟩ := emits_storeXmm hstore
  have hw₂ := hw.mono e₂.later.temps.size_le
  exact ⟨_, e₁.trans (e₂.trans (.trans (.pushTo rfl rfl fun _ => .reg hw₂) e₃))⟩

lemma emits_floatFlags {r : Reg} (hw : Writable site.target s.temps.regs.size r)
    (h : Yields (floatFlags op r) site s u s') : ∃ is, Emits site s s' is := by
  obtain ⟨c, rfl⟩ | ⟨t, s₁, c, c', combine, hcombine, ht, rfl⟩ := floatFlags_cases h
  · exact ⟨_, .pushTo rfl rfl fun _ => .reg hw⟩
  · obtain ⟨e, ht⟩ := emits_newTemp ht
    have hw₁ := hw.mono e.later.temps.size_le
    have hplain : combine.isPlain = true := by rcases hcombine with rfl | rfl <;> rfl
    exact ⟨_, e.trans (.trans (.pushTo rfl rfl fun _ => .reg hw₁)
      (.trans (.pushTo rfl rfl fun _ => .reg ht) (.pushTo hplain rfl fun _ => .reg hw₁)))⟩

lemma emits_floatCompare (h : Yields (floatCompare i op a b) site s u s') :
    ∃ is, Emits site s s' is := by
  obtain ⟨first, second, lhs, s₁, rhs, s₂, result, s₃, s₄, -, hlhs, hrhs, hresult, hflags, hstore⟩ :=
    floatCompare_cases h
  obtain ⟨is₁, e₁, -⟩ := emits_loadXmm hlhs
  obtain ⟨is₂, e₂⟩ := emits_xmmSource hrhs
  obtain ⟨e₃, hw⟩ := emits_newTemp hresult
  obtain ⟨is₄, e₄⟩ := emits_floatFlags hw hflags
  obtain ⟨is₅, e₅⟩ := emits_storeGpr (hw.mono e₄.later.temps.size_le) hstore
  exact ⟨_, e₁.trans (e₂.trans (.trans (.pushFlags rfl rfl) (e₃.trans (e₄.trans e₅))))⟩

lemma emits_compare (h : Yields (compare i op a b) site s u s') : ∃ is, Emits site s s' is := by
  obtain ⟨lhs, s₁, rhs, s₂, s₃, hlhs, hrhs, rfl, hend⟩ := yields_compare.mp h
  obtain ⟨is₁, e₁, hw⟩ := emits_loadGpr hlhs
  obtain ⟨is₂, e₂⟩ := emits_gprSource hrhs
  have hw₂ := hw.mono e₂.later.temps.size_le
  have e₃ : Emits site s₂ (s₂.push (site.instr .cmp [rhs, .full lhs]))
      [site.instr .cmp [rhs, .full lhs]] := .pushFlags rfl rfl
  obtain ⟨hflags, rfl⟩ | ⟨-, hstore⟩ := hend
  · exact ⟨_, e₁.trans (e₂.trans (e₃.trans (.leaveFlags hflags)))⟩
  · obtain ⟨is₄, e₄⟩ := emits_storeGpr (s := (s₂.push _).push _) hw₂ hstore
    exact ⟨_, e₁.trans (e₂.trans (e₃.trans (.trans (.pushTo rfl rfl fun _ => .reg hw₂) e₄)))⟩

lemma emits_binary (h : Yields (binary i op) site s u s') : ∃ is, Emits site s s' is := by
  obtain ⟨form, a, b, -, -, -, -, -, -, -, -, hcode⟩ := yields_binary.mp h
  cases form with
  | arith alu => exact emits_arith hcode
  | divide => exact emits_divide hcode
  | shift toRight => exact emits_shift hcode
  | compare => exact emits_compare hcode
  | floatArith f => exact emits_floatArith hcode
  | floatCompare => exact emits_floatCompare hcode

lemma isPlain_floatMove (ty : Ty) : (floatMove ty).isPlain = true := by
  unfold floatMove
  split <;> rfl

lemma emits_extendingLoad {r : Reg} {ty : Ty} (hw : Writable site.target s.temps.regs.size r) :
    Emits site s (s.push (site.instr (extendingLoad src { reg := r } ty).op
        (extendingLoad src { reg := r } ty).operands))
      [site.instr (extendingLoad src { reg := r } ty).op
        (extendingLoad src { reg := r } ty).operands] := by
  unfold extendingLoad
  split <;> exact .pushTo rfl rfl fun _ => .reg hw

lemma emits_loadInstr (h : Yields (load i) site s u s') : ∃ is, Emits site s s' is := by
  obtain ⟨pointer, src, s₁, value, s₂, -, -, hsrc, hvalue, hend⟩ := load_cases h
  obtain ⟨is₁, e₁, -⟩ := emits_addressOf hsrc
  obtain ⟨e₂, hw⟩ := emits_newTemp hvalue
  obtain ⟨-, hstore⟩ | ⟨home, s₃, -, hhome, rfl⟩ := hend
  · obtain ⟨is₃, e₃⟩ := emits_storeXmm hstore
    exact ⟨_, e₁.trans (e₂.trans (.trans
      (.pushTo (isPlain_floatMove i.ty) rfl fun _ => .reg hw) e₃))⟩
  · obtain ⟨e₃, hm⟩ := emits_defineHome hhome
    exact ⟨_, e₁.trans (e₂.trans (.trans (emits_extendingLoad hw)
      (e₃.trans (.pushTo rfl rfl hm))))⟩

lemma emits_storeSource {w : Width}
    (h : Yields (storeSource a w) site s src s') : ∃ is, Emits site s s' is := by
  obtain ⟨r, -, ⟨bits, -, -, rfl⟩ | ⟨t, ht, -⟩⟩ := storeSource_cases h
  · exact ⟨[], .refl site s'⟩
  · obtain ⟨is, e, -⟩ := emits_loadGpr ht
    exact ⟨is, e⟩

lemma emits_store (h : Yields (store i) site s u s') : ∃ is, Emits site s s' is := by
  obtain ⟨value, pointer, r, src, s₁, dst, s₂, -, -, -, -, hdst, hend⟩ := store_cases h
  obtain ⟨is₂, e₂, hm⟩ := emits_addressOf hdst
  obtain ⟨-, t, ht, -, rfl⟩ | ⟨-, hsrc, rfl⟩ := hend
  · obtain ⟨is₁, e₁, -⟩ := emits_loadXmm ht
    exact ⟨_, e₁.trans (e₂.trans (.pushTo (isPlain_floatMove i.ty) rfl hm))⟩
  · obtain ⟨is₁, e₁⟩ := emits_storeSource hsrc
    exact ⟨_, e₁.trans (e₂.trans (.pushTo rfl rfl hm))⟩

lemma emits_alloca (h : Yields (alloca i) site s u s') : Emits site s s' [] := by
  obtain ⟨id, d, frame, -, hframe, rfl⟩ := alloca_cases h
  exact .define hframe rfl

lemma emits_constant (h : Yields (constant i) site s u s') : Emits site s s' [] := by
  obtain ⟨literal, id, r, bits, -, -, -, -, rfl⟩ := constant_cases h
  exact .defineConstant rfl

def Site.argumentStore (site : Site) (r : Reg) (offset : Int) : Instr :=
  site.instr (.mov .quad) [.full r, .offset (.ofGpr .rsp) offset]

lemma emits_stackArguments (frame : Frame.Needs)
    (hargs : ∀ a ∈ args, ∀ o, a.2.place = .stack o → 0 ≤ o ∧ o + 8 ≤ frame.outgoing)
    (h : Yields (stackArguments args) site s u s') :
    s'.frame = s.frame ∧
      (s.temps.regs.size ≤ Temps.limit → s'.temps.regs.size ≤ Temps.limit) ∧
      s.temps.regs.size + stackCount (args.map (·.2)) ≤ s'.temps.regs.size ∧
      ∃ is, Emits site { s with frame } { s' with frame } is ∧
        ∀ a ∈ args, ∀ o, a.2.place = .stack o → ∃ r, site.argumentStore r o ∈ is := by
  induction args generalizing s with
  | nil =>
    rw [stackArguments, yields_pure] at h
    obtain ⟨-, rfl⟩ := h
    exact ⟨rfl, fun h => h, by simp [stackCount], [], .refl site _, by simp⟩
  | cons a args ih =>
    obtain ⟨o, p⟩ := a
    have hrest := fun b hb => hargs b (List.mem_cons_of_mem _ hb)
    obtain ⟨s₁, h', ⟨r, hp, rfl⟩ | ⟨offset, t, s₂, hp, ht, rfl⟩⟩ := stackArguments_cons_cases h
    · obtain ⟨hframe, hsize, hcount, is, e, hstores⟩ := ih hrest h'
      have hstack : p.place.isStack = false := by rw [hp]; rfl
      refine ⟨hframe, hsize, by simpa [stackCount, List.countP_cons, hstack] using hcount, is, e,
        List.forall_mem_cons.mpr ⟨fun offset ho => ?_, hstores⟩⟩
      rw [hp] at ho
      cases ho
    · obtain ⟨h₀, h₁⟩ := hargs (o, p) List.mem_cons_self offset hp
      obtain ⟨r, v, hr, -, rfl, rfl⟩ := yields_loadGpr.mp ht
      obtain ⟨e₁, hw⟩ := Emits.issue (s := { s with frame }) hr
      obtain ⟨q, -, -, hlt, rfl⟩ := Temps.issue_eq_ok hr
      obtain ⟨hframe, hsize, hcount, is, e, hstores⟩ := ih hrest h'
      have hstack : p.place.isStack = true := by rw [hp]; rfl
      refine ⟨hframe, fun _ => hsize (by simpa [Session.push] using hlt), ?_, _,
        e₁.trans ((emits_load v hw).trans (.trans
          (.pushTo rfl rfl fun _ => .outgoing h₀ h₁) e)),
        List.forall_mem_cons.mpr ⟨fun offset' ho => ⟨.temp s.temps.regs.size .gpr, ?_⟩,
          fun a ha offset' ho => ?_⟩⟩
      · simp only [stackCount, List.map_cons, List.countP_cons, hstack, if_true]
        simp only [Session.push, Array.size_push, stackCount] at hcount
        omega
      · rw [hp] at ho
        cases ho
        simp [Site.argumentStore]
      · obtain ⟨r, hr⟩ := hstores a ha offset' ho
        exact ⟨r, by simp [hr]⟩

lemma emits_registerArguments (frame : Frame.Needs)
    (hargs : ∀ a ∈ args, ∀ r, a.2.place = .register r → r ∈ site.target.args a.2.cls)
    (h : Yields (registerArguments args) site s u s') :
    s'.frame = s.frame ∧ ∃ is, Emits site { s with frame } { s' with frame } is := by
  induction args generalizing s with
  | nil =>
    rw [registerArguments, yields_pure] at h
    obtain ⟨-, rfl⟩ := h
    exact ⟨rfl, [], .refl site _⟩
  | cons a args ih =>
    obtain ⟨o, p⟩ := a
    have hrest := fun b hb => hargs b (List.mem_cons_of_mem _ hb)
    obtain ⟨s₁, h', ⟨offset, -, rfl⟩ | ⟨r, hp, -, hload⟩ | ⟨r, hp, -, hload⟩⟩ :=
      registerArguments_cons_cases h
    · exact ih hrest h'
    all_goals
      have hw : ∀ n, Writable site.target n (.phys r) := fun n =>
        (args_scratch (hargs (o, p) List.mem_cons_self r hp)).2.1
      obtain ⟨hframe, is, e⟩ := ih hrest h'
    · obtain ⟨v, -, rfl⟩ := yields_loadGprInto.mp hload
      exact ⟨hframe, _, (emits_load (s := { s with frame }) v (hw _)).trans e⟩
    · obtain ⟨_, -, -, ⟨res, -, -, rfl⟩ | ⟨t, s₂, ht, rfl⟩⟩ := loadXmmInto_cases hload
      · exact ⟨hframe, _, .trans
          (.pushTo (s := { s with frame }) (isPlain_floatMove res.ty) rfl fun _ => .reg (hw _)) e⟩
      · obtain ⟨q, v, hq, -, rfl, rfl⟩ := yields_loadGpr.mp ht
        obtain ⟨e₁, hw₁⟩ := Emits.issue (s := { s with frame }) hq
        exact ⟨hframe, _, e₁.trans ((emits_load v hw₁).trans
          (.trans (.pushTo rfl rfl fun _ => .reg (hw _)) e))⟩

lemma emits_callResult {name : String} (h : Yields (callResult i name) site s u s') :
    ∃ is, Emits site s s' is := by
  have hint : site.target.intResult = .gpr .rax := (results site.options.convention).1
  obtain ⟨-, ⟨-, hstore⟩ | ⟨-, hstore⟩⟩ := callResult_cases h
  · exact emits_storeXmm hstore
  · rw [hint] at hstore
    exact emits_storeGpr (writable_task (by simp)) hstore

/-- The space of a call is noted after its arguments are written, but belongs to the frame from the
start. -/
lemma emits_call {name : String} (h : Yields (call i name) site s u s') :
    ∃ is tys ps, Emits site s s' is ∧
      List.Forall₂ (fun o ty => ∃ r, s.reach? o = some r ∧ r.ty = ty) i.operands tys ∧
      site.options.target.place tys = .ok ps ∧
      ∀ p ∈ ps, ∀ o, p.place = .stack o → ∃ r, site.argumentStore r o ∈ is := by
  obtain ⟨e, symbols, tys, ps, s₁, s₂, s₃, hcallee, htys, hplace, hstack, hregs, rfl, hend⟩ :=
    call_cases h
  obtain ⟨hassign, hfits⟩ := place_eq_ok hplace
  have hlen : ps.length ≤ i.operands.length := by
    rw [htys.length_eq, hfits.length_eq]
  have hsnd : (i.operands.zip ps).map (·.2) = ps := List.map_snd_zip hlen
  have hmem : ∀ a ∈ i.operands.zip ps, a.2 ∈ ps := fun a ha => by
    rw [← hsnd]
    exact List.mem_map_of_mem ha
  have hstackFits : ∀ a ∈ i.operands.zip ps, ∀ o, a.2.place = .stack o →
      0 ≤ o ∧ o + 8 ≤ (s.frame.noteCall (site.options.target.outgoingBytes ps)).outgoing := by
    intro a ha o ho
    obtain ⟨ty, hfit⟩ := exists_fits hfits (hmem a ha)
    exact ⟨hfit.stack o ho,
      (stack_le_outgoingBytes _ (hmem a ha) ho).trans (le_max_right _ _)⟩
  have hregFits : ∀ a ∈ i.operands.zip ps, ∀ r, a.2.place = .register r →
      r ∈ site.target.args a.2.cls := by
    intro a ha r hr
    obtain ⟨ty, hfit⟩ := exists_fits hfits (hmem a ha)
    exact hfit.register r hr
  obtain ⟨hframe₁, hlimit, hcount, is₁, e₁, hstores⟩ := emits_stackArguments _ hstackFits hstack
  obtain ⟨hframe₂, is₂, e₂⟩ := emits_registerArguments
    (s.frame.noteCall (site.options.target.outgoingBytes ps)) hregFits hregs
  have e₀ : Emits site s
      { s with symbols, frame := s.frame.noteCall (site.options.target.outgoingBytes ps) } [] := by
    refine (Emits.declare hcallee).trans (.note fun hi => ?_)
    have hle : site.options.target.outgoingBytes ps ≤ 8 * (4 + stackCount ps) := by
      rw [hassign]
      exact outgoingBytes_le site.options.convention tys
    have hsize := hlimit hi.count
    rw [hsnd] at hcount
    omega
  have e₃ : Emits site
      { s₂ with frame := s.frame.noteCall (site.options.target.outgoingBytes ps) }
      { s₂.push (site.instr .call [.symbol e.asm]) with
        frame := s₂.frame.noteCall (site.options.target.outgoingBytes ps) }
      [site.instr .call [.symbol e.asm]] := by
    rw [hframe₂, hframe₁]
    exact .push fun _ => .call e.asm rfl rfl rfl
  have e₄ := e₀.trans (e₁.trans (e₂.trans e₃))
  have hstored : ∀ p ∈ ps, ∀ o, p.place = .stack o → ∃ r, site.argumentStore r o ∈ is₁ := by
    intro p hp o ho
    rw [← hsnd] at hp
    obtain ⟨a, ha, rfl⟩ := List.mem_map.mp hp
    exact hstores a ha o ho
  obtain ⟨-, rfl⟩ | ⟨-, hresult⟩ := hend
  · refine ⟨_, tys, ps, e₄, htys, hplace, fun p hp o ho => ?_⟩
    obtain ⟨r, hr⟩ := hstored p hp o ho
    exact ⟨r, by simp [hr]⟩
  · obtain ⟨is₅, e₅⟩ := emits_callResult hresult
    refine ⟨_, tys, ps, e₄.trans e₅, htys, hplace, fun p hp o ho => ?_⟩
    obtain ⟨r, hr⟩ := hstored p hp o ho
    exact ⟨r, by simp [hr]⟩

theorem emits_instrCode (hkind : i.kind ≠ .ret) (h : Yields (instrCode i) site s u s') :
    ∃ is, Emits site s s' is := by
  unfold instrCode at h
  split at h
  case h_1 op _ => exact emits_binary h
  case h_2 => exact emits_loadInstr h
  case h_3 => exact emits_store h
  case h_4 name _ =>
    obtain ⟨is, -, -, he, -⟩ := emits_call h
    exact ⟨is, he⟩
  case h_5 hret => exact absurd hret hkind
  case h_6 => exact ⟨_, emits_alloca h⟩
  case h_7 => exact ⟨_, emits_constant h⟩

lemma emits_returnValue {value : Option Ir.Operand} {text : String}
    (h : Yields (returnValue value text) site s u s') :
    ∃ is, Emits site { s with returns := true } s' is := by
  have hresult : site.target.intResult = .gpr .rax ∧
      site.target.floatResult = .xmm 0 := results site.options.convention
  obtain ⟨f, -, ⟨-, -, rfl⟩ | ⟨v, -, -, -, ⟨-, hload⟩ | ⟨-, hload⟩⟩⟩ := returnValue_cases h
  · exact ⟨[], .refl site _⟩
  · rw [hresult.2] at hload
    exact emits_loadXmmInto (writable_task (by simp)) hload
  · rw [hresult.1] at hload
    exact emits_loadGprInto (writable_task (by simp)) hload

end Instructions

end NativeCode.Selection
