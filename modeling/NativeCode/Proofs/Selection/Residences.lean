import NativeCode.Proofs.Selection.Emission

/-!
# Where operands live

Code that brings operands into registers changes no residence, and an instruction gives a residence
to its result at most. So when no two instructions have a result in common, an operand that was found
once is found at the same place ever after.
-/

namespace NativeCode.Ir

/-- The type of the result of an operation on a type. -/
def BinaryOp.resultTy (op : BinaryOp) (ty : Ty) : Ty := if op.isComparison then .bool else ty

def Instr.resultTy (i : Instr) : Ty :=
  match i.kind with
  | .binary op => op.resultTy i.ty
  | .alloca => .ptr
  | _ => i.ty

end NativeCode.Ir

namespace NativeCode.Selection

open Ir (Ty BinaryOp)
open Abi Machine

/-! ### Code for operands -/

namespace Session

/-- Sessions in which operands come from the same places. -/
structure Alike (s s' : Session) : Prop where
  symbols : s'.symbols = s.symbols
  params : s'.params = s.params
  values : s'.values = s.values
  frame : s'.frame = s.frame

variable {s s' s'' : Session}

lemma Alike.refl (s : Session) : s.Alike s := ⟨rfl, rfl, rfl, rfl⟩

lemma Alike.trans (h : s.Alike s') (h' : s'.Alike s'') : s.Alike s'' :=
  ⟨h'.symbols.trans h.symbols, h'.params.trans h.params, h'.values.trans h.values,
    h'.frame.trans h.frame⟩

lemma Alike.push (s : Session) (i : Instr) : s.Alike (s.push i) := ⟨rfl, rfl, rfl, rfl⟩

lemma Alike.reach? (h : s.Alike s') (o : Ir.Operand) : s'.reach? o = s.reach? o := by
  cases o <;> simp only [Session.reach?, h.params, h.values]

lemma Alike.source? (h : s.Alike s') (o : Ir.Operand) : s'.source? o = s.source? o := by
  cases o <;> simp only [Session.source?, Session.reach?, h.symbols, h.params, h.values]

end Session

section Alike

variable {site : Site} {s s' : Session} {o : Ir.Operand} {t : Reg} {dst : RegOperand}
  {src : Operand} {u : Unit} {args : List (Ir.Operand × Placement)}

lemma alike_newTemp {cls : RegClass} (h : Yields (newTemp cls) site s t s') : s.Alike s' := by
  obtain ⟨r, -, -, rfl⟩ := yields_newTemp.mp h
  exact ⟨rfl, rfl, rfl, rfl⟩

lemma alike_loadGprInto (h : Yields (loadGprInto o dst) site s u s') : s.Alike s' := by
  obtain ⟨v, -, rfl⟩ := yields_loadGprInto.mp h
  exact .push _ _

lemma alike_loadGpr (h : Yields (loadGpr o) site s t s') : s.Alike s' := by
  obtain ⟨r, v, -, -, -, rfl⟩ := yields_loadGpr.mp h
  exact ⟨rfl, rfl, rfl, rfl⟩

lemma alike_gprSource (h : Yields (gprSource o) site s src s') : s.Alike s' := by
  obtain ⟨v, -, ⟨-, rfl⟩ | ⟨t, ht, -⟩⟩ := gprSource_cases h
  · exact .refl _
  · exact alike_loadGpr ht

lemma alike_loadXmmInto (h : Yields (loadXmmInto o dst) site s u s') : s.Alike s' := by
  obtain ⟨r, -, -, ⟨res, -, -, rfl⟩ | ⟨t, s₁, ht, rfl⟩⟩ := loadXmmInto_cases h
  · exact .push _ _
  · exact (alike_loadGpr ht).trans (.push _ _)

lemma alike_loadXmm (h : Yields (loadXmm o) site s t s') : s.Alike s' := by
  obtain ⟨r, -, -, h⟩ := yields_loadXmm.mp h
  exact { alike_loadXmmInto h with }

lemma alike_xmmSource (h : Yields (xmmSource o) site s src s') : s.Alike s' := by
  obtain ⟨res, -, -, -, rfl⟩ | ⟨t, ht, -⟩ := xmmSource_cases h
  · exact .refl _
  · exact alike_loadXmm ht

lemma alike_addressOf (h : Yields (addressOf o) site s src s') : s.Alike s' := by
  obtain ⟨r, -, -, ⟨asm, -, -, rfl⟩ | ⟨res, -, -, -, rfl⟩ | ⟨t, res, -, -, ht, -⟩⟩ :=
    addressOf_cases h
  · exact .refl _
  · exact .refl _
  · exact alike_loadGpr ht

lemma alike_storeSource {w : Width} (h : Yields (storeSource o w) site s src s') :
    s.Alike s' := by
  obtain ⟨r, -, ⟨bits, -, -, rfl⟩ | ⟨t, ht, -⟩⟩ := storeSource_cases h
  · exact .refl _
  · exact alike_loadGpr ht

lemma alike_divisor (h : Yields (divisor o) site s src s') : s.Alike s' := by
  obtain ⟨src, s₁, hsrc, ⟨-, -, rfl⟩ | ⟨v, t, s₂, -, ht, -, rfl⟩⟩ := divisor_cases h
  · exact alike_gprSource hsrc
  · exact (alike_gprSource hsrc).trans ((alike_newTemp ht).trans (.push _ _))

lemma alike_floatFlags {op : BinaryOp} (h : Yields (floatFlags op t) site s u s') :
    s.Alike s' := by
  obtain ⟨c, rfl⟩ | ⟨t', s₁, c, c', combine, -, ht, rfl⟩ := floatFlags_cases h
  · exact .push _ _
  · exact (alike_newTemp ht).trans ((Session.Alike.push _ _).trans
      ((Session.Alike.push _ _).trans (.push _ _)))

lemma alike_stackArguments (h : Yields (stackArguments args) site s u s') : s.Alike s':= by
  induction args generalizing s with
  | nil =>
    obtain ⟨-, rfl⟩ := yields_pure.mp h
    exact .refl _
  | cons a args ih =>
    obtain ⟨s₁, h', ⟨r, -, rfl⟩ | ⟨offset, t, s₂, -, ht, rfl⟩⟩ := stackArguments_cons_cases h
    · exact ih h'
    · exact (alike_loadGpr ht).trans ((Session.Alike.push _ _).trans (ih h'))

lemma alike_registerArguments (h : Yields (registerArguments args) site s u s') : s.Alike s':= by
  induction args generalizing s with
  | nil =>
    obtain ⟨-, rfl⟩ := yields_pure.mp h
    exact .refl _
  | cons a args ih =>
    obtain ⟨s₁, h', ⟨offset, -, rfl⟩ | ⟨r, -, -, ha⟩ | ⟨r, -, -, ha⟩⟩ :=
      registerArguments_cons_cases h
    · exact ih h'
    · exact (alike_loadGprInto ha).trans (ih h')
    · exact (alike_loadXmmInto ha).trans (ih h')

end Alike

/-! ### Results -/

/-- Residences have been added for some of the results `ids`. -/
def Session.Adds (ids : List Nat) (s s' : Session) : Prop :=
  ∃ new : List Nat, new.reverse.Sublist ids ∧
    s'.values.map Prod.fst = new ++ s.values.map Prod.fst

namespace Session.Adds

variable {s s' s'' : Session} {ids ids' : List Nat}

lemma of_eq (ids : List Nat) (h : s'.values = s.values) : Adds ids s s' :=
  ⟨[], List.nil_sublist _, by rw [h, List.nil_append]⟩

lemma of_cons {id : Nat} {r : Residence} (h : s'.values = (id, r) :: s.values) :
    Adds [id] s s' :=
  ⟨[id], .refl _, by rw [h]; rfl⟩

lemma trans (h : Adds ids s s') (h' : Adds ids' s' s'') : Adds (ids ++ ids') s s'' := by
  obtain ⟨new, hnew, hs'⟩ := h
  obtain ⟨new', hnew', hs''⟩ := h'
  refine ⟨new' ++ new, ?_, by rw [hs'', hs', List.append_assoc]⟩
  rw [List.reverse_append]
  exact hnew.append hnew'

lemma congr {t t' : Session} (h : Adds ids s s') (hs : t.values = s.values)
    (hs' : t'.values = s'.values) : Adds ids t t' := by
  obtain ⟨new, hnew, hvalues⟩ := h
  exact ⟨new, hnew, by rw [hs, hs', hvalues]⟩

end Session.Adds

/-- What the result of an instruction adds to a frame and to the residences: nothing, a home, the
address of a slot, or a known constant. -/
inductive Outcome (i : Ir.Instr) (n : Frame.Needs) (vs : List (Nat × Residence)) :
    Frame.Needs → List (Nat × Residence) → Prop
  | none : Outcome i n vs n vs
  | home {id : Nat} {d : Int} {n' : Frame.Needs} (hid : i.result = some id)
      (h : n.allocate 8 = .ok (d, n')) :
      Outcome i n vs n' ((id, { access := .home, ty := i.resultTy, disp := d }) :: vs)
  | address {id : Nat} {d : Int} {n' : Frame.Needs} (hkind : i.kind = .alloca)
      (hid : i.result = some id) (h : n.allocate i.ty.size = .ok (d, n')) :
      Outcome i n vs n' ((id, { access := .address, ty := i.resultTy, disp := d }) :: vs)
  | constant {id : Nat} {bits : Word} (hkind : i.kind = .const) (hid : i.result = some id) :
      Outcome i n vs n ((id, { access := .constant, ty := i.resultTy, bits }) :: vs)

/-- The frame after an instruction has been noted in it, if it is a call. -/
def Noted (t : Target) (i : Ir.Instr) (s : Session) (n : Frame.Needs) : Prop :=
  match i.kind with
  | .call _ => ∃ tys placements,
    List.Forall₂ (fun o ty => ∃ r, s.reach? o = some r ∧ r.ty = ty) i.operands tys ∧
      t.place tys = .ok placements ∧ n = s.frame.noteCall (t.outgoingBytes placements)
  | _ => n = s.frame

lemma Outcome.adds {i : Ir.Instr} {n n' : Frame.Needs} {s s' : Session}
    (h : Outcome i n s.values n' s'.values) : Session.Adds i.result.toList s s' := by
  generalize hvs : s'.values = vs at h
  cases h with
  | none => exact .of_eq _ hvs
  | home hid | address _ hid | constant _ hid =>
    rw [hid]
    exact .of_cons hvs

section Definitions

variable {site : Site} {s s' s₁ : Session} {i : Ir.Instr} {r : Reg} {ty : Ty} {u : Unit}

lemma outcome_storeGpr (h : Yields (storeGpr i r ty) site s₁ u s') (hs : s.Alike s₁)
    (hty : ty = i.resultTy) : Outcome i s.frame s.values s'.frame s'.values := by
  obtain ⟨id, d, frame, hid, hframe, rfl⟩ := yields_storeGpr.mp h
  rw [hs.frame] at hframe
  dsimp only
  rw [hs.values, hty]
  exact .home hid hframe

lemma outcome_storeXmm (h : Yields (storeXmm i r ty) site s₁ u s') (hs : s.Alike s₁)
    (hty : ty = i.resultTy) : Outcome i s.frame s.values s'.frame s'.values := by
  obtain ⟨id, d, frame, hid, hframe, rfl⟩ := yields_storeXmm.mp h
  rw [hs.frame] at hframe
  dsimp only
  rw [hs.values, hty]
  exact .home hid hframe

lemma resultTy_of_form {op : BinaryOp} {form : Form} (hkind : i.kind = .binary op)
    (hform : form? op i.ty = some form) :
    i.resultTy = if form = .compare ∨ form = .floatCompare then .bool else i.ty := by
  have hresult : i.resultTy = op.resultTy i.ty := by rw [Ir.Instr.resultTy, hkind]
  rw [hresult, BinaryOp.resultTy]
  unfold form? at hform
  split_ifs at hform
  · cases hform
    cases op <;> rfl
  · cases op <;> cases hform <;> rfl

lemma outcome_formCode {op : BinaryOp} {a b : Ir.Operand} {form : Form}
    (hkind : i.kind = .binary op) (hform : form? op i.ty = some form)
    (h : Yields (formCode i op a b form) site s u s') :
    Outcome i s.frame s.values s'.frame s'.values := by
  have hty := resultTy_of_form hkind hform
  cases form with
  | arith alu =>
    obtain ⟨acc, s₁, rhs, s₂, hacc, hrhs, hstore⟩ := arith_cases h
    exact outcome_storeGpr hstore ((alike_loadGpr hacc).trans ((alike_gprSource hrhs).trans
      (.push _ _))) hty.symm
  | divide =>
    obtain ⟨s₁, d, s₂, ha, hd, hstore⟩ := divide_cases h
    exact outcome_storeGpr hstore ((alike_loadGprInto ha).trans ((Session.Alike.push _ _).trans
      ((alike_divisor hd).trans (.push _ _)))) hty.symm
  | shift toRight =>
    obtain ⟨value, s₁, r, s₂, hvalue, -, ⟨count, -, rfl⟩ | ⟨s₃, -, hload, rfl⟩, hstore⟩ :=
      shift_cases h
    · exact outcome_storeGpr hstore ((alike_loadGpr hvalue).trans (.push _ _)) hty.symm
    · exact outcome_storeGpr hstore ((alike_loadGpr hvalue).trans ((alike_loadGprInto hload).trans
        (.push _ _))) hty.symm
  | compare =>
    obtain ⟨lhs, s₁, rhs, s₂, s₃, hlhs, hrhs, rfl, ⟨-, rfl⟩ | ⟨-, hstore⟩⟩ := yields_compare.mp h
    · have hs := (alike_loadGpr hlhs).trans (alike_gprSource hrhs)
      change Outcome i s.frame s.values s₂.frame s₂.values
      rw [hs.frame, hs.values]
      exact .none
    · exact outcome_storeGpr hstore ((alike_loadGpr hlhs).trans ((alike_gprSource hrhs).trans
        ((Session.Alike.push _ _).trans (.push _ _)))) hty.symm
  | floatArith f =>
    obtain ⟨acc, s₁, rhs, s₂, hacc, hrhs, hstore⟩ := floatArith_cases h
    exact outcome_storeXmm hstore ((alike_loadXmm hacc).trans ((alike_xmmSource hrhs).trans
      (.push _ _))) hty.symm
  | floatCompare =>
    obtain ⟨first, second, lhs, s₁, rhs, s₂, result, s₃, s₄, -, hlhs, hrhs, hresult, hflags,
      hstore⟩ := floatCompare_cases h
    exact outcome_storeGpr hstore ((alike_loadXmm hlhs).trans ((alike_xmmSource hrhs).trans
      ((Session.Alike.push _ _).trans ((alike_newTemp hresult).trans
        (alike_floatFlags hflags))))) hty.symm

lemma outcome_load (hkind : i.kind = .load) (h : Yields (load i) site s u s') :
    Outcome i s.frame s.values s'.frame s'.values := by
  have hty : i.ty = i.resultTy := by rw [Ir.Instr.resultTy, hkind]
  obtain ⟨pointer, src, s₁, value, s₂, -, -, hsrc, hvalue, ⟨-, hstore⟩ | ⟨home, s₃, -, hhome, rfl⟩⟩ :=
    load_cases h
  · exact outcome_storeXmm hstore ((alike_addressOf hsrc).trans ((alike_newTemp hvalue).trans
      (.push _ _))) hty
  · obtain ⟨id, d, frame, hid, hframe, -, rfl⟩ := yields_defineHome.mp hhome
    have hs := (alike_addressOf hsrc).trans (alike_newTemp hvalue)
    change s₂.frame.allocate 8 = _ at hframe
    change Outcome i s.frame s.values frame
      ((id, { access := .home, ty := i.ty, disp := d }) :: s₂.values)
    rw [hs.frame] at hframe
    rw [hs.values, hty]
    exact .home hid hframe

lemma outcome_store (h : Yields (store i) site s u s') :
    Outcome i s.frame s.values s'.frame s'.values := by
  obtain ⟨value, pointer, r, src, s₁, dst, s₂, -, -, -, -, hdst, hend⟩ := store_cases h
  have halike : s.Alike s' := by
    obtain ⟨-, t, ht, -, rfl⟩ | ⟨-, hsrc, rfl⟩ := hend
    · exact (alike_loadXmm ht).trans ((alike_addressOf hdst).trans (.push _ _))
    · exact (alike_storeSource hsrc).trans ((alike_addressOf hdst).trans (.push _ _))
  rw [halike.frame, halike.values]
  exact .none

lemma exists_outcome_call {name : String} (hkind : i.kind = .call name)
    (h : Yields (call i name) site s u s') :
    ∃ n, Noted site.target i s n ∧ Outcome i n s.values s'.frame s'.values := by
  obtain ⟨e, symbols, tys, placements, s₁, s₂, s₃, -, htys, hplace, hstack, hregs, rfl, hend⟩ :=
    call_cases h
  have hty : i.ty = i.resultTy := by rw [Ir.Instr.resultTy, hkind]
  have hs := (alike_stackArguments hstack).trans (alike_registerArguments hregs)
  refine ⟨s₂.frame.noteCall (site.target.outgoingBytes placements), ?_, ?_⟩
  · rw [Noted, hkind, hs.frame]
    exact ⟨tys, placements, htys, hplace, rfl⟩
  · have hvalues : s.values = s₂.values := hs.values.symm
    rw [hvalues]
    obtain ⟨-, rfl⟩ | ⟨-, hresult⟩ := hend
    · exact .none
    · obtain ⟨-, ⟨-, hstore⟩ | ⟨-, hstore⟩⟩ := callResult_cases hresult
      · exact outcome_storeXmm hstore (.refl _) hty
      · exact outcome_storeGpr hstore (.refl _) hty

lemma alike_returnValue {value : Option Ir.Operand} {text : String}
    (h : Yields (returnValue value text) site s u s') : s.Alike s' := by
  obtain ⟨f, -, ⟨-, -, rfl⟩ | ⟨v, -, -, -, ⟨-, hload⟩ | ⟨-, hload⟩⟩⟩ := returnValue_cases h
  · exact ⟨rfl, rfl, rfl, rfl⟩
  · exact { alike_loadXmmInto hload with }
  · exact { alike_loadGprInto hload with }

lemma alike_leave {t : Ir.Terminator} {next : Option Nat} (h : Yields (leave t next) site s u s') :
    s.Alike s' := by
  obtain ⟨s₁, -, hvalue, rfl⟩ | ⟨target, -, rfl⟩ | ⟨onTrue, onFalse, -, hbranch⟩ | ⟨-, rfl⟩ :=
    leave_cases h
  · exact { alike_returnValue hvalue with }
  · exact ⟨rfl, rfl, rfl, rfl⟩
  · obtain ⟨-, rfl⟩ | ⟨condition, -, -, ⟨cond, -, rfl⟩ | ⟨r, -, -, -, ⟨bits, -, rfl⟩ |
      ⟨src, s₁, -, hsrc, rfl⟩⟩⟩ := branch_cases hbranch
    · exact ⟨rfl, rfl, rfl, rfl⟩
    · exact ⟨rfl, rfl, rfl, rfl⟩
    · exact ⟨rfl, rfl, rfl, rfl⟩
    · exact { alike_gprSource hsrc with }
  · exact ⟨rfl, rfl, rfl, rfl⟩

/-- An instruction adds its result at most, after it has been noted in the frame if it is a call. -/
theorem exists_outcome (h : Yields (instrCode i) site s u s') :
    ∃ n, Noted site.target i s n ∧ Outcome i n s.values s'.frame s'.values := by
  have noted {n : Frame.Needs} (hkind : ∀ name, i.kind ≠ .call name) (hn : n = s.frame) :
      Noted site.target i s n := by
    unfold Noted
    split
    · exact absurd ‹_› (hkind _)
    · exact hn
  unfold instrCode at h
  split at h
  case h_1 op hkind =>
    obtain ⟨form, a, b, -, -, hform, -, -, -, -, -, hcode⟩ := yields_binary.mp h
    exact ⟨_, noted (by simp [hkind]) rfl, outcome_formCode hkind hform hcode⟩
  case h_2 hkind => exact ⟨_, noted (by simp [hkind]) rfl, outcome_load hkind h⟩
  case h_3 hkind => exact ⟨_, noted (by simp [hkind]) rfl, outcome_store h⟩
  case h_4 name hkind => exact exists_outcome_call hkind h
  case h_5 hkind =>
    obtain ⟨s₁, -, hvalue, rfl⟩ := earlyReturn_cases h
    have hs := alike_returnValue hvalue
    refine ⟨_, noted (by simp [hkind]) rfl, ?_⟩
    change Outcome i s.frame s.values s₁.frame s₁.values
    rw [hs.frame, hs.values]
    exact .none
  case h_6 hkind =>
    obtain ⟨id, d, frame, hid, hframe, rfl⟩ := alloca_cases h
    have hty : Ty.ptr = i.resultTy := by rw [Ir.Instr.resultTy, hkind]
    refine ⟨_, noted (by simp [hkind]) rfl, ?_⟩
    dsimp only
    rw [hty]
    exact .address hkind hid hframe
  case h_7 hkind =>
    obtain ⟨literal, id, r, bits, -, hid, -, -, rfl⟩ := constant_cases h
    have hty : i.ty = i.resultTy := by rw [Ir.Instr.resultTy, hkind]
    refine ⟨_, noted (by simp [hkind]) rfl, ?_⟩
    dsimp only
    rw [hty]
    exact .constant hkind hid

lemma adds_of_instrCode (h : Yields (instrCode i) site s u s') :
    Session.Adds i.result.toList s s' := by
  obtain ⟨n, -, houtcome⟩ := exists_outcome h
  exact houtcome.adds

end Definitions

/-! ### Residences that stay -/

section Stable

variable {s s' : Session}

lemma lookup_of_later (hs : s.Later s') (hnodup : (s'.values.map Prod.fst).Nodup) {id : Nat}
    {r : Residence} (h : s.values.lookup id = some r) : s'.values.lookup id = some r := by
  obtain ⟨new, hnew⟩ := hs.values
  obtain ⟨l₁, l₂, hl, -⟩ := List.lookup_eq_some_iff.mp h
  have hmem : id ∈ s.values.map Prod.fst := by rw [hl]; simp
  rw [← hnew, List.map_append] at hnodup
  have hnot : id ∉ new.map Prod.fst := fun hid => (List.nodup_append.mp hnodup).2.2 id hid id hmem rfl
  have hnone : new.lookup id = none := by
    rw [List.lookup_eq_none_iff]
    intro e he
    refine bne_iff_ne.mpr fun heq => hnot ?_
    rw [heq]
    exact List.mem_map_of_mem he
  rw [← hnew, List.lookup_append, hnone, Option.none_or, h]

lemma reach?_of_later (hs : s.Later s') (hnodup : (s'.values.map Prod.fst).Nodup)
    {o : Ir.Operand} {r : Reach} (h : s.reach? o = some r) : s'.reach? o = some r := by
  cases o with
  | value id =>
    obtain ⟨res, hres, rfl⟩ := Option.map_eq_some_iff.mp h
    rw [Session.reach?, lookup_of_later hs hnodup hres, Option.map_some]
  | param index => rwa [Session.reach?, hs.params]
  | const ty bits => exact h
  | global name => exact h

/-- An operand stays where it is when no residence is given twice. -/
theorem source?_of_later (hs : s.Later s') (hnodup : (s'.values.map Prod.fst).Nodup)
    {o : Ir.Operand} {v : Source} (h : s.source? o = some v) : s'.source? o = some v := by
  rw [Session.source?] at h ⊢
  cases hr : s.reach? o with
  | none => rw [hr] at h; cases h
  | some r =>
    rw [hr] at h
    rw [reach?_of_later hs hnodup hr]
    cases r with
    | residence r => exact h
    | symbol name =>
      simp only [Symbols.data] at h ⊢
      cases he : s.symbols.find? name with
      | none => rw [he] at h; cases h
      | some e =>
        rw [he] at h
        rw [hs.symbols name e he]
        exact h

end Stable

end NativeCode.Selection
