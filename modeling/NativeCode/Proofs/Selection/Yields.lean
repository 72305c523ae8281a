import NativeCode.Proofs.Except
import NativeCode.Selection.Construct

/-!
# What emitting computations yield

A computation that emits code either fails or yields a result and a later session. These are the
rules by which a computation is taken apart into its steps: one for each way of composing
computations, and one for each of the steps that all code selection is made of.
-/

namespace NativeCode.Selection

open Ir (Ty)
open Machine

variable {α β : Type} {site : Site} {s s' s'' : Session} {a : α} {b : β} {c : Cause} {t : String}
  {o : Ir.Operand} {u : Unit} {f : α → Emit β}

/-- The target that code is selected for. -/
abbrev Site.target (site : Site) : Abi.Target := site.options.target

/-- A computation run at a site in session `s` ends with result `a` in session `s'`. -/
def Yields (x : Emit α) (site : Site) (s : Session) (a : α) (s' : Session) : Prop :=
  (x.run site).run s = .ok (a, s')

/-! ### Composition -/

@[simp] lemma yields_pure {c : α} : Yields (pure c) site s a s' ↔ c = a ∧ s = s' := by
  constructor
  · intro h
    cases h
    exact ⟨rfl, rfl⟩
  · rintro ⟨rfl, rfl⟩
    rfl

theorem yields_bind {x : Emit α} :
    Yields (x >>= f) site s b s'' ↔
      ∃ a s', Yields x site s a s' ∧ Yields (f a) site s' b s'' := by
  simp only [Yields, ReaderT.run_bind]
  exact run_bind_eq_ok_iff

lemma run_bind_of_yields {x : Emit α} (h : Yields x site s a s') :
    ((x >>= f).run site).run s = ((f a).run site).run s' := by
  rw [ReaderT.run_bind, StateT.run_bind, h]
  rfl

@[simp] lemma yields_get_bind {f : Session → Emit β} :
    Yields (get >>= f) site s b s' ↔ Yields (f s) site s b s' := Iff.rfl

@[simp] lemma yields_read_bind {f : Site → Emit β} :
    Yields (read >>= f) site s b s' ↔ Yields (f site) site s b s' := Iff.rfl

@[simp] lemma yields_modify {f : Session → Session} {u : PUnit} :
    Yields (modify f) site s u s' ↔ f s = s' := by
  constructor
  · intro h
    cases h
    rfl
  · rintro rfl
    rfl

@[simp] lemma yields_modify_bind {f : Session → Session} {g : PUnit → Emit β} :
    Yields (modify f >>= g) site s b s' ↔ Yields (g ()) site (f s) b s' := Iff.rfl

@[simp] lemma yields_modifyGet_bind {f : Session → α × Session} {g : α → Emit β} :
    Yields (modifyGet f >>= g) site s b s' ↔ Yields (g (f s).1) site (f s).2 b s' := Iff.rfl

@[simp] lemma yields_set_bind {t : Session} {g : PUnit → Emit β} :
    Yields (set t >>= g) site s b s' ↔ Yields (g ()) site t b s' := Iff.rfl

@[simp] lemma not_yields_throw {e : Failure} : ¬ Yields (throw e : Emit α) site s a s' := by
  intro h
  cases h

@[simp] lemma yields_lift_bind {x : Except Failure α} :
    Yields (liftM x >>= f) site s b s' ↔ ∃ a, x = .ok a ∧ Yields (f a) site s b s' :=
  run_lift_bind_eq_ok_iff (k := fun a => (f a).run site)

@[simp] lemma not_yields_stop : ¬ Yields (stop c t : Emit α) site s a s' := not_yields_throw

@[simp] lemma not_yields_stopHere : ¬ Yields (stopHere c t : Emit α) site s a s' := by
  simp [stopHere]

@[simp] lemma not_yields_stop_bind : ¬ Yields (stop c t >>= f) site s b s' := by
  simp [yields_bind]

@[simp] lemma not_yields_stopHere_bind : ¬ Yields (stopHere c t >>= f) site s b s' := by
  simp [yields_bind]

lemma yields_ite_left {c : Prop} [Decidable c] {x y : Emit α} (hy : ¬ Yields y site s a s') :
    Yields (if c then x else y) site s a s' ↔ c ∧ Yields x site s a s' := by
  by_cases hc : c <;> simp [hc, hy]

lemma yields_ite_right {c : Prop} [Decidable c] {x y : Emit α} (hx : ¬ Yields x site s a s') :
    Yields (if c then x else y) site s a s' ↔ ¬ c ∧ Yields y site s a s' := by
  by_cases hc : c <;> simp [hc, hx]

/-! ### Steps -/

/-- The session with one more instruction in its open block. -/
def Session.push (s : Session) (i : Instr) : Session := { s with code := s.code.push i }

def Site.instr (site : Site) (op : Opcode) (operands : List Operand) : Instr where
  op := op
  operands := operands
  origin := site.origin

@[simp] theorem yields_emit {op : Opcode} {os : List Operand} :
    Yields (emit op os) site s u s' ↔ s.push (site.instr op os) = s' := by
  simp [emit, Session.push, Site.instr]

@[simp] lemma yields_emit_bind {op : Opcode} {os : List Operand} {f : Unit → Emit β} :
    Yields (emit op os >>= f) site s b s' ↔
      Yields (f ()) site (s.push (site.instr op os)) b s' := Iff.rfl

theorem yields_newTemp {cls : RegClass} {t : Reg} :
    Yields (newTemp cls) site s t s' ↔
      ∃ r, s.temps.issue site.options.target cls = .ok r ∧
        t = .temp r.1 cls ∧ s' = { s with temps := r.2 } := by
  simp only [newTemp, yields_read_bind, yields_modifyGet_bind, yields_lift_bind, yields_modify_bind,
    yields_pure]
  simp only [eq_comm]

theorem yields_allocate {bytes : Nat} {d : Int} :
    Yields (allocate bytes) site s d s' ↔
      ∃ frame, s.frame.allocate bytes = .ok (d, frame) ∧ s' = { s with frame } := by
  simp only [allocate, Session.allocate, yields_get_bind]
  cases s.frame.allocate bytes with
  | error e =>
    constructor
    · intro h
      cases h
    · rintro ⟨_, h, -⟩
      cases h
  | ok r =>
    constructor
    · intro h
      cases h
      exact ⟨r.2, rfl, rfl⟩
    · rintro ⟨_, h, rfl⟩
      cases h
      rfl

/-! ### Operands -/

def Session.reach? (s : Session) : Ir.Operand → Option Reach
  | .value id => (s.values.lookup id).map .residence
  | .param index => s.params[index]?.map .residence
  | .const ty bits => some (.residence { access := .constant, ty, bits })
  | .global name => some (.symbol name)

lemma Session.residence_cases {r : Residence} (h : s.reach? o = some (.residence r)) :
    (∃ id, o = .value id ∧ (id, r) ∈ s.values) ∨ (∃ k, o = .param k ∧ s.params[k]? = some r) ∨
      ∃ ty bits, o = .const ty bits ∧ r = { access := .constant, ty, bits } := by
  cases o with
  | value id =>
    obtain ⟨r', hlookup, hr'⟩ := Option.map_eq_some_iff.mp h
    cases hr'
    obtain ⟨l₁, l₂, hl, -⟩ := List.lookup_eq_some_iff.mp hlookup
    exact .inl ⟨id, rfl, by rw [hl]; simp⟩
  | param k =>
    obtain ⟨r', hget, hr'⟩ := Option.map_eq_some_iff.mp h
    cases hr'
    exact .inr (.inl ⟨k, rfl, hget⟩)
  | const ty bits =>
    cases h
    exact .inr (.inr ⟨ty, bits, rfl, rfl⟩)
  | global name => cases h

lemma yields_reach_bind {f : Reach → Emit β} :
    Yields (reach o >>= f) site s b s' ↔ ∃ r, s.reach? o = some r ∧ Yields (f r) site s b s' := by
  cases o with
  | value id =>
    simp only [reach, Session.reach?, Session.value, bind_assoc, pure_bind, yields_get_bind]
    cases s.values.lookup id with
    | none => simp [fail]
    | some r => simp
  | param index =>
    simp only [reach, Session.reach?, Session.param, bind_assoc, pure_bind, yields_get_bind]
    cases s.params[index]? with
    | none =>
      simp only [yields_lift_bind, Option.map_none, reduceCtorEq, false_and, exists_false, iff_false]
      rintro ⟨r, h, -⟩
      cases hf : s.current <;> rw [hf] at h <;> cases h
    | some r => simp
  | global name => simp [reach, Session.reach?]
  | const ty bits => simp [reach, Session.reach?]

def Reach.ty : Reach → Ty
  | .symbol _ => .ptr
  | .residence r => r.ty

def Reach.known? : Reach → Option Word
  | .symbol _ => none
  | .residence r => if r.access = .constant then some r.bits else none

lemma yields_typeOf_bind {f : Ty → Emit β} :
    Yields (typeOf o >>= f) site s b s' ↔
      ∃ r, s.reach? o = some r ∧ Yields (f r.ty) site s b s' := by
  rw [typeOf, bind_assoc, yields_reach_bind]
  refine exists_congr fun r => and_congr_right fun _ => ?_
  cases r <;> rw [pure_bind] <;> rfl

lemma yields_constantValue_bind {f : Option Word → Emit β} :
    Yields (constantValue o >>= f) site s b s' ↔
      ∃ r, s.reach? o = some r ∧ Yields (f r.known?) site s b s' := by
  rw [constantValue, bind_assoc, yields_reach_bind]
  refine exists_congr fun r => and_congr_right fun _ => ?_
  cases r <;> rw [pure_bind] <;> rfl

/-- Where the word of an operand comes from: the address of a symbol under its assembly name, or a
residence. -/
inductive Source where
  | symbol (asm : String)
  | residence (r : Residence)
  deriving DecidableEq, Inhabited

/-- Where the word of an operand comes from, if its names are known. -/
def Session.source? (s : Session) (o : Ir.Operand) : Option Source :=
  match s.reach? o with
  | some (.symbol name) => (s.symbols.data name).toOption.map fun e => .symbol e.asm
  | some (.residence r) => some (.residence r)
  | none => none

namespace Source

/-- The instruction that copies the word of an operand into a register. -/
def load (v : Source) (site : Site) (dst : RegOperand) : Instr :=
  match v with
  | symbol asm => site.instr .lea [.rip asm, .reg dst]
  | residence r =>
    match r.access with
    | .home => site.instr (.mov .quad) [.slot r.disp, .reg dst]
    | .address => site.instr .lea [.slot r.disp, .reg dst]
    | .constant =>
      site.instr (if fitsImm32 r.bits then .mov .quad else .movabs) [.imm r.bits, .reg dst]

/-- The operand that stands for a word without a register. -/
def direct? : Source → Option Operand
  | symbol _ => none
  | residence r =>
    match r.access with
    | .home => some (.slot r.disp)
    | .address => none
    | .constant => if fitsImm32 r.bits then some (.imm r.bits) else none

end Source

lemma Session.source?_of_residence {r : Residence} (h : s.reach? o = some (.residence r)) :
    s.source? o = some (.residence r) := by
  rw [source?, h]

lemma Session.residence_of_source? {r : Residence} (h : s.source? o = some (.residence r)) :
    s.reach? o = some (.residence r) := by
  rw [source?] at h
  split at h
  case h_1 =>
    obtain ⟨e, -, he⟩ := Option.map_eq_some_iff.mp h
    cases he
  case h_2 r' hr =>
    cases h
    exact hr
  case h_3 => cases h

theorem yields_loadGprInto {dst : RegOperand} :
    Yields (loadGprInto o dst) site s u s' ↔
      ∃ v, s.source? o = some v ∧ s' = s.push (v.load site dst) := by
  rw [loadGprInto, yields_reach_bind]
  constructor
  · rintro ⟨r, hr, h⟩
    cases r with
    | symbol name =>
      simp only [yields_get_bind, yields_lift_bind, yields_emit] at h
      obtain ⟨e, he, rfl⟩ := h
      exact ⟨.symbol e.asm, by rw [Session.source?, hr]; simp [he, Except.toOption], rfl⟩
    | residence r =>
      refine ⟨.residence r, Session.source?_of_residence hr, ?_⟩
      dsimp only [Source.load] at h ⊢
      split at h <;> simp_all
  · rintro ⟨v, hv, rfl⟩
    rw [Session.source?] at hv
    split at hv
    case h_1 name hr =>
      refine ⟨_, hr, ?_⟩
      cases he : s.symbols.data name with
      | error e => simp [he, Except.toOption] at hv
      | ok e =>
        obtain rfl : Source.symbol e.asm = v := by simpa [he, Except.toOption] using hv
        simp [Source.load, he]
    case h_2 r hr =>
      obtain rfl : Source.residence r = v := by simpa using hv
      refine ⟨_, hr, ?_⟩
      dsimp only [Source.load]
      split <;> simp_all
    case h_3 => cases hv

/-- Copying an operand into a new temporary issues the temporary and copies. -/
theorem yields_loadGpr {t : Reg} :
    Yields (loadGpr o) site s t s' ↔
      ∃ r v, s.temps.issue site.options.target .gpr = .ok r ∧ s.source? o = some v ∧
        t = .temp r.1 .gpr ∧
        s' = { s with temps := r.2 }.push (v.load site { reg := .temp r.1 .gpr }) := by
  simp only [loadGpr, yields_bind, yields_newTemp, yields_loadGprInto, yields_pure]
  constructor
  · rintro ⟨_, _, ⟨r, hr, rfl, rfl⟩, _, _, ⟨v, hv, rfl⟩, rfl, rfl⟩
    exact ⟨r, v, hr, hv, rfl, rfl⟩
  · rintro ⟨r, v, hr, hv, rfl, rfl⟩
    exact ⟨_, _, ⟨r, hr, rfl, rfl⟩, (), _, ⟨v, hv, rfl⟩, rfl, rfl⟩

lemma gprSource_cases {src : Operand} (h : Yields (gprSource o) site s src s') :
    ∃ v, s.source? o = some v ∧
      ((v.direct? = some src ∧ s' = s) ∨
        ∃ t, Yields (loadGpr o) site s t s' ∧ src = .full t) := by
  rw [gprSource, yields_reach_bind] at h
  obtain ⟨r, hr, h⟩ := h
  have hload : Yields (do return .full (← loadGpr o)) site s src s' →
      ∃ t, Yields (loadGpr o) site s t s' ∧ src = .full t := by
    intro h
    simp only [yields_bind, yields_pure] at h
    obtain ⟨t, _, ht, rfl, rfl⟩ := h
    exact ⟨t, ht, rfl⟩
  have hsource {t : Reg} (ht : Yields (loadGpr o) site s t s') : ∃ v, s.source? o = some v := by
    obtain ⟨_, v, _, hv, _⟩ := yields_loadGpr.mp ht
    exact ⟨v, hv⟩
  split at h
  case h_1 ty disp bits =>
    simp only [yields_pure] at h
    exact ⟨_, Session.source?_of_residence hr, Or.inl ⟨by simp [Source.direct?, h.1], h.2.symm⟩⟩
  case h_2 ty disp bits =>
    refine ⟨_, Session.source?_of_residence hr, ?_⟩
    split_ifs at h with hfits
    · simp only [yields_pure] at h
      exact Or.inl ⟨by simp [Source.direct?, hfits, h.1], h.2.symm⟩
    · exact Or.inr (hload h)
  case h_3 =>
    obtain ⟨t, ht, rfl⟩ := hload h
    obtain ⟨v, hv⟩ := hsource ht
    exact ⟨v, hv, Or.inr ⟨t, ht, rfl⟩⟩

lemma loadXmmInto_cases {dst : RegOperand} (h : Yields (loadXmmInto o dst) site s u s') :
    ∃ r, s.reach? o = some r ∧ r.ty.isFloat = true ∧
      ((∃ res, r = .residence res ∧ res.access = .home ∧
          s' = s.push (site.instr (floatMove res.ty) [.slot res.disp, .reg dst])) ∨
        ∃ t s₁, Yields (loadGpr o) site s t s₁ ∧
          s' = s₁.push (site.instr (.mov .quad) [.full t, .reg dst])) := by
  rw [loadXmmInto, yields_typeOf_bind] at h
  obtain ⟨r, hr, h⟩ := h
  dsimp only at h
  rw [yields_ite_left not_yields_stopHere_bind, yields_reach_bind] at h
  obtain ⟨hfloat, r', hr', h⟩ := h
  obtain rfl : r = r' := Option.some.inj (hr.symm.trans hr')
  refine ⟨r, hr, hfloat, ?_⟩
  split at h
  case h_1 ty disp bits => exact Or.inl ⟨_, rfl, rfl, (yields_emit.mp h).symm⟩
  case h_2 =>
    simp only [yields_bind, yields_emit] at h
    obtain ⟨t, s₁, ht, rfl⟩ := h
    exact Or.inr ⟨t, s₁, ht, rfl⟩

lemma yields_loadXmm {t : Reg} :
    Yields (loadXmm o) site s t s' ↔
      ∃ r, s.temps.issue site.options.target .xmm = .ok r ∧ t = .temp r.1 .xmm ∧
        Yields (loadXmmInto o { reg := t }) site { s with temps := r.2 } () s' := by
  simp only [loadXmm, yields_bind, yields_newTemp, yields_pure]
  constructor
  · rintro ⟨_, _, ⟨r, hr, rfl, rfl⟩, _, _, h, rfl, rfl⟩
    exact ⟨r, hr, rfl, h⟩
  · rintro ⟨r, hr, rfl, h⟩
    exact ⟨_, _, ⟨r, hr, rfl, rfl⟩, (), _, h, rfl, rfl⟩

lemma xmmSource_cases {src : Operand} (h : Yields (xmmSource o) site s src s') :
    (∃ res, s.reach? o = some (.residence res) ∧ res.access = .home ∧ src = .slot res.disp ∧
        s' = s) ∨
      ∃ t, Yields (loadXmm o) site s t s' ∧ src = .full t := by
  rw [xmmSource, yields_reach_bind] at h
  obtain ⟨r, hr, h⟩ := h
  split at h
  case h_1 ty disp bits =>
    simp only [yields_pure] at h
    exact Or.inl ⟨_, hr, rfl, h.1.symm, h.2.symm⟩
  case h_2 =>
    simp only [yields_bind, yields_pure] at h
    obtain ⟨t, _, ht, rfl, rfl⟩ := h
    exact Or.inr ⟨t, ht, rfl⟩

/-- The memory that a pointer points to is named by a symbol, is a slot of the frame, or is found
through a temporary. -/
lemma addressOf_cases {dst : Operand} (h : Yields (addressOf o) site s dst s') :
    ∃ r, s.reach? o = some r ∧ r.ty = .ptr ∧
      ((∃ asm, s.source? o = some (.symbol asm) ∧ dst = .rip asm ∧ s' = s) ∨
        (∃ res, r = .residence res ∧ res.access = .address ∧ dst = .slot res.disp ∧ s' = s) ∨
        ∃ t res, r = .residence res ∧ res.access ≠ .address ∧ Yields (loadGpr o) site s t s' ∧
          dst = .offset t 0) := by
  rw [addressOf, yields_typeOf_bind] at h
  obtain ⟨r, hr, h⟩ := h
  dsimp only at h
  rw [yields_ite_left not_yields_stopHere_bind, yields_reach_bind] at h
  obtain ⟨hptr, r', hr', h⟩ := h
  obtain rfl : r = r' := Option.some.inj (hr.symm.trans hr')
  refine ⟨r, hr, hptr, ?_⟩
  split at h
  case h_1 name =>
    simp only [yields_get_bind, yields_lift_bind, yields_pure] at h
    obtain ⟨e, he, rfl, rfl⟩ := h
    exact Or.inl ⟨e.asm, by rw [Session.source?, hr]; simp [he, Except.toOption], rfl, rfl⟩
  case h_2 ty disp bits =>
    simp only [yields_pure] at h
    exact Or.inr (Or.inl ⟨_, rfl, rfl, h.1.symm, h.2.symm⟩)
  case h_3 hsymbol haddress =>
    simp only [yields_bind, yields_pure] at h
    obtain ⟨t, _, ht, rfl, rfl⟩ := h
    cases r with
    | symbol name => exact absurd rfl (hsymbol name)
    | residence res =>
      refine Or.inr (Or.inr ⟨t, res, rfl, fun hres => ?_, ht, rfl⟩)
      rcases res with ⟨access, ty, disp, bits⟩
      exact haddress ty disp bits (by rw [← hres])

/-! ### Results -/

/-- The session with more instructions in its open block. -/
def Session.pushAll (s : Session) (is : List Instr) : Session :=
  { s with code := s.code ++ is.toArray }

@[simp] lemma Session.pushAll_nil (s : Session) : s.pushAll [] = s := by
  cases s
  simp [pushAll]

lemma Session.pushAll_cons (s : Session) (i : Instr) (is : List Instr) :
    s.pushAll (i :: is) = (s.push i).pushAll is := by
  simp only [pushAll, push, Session.mk.injEq, true_and]
  apply Array.toList_inj.mp
  simp

lemma Session.pushAll_singleton (s : Session) (i : Instr) : s.pushAll [i] = s.push i := by
  rw [pushAll_cons, pushAll_nil]

/-- The extension of a register by a type, as it is emitted at a site. -/
def Site.extension (site : Site) (r : Reg) (ty : Ty) : List Instr :=
  (extendInPlace { reg := r } ty).toList.map fun e => site.instr e.op e.operands

lemma yields_normalize {r : Reg} {ty : Ty} :
    Yields (normalize r ty) site s u s' ↔ s' = s.pushAll (site.extension r ty) := by
  rw [normalize, Site.extension]
  cases extendInPlace { reg := r } ty with
  | none => simp [eq_comm]
  | some e => simp [Session.pushAll_singleton, eq_comm]

theorem yields_defineHome {i : Ir.Instr} {ty : Ty} {home : Operand} :
    Yields (defineHome i ty) site s home s' ↔
      ∃ id d frame, i.result = some id ∧ s.frame.allocate 8 = .ok (d, frame) ∧ home = .slot d ∧
        s' = { s with frame, values := (id, { access := .home, ty, disp := d }) :: s.values } := by
  rw [defineHome]
  cases i.result with
  | none => simp
  | some id =>
    rw [yields_bind]
    simp only [yields_allocate, yields_modify_bind, yields_pure, Session.setValue]
    constructor
    · rintro ⟨d, _, ⟨frame, hframe, rfl⟩, rfl, rfl⟩
      exact ⟨id, d, frame, rfl, hframe, rfl, rfl⟩
    · rintro ⟨_, d, frame, hid, hframe, rfl, rfl⟩
      cases hid
      exact ⟨d, _, ⟨frame, hframe, rfl⟩, rfl, rfl⟩

lemma yields_storeGpr {i : Ir.Instr} {r : Reg} {ty : Ty} :
    Yields (storeGpr i r ty) site s u s' ↔
      ∃ id d frame, i.result = some id ∧ s.frame.allocate 8 = .ok (d, frame) ∧
        s' = { s with
          frame
          values := (id, { access := .home, ty, disp := d }) :: s.values
          code := s.code ++ (site.extension r ty ++
            [site.instr (.mov .quad) [.full r, .slot d]]).toArray } := by
  simp only [storeGpr, yields_bind, yields_normalize, yields_defineHome, yields_emit]
  constructor
  · rintro ⟨_, _, rfl, _, _, ⟨id, d, frame, hid, hframe, rfl, rfl⟩, rfl⟩
    exact ⟨id, d, frame, hid, hframe, by simp [Session.pushAll, Session.push]⟩
  · rintro ⟨id, d, frame, hid, hframe, rfl⟩
    exact ⟨(), _, rfl, _, _, ⟨id, d, frame, hid, hframe, rfl, rfl⟩,
      by simp [Session.pushAll, Session.push]⟩

lemma yields_storeXmm {i : Ir.Instr} {r : Reg} {ty : Ty} :
    Yields (storeXmm i r ty) site s u s' ↔
      ∃ id d frame, i.result = some id ∧ s.frame.allocate 8 = .ok (d, frame) ∧
        s' = { s with
          frame
          values := (id, { access := .home, ty, disp := d }) :: s.values
          code := s.code.push (site.instr (floatMove ty) [.full r, .slot d]) } := by
  simp only [storeXmm, yields_bind, yields_defineHome, yields_emit]
  constructor
  · rintro ⟨_, _, ⟨id, d, frame, hid, hframe, rfl, rfl⟩, rfl⟩
    exact ⟨id, d, frame, hid, hframe, rfl⟩
  · rintro ⟨id, d, frame, hid, hframe, rfl⟩
    exact ⟨_, _, ⟨id, d, frame, hid, hframe, rfl, rfl⟩, rfl⟩

end NativeCode.Selection
