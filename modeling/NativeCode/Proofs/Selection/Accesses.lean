import NativeCode.Proofs.Selection.Supplies
import NativeCode.Proofs.Selection.Words

/-!
# Loads and stores

A load or store reaches memory through a symbol, a slot of the frame, or a pointer in a temporary. In
each case the address is the word that the pointer stands for. A store of an integer writes the bytes
of its type there, the lowest first, and no others. A load extends by its type what it finds.
-/

namespace NativeCode.Machine.Memory

variable {m m' : Memory} {a v : Word} {n : Nat}

/-- The bytes from an address on are the low `n` bytes of a word, the lowest first. -/
def Holds (m : Memory) (a : Word) (n : Nat) (v : Word) : Prop :=
  ∀ k < n, m (a + BitVec.ofNat 64 k) = v.extractLsb' (8 * k) 8

/-- The low `n` bytes of a word have been written at an address, and no other bytes. -/
structure Writes (m : Memory) (a : Word) (n : Nat) (v : Word) (m' : Memory) : Prop where
  holds : m'.Holds a n v
  keeps : ∀ x, (∀ k < n, x ≠ a + BitVec.ofNat 64 k) → m' x = m x

lemma toNat_add_sub_self (a : Word) {k : Nat} (hk : k < 18446744073709551616) :
    (a + BitVec.ofNat 64 k - a).toNat = k := by
  rw [BitVec.add_comm, BitVec.add_sub_cancel, BitVec.toNat_ofNat]
  exact Nat.mod_eq_of_lt hk

lemma holds_store (m : Memory) (a v : Word) (hn : n ≤ 8) : (m.store a n v).Holds a n v := by
  intro k hk
  rw [store, toNat_add_sub_self a (by omega), if_pos hk]

lemma writes_store (m : Memory) (a v : Word) (hn : n ≤ 8) : m.Writes a n v (m.store a n v) := by
  refine ⟨holds_store m a v hn, fun x hx => if_neg fun hlt => hx _ hlt ?_⟩
  rw [BitVec.ofNat_toNat, BitVec.setWidth_eq, BitVec.add_comm, BitVec.sub_add_cancel]

lemma store_zeroExtend (m : Memory) (a v : Word) (w : Width) :
    m.store a w.bytes (w.zeroExtend v) = m.store a w.bytes v := by
  funext x
  unfold store
  split_ifs with hlt
  · refine BitVec.eq_of_getLsbD_eq fun k hk => ?_
    rw [BitVec.getLsbD_extractLsb', BitVec.getLsbD_extractLsb', w.getLsbD_zeroExtend,
      decide_eq_true (show 8 * (x - a).toNat + k < 8 * w.bytes by omega), Bool.true_and]
  · rfl

lemma Holds.load_eq {w : Width} (h : m.Holds a w.bytes v) :
    m.load a w.bytes = w.zeroExtend v := by
  rw [← load_store_self m a w v]
  refine load_congr fun k hk => ?_
  rw [h k hk, holds_store m a v w.bytes_le k hk]

end NativeCode.Machine.Memory

namespace NativeCode.Machine.State

lemma read_of_place {p : Platform} {σ : State} {w : Width} {o : Operand} {a : Word}
    (h : σ.place p o = .ok a) : σ.read p w o = .ok (σ.mem.load a w.bytes) := by
  cases o with
  | mem | rip =>
    change (do return σ.mem.load (← σ.place p _) w.bytes) = _
    rw [h]
    rfl
  | reg | imm | label | symbol => cases h

end NativeCode.Machine.State

namespace NativeCode

lemma Width.zeroExtend_signExtend (w : Width) (v : Word) :
    w.zeroExtend (w.signExtend v) = w.zeroExtend v := by
  refine BitVec.eq_of_getLsbD_eq fun k hk => ?_
  rw [w.getLsbD_zeroExtend, w.getLsbD_zeroExtend, signExtend, BitVec.getLsbD_signExtend, bits]
  by_cases h : k < 8 * w.bytes
  · simp [h, hk]
  · simp [h]

end NativeCode

namespace NativeCode.Ir.Ty

open Machine

variable {ty : Ty}

lemma bytes_ofBytes (h : ty.isInteger = true) : (Width.ofBytes ty.size).bytes = ty.size := by
  cases ty with
  | int signed w => rw [size, Width.ofBytes_bytes]
  | bool | ptr => rfl
  | float | void | array | struct => cases h

lemma extend_zeroExtend (h : ty.isInteger = true) (v : Word) :
    ty.extend ((Width.ofBytes ty.size).zeroExtend v) = ty.extend v := by
  cases ty with
  | int signed w =>
    rw [size, Width.ofBytes_bytes]
    cases signed with
    | true => exact w.signExtend_zeroExtend v
    | false => exact w.zeroExtend_zeroExtend v
  | bool => exact Width.byte.zeroExtend_zeroExtend v
  | ptr => exact Width.zeroExtend_quad v
  | float | void | array | struct => cases h

/-- Extension by a type needs only the bytes of the type. -/
theorem extend_load (h : ty.isInteger = true) (m : Memory) (a : Word) :
    ty.extend (m.load a ty.size) = ty.extend (m.load a 8) := by
  rw [← extend_zeroExtend h (m.load a 8), ← Memory.load_of_le m a _ (Width.bytes_le _),
    bytes_ofBytes h]

/-- A load gives back what was stored, extended by its type. -/
theorem extend_load_store (h : ty.isInteger = true) (m : Memory) (a v : Word) :
    ty.extend ((m.store a ty.size v).load a ty.size) = ty.extend v := by
  rw [← bytes_ofBytes h, Memory.load_store_self, extend_zeroExtend h]

end NativeCode.Ir.Ty

namespace NativeCode.Selection

open Ir (Ty)
open Machine

variable {p : Platform} {τ : Temps} {site : Site} {s s' : Session} {i : Ir.Instr}
  {x pointer : Ir.Operand} {u : Unit}

/-! ### Addresses -/

/-- The memory that a pointer points to is at the word of the pointer. -/
theorem exists_runs_addressOf {dst : Operand} (h : Yields (addressOf pointer) site s dst s')
    (hτ : s'.temps.Grows τ) :
    ∃ q, s.source? pointer = some q ∧ ∀ σ, ∃ σ', Runs p τ s s' σ (.ok σ') ∧ Spare site s σ σ' ∧
      σ'.place p (τ.boundOperand dst) = .ok (q.word p σ) := by
  obtain ⟨r, hr, -, ⟨asm, hasm, rfl, rfl⟩ | ⟨res, rfl, haddress, rfl, rfl⟩ |
    ⟨t, res, rfl, -, ht, rfl⟩⟩ := addressOf_cases h
  · exact ⟨.symbol asm, hasm, fun σ => ⟨σ, .refl rfl, .refl _ _ _, State.place_rip asm⟩⟩
  · refine ⟨.residence res, Session.source?_of_residence hr, fun σ =>
      ⟨σ, .refl rfl, .refl _ _ _, ?_⟩⟩
    rw [Source.word, haddress]
    exact State.place_offset
  · obtain ⟨q, g, hq, hg, hruns⟩ := exists_runs_loadGpr (p := p) ht hτ
    refine ⟨q, hq, fun σ => ⟨_, hruns σ, .of_temporary hg _, ?_⟩⟩
    have hdst : τ.boundOperand (.offset t 0) = .offset (.ofGpr g) 0 := by
      simp [Operand.offset, Temps.boundOperand, hg.bound]
    rw [hdst, State.place_offset, State.setGpr_gpr, addr_zero]

/-! ### Loads -/

theorem exists_runs_load (h : Yields (load i) site s u s') (hint : i.ty.isInteger = true)
    (hops : i.operands = [pointer]) (hτ : s'.temps.Grows τ) :
    ∃ q id d, s.source? pointer = some q ∧ i.result = some id ∧ s.Defined s' id i.ty d ∧
      ∀ σ, ∃ σ', Runs p τ s s' σ (.ok σ') ∧
        Stored σ d (i.ty.extend (σ.mem.load (q.word p σ) i.ty.size)) σ' := by
  have hfloat : i.ty.isFloat = false := Ty.isFloat_eq_false_of_isInteger hint
  obtain ⟨pointer', src, s₁, value, s₂, hops', -, hsrc, hvalue, ⟨hfloat', -⟩ |
    ⟨home, s₃, -, hhome, rfl⟩⟩ := load_cases h
  · rw [hfloat] at hfloat'
    cases hfloat'
  rw [hops] at hops'
  cases hops'
  have hcls : i.ty.regClass = .gpr := by rw [Ty.regClass, hfloat]; rfl
  rw [hcls] at hvalue
  have hlater := (emits_newTemp hvalue).1.later.temps
  obtain ⟨t, ht, rfl, rfl⟩ := yields_newTemp.mp hvalue
  obtain ⟨id, d, frame, hid, hframe, rfl, rfl⟩ := yields_defineHome.mp hhome
  obtain ⟨g, hg⟩ : ∃ g, Temporary site τ s₁ { s₁ with temps := t.2 } (.temp t.1 .gpr) g :=
    exists_temporary_of_issue ht hτ rfl
  obtain ⟨q, hq, hruns⟩ := exists_runs_addressOf (p := p) hsrc (hlater.trans hτ)
  refine ⟨q, id, d, hq, hid, .of_alike (by exact ⟨hframe, rfl⟩) (alike_addressOf hsrc), fun σ => ?_⟩
  obtain ⟨σ₁, hrun, hspare, hplace⟩ := hruns σ
  have hread (w : Width) : σ₁.read p w (τ.boundOperand src) =
      .ok (w.zeroExtend (σ.mem.load (q.word p σ) 8)) := by
    rw [← Memory.load_of_le _ _ _ w.bytes_le, ← hspare.mem]
    exact State.read_of_place hplace
  let extending := extendingLoad src { reg := .temp t.1 .gpr } i.ty
  let σ₂ := σ₁.setGpr g (i.ty.extend (σ.mem.load (q.word p σ) i.ty.size))
  have hload : exec p (τ.boundInstr (site.instr extending.op extending.operands)) σ₁ = .ok σ₂ := by
    rw [show σ₂ = σ₁.setGpr g (i.ty.extend (σ.mem.load (q.word p σ) 8)) by
      rw [← Ty.extend_load hint]]
    exact exec_extendingLoad rfl rfl hg.bound (hread _)
  have hstore := exec_mov_mem (p := p) (σ := σ₂) (a := addr (σ₂.gpr .rbp) d)
    (i := τ.boundInstr (site.instr (.mov .quad) [.full (.temp t.1 .gpr), .slot d])) rfl rfl
    (read_full hg.bound) State.place_offset
  have hpoised : Poised σ σ₂ := hspare.poised.trans (.setGpr hg.not_mem_frame _)
  refine ⟨_, hrun.trans ((Runs.trans (.refl rfl) (.push hload)).trans
    (Runs.trans (.refl rfl) (.push hstore))), hpoised, ?_⟩
  rw [hpoised.rbp, State.setGpr_gpr, State.setGpr_mem, hspare.mem]
  rfl

/-! ### Stores -/

lemma exists_runs_storeSource {w : Width} {src : Operand}
    (h : Yields (storeSource x w) site s src s') (hτ : s'.temps.Grows τ) :
    ∃ v, s.source? x = some v ∧ ∀ σ, ∃ σ', Runs p τ s s' σ (.ok σ') ∧ Spare site s σ σ' ∧
      ∀ ρ, Spare site s' σ' ρ →
        ρ.read p w (τ.boundOperand src) = .ok (w.zeroExtend (v.word p σ)) := by
  obtain ⟨reach, hreach, ⟨bits, hknown, rfl, rfl⟩ | ⟨t, ht, rfl⟩⟩ := storeSource_cases h
  · obtain ⟨v, hv, hword⟩ := exists_source?_of_known hreach hknown
    refine ⟨v, hv, fun σ => ⟨σ, .refl rfl, .refl _ _ _, fun ρ _ => ?_⟩⟩
    rw [hword]
    exact State.read_imm.trans (congrArg _ (w.zeroExtend_signExtend bits))
  · obtain ⟨v, g, hv, hg, hruns⟩ := exists_runs_loadGpr (p := p) ht hτ
    refine ⟨v, hv, fun σ => ⟨_, hruns σ, .of_temporary hg _, fun ρ hρ => ?_⟩⟩
    rw [boundOperand_part hg.bound, State.read_gpr, hρ.gpr g (Or.inl hg.held), State.setGpr_gpr]

theorem exists_runs_store (h : Yields (store i) site s u s') (hint : i.ty.isInteger = true)
    (hops : i.operands = [x, pointer]) (hτ : s'.temps.Grows τ) :
    ∃ v q, s.source? x = some v ∧ s.source? pointer = some q ∧ ∀ σ, ∃ σ', Runs p τ s s' σ (.ok σ') ∧
      Poised σ σ' ∧ σ'.mem = σ.mem.store (q.word p σ) i.ty.size (v.word p σ) := by
  have hfloat : i.ty.isFloat = false := Ty.isFloat_eq_false_of_isInteger hint
  obtain ⟨value, pointer', reach, src, s₁, dst, s₂, hops', -, -, -, hdst, ⟨hfloat', -⟩ |
    ⟨-, hsrc, rfl⟩⟩ := store_cases h
  · rw [hfloat] at hfloat'
    cases hfloat'
  rw [hops] at hops'
  cases hops'
  have halike := alike_storeSource hsrc
  have hτ₂ : s₂.temps.Grows τ := hτ
  obtain ⟨q, hq, hruns'⟩ := exists_runs_addressOf (p := p) hdst hτ₂
  obtain ⟨_, he, -⟩ := emits_addressOf hdst
  obtain ⟨v, hv, hruns⟩ := exists_runs_storeSource (p := p) hsrc (he.later.temps.trans hτ₂)
  refine ⟨v, q, hv, (halike.source? pointer) ▸ hq, fun σ => ?_⟩
  obtain ⟨σ₁, hrun, hspare, hread⟩ := hruns σ
  obtain ⟨σ₂, hrun', hspare', hplace⟩ := hruns' σ₁
  have hstore := exec_mov_mem
    (i := τ.boundInstr (site.instr (.mov (Width.ofBytes i.ty.size)) [src, dst])) rfl rfl
    (hread σ₂ hspare') hplace
  refine ⟨_, (hrun.trans hrun').trans (.push hstore), hspare.poised.trans hspare'.poised, ?_⟩
  rw [hspare'.mem, hspare.mem, q.word_congr hspare.mem hspare.rbp, Memory.store_zeroExtend,
    Ty.bytes_ofBytes hint]

/-! ### Selecting loads and stores -/

section Selecting

lemma isScalar_of_isInteger {ty : Ty} (h : ty.isInteger = true) :
    (ty.isAggregate || ty.isVoid) = false := by
  cases ty with
  | int | bool | ptr => rfl
  | float | void | array | struct => cases h

lemma yields_requireScalar (hint : i.ty.isInteger = true) :
    Yields (requireScalar i) site s () s := by
  rw [requireScalar, isScalar_of_isInteger hint]
  exact yields_pure.mpr ⟨rfl, rfl⟩

theorem ends_load (hint : i.ty.isInteger = true) (hops : i.operands = [pointer])
    (hpointer : s.Has pointer (· = .ptr)) {id : Nat} (hid : i.result = some id)
    (hframe : s.frame.locals + 8 ≤ 2147483647) : Ends 2 0 (load i) site s := by
  have hfloat : i.ty.isFloat = false := Ty.isFloat_eq_false_of_isInteger hint
  rw [load, hops]
  refine ends_bind_of_yields (yields_requireScalar hint) ?_
  refine ends_bind (m := 1) (n := 0) (ends_addressOf hpointer) fun src s₁ hsrc => ?_
  rw [hfloat]
  refine ends_bind (m := 0) (n := 0) ends_newGpr fun value s₂ hvalue => ?_
  refine ends_emit_bind ?_
  have hframe₂ : s₂.frame = s.frame :=
    (alike_newTemp hvalue).frame.trans (alike_addressOf hsrc).frame
  refine ends_bind (m := 0) (n := 0) (ends_defineHome hid ?_) fun _ _ _ => ends_emit _ _
  rw [← hframe₂] at hframe
  exact hframe

theorem ends_store (hint : i.ty.isInteger = true) (hops : i.operands = [x, pointer])
    (hx : s.Has x (·.regClass = .gpr)) (hpointer : s.Has pointer (· = .ptr)) :
    Ends 2 0 (store i) site s := by
  have hfloat : i.ty.isFloat = false := Ty.isFloat_eq_false_of_isInteger hint
  obtain ⟨r, hr, hcls⟩ := hx.reach
  have hcls : r.ty.regClass = i.ty.regClass := by
    rw [hcls, Ty.regClass, hfloat]
    rfl
  rw [store, hops]
  refine ends_bind_of_yields (yields_requireScalar hint) ?_
  refine ends_bind_of_yields (yields_typeOf hr) ?_
  dsimp only
  rw [if_neg (not_not.mpr hcls), hfloat]
  refine ends_bind (m := 1) (n := 0) (ends_storeSource hx _) fun src s₁ hsrc => ?_
  refine ends_bind (m := 0) (n := 0) ?_ fun _ _ _ => ends_emit _ _
  exact ends_addressOf ((alike_storeSource hsrc).has hpointer)

end Selecting

/-! ### Main result -/

/-- Stores and loads of integers are exact in their width, whatever the operand, the pointer and the
context. A store writes the bytes of its type at the address that its pointer stands for, with the
low bytes of the word of its operand, and no others. Where these bytes lie, a load of the type leaves
their extension by the type in the home of its result. Both can be selected if their operands are
found with types that fit, and there is room for two temporaries and for the home. -/
theorem store_then_load {i j : Ir.Instr} {x a b : Ir.Operand} (hint : i.ty.isInteger = true)
    (hty : j.ty = i.ty) (hstore : i.operands = [x, a]) (hload : j.operands = [b])
    (site site' : Site) (s t : Session) :
    (s.Has x (·.regClass = .gpr) → s.Has a (· = .ptr) → s.Supplies site.options.target 2 0 →
      ∃ u s', Yields (store i) site s u s') ∧
    (t.Has b (· = .ptr) → j.result.isSome = true → t.frame.locals + 8 ≤ 2147483647 →
      t.Supplies site'.options.target 2 0 → ∃ u t', Yields (load j) site' t u t') ∧
    ∀ p u s' τ, Yields (store i) site s u s' → s'.temps.Grows τ →
      ∃ v q, s.source? x = some v ∧ s.source? a = some q ∧
        ∀ σ, ∃ σ', Runs p τ s s' σ (.ok σ') ∧ Poised σ σ' ∧
          σ.mem.Writes (q.word p σ) i.ty.size (v.word p σ) σ'.mem ∧
          ∀ u' t' τ', Yields (load j) site' t u' t' → t'.temps.Grows τ' →
            ∃ q' id d, t.source? b = some q' ∧ j.result = some id ∧ t.Defined t' id i.ty d ∧
              ∀ ρ, q'.word p ρ = q.word p σ →
                ρ.mem.Holds (q.word p σ) i.ty.size (v.word p σ) →
                ∃ ρ', Runs p τ' t t' ρ (.ok ρ') ∧ Stored ρ d (i.ty.extend (v.word p σ)) ρ' := by
  have hsize : i.ty.size ≤ 8 := by
    rw [← Ty.bytes_ofBytes hint]
    exact Width.bytes_le _
  refine ⟨fun hx ha hs => (ends_store hint hstore hx ha).exists_yields hs,
    fun hb hid hframe ht => ?_, fun p u s' τ h hτ => ?_⟩
  · obtain ⟨id, hid⟩ := Option.isSome_iff_exists.mp hid
    exact (ends_load (hty ▸ hint) hload hb hid hframe).exists_yields ht
  · obtain ⟨v, q, hv, hq, hruns⟩ := exists_runs_store (p := p) h hint hstore hτ
    refine ⟨v, q, hv, hq, fun σ => ?_⟩
    obtain ⟨σ', hrun, hpoised, hmem⟩ := hruns σ
    refine ⟨σ', hrun, hpoised, hmem ▸ Memory.writes_store _ _ _ hsize,
      fun u' t' τ' h' hτ' => ?_⟩
    obtain ⟨q', id, d, hq', hid, hdefined, hloads⟩ :=
      exists_runs_load (p := p) h' (hty ▸ hint) hload hτ'
    refine ⟨q', id, d, hq', hid, hty ▸ hdefined, fun ρ hword hholds => ?_⟩
    obtain ⟨ρ', hrun', hstored⟩ := hloads ρ
    refine ⟨ρ', hrun', ?_⟩
    have hbytes := Memory.Holds.load_eq (w := Width.ofBytes i.ty.size)
      (by rw [Ty.bytes_ofBytes hint]; exact hholds)
    rw [Ty.bytes_ofBytes hint] at hbytes
    rw [hword, hty, hbytes, Ty.extend_zeroExtend hint] at hstored
    exact hstored

/-- A session with the address of a slot and a value of eight bytes in its home. -/
def narrowing : Session where
  values := [(1, { access := .home, ty := .i64, disp := -16 }),
    (0, { access := .address, ty := .ptr, disp := -8 })]
  frame := { locals := 16 }

/-- A store of the low two bytes of the value in the slot. -/
def narrowingStore : Ir.Instr where
  kind := .store
  ty := .int true .word
  operands := [.value 1, .value 0]

def wideningLoad : Ir.Instr where
  kind := .load
  ty := .int true .word
  operands := [.value 0]
  result := some 2

/-- What comes back from the slot is the low part of the value with the sign of its own. -/
theorem store_then_load_narrowing :
    narrowingStore.ty.isInteger = true ∧
    ∃ s' t', Yields (store narrowingStore) { options := {} } narrowing () s' ∧
      Yields (load wideningLoad) { options := {} } s' () t' ∧
      ∀ p σ, ∃ σ' ρ, Runs p s'.temps narrowing s' σ (.ok σ') ∧
        Runs p t'.temps s' t' σ' (.ok ρ) ∧
        ρ.mem.load (addr (ρ.gpr .rbp) (-24)) 8 =
          Width.word.signExtend (σ.mem.load (addr (σ.gpr .rbp) (-16)) 8) := by
  obtain ⟨s', t', hs', ht', hframe, hslot⟩ : ∃ s' t',
      Yields (store narrowingStore) { options := {} } narrowing () s' ∧
      Yields (load wideningLoad) { options := {} } s' () t' ∧ s'.frame = narrowing.frame ∧
      s'.source? (.value 0) = narrowing.source? (.value 0) := ⟨_, _, rfl, rfl, rfl, rfl⟩
  refine ⟨rfl, s', t', hs', ht', fun p σ => ?_⟩
  obtain ⟨-, -, hruns⟩ := store_then_load (i := narrowingStore) (j := wideningLoad) rfl rfl rfl rfl
    { options := {} } { options := {} } narrowing s'
  obtain ⟨v, q, hv, hq, hruns⟩ := hruns p () s' s'.temps hs' (.refl _)
  cases hv
  obtain ⟨σ', hrun, hpoised, hwrites, hload⟩ := hruns σ
  obtain ⟨q', id, d, hq', -, hdefined, hload⟩ := hload () t' t'.temps ht' (.refl _)
  obtain rfl : q = q' := Option.some.inj (hq.symm.trans (hslot.symm.trans hq'))
  obtain ⟨ρ, hrun', hstored⟩ := hload σ' (by cases hq; rw [Source.word, hpoised.rbp]; rfl)
    hwrites.holds
  have hd : .ok (-24, { locals := 24 }) = Except.ok (d, t'.frame) :=
    (hframe ▸ hdefined.allocated : narrowing.frame.allocate 8 = .ok (d, t'.frame))
  obtain ⟨rfl, -⟩ := Prod.mk.inj (Except.ok.inj hd)
  refine ⟨σ', ρ, hrun, hrun', ?_⟩
  exact hstored.load_self

end NativeCode.Selection
