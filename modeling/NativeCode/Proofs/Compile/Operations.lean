import NativeCode.Proofs.Compile.Passing
import NativeCode.Proofs.Selection.Values

/-!
# Integer operations of a function

Every result of a function has a place of its own in the frame, so that storing one leaves all other
operands alone. The code of an integer operation takes the words of two values from wherever its
operands are, and stores the word of the result in its home. A division faults exactly when it has no
quotient of 64 bits.
-/

namespace NativeCode.Compile

open Ir (Ty BinaryOp)
open Machine Selection
open Selection (Session)

variable {o : Options} {f : Ir.Function} {s start : Session} {c : Machine.Function} {p : Platform}
  {σ σ' : State} {b : Ir.Block} {i : Ir.Instr} {op : BinaryOp}

namespace Parts

variable (parts : Parts o f start c) {id : Nat} {x : Ir.Operand} {r : Residence}

/-- The place of a result overlaps with that of no other operand. -/
theorem apart (hcount : f.params.length < 268435456) {q : Residence}
    (hr : (id, r) ∈ parts.last.values) (hplace : r.access ≠ .constant) (hx : x ≠ .value id)
    (hq : parts.last.reach? x = some (.residence q)) (hplace' : q.access ≠ .constant) :
    Apart r.disp 8 q.disp 8 := by
  have hinv := parts.inv
  have hlocals := hinv.locals.2
  have hslot := hinv.slots (id, r) hr hplace
  have hbounds := parts.disp_bounds hcount hq hplace'
  dsimp only at hslot
  obtain ⟨id', rfl, hmem⟩ | ⟨k, -, hget⟩ | ⟨ty, bits, -, rfl⟩ := Session.residence_cases hq
  · -- of two results the one that was placed later lies below the other one
    let Ordered (e e' : Nat × Residence) : Prop := e.2.access ≠ .constant →
      e'.2.access ≠ .constant → e.2.disp + 8 ≤ e'.2.disp ∨ e'.2.disp + 8 ≤ e.2.disp
    have hsymm : Std.Symm Ordered := ⟨fun _ _ h he he' => (h he' he).symm⟩
    have hpairs : parts.last.values.Pairwise Ordered :=
      hinv.apart.imp fun h he he' => Or.inl (h he he')
    have hne : (id, r) ≠ (id', q) := fun h => hx (by rw [(Prod.mk.inj h).1])
    have horder := hpairs.forall hr hmem hne hplace hplace'
    rcases horder with h | h
    · exact .inl ⟨h, by omega⟩
    · exact .inr ⟨h, by omega⟩
  · have hbelow := hinv.paramsApart (id, r) hr hplace q (List.mem_of_getElem? hget)
    exact .inl ⟨hbelow, by omega⟩
  · exact absurd rfl hplace'

/-- Between two states only the place of the result `id` has been written, if anything. -/
structure WritesAt (parts : Parts o f start c) (id : Nat) (σ σ' : State) : Prop where
  rbp : σ'.gpr .rbp = σ.gpr .rbp
  mem : σ'.mem = σ.mem ∨ ∃ (r : Residence) (n : Nat) (w : Word), (id, r) ∈ parts.last.values ∧
    r.access ≠ .constant ∧ n ≤ 8 ∧ σ'.mem = σ.mem.store (addr (σ.gpr .rbp) r.disp) n w

variable {parts}

lemma WritesAt.of_stored {w : Word} (hr : (id, r) ∈ parts.last.values)
    (hplace : r.access ≠ .constant) (h : Stored σ r.disp w σ') : parts.WritesAt id σ σ' :=
  ⟨h.poised.rbp, .inr ⟨r, 8, w, hr, hplace, le_rfl, h.mem⟩⟩

lemma WritesAt.load (h : parts.WritesAt id σ σ') (hcount : f.params.length < 268435456)
    {q : Residence} (hx : x ≠ .value id) (hq : parts.last.reach? x = some (.residence q))
    (hplace : q.access ≠ .constant) :
    σ'.mem.load (addr (σ'.gpr .rbp) q.disp) 8 = σ.mem.load (addr (σ.gpr .rbp) q.disp) 8 := by
  rw [h.rbp]
  obtain hmem | ⟨r, n, w, hr, hplace', hn, hmem⟩ := h.mem
  · rw [hmem]
  · have hapart := parts.apart hcount hr hplace' hx hq hplace
    rw [hmem]
    exact Memory.load_store_apart _ _ w (by unfold Apart at hapart ⊢; omega)

theorem WritesAt.word (h : parts.WritesAt id σ σ') (hcount : f.params.length < 268435456)
    {v : Source} (hx : x ≠ .value id) (hv : parts.last.source? x = some v) :
    v.word p σ' = v.word p σ := by
  cases v with
  | symbol asm => rfl
  | residence q =>
    rw [Source.word, Source.word]
    cases haccess : q.access with
    | home =>
      exact h.load hcount hx (Session.residence_of_source? hv) (by rw [haccess]; decide)
    | address =>
      dsimp only
      rw [h.rbp]
    | constant => rfl

variable (parts)

lemma word_of_stored (hcount : f.params.length < 268435456) {w : Word}
    (hr : (id, r) ∈ parts.last.values) (hplace : r.access ≠ .constant)
    (hstored : Stored σ r.disp w σ') {v : Source} (hx : x ≠ .value id)
    (hv : parts.last.source? x = some v) : v.word p σ' = v.word p σ :=
  (WritesAt.of_stored hr hplace hstored).word hcount hx hv

/-- The code of an integer operation that is not fused into a branch: its lines, its operands, and
what it stores for every choice of their words. -/
theorem exists_computes (hf : WellFormed.Sound f) (hb : b ∈ parts.order) (hi : i ∈ b.instrs)
    (hkind : i.kind = .binary op) (hint : i.ty.isInteger = true)
    (hplain : b.instrs.getLast?.filter (fuses parts.last · b.term) ≠ some i) :
    ∃ x y vx vy id d code, i.operands = [x, y] ∧ parts.last.source? x = some vx ∧
      parts.last.source? y = some vy ∧ i.result = some id ∧
      (id, { access := .home, ty := op.resultTy i.ty, disp := d }) ∈ parts.last.values ∧
      code.map .instr <:+: Listing.functionItems c ∧ ∀ p σ,
        (∀ w, op.onWords i.ty (vx.word p σ) (vy.word p σ) = some w →
          ∃ σ', execAll p code σ = .ok σ' ∧ Stored σ d w σ') ∧
        (op.onWords i.ty (vx.word p σ) (vy.word p σ) = none →
          execAll p code σ = .error .divide) := by
  obtain ⟨site, s, s', code, hstands, -, hfused, -, hlater, hafter⟩ :=
    parts.exists_stands hb hi (by rw [hkind]; nofun)
  have hflags : site.flagsOnly = false := by
    rw [← Bool.not_eq_true]
    intro h
    obtain ⟨hlast, hfuses⟩ := hfused h
    exact hplain (by rw [hlast, Option.filter_some, if_pos hfuses])
  have hyields : Yields (binary i op) site s () s' := by
    have h := hstands.yields
    rwa [instrCode, hkind] at h
  obtain ⟨form, x, y, -, -, hform, hops, -, -, -, -, hcode⟩ := yields_binary.mp hyields
  rw [form?, if_pos hint, Option.some.injEq] at hform
  subst hform
  have hcomputes (p : Platform) := computes_formCode (p := p) hcode hflags hafter.temps
  have hnodup := parts.nodup_values hf
  have hs := hlater.trans hafter
  obtain ⟨vx, vy, id, d, hvx, hvy, hid, hdefined, -⟩ := hcomputes default
  refine ⟨x, y, vx, vy, id, d, code.map parts.last.temps.boundInstr, hops,
    source?_of_later hs hnodup hvx, source?_of_later hs hnodup hvy, hid, ?_,
    parts.infix_of_blocks hstands.lines, fun p σ => ?_⟩
  · refine hafter.values.subset ?_
    rw [hdefined.values]
    exact List.mem_cons_self
  · -- where operands and result are does not depend on the platform
    obtain ⟨vx', vy', id', d', hvx', hvy', hid', hdefined', hruns⟩ := hcomputes p
    obtain rfl := Option.some.inj (hvx.symm.trans hvx')
    obtain rfl := Option.some.inj (hvy.symm.trans hvy')
    obtain ⟨rfl, -⟩ := Prod.mk.inj (Except.ok.inj (hdefined.allocated.symm.trans hdefined'.allocated))
    refine ⟨fun w hw => ?_, fun hnone => (hruns σ).2 hnone |>.execAll_eq hstands.appended⟩
    obtain ⟨σ', hrun, hstored⟩ := (hruns σ).1 w hw
    exact ⟨σ', hrun.execAll_eq hstands.appended, hstored⟩

end Parts

/-- The code of an integer operation that is not fused into a branch. Let the words of its operands,
wherever these are, be the words of two values of the type. Then the code leaves the word of the
result in its home, and no other operand, nor the stack pointer or the frame pointer, changes. It
faults instead if there is no result, which is only so for a division by zero or for a quotient that
does not fit into 64 bits. Offsets of parameters have 32 bits, so that the function has less than
`2 ^ 28` of them. -/
theorem operation_computes {m : Ir.Module} {c : Compiled} (hm : WellFormed.checkModule m = .ok ())
    (hf : f ∈ m.functions) (h : (compileFunction o f).run start = .ok (c, s))
    (hcount : f.params.length < 268435456) (hb : f.Reached b) (hi : i ∈ b.instrs)
    (hkind : i.kind = .binary op) (hint : i.ty.isInteger = true)
    (hplain : b.instrs.getLast?.filter (fuses s · b.term) ≠ some i) :
    ∃ x y vx vy id d code, i.operands = [x, y] ∧ s.source? x = some vx ∧ s.source? y = some vy ∧
      i.result = some id ∧ (id, { access := .home, ty := op.resultTy i.ty, disp := d }) ∈ s.values ∧
      code.map .instr <:+: Listing.functionItems c.code ∧
      ∀ (p : Platform) (σ : State) (v w : Int), i.ty.Has v → i.ty.Has w →
        vx.word p σ = BitVec.ofInt 64 v → vy.word p σ = BitVec.ofInt 64 w →
        (op.eval i.ty v w = none ↔
          op = .div ∧ (w = 0 ∨ i.ty = .i64 ∧ v = -2 ^ 63 ∧ w = -1)) ∧
        (op.eval i.ty v w = none → execAll p code σ = .error .divide) ∧
        ∀ r, op.eval i.ty v w = some r → (op.resultTy i.ty).Has r ∧
          ∃ σ', execAll p code σ = .ok σ' ∧ Stored σ d (BitVec.ofInt 64 r) σ' ∧
            ∀ x v, x ≠ .value id → s.source? x = some v → v.word p σ' = v.word p σ := by
  obtain ⟨parts, rfl⟩ := exists_parts h
  have hsound := sound_of_checkModule hm hf
  obtain ⟨x, y, vx, vy, id, d, code, hops, hvx, hvy, hid, hhome, hlines, hruns⟩ :=
    parts.exists_computes hsound (parts.mem_order hsound hb) hi hkind hint hplain
  refine ⟨x, y, vx, vy, id, d, code, hops, hvx, hvy, hid, hhome, hlines,
    fun p σ v w hv hw hvv hvw => ?_⟩
  obtain ⟨hok, hfault⟩ := hruns p σ
  have hwords : (op.onWords i.ty (vx.word p σ) (vy.word p σ)).map (op.resultTy i.ty).literal =
      op.eval i.ty v w := by
    rw [BinaryOp.literal_onWords op hint, hvv, hvw, Ty.literal_ofInt hint hv,
      Ty.literal_ofInt hint hw]
  refine ⟨BinaryOp.eval_eq_none_iff hv, fun hnone => hfault ?_, fun r hr => ?_⟩
  · rw [hnone, Option.map_eq_none_iff] at hwords
    exact hwords
  · refine ⟨BinaryOp.has_eval hr, ?_⟩
    rw [hr, Option.map_eq_some_iff] at hwords
    obtain ⟨u, hu, rfl⟩ := hwords
    obtain ⟨σ', hexec, hstored⟩ := hok u hu
    refine ⟨σ', hexec, by rwa [Ty.ofInt_literal], fun x v hx hv => ?_⟩
    exact parts.word_of_stored hcount hhome (by simp) hstored hx hv

/-- The division of the smallest byte by minus one, whose quotient is no byte. -/
def dividesLowest : Ir.Instr where
  result := some 0
  kind := .binary .div
  ty := .int true .byte
  operands := [.const (.int true .byte) (-128), .const (.int true .byte) (-1)]

def wrapsQuotient : Ir.Function where
  ret := .int true .byte
  blocks := [{ instrs := [dividesLowest], term := { exit := .ret, value := some (.value 0) } }]

lemma isOk_wrapsQuotient : ((compileFunction {} wrapsQuotient).run {}).isOk = true := by
  decide +kernel

/-- The quotient wraps around to the smallest byte, which is extended to 64 bits. -/
theorem operation_computes_wrapsQuotient :
    WellFormed.checkModule { functions := [wrapsQuotient] } = .ok () ∧
      ∃ c s d code, (compileFunction {} wrapsQuotient).run {} = .ok (c, s) ∧
        code.map .instr <:+: Listing.functionItems c.code ∧
        ∀ (p : Platform) (σ : State), ∃ σ', execAll p code σ = .ok σ' ∧
          Stored σ d (BitVec.ofInt 64 (-128)) σ' := by
  have hcheck : WellFormed.checkModule { functions := [wrapsQuotient] } = .ok () := by decide
  obtain ⟨c, s, hrun⟩ := exists_run_of_isOk isOk_wrapsQuotient
  obtain ⟨x, y, vx, vy, id, d, code, hops, hvx, hvy, -, -, hlines, hcomputes⟩ :=
    operation_computes (i := dividesLowest) hcheck List.mem_cons_self hrun (by decide) (.entry rfl)
      (by decide) rfl rfl (by simp [fuses])
  cases hops
  cases hvx
  cases hvy
  refine ⟨hcheck, c, s, d, code, hrun, hlines, fun p σ => ?_⟩
  obtain ⟨-, -, hresult⟩ := hcomputes p σ (-128) (-1) (by decide) (by decide) rfl rfl
  obtain ⟨-, σ', hexec, hstored, -⟩ := hresult (-128) (by decide)
  exact ⟨σ', hexec, hstored⟩

end NativeCode.Compile
