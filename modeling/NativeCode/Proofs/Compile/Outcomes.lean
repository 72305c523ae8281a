import NativeCode.Compile.Module
import NativeCode.Proofs.ControlFlow.Order
import NativeCode.Proofs.Selection.Outcomes
import NativeCode.Proofs.Symbols

/-!
# Why compilation stops

A module that passes the checks is never given up for its structure: all targets exist, and all names
that it defines are new. A module in which every construct has its shape is never given up for the
shape of one, so that neither happens to a module that has been read from a text and checked.
-/

namespace NativeCode.Compile

open Abi Selection
open Selection (Session)

variable {o : Options} {f : Ir.Function} {W : Prop}

/-! ### Blocks -/

lemma halts_mapError {α : Type} {I : Session → Prop} {Q : α → Prop} {x : Emit α}
    (hx : Stops I W Q x) (site : Site) (construct : String) (loc : Source.Loc) :
    Halts I W Q fun s => ((x.run site).run s).mapError fun e => e.locate construct loc := by
  refine halts_of fun s hs => ⟨fun r hr => ?_, fun e he => ?_⟩
  · exact (hx site).of_ok hs (mapError_eq_ok_iff.mp hr)
  · obtain ⟨e', he', rfl⟩ := mapError_eq_error_iff.mp he
    exact (hx site).fails hs e' he'

lemma admits_opens (f : Ir.Function) (name : String) : Admits (Session.Opens f) name :=
  fun _ _ _ hs _ => ⟨⟨hs.function, hs.params⟩, fun _ _ hs' => ⟨hs'.function, hs'.params⟩⟩

lemma halts_selectInstr {i : Ir.Instr} (hi : W → i.Shaped f.params.length f.ret) (fused : Bool) :
    Halts (Session.Opens f) W ⊤ (selectInstr o i fused) :=
  halts_mapError (stops_instrCode (fun name _ => admits_opens f name) hi) _ _ _

lemma halts_selectTerm {t : Ir.Terminator} (ht : W → t.Shaped f.params.length f.ret)
    (next : Option Nat) : Halts (Session.Opens f) W ⊤ (selectTerm o t next) :=
  halts_mapError (stops_leave ht next) _ _ _

lemma halts_release : Halts (Session.Opens f) W ⊤ (modify Session.release) :=
  halts_modify fun _ hs => ⟨hs.function, hs.params⟩

lemma halts_closeBlock (label : String) :
    Halts (Session.Opens f) W ⊤ (closeBlock label) :=
  fun _ hs => ⟨⟨hs.function, hs.params⟩, trivial⟩

lemma halts_freshLabel (hint : String) :
    Halts (Session.Opens f) W ⊤ (freshLabel hint) :=
  fun _ hs => ⟨⟨hs.function, hs.params⟩, trivial⟩

lemma halts_compileInstrs {t : Ir.Terminator} {is : List Ir.Instr}
    (his : W → ∀ i ∈ is, i.Shaped f.params.length f.ret) (label : String)
    (closed : List Machine.Block) :
    Halts (Session.Opens f) W ⊤ (compileInstrs o t is label closed) := by
  induction is generalizing label closed with
  | nil => exact halts_pure trivial
  | cons i is ih =>
    have hi (hW : W) : i.Shaped f.params.length f.ret := his hW i List.mem_cons_self
    have hrest (label : String) (closed : List Machine.Block) :=
      ih (fun hW j hj => his hW j (List.mem_cons_of_mem i hj)) label closed
    refine halts_get_bind fun s _ => halts_bind (halts_selectInstr hi _) fun _ _ => ?_
    refine halts_bind halts_release fun _ _ => ?_
    split_ifs
    · exact halts_bind (halts_closeBlock _) fun _ _ => halts_bind (halts_freshLabel _) fun _ _ =>
        hrest _ _
    · exact hrest _ _

lemma halts_compileBlock {b : Ir.Block} (hb : W → b.Shaped f.params.length f.ret)
    (next : Option Nat) : Halts (Session.Opens f) W ⊤ (compileBlock o b next) := by
  refine halts_get_bind fun s _ => ?_
  refine halts_bind (halts_compileInstrs (fun hW => (hb hW).instrs) _ _) fun r _ => ?_
  refine halts_bind (halts_selectTerm (fun hW => (hb hW).term) next) fun _ _ => ?_
  refine halts_bind halts_release fun _ _ => ?_
  exact halts_bind (halts_closeBlock _) fun _ _ => halts_pure trivial

lemma halts_compileEach {bs : List Ir.Block}
    (hbs : W → ∀ b ∈ bs, b.Shaped f.params.length f.ret) :
    Halts (Session.Opens f) W ⊤ (compileEach o bs) := by
  induction bs with
  | nil => exact halts_pure trivial
  | cons b bs ih =>
    refine halts_bind (halts_compileBlock (fun hW => hbs hW b List.mem_cons_self) _) fun _ _ => ?_
    refine halts_bind (ih fun hW b' hb' => hbs hW b' (List.mem_cons_of_mem b hb')) fun _ _ => ?_
    exact halts_pure trivial

lemma halts_compileBlocks (hf : WellFormed.Sound f) (hshaped : W → f.Shaped) :
    Halts (Session.Opens f) W ⊤ (compileBlocks o f) := by
  obtain ⟨bs, hbs⟩ := ControlFlow.exists_order hf.nonempty hf.targets
  rw [compileBlocks, hbs]
  refine halts_lift_bind (fails_ok bs) fun bs' h => ?_
  cases h
  exact halts_compileEach fun hW b hb =>
    (hshaped hW).blocks b ((ControlFlow.ordered_of_order hbs).mem b hb)

/-! ### Functions -/

lemma halts_newSlot : Halts (Session.Opens f) W ⊤ newSlot := by
  refine halts_get_bind fun s hs => halts_lift_bind (fails_of_plain (s.raises_allocate 8)) fun r hr => ?_
  exact halts_bind (halts_set (kept_of_allocate hs hr)) fun _ _ => halts_pure trivial

lemma halts_homeParam (p : Ir.Param) (placement : Placement) :
    Halts (Session.Opens f) W ⊤ (homeParam p placement) := by
  obtain ⟨cls, place⟩ := placement
  cases place with
  | stack offset =>
    rw [homeParam]
    dsimp only
    split_ifs
    · exact halts_bind halts_newSlot fun _ _ => halts_pure trivial
    · exact halts_pure trivial
  | register r =>
    refine halts_bind halts_newSlot fun _ _ => ?_
    cases cls <;> exact halts_pure trivial

lemma halts_homeEach {index : Nat} {ps : List (Ir.Param × Placement)}
    (hps : index + ps.length ≤ f.params.length) :
    Halts (Session.Opens f) W ⊤ (homeEach index ps) := by
  induction ps generalizing index with
  | nil => exact halts_pure trivial
  | cons q ps ih =>
    obtain ⟨p, placement⟩ := q
    rw [List.length_cons] at hps
    refine halts_bind (halts_homeParam p placement) fun r _ => halts_get_bind fun s hs => ?_
    have hindex : index < s.params.length := by
      rw [hs.params]
      omega
    rw [Session.setParam, if_pos hindex]
    refine halts_lift_bind (fails_ok _) fun t ht => ?_
    cases ht
    refine halts_bind (halts_set ⟨hs.function, ?_⟩) fun _ _ => ?_
    · rw [List.length_set]
      exact hs.params
    · exact halts_bind (ih (by omega)) fun _ _ => halts_pure trivial

lemma halts_homeParams (c : Convention) :
    Halts (Session.Opens f) W ⊤ (homeParams c.target f) := by
  refine halts_lift_bind (fails_of_plain (raises_place c _)) fun placements _ => halts_homeEach ?_
  rw [Nat.zero_add, List.length_zip]
  exact min_le_left _ _

section Binding

variable {A : Cause → Prop}

lemma fails_layout (hA : ∀ bytes limit, A (.frameTooLarge bytes limit)) (n : Frame.Needs)
    (t : Target) (saved : List Machine.PhysReg) (limit : Int) : Fails A (n.layout t saved limit) := by
  delta Frame.Needs.layout
  exact fails_ite (hA _ _) _ _ _

lemma fails_mapM {α β : Type} {g : α → Except Failure β} (hg : ∀ a, Fails A (g a))
    (l : List α) : Fails A (l.mapM g) := by
  induction l with
  | nil => exact fails_ok _
  | cons a l ih =>
    rw [List.mapM_cons]
    exact fails_bind (hg a) fun _ _ => fails_bind ih fun _ _ => fails_ok _

variable (hA : ∀ id, A (.temporaryUnknown id)) (τ : Temps)

include hA

lemma fails_bindReg (r : Machine.Reg) : Fails A (τ.bindReg r) := by
  cases r with
  | phys r => exact fails_ok _
  | temp id cls =>
    rw [Temps.bindReg, Temps.reg]
    cases τ.regs[id]? with
    | none => exact fails_fail (hA _) _ _
    | some r => exact fails_ok _

lemma fails_bindOperand (x : Machine.Operand) : Fails A (τ.bindOperand x) := by
  cases x with
  | reg r => exact fails_bind (fails_bindReg hA τ _) fun _ _ => fails_ok _
  | mem m =>
    obtain ⟨base, disp, index⟩ := m
    refine fails_bind (fails_bindReg hA τ _) fun _ _ => ?_
    cases index with
    | none => exact fails_ok _
    | some index => exact fails_bind (fails_bindReg hA τ _) fun _ _ => fails_ok _
  | imm | label | symbol | rip => exact fails_ok _

lemma fails_bindInstrs (is : List Machine.Instr) : Fails A (is.mapM τ.bindInstr) := by
  refine fails_mapM (fun i => ?_) is
  exact fails_bind (fails_mapM (fails_bindOperand hA τ) i.operands) fun _ _ => fails_ok _

lemma fails_temps_bind (c : Machine.Function) : Fails A (τ.bind c) := by
  refine fails_bind (fails_bindInstrs hA τ c.prologue) fun _ _ => ?_
  refine fails_bind (fails_mapM (fun b => ?_) c.blocks) fun _ _ => ?_
  · exact fails_bind (fails_bindInstrs hA τ b.code) fun _ _ => fails_ok _
  · exact fails_bind (fails_bindInstrs hA τ c.epilogue) fun _ _ => fails_ok _

end Binding

lemma halts_compileBody (hf : WellFormed.Sound f) (hshaped : W → f.Shaped) :
    Halts (Session.Opens f) W ⊤ (compileBody o f) := by
  delta compileBody
  refine halts_check (fun _ => halts_throw (allows_of rfl fun _ => rfl)) fun _ => ?_
  refine halts_bind (halts_homeParams _) fun homing _ => ?_
  refine halts_bind (halts_modify fun _ hs => ⟨hs.function, hs.params⟩) fun _ _ => ?_
  refine halts_bind (halts_compileBlocks hf hshaped) fun r _ => halts_get_bind fun s _ => ?_
  refine halts_lift_bind (fails_layout (fun _ _ => allows_of rfl fun _ => rfl) _ _ _ _) fun _ _ => ?_
  refine halts_lift_bind (fails_temps_bind (fun _ => allows_of rfl fun _ => rfl) _ _) fun _ _ => ?_
  exact halts_pure trivial

/-- A function that passes the checks is never given up for the structure of the module, and for the
shape of a construct only if one is not shaped. -/
theorem fails_compileFunction (hf : WellFormed.Sound f) (hshaped : W → f.Shaped) (s : Session) :
    Fails (Allows W) ((compileFunction o f).run s) := by
  have hopens : (s.enter f (asmName o s.symbols f)).Opens f := ⟨rfl, List.length_map _⟩
  intro e he
  change ((compileBody o f).run _).mapError _ = _ at he
  obtain ⟨e', he', rfl⟩ := mapError_eq_error_iff.mp he
  exact (halts_compileBody hf hshaped).fails hopens e' he'

lemma fails_compileFunctions {fs : List Ir.Function} (hfs : ∀ f ∈ fs, WellFormed.Sound f)
    (hshaped : W → ∀ f ∈ fs, f.Shaped) (s : Session) :
    Fails (Allows W) ((compileFunctions o fs).run s) := by
  induction fs generalizing s with
  | nil => exact fails_ok _
  | cons f fs ih =>
    obtain ⟨hf, hfs⟩ := List.forall_mem_cons.mp hfs
    refine fails_bind (fails_compileFunction hf (fun hW => hshaped hW f List.mem_cons_self) s) ?_
    intro r _
    refine fails_bind (ih hfs (fun hW g hg => hshaped hW g (List.mem_cons_of_mem f hg)) r.2) ?_
    exact fun _ _ => fails_ok _

/-! ### Modules -/

lemma fails_checkGlobal (g : Ir.Global) : Fails (Allows W) (checkGlobal g) := by
  rw [checkGlobal]
  split_ifs
  · exact fails_bind (fails_fail (allows_of rfl fun _ => rfl) _ _) fun _ _ =>
      fails_fail (allows_of rfl fun _ => rfl) _ _
  · exact fails_bind (fails_fail (allows_of rfl fun _ => rfl) _ _) fun _ _ => fails_ok _
  · exact fails_fail (allows_of rfl fun _ => rfl) _ _
  · exact fails_ok _

lemma exists_layoutGlobals_cons {g : Ir.Global} (gs : List Ir.Global) (u : Sections)
    {symbols : Symbols} (l : Listing) (hname : g.name ∉ symbols.sources) :
    ∃ e, e.source = g.name ∧
      symbols.define g.name (if g.isConstant then .constant else .variable) (some (u.place g).1) =
        .ok (e, symbols.push e) ∧
      layoutGlobals (g :: gs) u symbols l = checkGlobal g >>= fun _ =>
        layoutGlobals gs (u.place g).2 (symbols.push e)
          ((globalItems g e.asm).foldl (·.append (u.place g).1.sec ·) l) := by
  obtain ⟨e, he, hdefine⟩ := Symbols.define_of_not_mem hname
    (if g.isConstant then .constant else .variable) (some (u.place g).1)
  refine ⟨e, he, hdefine, ?_⟩
  rw [layoutGlobals]
  simp only [hdefine]
  rfl

lemma fails_layoutGlobals {gs : List Ir.Global} (u : Sections) {symbols : Symbols}
    (l : Listing) (hnew : (symbols.sources ++ gs.map (·.name)).Nodup) :
    Fails (Allows W) (layoutGlobals gs u symbols l) ∧
      ∀ r, layoutGlobals gs u symbols l = .ok r →
        r.1.sources = symbols.sources ++ gs.map (·.name) := by
  induction gs generalizing u symbols l with
  | nil =>
    refine ⟨fails_ok _, fun r hr => ?_⟩
    cases hr
    simp
  | cons g gs ih =>
    have hname : g.name ∉ symbols.sources := fun hmem =>
      List.disjoint_of_nodup_append hnew hmem (by simp)
    obtain ⟨e, he, -, hstep⟩ := exists_layoutGlobals_cons gs u l hname
    have hcons : (symbols.push e).sources ++ gs.map (·.name) =
        symbols.sources ++ (g :: gs).map (·.name) := by
      simp [he]
    have hrest := ih (u.place g).2 ((globalItems g e.asm).foldl (·.append (u.place g).1.sec ·) l)
      (hcons ▸ hnew)
    rw [hstep]
    refine ⟨fails_bind (fails_checkGlobal g) fun _ _ => hrest.1, fun r hr => ?_⟩
    obtain ⟨-, -, hr⟩ := exists_ok_of_bind hr
    rw [hrest.2 r hr, hcons]

lemma exists_defineFunctions {fs : List Ir.Function} {symbols : Symbols}
    (hnew : (symbols.sources ++ fs.map (·.name)).Nodup) :
    ∃ table, defineFunctions fs symbols = .ok table := by
  induction fs generalizing symbols with
  | nil => exact ⟨symbols, rfl⟩
  | cons f fs ih =>
    have hname : f.name ∉ symbols.sources := fun hmem =>
      List.disjoint_of_nodup_append hnew hmem (by simp)
    obtain ⟨e, he, hdefine⟩ := Symbols.define_of_not_mem hname .function none
    rw [defineFunctions, hdefine]
    exact ih (by simpa [he] using hnew)

/-- Once the globals of a module that passes the checks are laid out, its functions are entered. -/
theorem exists_table {m : Ir.Module} (h : WellFormed.checkModule m = .ok ()) {start : Listing}
    {r : Symbols × Listing} (hr : layoutGlobals m.globals {} { stem := o.stem } start = .ok r) :
    ∃ table, defineFunctions m.functions r.1 = .ok table := by
  have hnames := (WellFormed.checkModule_eq_ok_iff.mp h).1
  have hnew : (({ stem := o.stem } : Symbols).sources ++ m.globals.map (·.name)).Nodup :=
    (List.nodup_append'.mp hnames).1
  refine exists_defineFunctions ?_
  rw [(fails_layoutGlobals (W := False) {} start hnew).2 r hr]
  exact hnames

/-- A module that passes the checks is never given up for its structure, and for the shape of a
construct only if one of its functions is not shaped. -/
theorem fails_compileModule {m : Ir.Module} (h : WellFormed.checkModule m = .ok ())
    (hshaped : W → ∀ f ∈ m.functions, f.Shaped) : Fails (Allows W) (compileModule o m) := by
  obtain ⟨hnames, hsound⟩ := WellFormed.checkModule_eq_ok_iff.mp h
  have hnew : (({ stem := o.stem } : Symbols).sources ++ m.globals.map (·.name)).Nodup :=
    (List.nodup_append'.mp hnames).1
  refine fails_bind (fails_bind (by rw [h]; exact fails_ok _) fun _ _ => ?_) fun _ _ => fails_ok _
  refine fails_bind (fails_layoutGlobals {} _ hnew).1 fun r hr => ?_
  obtain ⟨table, htable⟩ := exists_table h hr
  refine fails_bind (by rw [htable]; exact fails_ok _) fun _ _ => ?_
  exact fails_bind (fails_compileFunctions hsound hshaped _) fun _ _ => fails_ok _

/-! ### What the checks blame -/

section Checks

variable {A : Cause → Prop} {name : String}

end Checks

/-- The checks pass exactly the modules that define no name twice and whose functions are sound, and
the structure of a module that passes is not blamed later, whatever the options are. -/
theorem checks_exact (m : Ir.Module) :
    (WellFormed.checkModule m = .ok () ↔
      (WellFormed.definedNames m).Nodup ∧ ∀ f ∈ m.functions, WellFormed.Sound f) ∧
    (WellFormed.checkModule m = .ok () → ∀ o e, compileModule o m = .error e →
      e.cause.kind ≠ .unsupportedConstruct) := by
  refine ⟨WellFormed.checkModule_eq_ok_iff, fun h o e he => ?_⟩
  exact (fails_compileModule (W := False) h False.elim e he).1

/-- A module with a variable and a function that returns a value which nothing computes. -/
def returnsUnknown : Ir.Module where
  globals := [{ name := "g", ty := .i64, init := some 1 }]
  functions := [{
    name := "f"
    params := [⟨"n", .i64⟩]
    ret := .i64
    blocks := [
      { id := 0, term := { exit := .branch 1 2, value := some (.param 0) } },
      { id := 1, term := { exit := .ret, value := some (.value 7) } },
      { id := 2, term := { exit := .ret, value := some (.const .i64 0) } }] }]

lemma isOk_returnsUnknown : (compileModule {} returnsUnknown).isOk = false := by
  decide +kernel

/-- It passes the checks and is given up later, but not for its structure. -/
theorem checks_exact_returnsUnknown :
    WellFormed.checkModule returnsUnknown = .ok () ∧
      (WellFormed.definedNames returnsUnknown).Nodup ∧
      ∃ e, compileModule {} returnsUnknown = .error e ∧ e.cause.kind ≠ .unsupportedConstruct := by
  have hcheck : WellFormed.checkModule returnsUnknown = .ok () := by decide
  obtain ⟨hexact, hlater⟩ := checks_exact returnsUnknown
  refine ⟨hcheck, (hexact.mp hcheck).1, ?_⟩
  cases hrun : compileModule {} returnsUnknown with
  | ok r =>
    have hok := isOk_returnsUnknown
    rw [hrun] at hok
    cases hok
  | error e => exact ⟨e, rfl, hlater hcheck _ e hrun⟩

end NativeCode.Compile
