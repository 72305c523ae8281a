import NativeCode.Proofs.Compile.Listed
import NativeCode.Proofs.Selection.Replay

/-!
# What names refer to

All names that a module defines are entered before its first function is compiled, so that it does not
matter where in the module a name is defined. A call refers to a function of the module if there is
one of this name, and else to an external function. An address refers to a global of the module: where
there is none of this name, the construct that takes the address is not compiled, and a call of a
global is not compiled either.
-/

namespace NativeCode.Selection

open Abi Machine

/-- A name stands for data in the table of a session. -/
def Session.HasData (s : Session) (n : String) : Prop := (s.symbols.dataName? n).isSome = true

variable {site : Site} {s s' : Session} {i : Ir.Instr} {n : String} {u : Unit} {r : Reg} {src : Operand}
  {q : RegOperand} {args : List (Ir.Operand × Placement)}

lemma Session.HasData.of_alike (h : s'.HasData n) (hs : s.Alike s') : s.HasData n := by
  rwa [HasData, hs.symbols] at h

/-! ### Operands -/

lemma hasData_of_source? {v : Source} (h : s.source? (.global n) = some v) :
    s.HasData n := by
  obtain ⟨e, he, -⟩ := Option.map_eq_some_iff.mp h
  rw [Session.HasData, Symbols.dataName?, he]
  rfl

lemma hasData_loadGprInto (h : Yields (loadGprInto (.global n) q) site s u s') : s.HasData n:= by
  obtain ⟨v, hv, -⟩ := yields_loadGprInto.mp h
  exact hasData_of_source? hv

lemma hasData_loadGpr (h : Yields (loadGpr (.global n)) site s r s') : s.HasData n := by
  obtain ⟨_, v, -, hv, -⟩ := yields_loadGpr.mp h
  exact hasData_of_source? hv

lemma hasData_gprSource (h : Yields (gprSource (.global n)) site s src s') :
    s.HasData n := by
  obtain ⟨v, hv, -⟩ := gprSource_cases h
  exact hasData_of_source? hv

lemma hasData_loadXmmInto (h : Yields (loadXmmInto (.global n) q) site s u s') : s.HasData n:= by
  obtain ⟨_, hr, -, ⟨_, rfl, -⟩ | ⟨_, _, ht, -⟩⟩ := loadXmmInto_cases h
  · cases hr
  · exact hasData_loadGpr ht

lemma hasData_loadXmm (h : Yields (loadXmm (.global n)) site s r s') : s.HasData n := by
  obtain ⟨_, -, -, hload⟩ := yields_loadXmm.mp h
  exact hasData_loadXmmInto hload

lemma hasData_xmmSource (h : Yields (xmmSource (.global n)) site s src s') :
    s.HasData n := by
  obtain ⟨_, hr, -⟩ | ⟨_, ht, -⟩ := xmmSource_cases h
  · cases hr
  · exact hasData_loadXmm ht

lemma hasData_addressOf (h : Yields (addressOf (.global n)) site s src s') :
    s.HasData n := by
  obtain ⟨_, hr, -, ⟨_, hv, -⟩ | ⟨_, rfl, -⟩ | ⟨_, _, rfl, -⟩⟩ := addressOf_cases h
  · exact hasData_of_source? hv
  · cases hr
  · cases hr

lemma hasData_storeSource {w : Width}
    (h : Yields (storeSource (.global n) w) site s src s') : s.HasData n := by
  obtain ⟨_, hr, ⟨_, hknown, -⟩ | ⟨_, ht, -⟩⟩ := storeSource_cases h
  · cases hr
    cases hknown
  · exact hasData_loadGpr ht

/-! ### Constructs -/

lemma hasData_formCode {op : Ir.BinaryOp} {a b : Ir.Operand} {form : Form}
    (h : Yields (formCode i op a b form) site s u s') (hx : .global n ∈ [a, b]) : s.HasData n := by
  rw [List.mem_cons, List.mem_singleton] at hx
  cases form with
  | arith =>
    obtain ⟨_, _, _, _, ha, hb, -⟩ := arith_cases h
    rcases hx with rfl | rfl
    · exact hasData_loadGpr ha
    · exact (hasData_gprSource hb).of_alike (alike_loadGpr ha)
  | divide =>
    obtain ⟨_, _, _, ha, hb, -⟩ := divide_cases h
    rcases hx with rfl | rfl
    · exact hasData_loadGprInto ha
    · obtain ⟨_, _, hsrc, -⟩ := divisor_cases hb
      exact (hasData_gprSource hsrc).of_alike ((alike_loadGprInto ha).trans (.push _ _))
  | shift =>
    obtain ⟨_, _, _, _, ha, hr, hcount, -⟩ := shift_cases h
    rcases hx with rfl | rfl
    · exact hasData_loadGpr ha
    · cases hr
      obtain ⟨_, hknown, -⟩ | ⟨_, -, hb, -⟩ := hcount
      · cases hknown
      · exact (hasData_loadGprInto hb).of_alike (alike_loadGpr ha)
  | compare =>
    obtain ⟨_, _, _, _, _, ha, hb, -⟩ := yields_compare.mp h
    rcases hx with rfl | rfl
    · exact hasData_loadGpr ha
    · exact (hasData_gprSource hb).of_alike (alike_loadGpr ha)
  | floatArith =>
    obtain ⟨_, _, _, _, ha, hb, -⟩ := floatArith_cases h
    rcases hx with rfl | rfl
    · exact hasData_loadXmm ha
    · exact (hasData_xmmSource hb).of_alike (alike_loadXmm ha)
  | floatCompare =>
    obtain ⟨first, second, _, _, _, _, _, _, _, hpair, ha, hb, -⟩ := floatCompare_cases h
    have hx : .global n = first ∨ .global n = second := by
      split_ifs at hpair <;> cases hpair
      · exact hx.symm
      · exact hx
    rcases hx with rfl | rfl
    · exact hasData_loadXmm ha
    · exact (hasData_xmmSource hb).of_alike (alike_loadXmm ha)

lemma hasData_returnValue {value : Option Ir.Operand} {text : String}
    (h : Yields (returnValue value text) site s u s') (hx : value = some (.global n)) :
    s.HasData n := by
  obtain ⟨_, -, ⟨hnone, -⟩ | ⟨v, hv, -, -, ⟨-, hload⟩ | ⟨-, hload⟩⟩⟩ := returnValue_cases h
  · cases hx.symm.trans hnone
  · cases hx.symm.trans hv
    exact hasData_loadXmmInto hload
  · cases hx.symm.trans hv
    exact hasData_loadGprInto (s := { s with returns := true }) hload

lemma hasData_stackArguments
    (h : Yields (stackArguments args) site s u s') {p : Placement} (hx : (.global n, p) ∈ args)
    {offset : Int} (hp : p.place = .stack offset) : s.HasData n := by
  induction args generalizing s with
  | nil => cases hx
  | cons a args ih =>
    obtain ⟨s₁, hrest, ⟨r, hr, rfl⟩ | ⟨_, t, s₂, -, ht, rfl⟩⟩ := stackArguments_cons_cases h
    all_goals rcases List.mem_cons.mp hx with rfl | hx
    · cases hp.symm.trans hr
    · exact ih hrest hx
    · exact hasData_loadGpr ht
    · exact (ih hrest hx).of_alike ((alike_loadGpr ht).trans (.push _ _))

lemma hasData_registerArguments
    (h : Yields (registerArguments args) site s u s') {p : Placement} (hx : (.global n, p) ∈ args)
    {q : PhysReg} (hp : p.place = .register q) : s.HasData n := by
  induction args generalizing s with
  | nil => cases hx
  | cons a args ih =>
    obtain ⟨s₁, hrest, ⟨offset, hoffset, rfl⟩ | ⟨_, -, -, ha⟩ | ⟨_, -, -, ha⟩⟩ :=
      registerArguments_cons_cases h
    all_goals rcases List.mem_cons.mp hx with rfl | hx
    · cases hp.symm.trans hoffset
    · exact ih hrest hx
    · exact hasData_loadGprInto ha
    · exact (ih hrest hx).of_alike (alike_loadGprInto ha)
    · exact hasData_loadXmmInto ha
    · exact (ih hrest hx).of_alike (alike_loadXmmInto ha)

lemma hasData_call {name : String} (h : Yields (call i name) site s u s')
    (hx : .global n ∈ i.operands) : s.HasData n := by
  obtain ⟨e, symbols, tys, placements, s₁, s₂, s₃, hcallee, htys, hplace, hstack, hregs, -⟩ :=
    call_cases h
  have hlength : i.operands.length ≤ placements.length := by
    rw [htys.length_eq, (place_eq_ok hplace).2.length_eq]
  obtain ⟨⟨x, p⟩, hp, rfl⟩ : ∃ a ∈ i.operands.zip placements, a.1 = .global n := by
    rw [← List.map_fst_zip hlength] at hx
    exact List.mem_map.mp hx
  have hdata : ({ s with symbols } : Session).HasData n := by
    cases hplace : p.place with
    | stack offset => exact hasData_stackArguments hstack hp hplace
    | register q =>
      exact (hasData_registerArguments hregs hp hplace).of_alike (alike_stackArguments hstack)
  rw [Session.HasData, (Symbols.alike_of_callee hcallee).data]
  exact hdata

/-- The data that an instruction reads is in the table. -/
theorem hasData_of_instrCode (h : Yields (instrCode i) site s u s')
    (halloca : i.kind = .alloca → i.operands = []) (hx : .global n ∈ i.operands) : s.HasData n := by
  unfold instrCode at h
  split at h <;> rename_i hkind
  case h_1 op =>
    obtain ⟨form, a, b, _, _, -, hops, -, -, -, -, hcode⟩ := yields_binary.mp h
    exact hasData_formCode hcode (hops ▸ hx)
  case h_2 =>
    obtain ⟨_, _, _, _, _, hops, -, hsrc, -⟩ := load_cases h
    cases List.mem_singleton.mp (hops ▸ hx)
    exact hasData_addressOf hsrc
  case h_3 =>
    obtain ⟨_, _, _, _, s₁, _, _, hops, -, -, -, hdst, hend⟩ := store_cases h
    rw [hops, List.mem_cons, List.mem_singleton] at hx
    obtain ⟨-, _, hvalue, -⟩ | ⟨-, hvalue, -⟩ := hend
    all_goals rcases hx with rfl | rfl
    · exact hasData_loadXmm hvalue
    · exact (hasData_addressOf hdst).of_alike (alike_loadXmm hvalue)
    · exact hasData_storeSource hvalue
    · exact (hasData_addressOf hdst).of_alike (alike_storeSource hvalue)
  case h_4 name => exact hasData_call h hx
  case h_5 =>
    obtain ⟨s₁, hvalue⟩ := exists_returnValue_of_earlyReturn h hx
    exact hasData_returnValue hvalue rfl
  case h_6 =>
    rw [halloca hkind] at hx
    cases hx
  case h_7 =>
    obtain ⟨literal, _, _, _, hops, -, hr, hknown, -⟩ := constant_cases h
    cases List.mem_singleton.mp (hops ▸ hx)
    cases hr
    cases hknown

theorem hasData_of_leave {t : Ir.Terminator} {next : Option Nat}
    (h : Yields (leave t next) site s u s') (hexit : t.exit = .ret)
    (hx : t.value = some (.global n)) : s.HasData n := by
  rw [leave, hexit, yields_bind] at h
  obtain ⟨⟨⟩, _, hvalue, -⟩ := h
  exact hasData_returnValue hvalue hx

end NativeCode.Selection

namespace NativeCode.Compile

open Machine Selection
open Selection (Session)

variable {o : Options} {m : Ir.Module} {f : Ir.Function} {l : Listing} {cs : List Compiled}
  {s s' : Session} {site : Site} {n : String}

/-! ### Functions of a module -/

lemma Listed.exists_tabled (h : Listed o m l cs) (hf : f ∈ m.functions) :
    ∃ order, ControlFlow.order f = .ok order ∧
      (WellFormed.Sound f → ∀ b, f.Reached b → b ∈ order) ∧
      ∀ c ∈ constructs order, ∃ site s s',
        Tabled o m s.symbols ∧ Yields c.select site s () s' := by
  obtain ⟨c, hc⟩ := h.exists_compiledIn.1 f hf
  obtain ⟨start, parts, htabled, -⟩ := hc.exists_parts hf
  exact ⟨parts.order, parts.ordered, fun hsound b hb => parts.mem_order hsound hb,
    fun c hc => parts.exists_tabled htabled (fun b hb i hi name => Ir.mem_names_of_callee? hf hb hi) hc⟩

lemma Listed.exists_global (h : Listed o m l cs) {i : Instr}
    (hi : i ∈ l.text.toList.filterMap Item.instr?) (hn : .rip n ∈ i.operands) :
    ∃ g ∈ m.globals, n = o.stem ++ g.name := by
  rw [h.text, List.filterMap_flatMap] at hi
  obtain ⟨c, hc, hi⟩ := List.mem_flatMap.mp hi
  obtain ⟨f, hf, hcompiled⟩ := h.exists_compiledIn.2 c hc
  obtain ⟨start, parts, htabled, -⟩ := hcompiled.exists_parts hf
  obtain ⟨name, hname, rfl⟩ := (parts.names_instrs (C := fun _ => True) htabled
    (fun b hb i hi name => Ir.mem_names_of_callee? hf hb hi) (fun _ _ => trivial)
    (fun _ _ => trivial) i hi).operands _ hn
  obtain ⟨g, hg, rfl⟩ := List.mem_map.mp hname
  exact ⟨g, hg, rfl⟩

lemma Tabled.mem_globals (hs : Tabled o m s.symbols) (h : s.HasData n) :
    n ∈ m.globals.map (·.name) ∧ n ∉ m.functions.map (·.name) := by
  rw [Session.HasData, hs.dataName?_eq] at h
  split_ifs at h with hfunction hglobal
  · cases h
  · exact ⟨hglobal, hfunction⟩
  · cases h

lemma Tabled.not_mem_globals (hs : Tabled o m s.symbols)
    (hnodup : (WellFormed.definedNames m).Nodup) {i : Ir.Instr} (hn : i.callee? = some n)
    (h : Yields (instrCode i) site s () s') : n ∉ m.globals.map (·.name) := by
  have hcall : Yields (call i n) site s () s' := by
    rw [Ir.Instr.callee?] at hn
    split at hn
    case h_2 => cases hn
    case h_1 name hkind =>
      cases hn
      rw [instrCode, hkind] at h
      exact h
  obtain ⟨e, symbols, _, _, _, _, _, hcallee, -⟩ := call_cases hcall
  have hname : s.symbols.calleeName? n = some e.asm := by
    rw [Symbols.calleeName?, hcallee]
    rfl
  rw [hs.calleeName?_eq] at hname
  split_ifs at hname with hfunction hglobal
  · exact fun hglobal => List.disjoint_of_nodup_append hnodup hglobal hfunction
  · exact hglobal

/-- In a module that compiles, all names refer to its own definitions, wherever these stand and whatever
is declared external besides. A call line has the name of the function with the stem in front if the
module defines it and without it if not, and it is never that of a global. An address is that of a
global with the stem in front. If the module has been read from a text, then its reachable blocks call
no global, and the data that their instructions read or that they return is a global and no function. -/
theorem references_resolve {out : Output} (h : compileModule o m = .ok out) :
    ∃ l trace, listModule o m = .ok (l, trace) ∧ out.asm = (l.print o.comments).text ∧
      (l.text.toList.filterMap Item.instr?).filterMap Instr.callee? =
        (m.functions.flatMap Ir.Function.callees).map
          (Symbols.spelling o.stem (m.functions.map (·.name))) ∧
      (∀ n ∈ m.functions.flatMap Ir.Function.callees, n ∉ m.globals.map (·.name)) ∧
      (∀ i ∈ l.text.toList.filterMap Item.instr?, ∀ n, .rip n ∈ i.operands →
        ∃ g ∈ m.globals, n = o.stem ++ g.name) ∧
      ∀ file text, Ir.Reader.readModule file text = .ok m → ∀ f ∈ m.functions, ∀ b, f.Reached b →
        (∀ i ∈ b.instrs, (∀ n, i.kind = .call n → n ∉ m.globals.map (·.name)) ∧
          ∀ n, .global n ∈ i.operands →
            n ∈ m.globals.map (·.name) ∧ n ∉ m.functions.map (·.name)) ∧
        (b.term.exit = .ret → ∀ n, b.term.value = some (.global n) →
          n ∈ m.globals.map (·.name) ∧ n ∉ m.functions.map (·.name)) := by
  obtain ⟨⟨l, trace⟩, hlist, hout⟩ := exists_ok_of_bind h
  obtain ⟨cs, hlisted⟩ := exists_listed hlist
  refine ⟨l, trace, hlist, ?_, hlisted.callees_eq, fun n hn => ?_,
    fun i hi n hn => hlisted.exists_global hi hn, fun file text hread f hf b hb => ?_⟩
  · cases hout
    rfl
  · obtain ⟨f, hf, hn⟩ := List.mem_flatMap.mp hn
    obtain ⟨order, horder, -, htabled⟩ := hlisted.exists_tabled hf
    rw [Ir.Function.callees, horder] at hn
    obtain ⟨i, hi, hcallee⟩ := List.mem_filterMap.mp hn
    obtain ⟨b, hb, hi⟩ := List.mem_flatMap.mp hi
    obtain ⟨site, s, s', hs, hyields⟩ := htabled _ (instr_mem_constructs hb hi)
    exact hs.not_mem_globals hlisted.names hcallee hyields
  · obtain ⟨order, horder, hreached, htabled⟩ := hlisted.exists_tabled hf
    have hmem := hreached (exists_makes_of_compileModule h hf).1 b hb
    have hblock := (ControlFlow.ordered_of_order horder).mem b hmem
    have hshaped := (Ir.Reader.shaped_of_readModule hread f hf).blocks b hblock
    refine ⟨fun i hi => ⟨fun n hkind => ?_, fun n hn => ?_⟩, fun hexit n hn => ?_⟩
    · obtain ⟨site, s, s', hs, hyields⟩ := htabled _ (instr_mem_constructs hmem hi)
      exact hs.not_mem_globals hlisted.names (by rw [Ir.Instr.callee?, hkind]) hyields
    · obtain ⟨site, s, s', hs, hyields⟩ := htabled _ (instr_mem_constructs hmem hi)
      refine hs.mem_globals (hasData_of_instrCode hyields (fun hkind => ?_) hn)
      have hasks := (hshaped.instrs i hi).asks
      rw [hkind] at hasks
      exact List.length_eq_zero_iff.mp hasks.2
    · obtain ⟨next, hterm⟩ := term_mem_constructs hmem
      obtain ⟨site, s, s', hs, hyields⟩ := htabled _ hterm
      exact hs.mem_globals (hasData_of_leave hyields hexit hn)

/-- A function that calls one that is declared external and defined behind it, calls one that is not
defined, and reads a global. -/
def refersAhead : String :=
  "global g: i64 = 3\nextern h\nfunc f() -> i64 \x7b\nbb0:\n  call void @h()\n  call void @puts()\n" ++
    "  %0 = load i64 @g\n  ret %0\n\x7d\nfunc h() \x7b\nbb0:\n  ret\n\x7d\n"

lemma names_refersAhead : (Ir.Reader.readModule 0 refersAhead).map (fun m =>
    ((compileModule { stem := "p_" } m).isOk, m.globals.map (·.name),
      (m.functions.flatMap Ir.Function.callees).map
        (Symbols.spelling "p_" (m.functions.map (·.name))))) =
    .ok (true, ["g"], ["p_h", "puts"]) := by decide +kernel

/-- Its call lines, and the addresses in its lines. -/
theorem references_resolve_refersAhead :
    ∃ m out l trace, Ir.Reader.readModule 0 refersAhead = .ok m ∧
      compileModule { stem := "p_" } m = .ok out ∧
      listModule { stem := "p_" } m = .ok (l, trace) ∧
      (l.text.toList.filterMap Item.instr?).filterMap Instr.callee? = ["p_h", "puts"] ∧
      ∀ i ∈ l.text.toList.filterMap Item.instr?, ∀ n, .rip n ∈ i.operands → n = "p_g" := by
  have hnames := names_refersAhead
  cases hread : Ir.Reader.readModule 0 refersAhead with
  | error e => rw [hread] at hnames; cases hnames
  | ok m =>
    rw [hread] at hnames
    simp only [Except.map, Except.ok.injEq, Prod.mk.injEq] at hnames
    obtain ⟨hok, hglobals, hcalls⟩ := hnames
    cases hout : compileModule { stem := "p_" } m with
    | error e => rw [hout] at hok; cases hok
    | ok out =>
      obtain ⟨l, trace, hlist, -, hlines, -, hdata, -⟩ := references_resolve hout
      refine ⟨m, out, l, trace, rfl, hout, hlist, hlines.trans hcalls, fun i hi n hn => ?_⟩
      obtain ⟨g, hg, rfl⟩ := hdata i hi n hn
      have hname : g.name ∈ m.globals.map (·.name) := List.mem_map_of_mem hg
      rw [hglobals, List.mem_singleton] at hname
      rw [hname]
      rfl

end NativeCode.Compile
