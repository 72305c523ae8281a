import NativeCode.Proofs.Compile.Homing
import NativeCode.Proofs.Compile.Stretches
import NativeCode.Proofs.Selection.Outcomes
import NativeCode.Proofs.Symbols

/-!
# The names in the code of a function

The code of a function names symbols of the table, its own labels, and nothing else. It has one call
line for each call of the blocks that are emitted, in their order, and only these calls add to the
table. Its labels are its own name, one label for each block and one for each return in the middle of
a block, and that of the epilogue.
-/

namespace NativeCode.Machine

def Operand.name? : Operand → Option String
  | .symbol name | .rip name | .label name => some name
  | .reg _ | .imm _ | .mem _ => none

/-- The operands of a line have property `N`, and its comment has property `C`. -/
structure Instr.Names (N : Operand → Prop) (C : String → Prop) (i : Instr) : Prop where
  operands : ∀ x ∈ i.operands, N x
  comment : C i.comment

lemma Instr.Names.mono {N N' : Operand → Prop} {C C' : String → Prop} {i : Instr}
    (h : i.Names N C) (hN : ∀ x, N x → N' x) (hC : ∀ text, C text → C' text) : i.Names N' C' :=
  ⟨fun x hx => hN x (h.operands x hx), hC _ h.comment⟩

def Instr.callee? (i : Instr) : Option String :=
  match i.op, i.operands with
  | .call, [.symbol name] => some name
  | _, _ => none

lemma Instr.callee?_of_ne_call {i : Instr} (h : i.op ≠ .call) : i.callee? = none := by
  rw [callee?]
  split
  · exact absurd ‹i.op = .call› h
  · rfl

lemma filterMap_callee?_eq_nil {is : List Instr} (h : ∀ i ∈ is, i.op ≠ .call) :
    is.filterMap Instr.callee? = [] :=
  List.filterMap_eq_nil_iff.mpr fun i hi => Instr.callee?_of_ne_call (h i hi)

end NativeCode.Machine

namespace NativeCode.Temps

open Machine

lemma callee?_boundInstr (t : Temps) (i : Instr) : (t.boundInstr i).callee? = i.callee? := by
  obtain ⟨op, operands, comment, origin⟩ := i
  by_cases hop : op = .call
  · subst hop
    match operands with
    | [] => rfl
    | [x] => cases x <;> rfl
    | _ :: _ :: _ => simp [boundInstr, Instr.callee?]
  · rw [Instr.callee?_of_ne_call hop, Instr.callee?_of_ne_call (by exact hop)]

end NativeCode.Temps

namespace NativeCode.Ir

def Instr.callee? (i : Instr) : Option String :=
  match i.kind with
  | .call name => some name
  | _ => none

end NativeCode.Ir

namespace NativeCode.Selection

open Machine

variable {is : List Instr}

/-- The name in an operand is known to a session: it is a symbol of its table, one that is no function
where an address is taken, or a label of its function. -/
def Session.Knows (s : Session) : Operand → Prop
  | .symbol name => ∃ e ∈ s.symbols.entries, e.asm = name
  | .rip name => ∃ e ∈ s.symbols.entries, e.kind ≠ .function ∧ e.asm = name
  | .label name => ∃ l, name = localLabel s.symbol l
  | .reg _ | .imm _ | .mem _ => True

def Remark (text : String) : Prop := text = "" ∨ text = "unreachable"

/-- Since session `s₀` code without calls has been added, which names what `s₀` knows. -/
structure Since (f : Ir.Function) (s₀ s : Session) : Prop where
  opens : s.Opens f
  symbol : s.symbol = s₀.symbol
  symbols : s.symbols = s₀.symbols
  code : ∃ is, s.code.toList = s₀.code.toList ++ is ∧
    ∀ i ∈ is, i.op ≠ .call ∧ i.Names s₀.Knows Remark

variable {f : Ir.Function} {s₀ s s' : Session} {site : Site} {i : Ir.Instr}

lemma Since.refl (hs : s.Opens f) : Since f s s := ⟨hs, rfl, rfl, [], by simp, by simp⟩

lemma knows_of_known {x : Operand} (h : Known (Since f s₀) x) : s₀.Knows x := by
  cases x with
  | symbol => exact h.elim
  | rip name =>
    obtain ⟨s, hs, e, he⟩ := h
    exact ⟨e, hs.symbols ▸ he⟩
  | label name =>
    obtain ⟨s, hs, h | ⟨id, h⟩⟩ := h
    · exact ⟨.epilogue, by rw [h, epilogueLabel_eq, hs.symbol]⟩
    · exact ⟨.block id, by rw [h, blockLabel_eq, hs.symbol]⟩
  | reg | imm | mem => trivial

instance (f : Ir.Function) (s₀ : Session) : Within f (Since f s₀) := ⟨fun hs => hs.opens⟩

instance (f : Ir.Function) (s₀ : Session) : Kept (Since f s₀) where
  push {s} hs {i} hop hi hcomment := by
    obtain ⟨is, hcode, his⟩ := hs.code
    refine ⟨Kept.push (I := Session.Opens f) hs.opens hop (fun x hx => ?_) hcomment, hs.symbol,
      hs.symbols, is ++ [i], ?_, ?_⟩
    · -- operands that are known since `s₀` are known in the open function
      have hx := hi x hx
      cases x with
      | symbol => exact hx
      | rip =>
        obtain ⟨s, hs, e, he⟩ := hx
        exact ⟨s, hs.opens, e, he⟩
      | label =>
        obtain ⟨s, hs, h⟩ := hx
        exact ⟨s, hs.opens, h⟩
      | reg | imm | mem => trivial
    · simp [Session.push, hcode]
    · refine List.forall_mem_append.mpr ⟨his, ?_⟩
      rintro _ (- | ⟨_, ⟨⟩⟩)
      exact ⟨hop, fun x hx => knows_of_known (hi x hx), hcomment⟩
  temps hs t := { hs with opens := Kept.temps hs.opens t }
  frame hs n := { hs with opens := Kept.frame hs.opens n }
  values hs v := { hs with opens := Kept.values hs.opens v }
  pending hs p := { hs with opens := Kept.pending hs.opens p }
  returns hs := { hs with opens := Kept.returns hs.opens }

/-- What the code of a construct does to the names of a session: only a call changes the table, and it
has one call line. -/
structure Selects (f : Ir.Function) (callee : Option String) (s s' : Session)
    (is : List Instr) : Prop where
  opens : s'.Opens f
  symbol : s'.symbol = s.symbol
  callees : match callee with
    | none => s'.symbols = s.symbols ∧ is.filterMap Instr.callee? = []
    | some name => ∃ e, s.symbols.callee name = .ok (e, s'.symbols) ∧
        is.filterMap Instr.callee? = [e.asm]
  names : ∀ i ∈ is, i.Names s'.Knows Remark

lemma Session.Knows.congr {x : Operand} (h : s.Knows x) (hsymbol : s'.symbol = s.symbol)
    (hsymbols : s'.symbols = s.symbols) : s'.Knows x := by
  cases x with
  | symbol | rip | label => simpa only [Session.Knows, hsymbol, hsymbols] using h
  | reg | imm | mem => trivial

lemma Since.selects (h : Since f s s') (hcode : s'.code.toList = s.code.toList ++ is) :
    Selects f none s s' is := by
  obtain ⟨is', hcode', his⟩ := h.code
  obtain rfl : is = is' := List.append_cancel_left (hcode.symm.trans hcode')
  refine ⟨h.opens, h.symbol, ⟨h.symbols, filterMap_callee?_eq_nil fun i hi => (his i hi).1⟩, ?_⟩
  exact fun i hi => (his i hi).2.mono (fun _ hn => hn.congr h.symbol h.symbols) fun _ hc => hc

lemma selects_of_call {name : String} (hs : s.Opens f) (h : Yields (call i name) site s () s')
    (hcode : s'.code.toList = s.code.toList ++ is) : Selects f (some name) s s' is := by
  obtain ⟨e, symbols, tys, placements, s₁, s₂, s₃, hcallee, -, hplace, hstack, hregs, rfl, hresult⟩ :=
    call_cases h
  let s₀ : Session := { s with symbols }
  have hs₀ : s₀.Opens f := ⟨hs.function, hs.params⟩
  have hsteps (s₀ : Session) := compositional_stops (f := f) (I := Since f s₀) (W := False)
  have hs₁ : Since f s₀ s₁ :=
    (((hsteps s₀).holds_stackArguments (g := 0) (v := 0) fun _ _ => False.elim).of_yields hstack
      (.refl hs₀)).1
  have hs₂ : Since f s₀ s₂ := by
    refine (((hsteps s₀).holds_registerArguments (g := 0) (v := 0) fun x hx => ?_).of_yields hregs
      hs₁).1
    exact ⟨False.elim, fun r hr => cls_of_place hplace (List.of_mem_zip hx).2 hr⟩
  let s₃ : Session := { s₂.push (site.instr .call [.symbol e.asm]) with
    frame := s₂.frame.noteCall (site.target.outgoingBytes placements) }
  have hs₃ : Since f s₃ s' := by
    have hopens : s₃.Opens f := ⟨hs₂.opens.function, hs₂.opens.params⟩
    rcases hresult with ⟨-, rfl⟩ | ⟨hsome, hresult⟩
    · exact .refl hopens
    · exact (((hsteps s₃).holds_callResult (g := 0) (v := 0) name hsome False.elim).of_yields hresult
        (.refl hopens)).1
  obtain ⟨before, hbefore, hnames⟩ := hs₂.code
  obtain ⟨after, hafter, hnames'⟩ := hs₃.code
  have hall : s'.code.toList =
      s.code.toList ++ (before ++ site.instr .call [.symbol e.asm] :: after) := by
    rw [hafter]
    simp [s₃, Session.push, hbefore, s₀]
  obtain rfl := List.append_cancel_left (hcode.symm.trans hall)
  have hsymbol : s'.symbol = s.symbol := hs₃.symbol.trans hs₂.symbol
  have hsymbols : s'.symbols = symbols := hs₃.symbols.trans hs₂.symbols
  refine ⟨hs₃.opens, hsymbol, ⟨e, by rw [hsymbols]; exact hcallee, ?_⟩, ?_⟩
  · have hline : (site.instr .call [.symbol e.asm]).callee? = some e.asm := rfl
    rw [List.filterMap_append, List.filterMap_cons_some hline,
      filterMap_callee?_eq_nil fun i hi => (hnames i hi).1,
      filterMap_callee?_eq_nil fun i hi => (hnames' i hi).1]
    rfl
  · intro i hi
    rcases List.mem_append.mp hi with hi | hi
    · exact (hnames i hi).2.mono (fun _ hn => hn.congr hsymbol hsymbols) fun _ hc => hc
    · rcases List.mem_cons.mp hi with rfl | hi
      · refine ⟨fun x hx => ?_, Or.inl rfl⟩
        obtain rfl := List.mem_singleton.mp hx
        refine ⟨e, ?_, rfl⟩
        rw [hsymbols]
        rcases Symbols.callee_cases hcallee with ⟨hfind, -, rfl⟩ | ⟨-, -, rfl⟩
        · exact (Symbols.of_find?_eq_some hfind).1
        · exact List.mem_append_right _ List.mem_cons_self
      · exact (hnames' i hi).2.mono (fun _ hn => hn.congr hs₃.symbol hs₃.symbols) fun _ hc => hc

lemma selects_of_instrCode (hs : s.Opens f) (h : Yields (instrCode i) site s () s')
    (hcode : s'.code.toList = s.code.toList ++ is) : Selects f i.callee? s s' is := by
  rw [Ir.Instr.callee?]
  split
  case h_1 name hkind =>
    have hcall : Yields (call i name) site s () s' := by
      rw [instrCode, hkind] at h
      exact h
    exact selects_of_call hs hcall hcode
  case h_2 hkind =>
    have hstops : Stops (Since f s) False ⊤ (instrCode i) :=
      stops_instrCode (f := f) (fun name hname => absurd hname (hkind name)) False.elim
    exact (hstops.of_yields h (.refl hs)).1.selects hcode

lemma selects_of_leave {t : Ir.Terminator} {next : Option Nat} (hs : s.Opens f)
    (h : Yields (leave t next) site s () s') (hcode : s'.code.toList = s.code.toList ++ is) :
    Selects f none s s' is := by
  have hstops : Stops (Since f s) False ⊤ (leave t next) := stops_leave (f := f) nofun next
  exact (hstops.of_yields h (.refl hs)).1.selects hcode

end NativeCode.Selection

namespace NativeCode.Compile

open Abi Machine Selection
open Selection (Session)

variable {o : Options} {f : Ir.Function} {s s' start : Session} {c : Machine.Function}
  {x : Stretch} {xs : List Stretch} {bs : List Ir.Block}

/-! ### Calls -/

def Construct.callee? : Construct → Option String
  | .instr i => i.callee?
  | .term .. => none

lemma filterMap_callee?_constructs (bs : List Ir.Block) :
    (constructs bs).filterMap Construct.callee? =
      (bs.flatMap (·.instrs)).filterMap Ir.Instr.callee? := by
  induction bs with
  | nil => rfl
  | cons b bs ih =>
    have hterm (next : Option Nat) : (Construct.term b next).callee? = none := rfl
    rw [constructs, List.filterMap_append, List.filterMap_cons_none (hterm _), ih, List.flatMap_cons,
      List.filterMap_append, List.filterMap_map]
    rfl

lemma Stretch.Selected.selects (h : x.Selected o) (hs : x.before.Opens f) :
    Selects f x.construct.callee? x.before x.after x.code := by
  have hyields := h.yields
  have hcode := h.code
  obtain ⟨construct, site, before, after, code⟩ := x
  cases construct with
  | instr i => exact selects_of_instrCode hs hyields hcode
  | term b next => exact selects_of_leave hs hyields hcode

variable {globals functions names : List String}

/-- What operands in the code of a function refer to: functions, globals and its own labels. -/
def Refers (stem : String) (globals names : List String) (symbol : String) : Operand → Prop
  | .symbol n => ∃ name ∈ names, n = name ∨ n = stem ++ name
  | .rip n => ∃ name ∈ globals, n = stem ++ name
  | .label n => ∃ l, n = localLabel symbol l
  | .reg _ | .imm _ | .mem _ => True

lemma refers_of_knows {stem : String} (hs : s.symbols.Lists stem globals functions names)
    {x : Operand} (h : s.Knows x) : Refers stem globals names s.symbol x := by
  cases x with
  | symbol n =>
    obtain ⟨e, he, rfl⟩ := h
    exact hs.asm_eq he
  | rip n =>
    obtain ⟨e, he, hkind, rfl⟩ := h
    exact ⟨e.source, hs.asm_of_data he hkind⟩
  | label n => exact h
  | reg | imm | mem => trivial

lemma Stretches.selects (h : Stretches o s xs s') (hs : s.Opens f)
    (hlists : s.symbols.Lists o.stem globals functions names)
    (hnames : ∀ x ∈ xs, ∀ name, x.construct.callee? = some name → name ∈ names) :
    s'.symbols.Lists o.stem globals functions names ∧
      (xs.flatMap (·.code)).filterMap Instr.callee? =
        ((xs.map (·.construct)).filterMap Construct.callee?).map
          (Symbols.spelling o.stem functions) ∧
      (∀ i ∈ xs.flatMap (·.code), i.Names (Refers o.stem globals names s.symbol) Remark) ∧
      ∀ x ∈ xs, x.before.symbols.Lists o.stem globals functions names := by
  induction h with
  | nil => exact ⟨hlists, rfl, by simp, by simp⟩
  | @cons x xs s s' hx hnext hrest ih =>
    obtain ⟨hx, hxs⟩ := List.forall_mem_cons.mp hnames
    obtain ⟨hopens, hsymbol, hcallees, hline⟩ := Stretch.Selected.selects ‹_› hs
    obtain ⟨code, labels, rfl⟩ := hnext
    have hafter : x.after.symbols.Lists o.stem globals functions names ∧
        x.code.filterMap Instr.callee? =
          x.construct.callee?.toList.map (Symbols.spelling o.stem functions) := by
      cases hcallee : x.construct.callee? with
      | none =>
        rw [hcallee] at hcallees
        exact ⟨by rw [hcallees.1]; exact hlists, hcallees.2⟩
      | some name =>
        rw [hcallee] at hcallees
        obtain ⟨e, he, hcall⟩ := hcallees
        obtain ⟨hlists', -, hasm⟩ := hlists.callee (hx name hcallee) he
        exact ⟨hlists', by rw [hcall, hasm]; rfl⟩
    obtain ⟨hlast, hcalls, hlines, hall⟩ := ih ⟨hopens.function, hopens.params⟩ hafter.1 hxs
    refine ⟨hlast, ?_, ?_, List.forall_mem_cons.mpr ⟨hlists, hall⟩⟩
    · rw [List.flatMap_cons, List.filterMap_append, hcalls, hafter.2, List.map_cons,
        List.filterMap_cons]
      cases x.construct.callee? <;> rfl
    · rw [List.flatMap_cons]
      refine List.forall_mem_append.mpr ⟨fun i hi => ?_, fun i hi => ?_⟩
      · refine (hline i hi).mono (fun n hn => ?_) fun _ hc => hc
        rw [← hsymbol]
        exact refers_of_knows hafter.1 hn
      · have hrelease : ({ x.after.release with code, labels } : Session).symbol =
            x.before.symbol := hsymbol
        rw [hrelease] at hlines
        exact hlines i hi

/-! ### The lines of a function -/

/-- Lines that set the frame up or take it down, or store parameters, call nothing and name
nothing. -/
structure Nameless (C : String → Prop) (i : Instr) : Prop where
  op : i.op ≠ .call
  operands : ∀ x ∈ i.operands, x.name? = none
  comment : C i.comment

lemma Nameless.refers {stem symbol : String} {C : String → Prop} {i : Instr} (h : Nameless C i) :
    i.Names (Refers stem globals names symbol) C := by
  refine ⟨fun x hx => ?_, h.comment⟩
  have hnone := h.operands x hx
  cases x with
  | symbol | rip | label => cases hnone
  | reg | imm | mem => trivial

def frameRemarks : List String :=
  ["", "unreachable", "locals", "outgoing arguments", "shadow space and outgoing arguments"]

variable {C : String → Prop}

lemma outgoingComment_mem (l : Frame.Layout) : l.outgoingComment ∈ frameRemarks := by
  rw [Frame.Layout.outgoingComment]
  cases l.convention <;> decide

lemma nameless_frame (hC : ∀ text ∈ frameRemarks, C text) (l : Frame.Layout) :
    ∀ i ∈ l.prologue ++ l.epilogue, Nameless C i := by
  have hplain (op : Opcode) (operands : List Operand) (hop : op ≠ .call)
      (hoperands : ∀ x ∈ operands, x.name? = none) : Nameless C { op, operands } :=
    ⟨hop, hoperands, hC "" (by decide)⟩
  have hmove (op : AluOp) (bytes : Int) {text : String} (htext : text ∈ frameRemarks) :
      Nameless C (Frame.Layout.moveStack op bytes text) :=
    ⟨by rintro ⟨⟩, by simp [Frame.Layout.moveStack, Operand.name?], hC text htext⟩
  intro i hi
  cases Frame.Layout.line_of_mem hi with
  | push | pop | copy | ret => exact hplain _ _ (by rintro ⟨⟩) (by simp [Operand.name?])
  | locals => exact hmove _ _ (by decide)
  | outgoing => exact hmove _ _ (outgoingComment_mem l)

lemma Homes.nameless (hC : C "") {index : Nat} {ps : List (Ir.Param × Placement)}
    {code : List Instr} (h : Homes index ps s code s') (hps : ∀ x ∈ ps, C ("%" ++ x.1.name)) :
    ∀ i ∈ code, Nameless C i := by
  intro i hi
  obtain ⟨q, hq, d, hline, -⟩ := h.exists_homeLine hi
  have hstore (op : Opcode) (hop : op ≠ .call) (r : PhysReg) :
      Nameless C (homeStore op r d ("%" ++ q.1.name)) :=
    ⟨hop, by simp [homeStore, Operand.name?], hps q hq⟩
  cases hline with
  | load =>
    rw [extendingLoad.eq_def]
    split <;> exact ⟨by rintro ⟨⟩, by simp [Operand.name?], hC⟩
  | extend _ _ hextend =>
    rw [extendInPlace.eq_def] at hextend
    split at hextend <;> cases hextend <;> exact ⟨by rintro ⟨⟩, by simp [Operand.name?], hC⟩
  | store => exact hstore _ (by decide) _
  | storeFloat =>
    refine hstore _ ?_ _
    unfold floatMove
    split <;> decide

namespace Parts

variable (parts : Parts o f start c)

lemma instrs_eq : (Listing.functionItems c).filterMap Item.instr? =
    parts.frame.prologue ++
      ((parts.homing ++ parts.blocks.flatMap (·.code)).map parts.last.temps.boundInstr ++
        if parts.last.returns then parts.frame.epilogue else []) := by
  have hinstr (is : List Instr) : (is.map Item.instr).filterMap Item.instr? = is := by
    rw [List.filterMap_map]
    exact List.filterMap_some
  have hblocks (bs : List Machine.Block) : (bs.flatMap blockItems).filterMap Item.instr? =
      bs.flatMap (·.code) := by
    rw [List.filterMap_flatMap]
    congr 1
    funext b
    rw [blockItems, List.filterMap_cons_none rfl, hinstr]
  have hbound (items : List Item) : (items.map parts.last.temps.boundItem).filterMap Item.instr? =
      (items.filterMap Item.instr?).map parts.last.temps.boundInstr := by
    rw [List.filterMap_map, List.map_filterMap]
    congr 1
    funext item
    cases item <;> rfl
  have htail : parts.tail.filterMap Item.instr? =
      if parts.last.returns then parts.frame.epilogue else [] := by
    rw [tail]
    split_ifs
    · rw [List.filterMap_cons_none rfl, hinstr]
    · rfl
  rw [parts.functionItems_eq, List.filterMap_append, List.filterMap_append, List.filterMap_append,
    hinstr, body, hbound, List.filterMap_append, hinstr, hblocks, htail]
  rfl

lemma selects (hlists : start.symbols.Lists o.stem globals functions names)
    (hnames : ∀ b ∈ f.blocks, ∀ i ∈ b.instrs, ∀ name, i.callee? = some name → name ∈ names) :
    parts.last.symbols.Lists o.stem globals functions names ∧
      (parts.blocks.flatMap (·.code)).filterMap Instr.callee? =
        ((parts.order.flatMap (·.instrs)).filterMap Ir.Instr.callee?).map
          (Symbols.spelling o.stem functions) ∧
      (∀ i ∈ parts.blocks.flatMap (·.code),
        i.Names (Refers o.stem globals names parts.last.symbol) Remark) ∧
      ∀ c ∈ constructs parts.order, ∃ site s s',
        s.symbols.Lists o.stem globals functions names ∧ Yields c.select site s () s' := by
  obtain ⟨xs, hxs, hconstructs, hcode⟩ := parts.exists_selected
  obtain ⟨placements, -, -, hhomes⟩ := parts.exists_homes
  have hopens : ({ parts.homed with reads := f.reads } : Session).Opens f := by
    refine ⟨by rw [hhomes.eq]; rfl, ?_⟩
    refine hhomes.length_params.trans ?_
    exact List.length_map ..
  have hsymbols : ({ parts.homed with reads := f.reads } : Session).symbols = start.symbols := by
    rw [hhomes.eq]
    rfl
  have hcallees : ∀ x ∈ xs, ∀ name, x.construct.callee? = some name → name ∈ names := by
    intro x hx name hname
    have hmem : x.construct ∈ constructs parts.order := hconstructs ▸ List.mem_map_of_mem hx
    cases hx : x.construct with
    | term b next =>
      rw [hx] at hname
      cases hname
    | instr i =>
      rw [hx] at hmem hname
      obtain ⟨b, hb, hi⟩ := mem_constructs_instr hmem
      exact hnames b (parts.ordered_order.mem b hb) i hi name hname
  obtain ⟨hlast, hcalls, hlines, hall⟩ :=
    hxs.selects hopens (by rw [hsymbols]; exact hlists) hcallees
  rw [hconstructs, filterMap_callee?_constructs, ← hcode] at hcalls
  rw [← hcode, ← hxs.later.symbol] at hlines
  refine ⟨hlast, hcalls, hlines, fun c hc => ?_⟩
  rw [← hconstructs] at hc
  obtain ⟨x, hx, rfl⟩ := List.mem_map.mp hc
  exact ⟨x.site, x.before, x.after, hall x hx, (hxs.later_of_mem hx).1.yields⟩

variable (hlists : start.symbols.Lists o.stem globals functions names)
  (hnames : ∀ b ∈ f.blocks, ∀ i ∈ b.instrs, ∀ name, i.callee? = some name → name ∈ names)

include hlists hnames

lemma lists_last : parts.last.symbols.Lists o.stem globals functions names :=
  (parts.selects hlists hnames).1

/-- A function has one call line for each call in the blocks that are emitted. -/
theorem callees_eq : ((Listing.functionItems c).filterMap Item.instr?).filterMap Instr.callee? =
    ((parts.order.flatMap (·.instrs)).filterMap Ir.Instr.callee?).map
      (Symbols.spelling o.stem functions) := by
  obtain ⟨placements, -, -, hhomes⟩ := parts.exists_homes
  have hframe := nameless_frame (C := fun _ => True) (fun _ _ => trivial) parts.frame
  have hbound (is : List Instr) :
      (is.map parts.last.temps.boundInstr).filterMap Instr.callee? = is.filterMap Instr.callee? := by
    rw [List.filterMap_map]
    congr 1
    funext i
    exact Temps.callee?_boundInstr _ i
  have hepilogue : (if parts.last.returns then parts.frame.epilogue else []).filterMap
      Instr.callee? = [] := by
    split_ifs
    · exact filterMap_callee?_eq_nil fun i hi => (hframe i (List.mem_append_right _ hi)).op
    · rfl
  rw [parts.instrs_eq, List.filterMap_append, List.filterMap_append, hbound, List.filterMap_append,
    hepilogue, (parts.selects hlists hnames).2.1,
    filterMap_callee?_eq_nil fun i hi => (hframe i (List.mem_append_left _ hi)).op,
    filterMap_callee?_eq_nil fun i hi =>
      (hhomes.nameless (C := fun _ => True) trivial (fun _ _ => trivial) i hi).op]
  simp

lemma exists_tabled {c : Construct} (hc : c ∈ constructs parts.order) : ∃ site s s',
    s.symbols.Lists o.stem globals functions names ∧ Yields c.select site s () s' :=
  (parts.selects hlists hnames).2.2.2 c hc

/-- The lines of a function refer to symbols and its own labels, and are commented by what they
store. -/
theorem names_instrs (hC : ∀ text ∈ frameRemarks, C text) (hparams : ∀ p ∈ f.params, C ("%" ++ p.name)) :
    ∀ i ∈ (Listing.functionItems c).filterMap Item.instr?,
      i.Names (Refers o.stem globals names parts.last.symbol) C := by
  obtain ⟨placements, -, -, hhomes⟩ := parts.exists_homes
  have hframe := nameless_frame hC parts.frame
  have hbody : ∀ i ∈ parts.homing ++ parts.blocks.flatMap (·.code),
      i.Names (Refers o.stem globals names parts.last.symbol) C := by
    refine List.forall_mem_append.mpr ⟨fun i hi => Nameless.refers ?_, fun i hi => ?_⟩
    · exact hhomes.nameless (hC "" (by decide)) (fun x hx => hparams x.1 (List.of_mem_zip hx).1) i hi
    · refine ((parts.selects hlists hnames).2.2.1 i hi).mono (fun _ hx => hx) ?_
      rintro text (rfl | rfl)
      · exact hC _ (by decide)
      · exact hC _ (by decide)
  rw [parts.instrs_eq]
  refine List.forall_mem_append.mpr ⟨fun i hi => ?_, List.forall_mem_append.mpr ⟨?_, ?_⟩⟩
  · exact (hframe i (List.mem_append_left _ hi)).refers
  · intro i hi
    obtain ⟨j, hj, rfl⟩ := List.mem_map.mp hi
    refine ⟨fun x hx => ?_, (hbody j hj).comment⟩
    -- binding temporaries leaves all names alone
    obtain ⟨y, hy, rfl⟩ := List.mem_map.mp hx
    have hrefers := (hbody j hj).operands y hy
    cases y <;> exact hrefers
  · intro i hi
    split_ifs at hi
    · exact (hframe i (List.mem_append_right _ hi)).refers
    · cases hi

end Parts

/-! ### Labels -/

end NativeCode.Compile

namespace NativeCode.Ir

open Selection (Local)

def Block.conts (b : Block) : Nat := b.instrs.countP (·.kind.isRet)

/-- The labels of blocks that are emitted one after the other, after `n` others in the middle of
blocks. -/
def localsFrom : Nat → List Block → List Local
  | _, [] => []
  | n, b :: bs => .block b.id :: (List.range' n b.conts).map .cont ++ localsFrom (n + b.conts) bs

def Function.locals (f : Function) : List Local :=
  match ControlFlow.order f with
  | .ok bs => localsFrom 0 bs ++ if bs.any (·.returns) then [.epilogue] else []
  | .error _ => []

end NativeCode.Ir

namespace NativeCode.Compile

open Machine Selection
open Selection (Session)

section Labels

variable {o : Options} {t : Ir.Terminator} {is : List Ir.Instr} {b : Ir.Block} {bs : List Ir.Block}
  {next : Option Nat} {s s' : Session} {items : List Item}

lemma Lowers.labels_eq (h : Lowers o t is s items s') :
    s'.labels = s.labels + is.countP (·.kind.isRet) := by
  induction h with
  | nil => rfl
  | @step i is s s₁ s' code items hkind _ he _ ih =>
    have hret : i.kind.isRet = false := by
      rw [← Bool.not_eq_true, Ir.InstrKind.isRet_iff]
      exact hkind
    have hlabels : s₁.release.labels = s.labels := he.labels
    rw [ih, hlabels, List.countP_cons, hret]
    rfl
  | @ret i is s s₁ s' code items hkind _ _ he _ ih =>
    have hret : i.kind.isRet = true := (Ir.InstrKind.isRet_iff _).mpr hkind
    have hlabels : s₁.labels = s.labels := he.labels
    have hresume : s₁.resume.labels = s.labels + 1 := congrArg (· + 1) hlabels
    rw [ih, hresume, List.countP_cons, hret, if_pos rfl]
    omega

/-- The labels of blocks that are emitted one after the other. -/
theorem LowersBlocks.labels_eq (h : LowersBlocks o bs s items s') :
    items.filterMap label? = (Ir.localsFrom s.labels bs).map (localLabel s.symbol) := by
  induction h with
  | nil => rfl
  | @cons b bs s s₁ s' items rest hb _ ih =>
    obtain ⟨n, hn, hsymbol, hitems⟩ := hb.labels
    obtain ⟨s₂, s₃, body, code, hlowers, -, hexits, rfl, -⟩ := hb.lowers
    have hcount : s₃.labels = s.labels + b.conts := hexits.labels.trans hlowers.labels_eq
    have hlabels : s₃.cut.labels = s₃.labels := rfl
    obtain rfl : n = b.conts := by omega
    rw [List.filterMap_append, hitems, ih, hn, hsymbol, Ir.localsFrom, List.map_append]

end Labels

variable {o : Options} {f : Ir.Function} {start : Session} {c : Machine.Function}

theorem Parts.labels_eq (parts : Parts o f start c) :
    (Listing.functionItems c).filterMap label? =
      parts.last.symbol :: f.locals.map (localLabel parts.last.symbol) := by
  have hstart : parts.homed.labels = 0 := by rw [parts.homed_eq]; rfl
  have hsymbol := parts.lowers.grown.later.symbol
  have hbound (items : List Item) : (items.map parts.last.temps.boundItem).filterMap label? =
      items.filterMap label? := by
    rw [List.filterMap_map]
    congr 1
    funext item
    cases item <;> rfl
  have hreturns : parts.order.any (·.returns) = parts.last.returns := by
    rw [Bool.eq_iff_iff, List.any_eq_true, parts.returns_iff]
  have htail : parts.tail.filterMap label? =
      (if parts.last.returns then [Local.epilogue] else []).map (localLabel parts.last.symbol) := by
    rw [Parts.tail]
    split_ifs
    · rw [filterMap_label?_label, filterMap_label?_instr, epilogueLabel_eq]
      rfl
    · rfl
  rw [parts.functionItems_eq, List.filterMap_append, List.filterMap_append, List.filterMap_append,
    filterMap_label?_instr, Parts.body, hbound, List.filterMap_append, filterMap_label?_instr,
    parts.lowers.labels_eq, htail, Ir.Function.locals, parts.ordered, hsymbol]
  dsimp only
  rw [hreturns, hstart, List.map_append]
  rfl

end NativeCode.Compile
