import NativeCode.Proofs.Compile.Names
import NativeCode.Proofs.Compile.Outcomes
import NativeCode.Proofs.Compile.Typing

/-!
# The listing of a module

A listing has the functions of the module in its text section and the globals in its data sections,
all of them in the order of the source. Every name that the module defines has the stem in front, and
is a label of the listing. The call lines are the calls of the functions, and name functions of the
module with the stem and all others without it.
-/

namespace NativeCode.Ir

/-- The functions that the emitted blocks of a function call. -/
def Function.callees (f : Function) : List String :=
  match ControlFlow.order f with
  | .ok bs => (bs.flatMap (·.instrs)).filterMap Instr.callee?
  | .error _ => []

/-- The names of a module: those that it defines, declares and calls. -/
def Module.names (m : Module) : List String :=
  WellFormed.definedNames m ++ (m.externs ++
    m.functions.flatMap fun f => (f.blocks.flatMap (·.instrs)).filterMap Instr.callee?)

def Global.sec (g : Global) : Section := if g.init.isSome then .data else .bss

lemma mem_names_of_callee? {m : Module} {f : Function} (hf : f ∈ m.functions) {b : Block}
    (hb : b ∈ f.blocks) {i : Instr} (hi : i ∈ b.instrs) {name : String}
    (h : i.callee? = some name) : name ∈ m.names := by
  refine List.mem_append_right _ (List.mem_append_right _ (List.mem_flatMap.mpr ⟨f, hf, ?_⟩))
  exact List.mem_filterMap.mpr ⟨i, List.mem_flatMap.mpr ⟨b, hb, hi⟩, h⟩

end NativeCode.Ir

namespace NativeCode.Listing

open Machine

/-- The labels of a listing. -/
def labels (l : Listing) : List String :=
  l.text.toList.filterMap label? ++ (l.data.toList.filterMap label? ++ l.bss.toList.filterMap label?)

@[simp] lemma header_foldl_append (is : List Item) (sec : Section) (l : Listing) :
    (is.foldl (·.append sec ·) l).header = l.header := by
  induction is generalizing l with
  | nil => rfl
  | cons i is ih =>
    rw [List.foldl_cons, ih]
    cases sec <;> rfl

lemma items_foldl_append (is : List Item) (sec sec' : Section) (l : Listing) :
    ((is.foldl (·.append sec ·) l).items sec').toList =
      (l.items sec').toList ++ if sec = sec' then is else [] := by
  induction is generalizing l with
  | nil => simp
  | cons i is ih =>
    rw [List.foldl_cons, ih]
    cases sec <;> cases sec' <;> simp [append, items]

end NativeCode.Listing

namespace NativeCode.Compile

open Machine
open Selection (Session localLabel)

variable {o : Options} {m : Ir.Module}

/-- The table of a module. -/
abbrev Tabled (o : Options) (m : Ir.Module) (symbols : Symbols) : Prop :=
  symbols.Lists o.stem (m.globals.map (·.name)) (m.functions.map (·.name)) m.names

/-- The code of a function, compiled with the table of its module. -/
def CompiledIn (o : Options) (m : Ir.Module) (f : Ir.Function) (c : Compiled) : Prop :=
  ∃ start : Session, Tabled o m start.symbols ∧ Nonempty (Parts o f start c.code)

/-- What a listing is made of: the code of the functions, and the lines of the globals. -/
structure Listed (o : Options) (m : Ir.Module) (l : Listing) (cs : List Compiled) : Prop where
  names : (WellFormed.definedNames m).Nodup
  header : l.header.toList = header o m
  compiled : List.Forall₂ (CompiledIn o m) m.functions cs
  text : l.text.toList = cs.flatMap fun c => Listing.functionItems c.code
  data : l.data.toList = (m.globals.filter (·.sec = .data)).flatMap fun g =>
    globalItems g (o.stem ++ g.name)
  bss : l.bss.toList = (m.globals.filter (·.sec = .bss)).flatMap fun g =>
    globalItems g (o.stem ++ g.name)

/-! ### The table -/

section Table

variable {symbols symbols' : Symbols} {l l' : Listing} {globals functions names : List String}

lemma layoutGlobals_eq_ok {gs : List Ir.Global} {u : Sections}
    (h : layoutGlobals gs u symbols l = .ok (symbols', l'))
    (hnew : (symbols.sources ++ gs.map (·.name)).Nodup)
    (hlists : symbols.Lists o.stem globals functions names) (hnames : ∀ g ∈ gs, g.name ∈ names) :
    symbols'.sources = symbols.sources ++ gs.map (·.name) ∧
      symbols'.Lists o.stem (globals ++ gs.map (·.name)) functions names ∧ l'.header = l.header ∧
      ∀ sec, (l'.items sec).toList = (l.items sec).toList ++
        (gs.filter (·.sec = sec)).flatMap fun g => globalItems g (o.stem ++ g.name) := by
  induction gs generalizing u symbols l globals with
  | nil =>
    cases h
    simpa using hlists
  | cons g gs ih =>
    obtain ⟨hg, hgs⟩ := List.forall_mem_cons.mp hnames
    have hname : g.name ∉ symbols.sources := fun hmem =>
      List.disjoint_of_nodup_append hnew hmem (by simp)
    have hkind : (if g.isConstant then SymbolKind.constant else .variable) ≠ .function := by
      split_ifs <;> nofun
    have hsec : (u.place g).1.sec = g.sec := by
      rw [Sections.place, Ir.Global.sec]
      split_ifs <;> rfl
    obtain ⟨e, he, hdefine, hstep⟩ := exists_layoutGlobals_cons gs u l hname
    obtain ⟨hasm, ht⟩ := hlists.define_global hname hg hkind hdefine
    rw [hstep] at h
    obtain ⟨-, -, h⟩ := exists_ok_of_bind h
    have hsources : (symbols.push e).sources ++ gs.map (·.name) =
        symbols.sources ++ (g :: gs).map (·.name) := by simp [he]
    obtain ⟨h₁, h₂, h₃, h₄⟩ := ih h (hsources ▸ hnew) ht hgs
    refine ⟨h₁.trans hsources, by simpa using h₂, by rw [h₃, Listing.header_foldl_append],
      fun sec => ?_⟩
    rw [h₄, Listing.items_foldl_append, hsec, hasm, List.filter_cons, List.append_assoc]
    by_cases hg : g.sec = sec <;> simp [hg]

lemma defineFunctions_eq_ok {fs : List Ir.Function}
    (h : defineFunctions fs symbols = .ok symbols')
    (hnew : (symbols.sources ++ fs.map (·.name)).Nodup)
    (hlists : symbols.Lists o.stem globals functions names) (hnames : ∀ f ∈ fs, f.name ∈ names) :
    symbols'.Lists o.stem globals (functions ++ fs.map (·.name)) names := by
  induction fs generalizing symbols functions with
  | nil =>
    cases h
    simpa using hlists
  | cons f fs ih =>
    obtain ⟨hf, hfs⟩ := List.forall_mem_cons.mp hnames
    have hname : f.name ∉ symbols.sources := fun hmem =>
      List.disjoint_of_nodup_append hnew hmem (by simp)
    obtain ⟨⟨e, t⟩, hdefine, h⟩ := exists_ok_of_bind h
    have ht := hlists.define_function hname hf hdefine
    obtain ⟨e', he', hpush⟩ := Symbols.define_of_not_mem hname .function none
    obtain ⟨rfl, rfl⟩ : e = e' ∧ t = symbols.push e' := by
      simpa using hdefine.symm.trans hpush
    have hsources : (symbols.push e).sources ++ fs.map (·.name) =
        symbols.sources ++ (f :: fs).map (·.name) := by simp [he']
    simpa using ih h (hsources ▸ hnew) ht hfs

lemma lists_declareExterns {externs : List String}
    (hlists : symbols.Lists o.stem globals functions names) (hnames : ∀ x ∈ externs, x ∈ names) :
    (declareExterns externs symbols).Lists o.stem globals functions names := by
  induction externs generalizing symbols with
  | nil => exact hlists
  | cons x externs ih =>
    obtain ⟨hx, hexterns⟩ := List.forall_mem_cons.mp hnames
    exact ih (hlists.declare hx) hexterns

end Table

/-! ### Functions -/

lemma compiledIn_of_compileFunctions {fs : List Ir.Function} {cs : List Compiled}
    {s s' : Session} (h : Makes (compileFunctions o fs) s cs s') (hs : Tabled o m s.symbols)
    (hfs : ∀ f ∈ fs, f ∈ m.functions) : List.Forall₂ (CompiledIn o m) fs cs := by
  induction fs generalizing s cs s' with
  | nil =>
    obtain ⟨rfl, rfl⟩ := makes_pure.mp h
    exact .nil
  | cons f fs ih =>
    obtain ⟨hf, hfs⟩ := List.forall_mem_cons.mp hfs
    obtain ⟨c, s₁, hc, h⟩ := makes_bind.mp h
    obtain ⟨cs', s₂, hrest, h⟩ := makes_bind.mp h
    obtain ⟨rfl, rfl⟩ := makes_pure.mp h
    obtain ⟨parts, rfl⟩ := exists_parts hc
    refine .cons ⟨s, hs, ⟨parts⟩⟩ (ih hrest (parts.lists_last hs ?_) hfs)
    exact fun b hb i hi name => Ir.mem_names_of_callee? hf hb hi

/-- What the listing of a module is made of, and what its trace is. -/
theorem exists_compileFunctions {l : Listing} {trace : String}
    (h : listModule o m = .ok (l, trace)) :
    ∃ cs s s', Tabled o m s.symbols ∧ Makes (compileFunctions o m.functions) s cs s' ∧
      Listed o m l cs ∧ trace = String.join (cs.map (·.trace)) := by
  obtain ⟨⟨⟩, hcheck, h⟩ := exists_ok_of_bind h
  obtain ⟨⟨symbols, l₁⟩, hglobals, h⟩ := exists_ok_of_bind h
  obtain ⟨symbols', hfunctions, h⟩ := exists_ok_of_bind h
  obtain ⟨⟨cs, s⟩, hcompiled, h⟩ := exists_ok_of_bind h
  cases h
  have hnodup := (WellFormed.checkModule_eq_ok_iff.mp hcheck).1
  have hdefined : ∀ name ∈ WellFormed.definedNames m, name ∈ m.names := fun name hname =>
    List.mem_append_left _ hname
  obtain ⟨hsources, hlists, hheader, hitems⟩ := layoutGlobals_eq_ok hglobals
    (List.nodup_append'.mp hnodup).1 (Symbols.lists_empty o.stem m.names) fun g hg =>
      hdefined _ (List.mem_append_left _ (List.mem_map_of_mem hg))
  have hlists' := defineFunctions_eq_ok hfunctions (by rw [hsources]; exact hnodup) hlists
    fun f hf => hdefined _ (List.mem_append_right _ (List.mem_map_of_mem hf))
  have htabled : Tabled o m (declareExterns m.externs symbols') :=
    lists_declareExterns hlists' fun x hx => List.mem_append_right _ (List.mem_append_left _ hx)
  have htext := Listing.items_foldl_append (cs.flatMap fun c => Listing.functionItems c.code) .text
  refine ⟨cs, _, s, htabled, hcompiled, ⟨hnodup, ?_,
    compiledIn_of_compileFunctions hcompiled htabled fun _ hf => hf, ?_, ?_, ?_⟩, rfl⟩
  · rw [Listing.header_foldl_append, hheader]
  · refine (htext .text l₁).trans ?_
    have hempty : m.globals.filter (·.sec = .text) = [] := by
      rw [List.filter_eq_nil_iff]
      intro g _
      rw [Ir.Global.sec]
      split_ifs <;> decide
    rw [hitems, hempty]
    rfl
  · refine (htext .data l₁).trans ?_
    rw [hitems, if_neg nofun, List.append_nil]
    rfl
  · refine (htext .bss l₁).trans ?_
    rw [hitems, if_neg nofun, List.append_nil]
    rfl

theorem exists_listed {l : Listing} {trace : String} (h : listModule o m = .ok (l, trace)) :
    ∃ cs, Listed o m l cs := by
  obtain ⟨cs, -, -, -, -, hlisted, -⟩ := exists_compileFunctions h
  exact ⟨cs, hlisted⟩

/-! ### Labels and calls -/

end NativeCode.Compile

namespace NativeCode.Ir

open Selection (localLabel)

/-- The labels of a module: those of its functions, and those of its globals by section. -/
def Module.labels (stem : String) (m : Module) : List String :=
  m.functions.flatMap (fun f => (stem ++ f.name) :: f.locals.map (localLabel (stem ++ f.name))) ++
    ((m.globals.filter (·.sec = .data)).map (stem ++ ·.name) ++
      (m.globals.filter (·.sec = .bss)).map (stem ++ ·.name))

lemma mem_labels_of_defined {stem : String} {m : Module} {name : String}
    (h : name ∈ WellFormed.definedNames m) : stem ++ name ∈ m.labels stem := by
  rcases List.mem_append.mp h with h | h
  · obtain ⟨g, hg, rfl⟩ := List.mem_map.mp h
    refine List.mem_append_right _ (List.mem_append.mpr ?_)
    cases hinit : g.init with
    | some v => exact Or.inl (List.mem_map.mpr ⟨g, by simp [hg, Global.sec, hinit], rfl⟩)
    | none => exact Or.inr (List.mem_map.mpr ⟨g, by simp [hg, Global.sec, hinit], rfl⟩)
  · obtain ⟨f, hf, rfl⟩ := List.mem_map.mp h
    exact List.mem_append_left _ (List.mem_flatMap.mpr ⟨f, hf, List.mem_cons_self⟩)

end NativeCode.Ir

namespace NativeCode.Compile

open Machine
open Selection (Session localLabel)

variable {o : Options} {m : Ir.Module} {f : Ir.Function} {c : Compiled} {cs : List Compiled}
  {l : Listing}

lemma CompiledIn.exists_parts (h : CompiledIn o m f c) (hf : f ∈ m.functions) :
    ∃ (start : Session) (parts : Parts o f start c.code), Tabled o m start.symbols ∧
      parts.last.symbol = o.stem ++ f.name := by
  obtain ⟨start, htabled, ⟨parts⟩⟩ := h
  refine ⟨start, parts, htabled, ?_⟩
  obtain ⟨e, hfind, hasm⟩ := htabled.find?_defined (Or.inr (List.mem_map_of_mem hf))
  rw [parts.symbol_last, asmName, hfind]
  exact hasm

lemma Listed.exists_compiledIn (h : Listed o m l cs) :
    (∀ f ∈ m.functions, ∃ c, CompiledIn o m f c) ∧
      ∀ c ∈ cs, ∃ f ∈ m.functions, CompiledIn o m f c := by
  have hall {fs : List Ir.Function} {cs : List Compiled}
      (hfs : List.Forall₂ (CompiledIn o m) fs cs) :
      (∀ f ∈ fs, ∃ c, CompiledIn o m f c) ∧ ∀ c ∈ cs, ∃ f ∈ fs, CompiledIn o m f c := by
    induction hfs with
    | nil => simp
    | @cons f c fs cs hfc _ ih =>
      refine ⟨List.forall_mem_cons.mpr ⟨⟨c, hfc⟩, ih.1⟩, List.forall_mem_cons.mpr ⟨?_, ?_⟩⟩
      · exact ⟨f, List.mem_cons_self, hfc⟩
      · intro c' hc'
        obtain ⟨f', hf', hfc'⟩ := ih.2 c' hc'
        exact ⟨f', List.mem_cons_of_mem _ hf', hfc'⟩
  exact hall h.compiled

lemma flatMap_eq_of_forall₂ {α β γ : Type} {R : α → β → Prop} {as : List α} {bs : List β}
    {g : β → List γ} {h : α → List γ} (hR : List.Forall₂ R as bs)
    (hgh : ∀ a ∈ as, ∀ b, R a b → g b = h a) : bs.flatMap g = as.flatMap h := by
  induction hR with
  | nil => rfl
  | cons hab _ ih =>
    obtain ⟨ha, has⟩ := List.forall_mem_cons.mp hgh
    rw [List.flatMap_cons, List.flatMap_cons, ha _ hab, ih has]

lemma filterMap_label?_globals (gs : List Ir.Global) (stem : String) :
    (gs.flatMap fun g => globalItems g (stem ++ g.name)).filterMap label? =
      gs.map (stem ++ ·.name) := by
  induction gs with
  | nil => rfl
  | cons g gs ih =>
    rw [List.flatMap_cons, List.filterMap_append, ih]
    rfl

theorem Listed.labels_eq (h : Listed o m l cs) : l.labels = m.labels o.stem := by
  have htext : l.text.toList.filterMap label? = m.functions.flatMap fun f =>
      (o.stem ++ f.name) :: f.locals.map (localLabel (o.stem ++ f.name)) := by
    rw [h.text, List.filterMap_flatMap]
    refine flatMap_eq_of_forall₂ h.compiled fun f hf c hc => ?_
    obtain ⟨start, parts, -, hsymbol⟩ := hc.exists_parts hf
    rw [parts.labels_eq, hsymbol]
  rw [Listing.labels, htext, h.data, h.bss, filterMap_label?_globals, filterMap_label?_globals]
  rfl

lemma Listed.callees_eq (h : Listed o m l cs) :
    (l.text.toList.filterMap Item.instr?).filterMap Instr.callee? =
      (m.functions.flatMap Ir.Function.callees).map
        (Symbols.spelling o.stem (m.functions.map (·.name))) := by
  rw [h.text, List.filterMap_flatMap, List.filterMap_flatMap, List.map_flatMap]
  refine flatMap_eq_of_forall₂ h.compiled fun f hf c hc => ?_
  obtain ⟨start, parts, htabled, -⟩ := hc.exists_parts hf
  rw [parts.callees_eq htabled fun b hb i hi name => Ir.mem_names_of_callee? hf hb hi,
    Ir.Function.callees, parts.ordered]

/-- Two names share a name in the assembly only where the stem in front of one that is defined here
gives the spelling of an external function. So it is for every table, and for every call of a module:
the line calls the function under its own name, and this is the label of another name of the module
exactly when the function is external and spelled like it with the stem. -/
theorem asm_shared_iff :
    (∀ stem rs, ∀ e ∈ (Symbols.after stem rs).entries, ∀ e' ∈ (Symbols.after stem rs).entries,
      e.source ≠ e'.source → (e.asm = e'.asm ↔
        e.defined = true ∧ e'.defined = false ∧ e'.source = stem ++ e.source ∨
          e'.defined = true ∧ e.defined = false ∧ e.source = stem ++ e'.source)) ∧
    ∀ (o : Options) (m : Ir.Module) (l : Listing) (trace : String),
      listModule o m = .ok (l, trace) →
        (l.text.toList.filterMap Item.instr?).filterMap Instr.callee? =
          (m.functions.flatMap Ir.Function.callees).map
            (Symbols.spelling o.stem (m.functions.map (·.name))) ∧
        ∀ d ∈ WellFormed.definedNames m, o.stem ++ d ∈ l.labels ∧ ∀ n, d ≠ n →
          (Symbols.spelling o.stem (m.functions.map (·.name)) n = o.stem ++ d ↔
            n ∉ m.functions.map (·.name) ∧ n = o.stem ++ d) := by
  refine ⟨fun stem rs e he e' he' hne => ?_, fun o m l trace h => ?_⟩
  · obtain ⟨hconsistent, hstem⟩ := Symbols.consistent_after stem rs
    rw [hconsistent.asm_eq_iff he he' hne, hstem]
  · obtain ⟨cs, hlisted⟩ := exists_listed h
    refine ⟨hlisted.callees_eq, fun d hd => ⟨?_, fun n hn => ?_⟩⟩
    · rw [hlisted.labels_eq]
      exact Ir.mem_labels_of_defined hd
    · rw [Symbols.spelling]
      split_ifs with hmem
      · simp [hmem, hn.symm]
      · simp [hmem]

/-- A module with a function `x`, and one that calls `x` and an external function `p_x`. -/
def callsOut : Ir.Module where
  functions := [
    { name := "x", ret := .void, blocks := [{ id := 0, term := { exit := .ret } }] },
    { name := "f"
      ret := .void
      blocks := [
        { id := 0
          instrs := [{ kind := .call "x", ty := .void }, { kind := .call "p_x", ty := .void }]
          term := { exit := .ret } }] }]

/-- The call lines of a listing, and whether a name is one of its labels. -/
def callsAndLabel (name : String) (r : Listing × String) : List String × Bool :=
  ((r.1.text.toList.filterMap Item.instr?).filterMap Instr.callee?, r.1.labels.contains name)

lemma listModule_callsOut : (listModule { stem := "q_" } callsOut).map
    (callsAndLabel "q_x") = .ok (["q_x", "p_x"], true) := by
  decide +kernel

/-- With another stem the external function of this module is spelled like none of its names. -/
theorem asm_shared_iff_callsOut :
    ∃ l trace, listModule { stem := "q_" } callsOut = .ok (l, trace) ∧
      (l.text.toList.filterMap Item.instr?).filterMap Instr.callee? = ["q_x", "p_x"] ∧
      "q_x" ∈ l.labels ∧ Symbols.spelling "q_" ["x", "f"] "p_x" ≠ "q_x" := by
  have hlist := listModule_callsOut
  cases h : listModule { stem := "q_" } callsOut with
  | error e =>
    rw [h] at hlist
    cases hlist
  | ok r =>
    obtain ⟨hcalls, hnames⟩ := asm_shared_iff.2 _ _ r.1 r.2 h
    obtain ⟨hlabel, hx⟩ := hnames "x" (by decide)
    refine ⟨r.1, r.2, rfl, hcalls.trans (by decide +kernel), hlabel, fun hp => ?_⟩
    exact absurd ((hx "p_x" (by decide)).mp hp).2 (by decide)

/-- With the stem `p_` it is called by the label of `x`. -/
theorem exists_shared_callsOut :
    (∃ e ∈ (Symbols.after "p_" [.define "x" .function none, .declare "p_x"]).entries,
      ∃ e' ∈ (Symbols.after "p_" [.define "x" .function none, .declare "p_x"]).entries,
        e.source ≠ e'.source ∧ e.asm = e'.asm) ∧
    (listModule { stem := "p_" } callsOut).map (callsAndLabel "p_x") =
      .ok (["p_x", "p_x"], true) := by
  decide +kernel

end NativeCode.Compile
