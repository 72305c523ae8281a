import NativeCode.Proofs.Compile.Printed
import NativeCode.Proofs.Selection.Replay

/-!
# Functions are compiled independently

One session is threaded through all functions of a module. A function starts afresh in it, the table
of symbols apart, and of the table it sees only the names that the module defines. So its code and its
trace depend on nothing but the options, the function itself and these names: neither what earlier
functions have left in the session nor the bodies, the order and the externs of the rest of the module
make a difference.
-/

namespace NativeCode.Compile

open Abi Machine Selection

variable {o : Options} {m m' : Ir.Module} {f : Ir.Function} {c c' : Compiled} {s s' t : Session}
  {cs : List Compiled}

/-! ### Blocks -/

lemma repeats_selectInstr (o : Options) (i : Ir.Instr) (fused : Bool) :
    Repeats (selectInstr o i fused) := by
  intro s u s' h t ht
  obtain ⟨t', ht', hrun⟩ := replays_instrCode i (instrSite o i fused) (makes_selectInstr.mp h) t ht
  exact ⟨t', ht', makes_selectInstr.mpr hrun⟩

lemma repeats_selectTerm (o : Options) (t : Ir.Terminator) (next : Option Nat) :
    Repeats (selectTerm o t next) := by
  intro s u s' h table htable
  obtain ⟨t', ht', hrun⟩ := replays_leave t next (termSite o t) (makes_selectTerm.mp h) table htable
  exact ⟨t', ht', makes_selectTerm.mpr hrun⟩

lemma repeats_release : Repeats (modify Session.release : Build PUnit) :=
  repeats_modify (fun _ _ => rfl) fun _ => rfl

lemma repeats_closeBlock (label : String) : Repeats (closeBlock label) :=
  repeats_bind (repeats_modifyGet (fun _ _ => rfl) fun _ => rfl) fun _ => repeats_pure _

lemma repeats_compileInstrs (o : Options) (t : Ir.Terminator) (is : List Ir.Instr) (label : String)
    (closed : List Machine.Block) : Repeats (compileInstrs o t is label closed) := by
  induction is generalizing label closed with
  | nil => exact repeats_pure _
  | cons i is ih =>
    rw [compileInstrs]
    refine repeats_get_bind (fun _ _ => rfl) fun s => ?_
    refine repeats_bind (repeats_selectInstr o i _) fun _ => repeats_bind repeats_release fun _ => ?_
    split_ifs
    · refine repeats_bind (repeats_closeBlock label) fun block => ?_
      exact repeats_bind (repeats_modifyGet (fun _ _ => rfl) fun _ => rfl) fun label => ih _ _
    · exact ih _ _

lemma repeats_compileBlock (o : Options) (b : Ir.Block) (next : Option Nat) :
    Repeats (compileBlock o b next) := by
  refine repeats_get_bind (fun _ _ => rfl) fun s => ?_
  refine repeats_bind (repeats_compileInstrs o b.term b.instrs _ _) fun r => ?_
  refine repeats_bind (repeats_selectTerm o b.term next) fun _ => repeats_bind repeats_release fun _ => ?_
  exact repeats_bind (repeats_closeBlock _) fun _ => repeats_pure _

lemma repeats_compileEach (o : Options) (bs : List Ir.Block) : Repeats (compileEach o bs) := by
  induction bs with
  | nil => exact repeats_pure _
  | cons b bs ih =>
    rw [compileEach]
    exact repeats_bind (repeats_compileBlock o b _) fun _ => repeats_bind ih fun _ => repeats_pure _

lemma repeats_compileBlocks (o : Options) (f : Ir.Function) : Repeats (compileBlocks o f) :=
  repeats_lift_bind _ fun _ => repeats_compileEach o _

/-! ### Functions -/

lemma repeats_newSlot : Repeats newSlot := replays_allocate 8 default

lemma repeats_homeParam (p : Ir.Param) (placement : Placement) :
    Repeats (homeParam p placement) := by
  delta homeParam
  dsimp only
  cases placement.place with
  | stack offset =>
    dsimp only
    split_ifs
    · exact repeats_bind repeats_newSlot fun _ => repeats_pure _
    · exact repeats_pure _
  | register r =>
    refine repeats_bind repeats_newSlot fun _ => ?_
    cases placement.cls <;> exact repeats_pure _

lemma repeats_homeEach (index : Nat) (ps : List (Ir.Param × Placement)) :
    Repeats (homeEach index ps) := by
  induction ps generalizing index with
  | nil => exact repeats_pure _
  | cons q ps ih =>
    obtain ⟨p, placement⟩ := q
    rw [homeEach]
    refine repeats_bind (repeats_homeParam p placement) fun r => ?_
    intro s code s' h t ht
    obtain ⟨hindex, h⟩ := makes_setParam_bind.mp h
    have hrest : Repeats (do return r.2 ++ (← homeEach (index + 1) ps)) :=
      repeats_bind (ih (index + 1)) fun _ => repeats_pure _
    obtain ⟨t', ht', hrun⟩ := hrest h t ht
    exact ⟨t', ht', makes_setParam_bind.mpr ⟨hindex, hrun⟩⟩

/-- A function that has been entered is compiled in the same way with tables that are alike. -/
theorem repeats_compileBody (o : Options) (f : Ir.Function) : Repeats (compileBody o f) := by
  delta compileBody
  dsimp only
  by_cases hret : f.ret.isAggregate = true
  · rw [if_pos hret]
    exact repeats_throw _
  · rw [if_neg hret]
    refine repeats_bind (repeats_lift_bind _ fun _ => repeats_homeEach 0 _) fun homing => ?_
    refine repeats_bind (repeats_modify (fun _ _ => rfl) fun _ => rfl) fun _ => ?_
    refine repeats_bind (repeats_compileBlocks o f) fun r => ?_
    refine repeats_get_bind (fun _ _ => rfl) fun s => ?_
    exact repeats_lift_bind _ fun frame => repeats_lift_bind _ fun code => repeats_pure _

/-- A function is compiled in the same way in all sessions in which it has the same name and whose
tables are alike, whatever else they hold. -/
theorem compileFunction_of_alike (h : Makes (compileFunction o f) s c s')
    (htables : s.symbols.Alike t.symbols) (hname : asmName o s.symbols f = asmName o t.symbols f) :
    ∃ t', Makes (compileFunction o f) t c t' := by
  have hbody : Makes (compileBody o f) (s.enter f (asmName o s.symbols f)) c s' := mapError_eq_ok_iff.mp h
  obtain ⟨symbols, -, hrun⟩ := repeats_compileBody o f hbody t.symbols htables
  rw [hname] at hrun
  exact ⟨s'.under symbols, mapError_eq_ok_iff.mpr hrun⟩

/-! ### Modules -/

lemma asmName_of_tabled {symbols : Symbols} (h : Tabled o m symbols) (hf : f ∈ m.functions) :
    asmName o symbols f = o.stem ++ f.name := by
  obtain ⟨e, hfind, hasm⟩ := h.find?_defined (Or.inr (List.mem_map_of_mem hf))
  rw [asmName, hfind]
  exact hasm

lemma exists_compileFunction_of_mem_zip {fs : List Ir.Function}
    (h : Makes (compileFunctions o fs) s cs s') (hs : Tabled o m s.symbols)
    (hfs : ∀ f ∈ fs, f ∈ m.functions) (hc : (f, c) ∈ fs.zip cs) :
    ∃ s₁ s₂, Tabled o m s₁.symbols ∧ Makes (compileFunction o f) s₁ c s₂ := by
  induction fs generalizing s cs s' with
  | nil => simp at hc
  | cons g fs ih =>
    obtain ⟨hg, hfs⟩ := List.forall_mem_cons.mp hfs
    obtain ⟨d, s₁, hd, h⟩ := makes_bind.mp h
    obtain ⟨cs', s₂, hrest, h⟩ := makes_bind.mp h
    obtain ⟨rfl, rfl⟩ := makes_pure.mp h
    obtain ⟨parts, rfl⟩ := exists_parts hd
    rcases List.mem_cons.mp hc with heq | hc
    · cases heq
      exact ⟨s, parts.last, hs, hd⟩
    · refine ih hrest (parts.lists_last hs ?_) hfs hc
      exact fun b hb i hi name => Ir.mem_names_of_callee? hg hb hi

lemma length_of_compileFunctions {fs : List Ir.Function}
    (h : Makes (compileFunctions o fs) s cs s') : cs.length = fs.length := by
  induction fs generalizing s cs s' with
  | nil =>
    obtain ⟨rfl, rfl⟩ := makes_pure.mp h
    rfl
  | cons g fs ih =>
    obtain ⟨d, s₁, -, h⟩ := makes_bind.mp h
    obtain ⟨cs', s₂, hrest, h⟩ := makes_bind.mp h
    obtain ⟨rfl, rfl⟩ := makes_pure.mp h
    simp [ih hrest]

def functionLines (comments : Bool) (c : Compiled) : List String :=
  (Listing.functionItems c.code).map (Item.line comments)

/-- The output of a module is made of its compiled functions, one for each: their lines stand in the
text one after the other, and so do their traces. -/
structure Assembled (o : Options) (m : Ir.Module) (cs : List Compiled) (out : Output) : Prop where
  compiled : ∃ s s', Tabled o m s.symbols ∧ Makes (compileFunctions o m.functions) s cs s'
  length : cs.length = m.functions.length
  asm : ∃ before after, out.asm.toList =
    Listing.written (before ++ (cs.flatMap (functionLines o.comments) ++ after))
  trace : out.trace = String.join (cs.map (·.trace))

lemma Listed.exists_printed {l : Listing} (h : Listed o m l cs) :
    ∃ before after, l.printed o.comments =
      before ++ (cs.flatMap (functionLines o.comments) ++ after) := by
  have htext : l.text.toList.map (Item.line o.comments) = cs.flatMap (functionLines o.comments) := by
    rw [h.text, List.map_flatMap]
    rfl
  rw [Listing.printed, ← htext, Listing.printedSec]
  split_ifs with hempty
  · rw [Array.isEmpty_iff.mp hempty]
    exact ⟨_, _, rfl⟩
  · refine ⟨l.header.toList ++ ["\t.text"], Listing.printedSec o.comments "\t.data" l.data ++
      Listing.printedSec o.comments "\t.bss" l.bss, ?_⟩
    simp

lemma exists_assembled {out : Output} (h : compileModule o m = .ok out) :
    ∃ cs, Assembled o m cs out := by
  obtain ⟨⟨l, trace⟩, hlist, h⟩ := exists_ok_of_bind h
  cases h
  obtain ⟨cs, s, s', htabled, hcompiled, hlisted, rfl⟩ := exists_compileFunctions hlist
  obtain ⟨before, after, hprinted⟩ := hlisted.exists_printed
  refine ⟨cs, ⟨s, s', htabled, hcompiled⟩, length_of_compileFunctions hcompiled,
    ⟨before, after, ?_⟩, rfl⟩
  rw [← hprinted]
  exact l.toList_print o.comments

/-- In every session with the table of a module that defines the same names, a function of the module
is compiled to the code that it has in the module. -/
lemma Assembled.makes {out : Output} (h : Assembled o m cs out) (hc : (f, c) ∈ m.functions.zip cs)
    (hglobals : ∀ name, name ∈ m.globals.map (·.name) ↔ name ∈ m'.globals.map (·.name))
    (hfunctions : ∀ name, name ∈ m.functions.map (·.name) ↔ name ∈ m'.functions.map (·.name))
    (hf : f ∈ m'.functions) (ht : Tabled o m' t.symbols) :
    ∃ t', Makes (compileFunction o f) t c t' := by
  obtain ⟨s, s', hs, hcompiled⟩ := h.compiled
  obtain ⟨s₁, s₂, hs₁, hmakes⟩ := exists_compileFunction_of_mem_zip hcompiled hs (fun _ hf => hf) hc
  refine compileFunction_of_alike hmakes (hs₁.alike ht hglobals hfunctions) ?_
  rw [asmName_of_tabled hs₁ (List.of_mem_zip hc).1, asmName_of_tabled ht hf]

/-- Functions are compiled independently. If two modules define the same names and both compile, then
a function that they share has the same code and the same trace in both, so that its lines are the
same in both texts. And in every session with a table of the module, whatever earlier functions have
left there, a function is compiled to the code that it has in the module. -/
theorem functions_independent {out out' : Output} (h : compileModule o m = .ok out)
    (h' : compileModule o m' = .ok out')
    (hglobals : ∀ name, name ∈ m.globals.map (·.name) ↔ name ∈ m'.globals.map (·.name))
    (hfunctions : ∀ name, name ∈ m.functions.map (·.name) ↔ name ∈ m'.functions.map (·.name)) :
    ∃ cs cs', Assembled o m cs out ∧ Assembled o m' cs' out' ∧
      (∀ f c c', (f, c) ∈ m.functions.zip cs → (f, c') ∈ m'.functions.zip cs' → c = c') ∧
      ∀ f c, (f, c) ∈ m.functions.zip cs → ∀ t : Session, Tabled o m t.symbols →
        ∃ t', Makes (compileFunction o f) t c t' := by
  obtain ⟨cs, hcs⟩ := exists_assembled h
  obtain ⟨cs', hcs'⟩ := exists_assembled h'
  refine ⟨cs, cs', hcs, hcs', fun f c c' hc hc' => ?_, fun f c hc t ht => ?_⟩
  · obtain ⟨s, s', hs, hcompiled⟩ := hcs'.compiled
    obtain ⟨t, t', ht, hmakes⟩ :=
      exists_compileFunction_of_mem_zip hcompiled hs (fun _ hf => hf) hc'
    obtain ⟨t'', hmakes'⟩ := hcs.makes hc hglobals hfunctions (List.of_mem_zip hc').1 ht
    exact (Prod.mk.inj (Except.ok.inj (hmakes'.symm.trans hmakes))).1
  · exact hcs.makes hc (fun _ => Iff.rfl) (fun _ => Iff.rfl) (List.of_mem_zip hc).1 ht

/-- A function that reads a global, calls two functions, and returns in the middle of its block. -/
def sharedFunction : Ir.Function where
  name := "f"
  ret := .i64
  blocks := [
    { id := 0
      instrs := [
        { result := some 0, kind := .load, ty := .i64, operands := [.global "v"] },
        { result := some 1, kind := .call "g", ty := .i64, operands := [.value 0] },
        { kind := .ret, ty := .i64, operands := [.value 1] },
        { kind := .call "out", ty := .void }]
      term := { exit := .ret, value := some (.const .i64 0) } }]

/-- A module in which the function comes last, after one that leaves much in the session. -/
def sharedLast : Ir.Module where
  globals := [{ name := "v" }]
  functions := [
    { name := "g"
      params := [{ name := "x", ty := .i64 }]
      ret := .i64
      blocks := [
        { id := 0
          instrs := [
            { result := some 0, kind := .alloca, ty := .array 100 },
            { kind := .ret, ty := .i64, operands := [.param 0] },
            { kind := .call "other", ty := .void }]
          term := { exit := .ret, value := some (.const .i64 1) } }] },
    sharedFunction]

/-- A module in which the function comes first, with another function and an external one. -/
def sharedFirst : Ir.Module where
  globals := [{ name := "v" }]
  externs := ["out"]
  functions := [
    sharedFunction,
    { name := "g", ret := .void, blocks := [{ id := 3, term := { exit := .ret } }] }]

/-- What the function becomes is the same in both modules. -/
theorem functions_independent_shared :
    ∃ out out' cs cs', compileModule {} sharedLast = .ok out ∧
      compileModule {} sharedFirst = .ok out' ∧ Assembled {} sharedLast cs out ∧
      Assembled {} sharedFirst cs' out' ∧ 1 < cs.length ∧ 0 < cs'.length ∧ cs[1]? = cs'[0]? := by
  have hlast : (compileModule {} sharedLast).toBool = true := by decide +kernel
  have hfirst : (compileModule {} sharedFirst).toBool = true := by decide +kernel
  cases h : compileModule {} sharedLast with
  | error e =>
    rw [h] at hlast
    cases hlast
  | ok out =>
    cases h' : compileModule {} sharedFirst with
    | error e =>
      rw [h'] at hfirst
      cases hfirst
    | ok out' =>
      have hnames : (sharedLast.functions.map (·.name)).Perm (sharedFirst.functions.map (·.name)) := by
        decide
      obtain ⟨cs, cs', hcs, hcs', hsame, -⟩ :=
        functions_independent h h' (fun _ => Iff.rfl) fun _ => hnames.mem_iff
      obtain ⟨c₁, c₂, rfl⟩ := List.length_eq_two.mp hcs.length
      obtain ⟨d₁, d₂, rfl⟩ := List.length_eq_two.mp hcs'.length
      have heq : c₂ = d₁ := hsame sharedFunction c₂ d₁ (by simp [sharedLast]) (by simp [sharedFirst])
      exact ⟨out, out', _, _, rfl, rfl, hcs, hcs', by simp, by simp, by simp [heq]⟩

end NativeCode.Compile
