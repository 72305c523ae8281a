import NativeCode.Proofs.Compile.Flow
import NativeCode.Proofs.Compile.Listed
import NativeCode.Proofs.Text.Lines

/-!
# The label lines of an assembly text

The text of a module is printed line by line, and the names in it are identifiers, so that no line
ends early. The label lines of the text are those of the listing. Labels of functions start with
`.L`, and end with a part from which the name of the function is told apart. But identifiers can start
with `.L` as well: a label is written twice exactly when the module defines a name that is spelled
like the label of one of its functions.
-/

namespace NativeCode.Machine

open Text

/-! ### Printed instructions -/

/-- The characters that divide a text: the end of a line, and the tab in front of a comment. -/
def IsBreak (c : Char) : Prop := c = '\n' ∨ c = '\t'

variable {c : Char}

lemma IsBreak.avoids (hc : IsBreak c) {s : String} (hs : Avoids '\n' s ∧ Avoids '\t' s) :
    Avoids c s := by
  rcases hc with rfl | rfl
  · exact hs.1
  · exact hs.2

lemma IsBreak.avoids_repr (hc : IsBreak c) (n : Nat) : Avoids c n.repr :=
  hc.avoids ⟨Text.avoids_repr (by decide) n, Text.avoids_repr (by decide) n⟩

lemma IsBreak.avoids_toString (hc : IsBreak c) (n : Int) : Avoids c (toString n) :=
  hc.avoids ⟨Text.avoids_toString (by decide) (by decide) n,
    Text.avoids_toString (by decide) (by decide) n⟩

lemma avoids_partName (hc : IsBreak c) (r : Gpr) (w : Width) : Avoids c (r.partName w) := by
  have hall : ∀ r ∈ Gpr.all, ∀ w ∈ [Width.byte, .word, .long, .quad],
      Avoids '\n' (r.partName w) ∧ Avoids '\t' (r.partName w) := by
    decide +kernel
  exact hc.avoids (hall r r.mem_all w (by cases w <;> simp))

lemma avoids_phys (hc : IsBreak c) (w : Width) (r : PhysReg) : Avoids c (r.text w) := by
  cases r with
  | gpr r => exact avoids_append.mpr ⟨hc.avoids (by decide), avoids_partName hc r w⟩
  | xmm i => exact avoids_append.mpr ⟨hc.avoids (by decide), hc.avoids_repr _⟩

lemma avoids_reg (hc : IsBreak c) (w : Width) (r : Reg) : Avoids c (r.text w) := by
  cases r with
  | phys r => exact avoids_phys hc w r
  | temp id cls => exact avoids_append.mpr ⟨hc.avoids (by decide), hc.avoids_repr _⟩

lemma avoids_mem (hc : IsBreak c) (m : Mem) : Avoids c m.text := by
  obtain ⟨base, disp, index⟩ := m
  refine avoids_append.mpr ⟨avoids_append.mpr ⟨avoids_append.mpr ⟨avoids_append.mpr
    ⟨?_, hc.avoids (by decide)⟩, avoids_reg hc _ _⟩, ?_⟩, hc.avoids (by decide)⟩
  · exact avoids_ite.mpr ⟨fun _ => hc.avoids (by decide), fun _ => hc.avoids_toString _⟩
  · cases index with
    | none =>
      change Avoids c ""
      exact hc.avoids (by decide)
    | some i =>
      refine avoids_append.mpr ⟨avoids_append.mpr ⟨hc.avoids (by decide), avoids_reg hc _ _⟩, ?_⟩
      exact avoids_append.mpr ⟨hc.avoids (by decide), hc.avoids_repr _⟩

lemma avoids_operand (hc : IsBreak c) {x : Operand} (h : ∀ name, x.name? = some name → Avoids c name) :
    Avoids c x.text := by
  cases x with
  | reg r => exact avoids_reg hc _ _
  | imm v => exact avoids_append.mpr ⟨hc.avoids (by decide), hc.avoids_toString _⟩
  | mem m => exact avoids_mem hc m
  | label name => exact h name rfl
  | symbol name => exact h name rfl
  | rip name => exact avoids_append.mpr ⟨h name rfl, hc.avoids (by decide)⟩

lemma avoids_suffix (hc : IsBreak c) (k : Cond) : Avoids c k.suffix := by
  have hall : ∀ k ∈ Cond.all, Avoids '\n' k.suffix ∧ Avoids '\t' k.suffix := by decide +kernel
  exact hc.avoids (hall k (by cases k <;> simp [Cond.all]))

lemma avoids_mnemonic (hc : IsBreak c) (op : Opcode) : Avoids c op.mnemonic := by
  cases op with
  | mov w => cases w <;> exact hc.avoids (by decide)
  | alu op => cases op <;> exact hc.avoids (by decide)
  | shift op => cases op <;> exact hc.avoids (by decide)
  | div signed => cases signed <;> exact hc.avoids (by decide)
  | set k => exact avoids_append.mpr ⟨hc.avoids (by decide), avoids_suffix hc k⟩
  | jcc k => exact avoids_append.mpr ⟨hc.avoids (by decide), avoids_suffix hc k⟩
  | float op p => cases op <;> cases p <;> exact hc.avoids (by decide)
  | ucomi p => cases p <;> exact hc.avoids (by decide)
  | movs p => cases p <;> exact hc.avoids (by decide)
  | _ => exact hc.avoids (by decide)

lemma avoids_body (hc : IsBreak c) {i : Instr}
    (h : ∀ x ∈ i.operands, ∀ name, x.name? = some name → Avoids c name) : Avoids c i.body := by
  have hwords : Avoids c (", ".intercalate (i.operands.map Operand.text)) := by
    refine avoids_intercalate (hc.avoids (by decide)) fun l hl => ?_
    obtain ⟨x, hx, rfl⟩ := List.mem_map.mp hl
    exact avoids_operand hc (h x hx)
  refine avoids_append.mpr ⟨avoids_mnemonic hc _, avoids_ite.mpr ⟨fun _ => hc.avoids (by decide), ?_⟩⟩
  exact fun _ => avoids_append.mpr ⟨hc.avoids (by decide), hwords⟩

end NativeCode.Machine

namespace NativeCode

open Machine Text

/-! ### Printed listings -/

/-- The printed form of a line of a section, without its indentation and its comment. -/
def Item.content : Item → String
  | .directive text => text
  | .label name => name ++ ":"
  | .instr i => i.body

/-- The printed form of a line of a section. -/
def Item.line (comments : Bool) : Item → String
  | .directive text => "\t" ++ text
  | .label name => name ++ ":"
  | .instr i => i.line comments

lemma Item.plain_line {item : Item} (h : Plain item.content)
    (hcomment : ∀ i, item = .instr i → Plain i.comment) (comments : Bool) :
    Plain (item.line comments) := by
  cases item with
  | directive text => exact plain_append.mpr ⟨by decide, h⟩
  | label name => exact h
  | instr i =>
    refine plain_append.mpr ⟨plain_append.mpr ⟨by decide, h⟩, plain_ite.mpr ⟨fun _ => ?_, fun _ => ?_⟩⟩
    · exact plain_append.mpr ⟨by decide, hcomment i rfl⟩
    · decide

namespace Listing

/-- The printed lines of a section. -/
def printedSec (comments : Bool) (directive : String) (items : Array Item) : List String :=
  if items.isEmpty then [] else directive :: items.toList.map (Item.line comments)

def printed (l : Listing) (comments : Bool) : List String :=
  l.header.toList ++ (printedSec comments "\t.text" l.text ++
    (printedSec comments "\t.data" l.data ++ printedSec comments "\t.bss" l.bss))

/-- The text of lines that have been printed. -/
def written (ls : List String) : List Char := ls.flatMap fun l => l.toList ++ ['\n']

lemma written_append (ls ls' : List String) :
    written (ls ++ ls') = written ls ++ written ls' := List.flatMap_append

lemma toList_writeLine (p : Printer) (s : String) :
    (p.writeLine s).text.toList = p.text.toList ++ written [s] := by
  simp [Printer.writeLine, written]

lemma toList_item (comments : Bool) (p : Printer) (i : Item) :
    (p.item comments i).text.toList = p.text.toList ++ written [i.line comments] := by
  cases i with
  | directive text => exact toList_writeLine p _
  | label name => exact toList_writeLine p _
  | instr i =>
    have htext : (p.item comments (.instr i)).text = (p.writeLine (i.line comments)).text := by
      rw [Printer.item]
      dsimp only
      split_ifs <;> rfl
    rw [htext]
    exact toList_writeLine p _

lemma toList_items (comments : Bool) (items : List Item) (p : Printer) :
    (items.foldl (Printer.item comments) p).text.toList =
      p.text.toList ++ written (items.map (Item.line comments)) := by
  induction items generalizing p with
  | nil => simp [written]
  | cons i items ih =>
    rw [List.foldl_cons, ih, toList_item, List.append_assoc, ← written_append]
    rfl

lemma toList_sec (comments : Bool) (p : Printer) (directive : String)
    (items : Array Item) :
    (p.sec comments directive items).text.toList =
      p.text.toList ++ written (printedSec comments directive items) := by
  rw [Printer.sec, printedSec]
  split_ifs
  · simp [written]
  · rw [← Array.foldl_toList, toList_items]
    have htext : ({ p.writeLine directive with label := "" } : Printer).text =
        (p.writeLine directive).text := rfl
    rw [htext, toList_writeLine, List.append_assoc, ← written_append]
    rfl

lemma toList_header (header : List String) (p : Printer) :
    (header.foldl Printer.writeLine p).text.toList = p.text.toList ++ written header := by
  induction header generalizing p with
  | nil => simp [written]
  | cons s header ih =>
    rw [List.foldl_cons, ih, toList_writeLine, List.append_assoc, ← written_append]
    rfl

lemma toList_print (l : Listing) (comments : Bool) :
    (l.print comments).text.toList = written (l.printed comments) := by
  rw [print]
  dsimp only
  rw [toList_sec, toList_sec, toList_sec, ← Array.foldl_toList, toList_header, printed,
    List.append_assoc, List.append_assoc, List.append_assoc, ← written_append, ← written_append,
    ← written_append]
  rfl

theorem lines_print {l : Listing} {comments : Bool} (h : ∀ s ∈ l.printed comments, Plain s) :
    lines (l.print comments).text.toList = (l.printed comments).map String.toList := by
  rw [← lines_flatMap h, toList_print, written]

lemma labelLines_print {l : Listing} {comments : Bool} (h : ∀ s ∈ l.printed comments, Plain s)
    (hheader : ∀ s ∈ l.header.toList, isLabelLine s.toList = false)
    (hlabels : ∀ name ∈ l.labels, isLabelLine (name ++ ":").toList = true) :
    labelLines (l.print comments).text = l.labels.map (· ++ ":") := by
  have hindented (s : String) : isLabelLine ("\t" ++ s).toList = false :=
    isLabelLine_of_head? (Or.inl (by simp))
  have hitems (items : List Item) (hl : ∀ name ∈ items.filterMap label?,
      isLabelLine (name ++ ":").toList = true) :
      (items.map (Item.line comments)).filter (fun s => isLabelLine s.toList) =
        (items.filterMap label?).map (· ++ ":") := by
    induction items with
    | nil => rfl
    | cons i items ih =>
      cases i with
      | directive text =>
        rw [List.map_cons, Item.line, List.filter_cons_of_neg (by rw [hindented]; nofun)]
        exact ih hl
      | label name =>
        obtain ⟨hname, hl⟩ := List.forall_mem_cons.mp hl
        rw [List.map_cons, Item.line, List.filter_cons_of_pos (by exact hname), ih hl]
        rfl
      | instr i =>
        have hline : isLabelLine (i.line comments).toList = false := by
          rw [Instr.line, String.append_assoc]
          exact hindented _
        rw [List.map_cons, Item.line, List.filter_cons_of_neg (by rw [hline]; nofun)]
        exact ih hl
  have hsec (directive : String) (hd : isLabelLine directive.toList = false) (items : Array Item)
      (hl : ∀ name ∈ items.toList.filterMap label?, isLabelLine (name ++ ":").toList = true) :
      (printedSec comments directive items).filter (fun s => isLabelLine s.toList) =
        (items.toList.filterMap label?).map (· ++ ":") := by
    rw [printedSec]
    split_ifs with hempty
    · rw [Array.isEmpty_iff.mp hempty]
      rfl
    · rw [List.filter_cons_of_neg (by simp [hd]), hitems _ hl]
  rw [labels] at hlabels
  obtain ⟨htext, hlabels⟩ := List.forall_mem_append.mp hlabels
  obtain ⟨hdata, hbss⟩ := List.forall_mem_append.mp hlabels
  have hofList : String.ofList ∘ String.toList = id := funext fun s => String.ofList_toList
  rw [labelLines, lines_print h, List.filter_map, List.map_map, hofList, List.map_id, printed,
    List.filter_append, List.filter_append, List.filter_append]
  simp only [Function.comp_def]
  rw [hsec _ (by decide) _ htext, hsec _ (by decide) _ hdata, hsec _ (by decide) _ hbss,
    List.filter_eq_nil_iff.mpr fun s hs => by simp [hheader s hs], labels, List.map_append,
    List.map_append]
  rfl

end Listing

end NativeCode

namespace NativeCode.Ir.Reader

open Text

/-! ### Identifiers -/

lemma ensures_readLastName (fault : Fault) :
    Ensures (readLastName fault) fun name => isIdentifier name.toList = true := by
  refine ensures_bind_any fun column => ensures_bind_any fun w => ensures_bind_any fun ended => ?_
  split_ifs with hw
  · exact ensures_pure (by simpa using (Bool.and_eq_true_iff.mp hw).1)
  · exact ensures_failAt _ _

lemma ensures_expectName (fault : String → Fault) :
    Ensures (expectName fault) fun name => isIdentifier name.toList = true := by
  refine ensures_bind_any fun column => ensures_bind_any fun w => ?_
  split_ifs with hw
  · exact ensures_pure (by simpa using hw)
  · exact ensures_bind (ensures_failAt _ _) fun _ h => h

lemma ensures_readGlobal (isConstant : Bool) :
    Ensures (readGlobal isConstant) fun g => isIdentifier g.name.toList = true := by
  refine ensures_bind (ensures_expectName _) fun name hname => ?_
  refine ensures_bind_any fun _ => ensures_bind_any fun ty => ensures_bind_any fun init => ?_
  exact ensures_bind_any fun _ => ensures_pure hname

lemma ensures_readParam :
    Ensures readParam fun p => isIdentifier p.name.toList = true :=
  ensures_bind (ensures_expectName _) fun _ hname => ensures_bind_any fun _ =>
    ensures_bind_any fun _ => ensures_pure hname

lemma ensures_readHeader : Ensures readHeader fun f =>
    isIdentifier f.name.toList = true ∧ ∀ p ∈ f.params, isIdentifier p.name.toList = true := by
  refine ensures_bind (ensures_expectName _) fun name hname => ensures_bind_any fun _ => ?_
  refine ensures_bind (ensures_separated _ ensures_readParam) fun params hparams => ?_
  refine ensures_bind_any fun ret => ensures_bind_any fun _ => ensures_bind_any fun _ => ?_
  exact ensures_pure ⟨hname, hparams⟩

/-- All names of a module that has been read are identifiers. -/
theorem identifiers_of_readModule {file : Nat} {text : String} {m : Module}
    (h : readModule file text = .ok m) :
    isIdentifier m.name.toList = true ∧ (∀ name ∈ m.names, isIdentifier name.toList = true) ∧
      ∀ f ∈ m.functions, ∀ p ∈ f.params, isIdentifier p.name.toList = true := by
  have hm := written_of_readModule h
  have hheader (f : Function) (hf : f ∈ m.functions) : isIdentifier f.name.toList = true ∧
      ∀ p ∈ f.params, isIdentifier p.name.toList = true := by
    obtain ⟨g, hg, hname, hparams, -⟩ := (hm.functions f hf).header
    rw [← hname, ← hparams]
    exact ensures_readHeader.of_reads hg
  refine ⟨?_, fun name hname => ?_, fun f hf => (hheader f hf).2⟩
  · rcases hm.name with hname | hname
    · rw [hname]
      decide
    · exact (ensures_readLastName _).of_reads hname
  · simp only [Module.names, WellFormed.definedNames, List.mem_append, List.mem_map] at hname
    rcases hname with (⟨g, hg, rfl⟩ | ⟨f, hf, rfl⟩) | hname | hname
    · obtain ⟨isConstant, hg⟩ := hm.globals g hg
      exact (ensures_readGlobal isConstant).of_reads hg
    · exact (hheader f hf).1
    · exact (ensures_readLastName _).of_reads (hm.externs name hname)
    · obtain ⟨f, hf, hname⟩ := List.mem_flatMap.mp hname
      obtain ⟨i, hi, hcallee⟩ := List.mem_filterMap.mp hname
      obtain ⟨b, hb, hi⟩ := List.mem_flatMap.mp hi
      have hformed : Formed f.params f.ret i.result (.instr i.kind i.ty i.operands) :=
        ((hm.functions f hf).blocks b hb).instrs i hi
      rw [Instr.callee?] at hcallee
      split at hcallee
      case h_1 callee hkind =>
        cases hcallee
        rw [hkind] at hformed
        cases hformed with
        | call _ hidentifier _ => exact hidentifier
      case h_2 => cases hcallee

end NativeCode.Ir.Reader

namespace NativeCode.Selection

/-! ### Labels of different functions -/

lemma append_cons_inj {α : Type} {x : α} {as bs cs ds : List α} (hcs : x ∉ cs)
    (hds : x ∉ ds) (h : as ++ x :: cs = bs ++ x :: ds) : as = bs ∧ cs = ds := by
  rcases List.append_eq_append_iff.mp h with ⟨es, rfl, hes⟩ | ⟨es, rfl, hes⟩
  · cases es with
    | nil => simpa using hes
    | cons e es =>
      cases hes
      exact absurd (by simp) hcs
  · cases es with
    | nil => simpa [eq_comm] using hes
    | cons e es =>
      cases hes
      exact absurd (by simp) hds

lemma underscore_not_mem_text (l : Local) : '_' ∉ l.text.toList := by
  cases l <;> simp [Local.text]

lemma symbol_eq_of_localLabel {symbol symbol' : String} {l l' : Local}
    (h : localLabel symbol l = localLabel symbol' l') : symbol = symbol' := by
  have hlist := congrArg String.toList h
  simp only [localLabel, String.toList_append, List.append_assoc, List.append_cancel_left_eq] at hlist
  have hsep : "_".toList = ['_'] := rfl
  rw [hsep, List.singleton_append, List.singleton_append] at hlist
  exact String.toList_injective
    (append_cons_inj (underscore_not_mem_text l) (underscore_not_mem_text l') hlist).1

end NativeCode.Selection

namespace NativeCode.Compile

open Machine Selection
open Selection (Session)
open Text

variable {o : Options} {m : Ir.Module} {l : Listing} {cs : List Compiled}

/-! ### Label lines -/

/-- The labels of a listing all differ exactly when no name that the module defines is spelled like
the label of a function. -/
lemma Listed.nodup_labels_iff (h : Listed o m l cs) :
    (m.labels o.stem).Nodup ↔ ∀ f ∈ m.functions, ∀ x ∈ f.locals,
      ∀ d ∈ WellFormed.definedNames m, localLabel (o.stem ++ f.name) x ≠ o.stem ++ d := by
  let locals (f : Ir.Function) : List String := f.locals.map (localLabel (o.stem ++ f.name))
  -- the labels of the functions come after all names that are defined
  have hperm : (m.labels o.stem).Perm
      ((WellFormed.definedNames m).map (o.stem ++ ·) ++ m.functions.flatMap locals) := by
    have hfunctions : (m.functions.flatMap fun f => (o.stem ++ f.name) :: locals f).Perm
        (m.functions.map (o.stem ++ ·.name) ++ m.functions.flatMap locals) := by
      rw [← List.flatMap_pure_eq_map]
      exact (List.flatMap_append_perm m.functions (fun f => [o.stem ++ f.name]) locals).symm
    have hbss : m.globals.filter (·.sec = .bss) =
        m.globals.filter fun g => !decide (g.sec = .data) := by
      refine List.filter_congr fun g _ => ?_
      rw [Ir.Global.sec]
      split_ifs <;> decide
    have hglobals : ((m.globals.filter (·.sec = .data)).map (o.stem ++ ·.name) ++
        (m.globals.filter (·.sec = .bss)).map (o.stem ++ ·.name)).Perm
          (m.globals.map (o.stem ++ ·.name)) := by
      rw [hbss, ← List.map_append]
      exact (List.filter_append_perm _ _).map _
    refine (hfunctions.append hglobals).trans ?_
    rw [WellFormed.definedNames, List.map_append, List.map_map, List.map_map]
    refine (List.perm_append_comm).trans ?_
    rw [List.append_assoc]
    exact List.Perm.refl _
  have hdefined : ((WellFormed.definedNames m).map (o.stem ++ ·)).Nodup :=
    h.names.map fun _ _ hab => (String.append_right_inj _).mp hab
  have hlocals : (m.functions.flatMap locals).Nodup := by
    refine List.nodup_flatMap.mpr ⟨fun f hf => ?_, ?_⟩
    · obtain ⟨c, hc⟩ := h.exists_compiledIn.1 f hf
      obtain ⟨start, parts, -, hsymbol⟩ := hc.exists_parts hf
      have hnodup := parts.nodup_labels
      rw [parts.labels_eq, hsymbol] at hnodup
      exact (List.nodup_cons.mp hnodup).2
    · have hnames : (m.functions.map (·.name)).Nodup := (List.nodup_append'.mp h.names).2.1
      refine (List.pairwise_map.mp hnames).imp fun {f g} hne x hx hy => ?_
      obtain ⟨k, -, rfl⟩ := List.mem_map.mp hx
      obtain ⟨k', -, heq⟩ := List.mem_map.mp hy
      exact hne ((String.append_right_inj _).mp (symbol_eq_of_localLabel heq).symm)
  rw [hperm.nodup_iff, List.nodup_append']
  constructor
  · rintro ⟨-, -, hdisjoint⟩ f hf x hx d hd heq
    exact hdisjoint (List.mem_map_of_mem hd)
      (heq ▸ List.mem_flatMap.mpr ⟨f, hf, List.mem_map_of_mem hx⟩)
  · refine fun hall => ⟨hdefined, hlocals, fun name hname hlocal => ?_⟩
    obtain ⟨d, hd, rfl⟩ := List.mem_map.mp hname
    obtain ⟨f, hf, hlocal⟩ := List.mem_flatMap.mp hlocal
    obtain ⟨x, hx, heq⟩ := List.mem_map.mp hlocal
    exact hall f hf x hx d hd heq

/-! ### The lines of a module -/

variable {char : Char}

lemma avoids_localLabel (hc : IsBreak char) {symbol : String} (h : Avoids char symbol)
    (x : Local) : Avoids char (localLabel symbol x) := by
  refine avoids_append.mpr ⟨avoids_append.mpr ⟨avoids_append.mpr ⟨hc.avoids (by decide), h⟩,
    hc.avoids (by decide)⟩, ?_⟩
  cases x with
  | block id => exact avoids_append.mpr ⟨hc.avoids (by decide), hc.avoids_repr id⟩
  | cont n => exact avoids_append.mpr ⟨hc.avoids (by decide), hc.avoids_repr n⟩
  | epilogue => exact hc.avoids (by decide)

lemma avoids_globalItems (hc : IsBreak char) (g : Ir.Global) {asm : String}
    (hasm : Avoids char asm) : ∀ item ∈ globalItems g asm, Avoids char item.content := by
  have hzero : Avoids char s!".zero {g.ty.size}" :=
    avoids_append.mpr ⟨hc.avoids (by decide), hc.avoids_repr _⟩
  have hdirective : Avoids char (globalDirective g) := by
    rw [globalDirective]
    split
    · split_ifs
      · exact hzero
      · refine avoids_append.mpr ⟨avoids_append.mpr ⟨?_, hc.avoids (by decide)⟩, hc.avoids_toString _⟩
        cases Width.ofBytes g.ty.size <;> exact hc.avoids (by decide)
    · exact hzero
  simp only [globalItems, List.forall_mem_cons, Item.content, avoids_append, List.not_mem_nil,
    false_implies, implies_true, and_true]
  exact ⟨⟨hc.avoids (by decide), hasm⟩, hc.avoids (by decide), ⟨hasm, hc.avoids (by decide)⟩,
    hdirective⟩

lemma directive_mem_functionItems {c : Machine.Function} {text : String}
    (h : .directive text ∈ Listing.functionItems c) :
    text = ".globl " ++ c.name ∨ text = ".p2align 4" := by
  simp only [Listing.functionItems, List.mem_append, List.mem_cons, Item.directive.injEq,
    reduceCtorEq, List.not_mem_nil, or_false, List.mem_map, and_false, exists_false,
    List.mem_flatMap] at h
  rcases h with h | h
  · exact h
  · split_ifs at h
    · cases h
    · simp at h

lemma CompiledIn.comments {f : Ir.Function} {c : Compiled} (h : CompiledIn o m f c)
    (hf : f ∈ m.functions) {C : String → Prop} (hC : ∀ text ∈ frameRemarks, C text)
    (hparams : ∀ p ∈ f.params, C ("%" ++ p.name)) :
    ∀ i, .instr i ∈ Listing.functionItems c.code → C i.comment := by
  intro i hi
  obtain ⟨start, parts, htabled, -⟩ := h.exists_parts hf
  exact (parts.names_instrs htabled (fun b hb i hi name => Ir.mem_names_of_callee? hf hb hi) hC hparams
    i (List.mem_filterMap.mpr ⟨_, hi, rfl⟩)).comment

lemma CompiledIn.avoids (hc : IsBreak char) {f : Ir.Function} {c : Compiled}
    (h : CompiledIn o m f c) (hf : f ∈ m.functions)
    (hnames : ∀ name ∈ m.names, Avoids char name ∧ Avoids char (o.stem ++ name)) :
    ∀ item ∈ Listing.functionItems c.code, Avoids char item.content := by
  obtain ⟨start, parts, htabled, hsymbol⟩ := h.exists_parts hf
  have hname : Avoids char parts.last.symbol := by
    rw [hsymbol]
    exact (hnames f.name (List.mem_append_left _ (List.mem_append_right _ (List.mem_map_of_mem hf)))).2
  intro item hi
  cases item with
  | instr i =>
    have hline := parts.names_instrs (C := fun _ => True) htabled
      (fun b hb i hi name => Ir.mem_names_of_callee? hf hb hi) (fun _ _ => trivial)
      (fun _ _ => trivial) i (List.mem_filterMap.mpr ⟨_, hi, rfl⟩)
    refine avoids_body hc fun x hx n hn => ?_
    have hrefers := hline.operands x hx
    cases x with
    | symbol =>
      cases hn
      obtain ⟨name, hmem, rfl | rfl⟩ := hrefers
      · exact (hnames _ hmem).1
      · exact (hnames _ hmem).2
    | rip =>
      cases hn
      obtain ⟨name, hmem, rfl⟩ := hrefers
      exact (hnames name (List.mem_append_left _ (List.mem_append_left _ hmem))).2
    | label =>
      cases hn
      obtain ⟨x, rfl⟩ := hrefers
      exact avoids_localLabel hc hname x
    | reg | imm | mem => cases hn
  | label name =>
    have hmem : name ∈ (Listing.functionItems c.code).filterMap label? :=
      List.mem_filterMap.mpr ⟨_, hi, rfl⟩
    rw [parts.labels_eq] at hmem
    refine avoids_append.mpr ⟨?_, hc.avoids (by decide)⟩
    rcases List.mem_cons.mp hmem with rfl | hmem
    · exact hname
    · obtain ⟨x, -, rfl⟩ := List.mem_map.mp hmem
      exact avoids_localLabel hc hname x
  | directive text =>
    rcases directive_mem_functionItems hi with rfl | rfl
    · refine avoids_append.mpr ⟨hc.avoids (by decide), ?_⟩
      rw [parts.name_eq]
      exact hname
    · exact hc.avoids (by decide)

lemma Listed.avoids (hc : IsBreak char) (h : Listed o m l cs)
    (hnames : ∀ name ∈ m.names, Avoids char name ∧ Avoids char (o.stem ++ name)) (sec : Section) :
    ∀ item ∈ (l.items sec).toList, Avoids char item.content := by
  have hglobals (gs : List Ir.Global) (hgs : ∀ g ∈ gs, g ∈ m.globals) :
      ∀ item ∈ gs.flatMap fun g => globalItems g (o.stem ++ g.name), Avoids char item.content := by
    intro item hi
    obtain ⟨g, hg, hi⟩ := List.mem_flatMap.mp hi
    have hname : g.name ∈ m.names :=
      List.mem_append_left _ (List.mem_append_left _ (List.mem_map_of_mem (hgs g hg)))
    exact avoids_globalItems hc g (hnames _ hname).2 item hi
  cases sec with
  | text =>
    intro item hi
    rw [Listing.items, h.text] at hi
    obtain ⟨c, hcs, hi⟩ := List.mem_flatMap.mp hi
    obtain ⟨f, hf, hcompiled⟩ := h.exists_compiledIn.2 c hcs
    exact hcompiled.avoids hc hf hnames item hi
  | data =>
    rw [Listing.items, h.data]
    exact hglobals _ fun g hg => List.mem_of_mem_filter hg
  | bss =>
    rw [Listing.items, h.bss]
    exact hglobals _ fun g hg => List.mem_of_mem_filter hg

lemma Listed.comments (h : Listed o m l cs) {C : String → Prop} (hC : ∀ text ∈ frameRemarks, C text)
    (hparams : ∀ f ∈ m.functions, ∀ p ∈ f.params, C ("%" ++ p.name)) (sec : Section) :
    ∀ i, .instr i ∈ (l.items sec).toList → C i.comment := by
  have hglobals (gs : List Ir.Global) (i : Instr) :
      .instr i ∉ gs.flatMap fun g => globalItems g (o.stem ++ g.name) := by
    simp [globalItems]
  intro i hi
  cases sec with
  | text =>
    rw [Listing.items, h.text] at hi
    obtain ⟨c, hcs, hi⟩ := List.mem_flatMap.mp hi
    obtain ⟨f, hf, hcompiled⟩ := h.exists_compiledIn.2 c hcs
    exact hcompiled.comments hf hC (hparams f hf) i hi
  | data =>
    rw [Listing.items, h.data] at hi
    exact absurd hi (hglobals _ i)
  | bss =>
    rw [Listing.items, h.bss] at hi
    exact absurd hi (hglobals _ i)

lemma Listed.plain (h : Listed o m l cs) (hmodule : Plain m.name)
    (hnames : ∀ name ∈ m.names, Plain name ∧ Plain (o.stem ++ name))
    (hparams : ∀ f ∈ m.functions, ∀ p ∈ f.params, Plain p.name) :
    ∀ s ∈ l.printed o.comments, Plain s := by
  have hitems (sec : Section) : ∀ item ∈ (l.items sec).toList, Plain (item.line o.comments) := by
    intro item hi
    refine Item.plain_line (h.avoids (Or.inl rfl) hnames sec item hi) (fun i hitem => ?_) _
    refine h.comments (C := Plain) (by decide) (fun f hf p hp => ?_) sec i (hitem ▸ hi)
    exact plain_append.mpr ⟨by decide, hparams f hf p hp⟩
  have hsec (directive : String) (hd : Plain directive) (sec : Section) :
      ∀ s ∈ Listing.printedSec o.comments directive (l.items sec), Plain s := by
    rw [Listing.printedSec]
    split_ifs
    · simp
    · refine List.forall_mem_cons.mpr ⟨hd, fun s hs => ?_⟩
      obtain ⟨i, hi, rfl⟩ := List.mem_map.mp hs
      exact hitems sec i hi
  have hheader : ∀ s ∈ Compile.header o m, Plain s := by
    refine List.forall_mem_cons.mpr ⟨?_, fun s hs => ?_⟩
    · exact plain_append.mpr ⟨plain_append.mpr ⟨by decide, hmodule⟩, by decide⟩
    · split_ifs at hs
      · rw [List.mem_singleton.mp hs]
        refine plain_append.mpr ⟨by decide, ?_⟩
        cases o.convention <;> decide
      · cases hs
  rw [Listing.printed, h.header]
  exact List.forall_mem_append.mpr ⟨hheader, List.forall_mem_append.mpr ⟨hsec _ (by decide) .text,
    List.forall_mem_append.mpr ⟨hsec _ (by decide) .data, hsec _ (by decide) .bss⟩⟩⟩

lemma isLabelLine_of_mem_labels (h : ∀ d ∈ WellFormed.definedNames m,
    isIdentifier d.toList = true) : ∀ name ∈ m.labels "", isLabelLine (name ++ ":").toList = true := by
  have hdefined {d : String} (hd : d ∈ WellFormed.definedNames m) :
      isLabelLine (("" ++ d) ++ ":").toList = true := by
    obtain ⟨-, hne, htab, hcomment⟩ := plain_of_isIdentifier (h d hd)
    rw [String.empty_append, String.toList_append]
    exact isLabelLine_append_colon hne htab hcomment
  refine List.forall_mem_append.mpr ⟨fun name hname => ?_, List.forall_mem_append.mpr
    ⟨fun name hname => ?_, fun name hname => ?_⟩⟩
  · obtain ⟨f, hf, hname⟩ := List.mem_flatMap.mp hname
    rcases List.mem_cons.mp hname with rfl | hname
    · exact hdefined (List.mem_append_right _ (List.mem_map_of_mem hf))
    · obtain ⟨x, -, rfl⟩ := List.mem_map.mp hname
      rw [String.toList_append, localLabel, String.append_assoc, String.append_assoc,
        String.toList_append]
      exact isLabelLine_append_colon (List.cons_ne_nil _ _) (by simp) (by simp)
  · obtain ⟨g, hg, rfl⟩ := List.mem_map.mp hname
    exact hdefined (List.mem_append_left _ (List.mem_map_of_mem (List.mem_of_mem_filter hg)))
  · obtain ⟨g, hg, rfl⟩ := List.mem_map.mp hname
    exact hdefined (List.mem_append_left _ (List.mem_map_of_mem (List.mem_of_mem_filter hg)))

lemma labelLines_eq {file : Nat} {text : String} {out : Output}
    (hread : Ir.Reader.readModule file text = .ok m) (hstem : o.stem = "")
    (hcompile : compileModule o m = .ok out) :
    labelLines out.asm = (m.labels "").map (· ++ ":") := by
  obtain ⟨⟨l, trace⟩, hlist, hout⟩ := exists_ok_of_bind hcompile
  cases hout
  obtain ⟨cs, hlisted⟩ := exists_listed hlist
  obtain ⟨hmodule, hnames, hparams⟩ := Ir.Reader.identifiers_of_readModule hread
  have hplain : ∀ s ∈ l.printed o.comments, Plain s := by
    refine hlisted.plain (plain_of_isIdentifier hmodule).1 (fun name hname => ?_)
      fun f hf p hp => (plain_of_isIdentifier (hparams f hf p hp)).1
    have hidentifier := (plain_of_isIdentifier (hnames name hname)).1
    rw [hstem, String.empty_append]
    exact ⟨hidentifier, hidentifier⟩
  have hheader : ∀ s ∈ l.header.toList, isLabelLine s.toList = false := by
    rw [hlisted.header]
    refine List.forall_mem_cons.mpr ⟨isLabelLine_of_head? (Or.inl ?_), fun s hs => ?_⟩
    · change ("\t.file \"" ++ m.name ++ "\"").toList.head? = some '\t'
      simp
    · split_ifs at hs
      · rw [List.mem_singleton.mp hs]
        refine isLabelLine_of_head? (Or.inr ?_)
        change ("# calling convention: " ++ o.convention.name).toList.head? = some '#'
        simp
      · cases hs
  have hlabels : ∀ name ∈ l.labels, isLabelLine (name ++ ":").toList = true := by
    rw [hlisted.labels_eq, hstem]
    exact isLabelLine_of_mem_labels fun d hd => hnames d (List.mem_append_left _ hd)
  refine (Listing.labelLines_print hplain hheader hlabels).trans ?_
  rw [hlisted.labels_eq, hstem]

lemma append_colon_injective : Function.Injective fun s : String => s ++ ":" :=
  fun _ _ h => (String.append_left_inj _).mp h

/-- The label lines of the text of a module are those of its functions and globals. They all differ
exactly when no name that the module defines is spelled like the label of a function. -/
theorem labelLines_nodup_iff {file : Nat} {text : String} {out : Output}
    (hread : Ir.Reader.readModule file text = .ok m) (hstem : o.stem = "")
    (hcompile : compileModule o m = .ok out) :
    labelLines out.asm = (m.labels "").map (· ++ ":") ∧
      ((labelLines out.asm).Nodup ↔ ∀ f ∈ m.functions, ∀ x ∈ f.locals,
        localLabel f.name x ∉ WellFormed.definedNames m) := by
  have hlines := labelLines_eq hread hstem hcompile
  obtain ⟨⟨l, trace⟩, hlist, -⟩ := exists_ok_of_bind hcompile
  obtain ⟨cs, hlisted⟩ := exists_listed hlist
  refine ⟨hlines, ?_⟩
  rw [hlines, List.nodup_map_iff append_colon_injective, ← hstem, hlisted.nodup_labels_iff, hstem]
  simp only [String.empty_append]
  constructor
  · exact fun h f hf x hx hmem => h f hf x hx _ hmem rfl
  · exact fun h f hf x hx d hd heq => h f hf x hx (heq ▸ hd)

/-- A text with a global, and with two functions whose names and labels are much alike. -/
def labelsAlike : String :=
  "global .Lf_bb1: i64\nfunc f() \x7b\nbb0:\n  ret\n\x7d\nfunc f_bb0() \x7b\nbb0:\n  ret\n\x7d\n"

lemma spared_labelsAlike : (Ir.Reader.readModule 0 labelsAlike).map
    (fun m => (decide (∀ f ∈ m.functions, ∀ x ∈ f.locals,
      localLabel f.name x ∉ WellFormed.definedNames m), (compileModule {} m).isOk)) =
        .ok (true, true) := by
  decide +kernel

/-- All its label lines differ. -/
theorem labelLines_nodup_labelsAlike :
    ∃ m out, Ir.Reader.readModule 0 labelsAlike = .ok m ∧ compileModule {} m = .ok out ∧
      (labelLines out.asm).Nodup := by
  have hspared := spared_labelsAlike
  cases hread : Ir.Reader.readModule 0 labelsAlike with
  | error e =>
    rw [hread] at hspared
    cases hspared
  | ok m =>
    rw [hread] at hspared
    obtain ⟨hm, hok⟩ := Prod.mk.inj (Except.ok.inj hspared)
    cases hcompile : compileModule {} m with
    | error e =>
      rw [hcompile] at hok
      cases hok
    | ok out =>
      refine ⟨m, out, rfl, hcompile, ?_⟩
      exact (labelLines_nodup_iff hread rfl hcompile).2.mpr (of_decide_eq_true hm)

/-- A text with a function that is named like a label of the function before it. -/
def namedLikeLabel : String :=
  "func f() \x7b\nbb0:\n  ret\n\x7d\nfunc .Lf_bb0() \x7b\nbb0:\n  ret\n\x7d\n"

lemma labels_namedLikeLabel : (Ir.Reader.readModule 0 namedLikeLabel).map
    (fun m => (decide (m.labels "").Nodup, (compileModule {} m).isOk)) = .ok (false, true) := by
  decide +kernel

/-- It is compiled, and two of its label lines are the same. -/
theorem not_nodup_namedLikeLabel :
    ∃ m out, Ir.Reader.readModule 0 namedLikeLabel = .ok m ∧ compileModule {} m = .ok out ∧
      ¬ (labelLines out.asm).Nodup := by
  have hlabels := labels_namedLikeLabel
  cases hread : Ir.Reader.readModule 0 namedLikeLabel with
  | error e =>
    rw [hread] at hlabels
    cases hlabels
  | ok m =>
    rw [hread] at hlabels
    obtain ⟨hm, hok⟩ := Prod.mk.inj (Except.ok.inj hlabels)
    cases hcompile : compileModule {} m with
    | error e =>
      rw [hcompile] at hok
      cases hok
    | ok out =>
      refine ⟨m, out, rfl, hcompile, ?_⟩
      rw [labelLines_eq hread rfl hcompile, List.nodup_map_iff append_colon_injective]
      exact of_decide_eq_false hm

end NativeCode.Compile
