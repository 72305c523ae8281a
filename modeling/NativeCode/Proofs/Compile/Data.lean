import NativeCode.Proofs.Compile.Listed
import NativeCode.Proofs.Machine.Assembler

/-!
# Globals in the data sections

Globals are laid out one after the other, each at the next multiple of eight in its section. The
addresses are entered into the symbols while the lines are written, so that assembling the lines has
to give the same places. It does, whatever aligned address a section starts at: every line of a
global is read as it is meant, and the zeros in front of it are those that the layout counts.
-/

namespace NativeCode

open NativeCode.Assembler

/-- The bytes of a global: the low ones of its initial value, or zeros. -/
def Ir.Global.contents (g : Ir.Global) : List (BitVec 8) := littleEndian g.ty.size (g.init.getD 0)

def Ir.Global.entry (g : Ir.Global) (stem : String) (address : Address) : Symbol where
  source := g.name
  asm := stem ++ g.name
  kind := if g.isConstant then .constant else .variable
  defined := true
  address := some address

lemma Compile.le_alignSlot (n : Nat) : n ≤ alignSlot n := by
  unfold alignSlot
  omega

lemma Compile.dvd_alignSlot (n : Nat) : 8 ∣ alignSlot n := ⟨_, Nat.mul_comm _ _⟩

namespace Assembler.Image

open Compile

variable (m : Image) (g : Ir.Global) (asm : String)

/-- The image of a section with a global at the next multiple of eight. -/
def add : Image where
  bytes := m.bytes ++ (List.replicate (alignSlot m.bytes.length - m.bytes.length) 0 ++ g.contents)
  labels := m.labels ++ [(asm, alignSlot m.bytes.length)]

lemma length_add : (m.add g asm).bytes.length = alignSlot m.bytes.length + g.ty.size := by
  have hle := le_alignSlot m.bytes.length
  simp only [add, Ir.Global.contents, List.length_append, List.length_replicate,
    length_littleEndian]
  omega

lemma take_drop_add :
    ((m.add g asm).bytes.drop (alignSlot m.bytes.length)).take g.ty.size = g.contents := by
  have hle := le_alignSlot m.bytes.length
  have hlength : g.ty.size = g.contents.length := (length_littleEndian _ _).symm
  rw [add, ← List.append_assoc, List.drop_append_of_le_length (by simp; omega),
    List.drop_of_length_le (by simp; omega), List.nil_append, hlength, List.take_length]

lemma take_drop_add_of_le {offset n : Nat} (h : offset + n ≤ m.bytes.length) :
    ((m.add g asm).bytes.drop offset).take n = (m.bytes.drop offset).take n := by
  rw [add, List.drop_append_of_le_length (by omega),
    List.take_append_of_le_length (by rw [List.length_drop]; omega)]

end Assembler.Image

end NativeCode

namespace NativeCode.Compile

open NativeCode.Assembler
open Ir (Ty)
open Machine

variable {g : Ir.Global} {gs : List Ir.Global} {u : Sections} {symbols symbols' : Symbols}
  {l l' : Listing} {m : Image} {asm : String}

/-! ### The lines of a global -/

lemma checkGlobal_eq_ok_iff : checkGlobal g = .ok () ↔
    g.ty.size ≠ 0 ∧ (g.ty.isAggregate = true → g.init.getD 0 = 0) := by
  unfold checkGlobal
  by_cases hsize : g.ty.size = 0
  · simp [hsize, fail, bind, Except.bind]
  · cases g.init <;> by_cases hagg : g.ty.isAggregate = true <;>
      simp [hsize, hagg, fail, pure, Except.pure]

lemma read?_zero (n : Nat) : Directive.read? s!".zero {n}" = some (.zeros n) := by
  have hread := Directive.read?_eq (show ' ' ∉ ".zero".toList by decide) n.repr
  exact hread.trans (congrArg (Option.map Directive.zeros) (decimal?_repr n))

lemma read?_value {keyword : String} {w : Width} (h : ' ' ∉ keyword.toList)
    (hmake : ∀ cs, Directive.make? keyword cs = (signed? cs).map (.value w)) (i : Int) :
    Directive.read? (keyword ++ " " ++ toString i) = some (.value w i) := by
  rw [Directive.read?_eq h, hmake, signed?_toString]
  rfl

lemma read?_dataDirective (n : Nat) (v : Word) :
    Directive.read? (dataDirective n v) =
      some (.value (Width.ofBytes n) ((Width.ofBytes n).signExtend v).toInt) := by
  unfold dataDirective
  dsimp only
  generalize ((Width.ofBytes n).signExtend v).toInt = i
  cases Width.ofBytes n with
  | byte => exact read?_value (by decide) (fun _ => rfl) i
  | word => exact read?_value (by decide) (fun _ => rfl) i
  | long => exact read?_value (by decide) (fun _ => rfl) i
  | quad => exact read?_value (by decide) (fun _ => rfl) i

lemma bytes_ofBytes_size {ty : Ty} (hsize : ty.size ≠ 0) (hagg : ty.isAggregate = false) :
    (Width.ofBytes ty.size).bytes = ty.size := by
  cases ty with
  | int signed w => rw [Ty.size, Width.ofBytes_bytes]
  | float q => cases q <;> rfl
  | bool | ptr => rfl
  | void => exact absurd rfl hsize
  | array | struct => cases hagg

theorem exists_read?_globalDirective (h : checkGlobal g = .ok ()) :
    ∃ d, Directive.read? (globalDirective g) = some d ∧
      ∀ address, d.bytes address = g.contents := by
  obtain ⟨hsize, hagg⟩ := checkGlobal_eq_ok_iff.mp h
  have hzeros (hinit : g.init.getD 0 = 0) (address : Nat) :
      (Directive.zeros g.ty.size).bytes address = g.contents := by
    rw [Ir.Global.contents, hinit, littleEndian_zero]
    rfl
  unfold globalDirective
  cases hinit : g.init with
  | none => exact ⟨_, read?_zero _, hzeros (by rw [hinit]; rfl)⟩
  | some v =>
    by_cases ha : g.ty.isAggregate = true
    · dsimp only
      rw [if_pos ha]
      exact ⟨_, read?_zero _, hzeros (hagg ha)⟩
    · dsimp only
      rw [if_neg ha]
      refine ⟨_, read?_dataDirective _ _, fun address => ?_⟩
      have hbytes := bytes_ofBytes_size hsize (Bool.eq_false_iff.mpr ha)
      rw [Directive.bytes, BitVec.ofInt_toInt, littleEndian_signExtend, Ir.Global.contents, hinit,
        hbytes]
      rfl

lemma padding_eq {start : Nat} (h : 8 ∣ start) (n : Nat) :
    padding 3 (start + n) = alignSlot n - n := by
  obtain ⟨k, rfl⟩ := h
  unfold padding alignSlot
  omega

/-- The lines of a global, in a section that starts at an aligned address. -/
theorem foldlM_globalItems {start : Nat} (hstart : 8 ∣ start) (hcheck : checkGlobal g = .ok ())
    (hnew : asm ∉ m.labels.map (·.1)) :
    (globalItems g asm).foldlM (Image.line start) m = some (m.add g asm) := by
  obtain ⟨d, hd, hbytes⟩ := exists_read?_globalDirective hcheck
  have hglobl : Directive.read? (".globl " ++ asm) = some .globl :=
    Directive.read?_eq (show ' ' ∉ ".globl".toList by decide) asm
  have halign : Directive.read? ".p2align 3" = some (.align 3) := by decide
  have hnothing (n : Nat) : Directive.globl.bytes n = [] := rfl
  have hzeros (n : Nat) : (Directive.align 3).bytes (start + n) =
      List.replicate (alignSlot n - n) 0 := by rw [Directive.bytes, padding_eq hstart]
  simp only [globalItems, List.foldlM_cons, List.foldlM_nil, Image.line, hglobl, halign, hd,
    Option.map_some, Option.bind_eq_bind, Option.bind_some, if_neg hnew, hbytes, hnothing, hzeros,
    List.append_nil, Image.add]
  simp [Nat.add_sub_cancel' (le_alignSlot m.bytes.length)]

/-! ### Placing globals -/

/-- How many bytes of a section are used. The layout has none in the text section. -/
def Sections.used (u : Sections) : Section → Nat
  | .text => 0
  | .data => u.data
  | .bss => u.bss

lemma place_fst (u : Sections) (g : Ir.Global) :
    (u.place g).1 = ⟨g.sec, alignSlot (u.used g.sec)⟩ := by
  rw [Sections.place, Ir.Global.sec]
  split_ifs <;> rfl

lemma used_place (u : Sections) (g : Ir.Global) (sec : Section) :
    (u.place g).2.used sec =
      if g.sec = sec then alignSlot (u.used sec) + g.ty.size else u.used sec := by
  rw [Sections.place, Ir.Global.sec]
  split_ifs <;> cases sec <;> first | rfl | contradiction

lemma layoutGlobals_cons_ok {r : Symbols × Listing}
    (h : layoutGlobals (g :: gs) u symbols l = .ok r) :
    checkGlobal g = .ok () ∧ g.name ∉ symbols.sources ∧
      layoutGlobals gs (u.place g).2 (symbols.push (g.entry symbols.stem (u.place g).1))
        ((globalItems g (symbols.stem ++ g.name)).foldl (·.append g.sec ·) l) = .ok r := by
  have hkind : (if g.isConstant then SymbolKind.constant else .variable) ≠ .function := by
    split_ifs <;> decide
  rw [layoutGlobals] at h
  obtain ⟨⟨⟩, hcheck, h⟩ := exists_ok_of_bind h
  obtain ⟨⟨e, t⟩, hdefine, h⟩ := exists_ok_of_bind h
  rcases Symbols.define_cases hdefine with ⟨hnew, rfl, rfl⟩ | ⟨-, -, -, hfunction, -⟩
  · refine ⟨hcheck, Symbols.find?_eq_none_iff.mp hnew, ?_⟩
    have hsec : (u.place g).1.sec = g.sec := by rw [place_fst]
    rw [← hsec]
    exact h
  · exact absurd hfunction hkind

lemma stem_of_layoutGlobals (h : layoutGlobals gs u symbols l = .ok (symbols', l')) :
    symbols'.stem = symbols.stem := by
  induction gs generalizing u symbols l with
  | nil =>
    cases h
    rfl
  | cons g gs ih =>
    obtain ⟨-, -, hrest⟩ := layoutGlobals_cons_ok h
    exact (ih hrest).trans (Symbols.stem_push _ _)

/-- The globals that can be laid out: they have sizes and names of their own, and aggregates start
with zeros. -/
theorem layoutGlobals_ok_iff :
    (∃ r, layoutGlobals gs u symbols l = .ok r) ↔
      (∀ g ∈ gs, g.ty.size ≠ 0 ∧ (g.ty.isAggregate = true → g.init.getD 0 = 0)) ∧
        (gs.map (·.name)).Nodup ∧ ∀ g ∈ gs, g.name ∉ symbols.sources := by
  induction gs generalizing u symbols l with
  | nil => exact ⟨fun _ => by simp, fun _ => ⟨_, rfl⟩⟩
  | cons g gs ih =>
    constructor
    · rintro ⟨r, hr⟩
      obtain ⟨hcheck, hname, hrest⟩ := layoutGlobals_cons_ok hr
      obtain ⟨hchecks, hnodup, hnames⟩ := ih.mp ⟨r, hrest⟩
      simp only [Symbols.sources_push, List.mem_append, List.mem_singleton, not_or] at hnames
      refine ⟨List.forall_mem_cons.mpr ⟨checkGlobal_eq_ok_iff.mp hcheck, hchecks⟩,
        List.nodup_cons.mpr ⟨fun hmem => ?_, hnodup⟩,
        List.forall_mem_cons.mpr ⟨hname, fun g' hg' => (hnames g' hg').1⟩⟩
      obtain ⟨g', hg', heq⟩ := List.mem_map.mp hmem
      exact (hnames g' hg').2 heq
    · rintro ⟨hchecks, hnodup, hnames⟩
      obtain ⟨hcheck, hchecks⟩ := List.forall_mem_cons.mp hchecks
      obtain ⟨hname, hnames⟩ := List.forall_mem_cons.mp hnames
      obtain ⟨hnew, hnodup⟩ := List.nodup_cons.mp hnodup
      obtain ⟨e, he, -, hstep⟩ := exists_layoutGlobals_cons gs u l hname
      rw [hstep, checkGlobal_eq_ok_iff.mpr hcheck]
      refine ih.mpr ⟨hchecks, hnodup, fun g' hg' hmem => ?_⟩
      simp only [Symbols.sources_push, List.mem_append, List.mem_singleton, he] at hmem
      rcases hmem with hmem | heq
      · exact hnames g' hg' hmem
      · exact hnew (List.mem_map.mpr ⟨g', hg', heq⟩)

/-! ### Layouts and images -/

/-- What holds after globals have been laid out: the entries of the symbols are those of the globals
with their addresses, and the lines of each section assemble to an image with the globals at these
addresses, in their order and without overlap. -/
structure LaidOut (start : Section → Nat) (ps : List (Ir.Global × Address)) (u : Sections)
    (symbols : Symbols) (l : Listing) (image : Section → Image) : Prop where
  consistent : symbols.Consistent
  entries : symbols.entries = ps.map fun p => p.1.entry symbols.stem p.2
  assembled : ∀ sec, assemble (start sec) (l.items sec).toList = some (image sec)
  used : ∀ sec, (image sec).bytes.length = u.used sec
  labels : ∀ sec, (image sec).labels =
    (ps.filter (·.2.sec = sec)).map fun p => (symbols.stem ++ p.1.name, p.2.offset)
  sec : ∀ p ∈ ps, p.2.sec = p.1.sec
  aligned : ∀ p ∈ ps, 8 ∣ p.2.offset
  below : ∀ p ∈ ps, p.2.offset + p.1.ty.size ≤ u.used p.2.sec
  contents : ∀ p ∈ ps,
    ((image p.2.sec).bytes.drop p.2.offset).take p.1.ty.size = p.1.contents
  apart : ps.Pairwise fun p p' => p.2.sec = p'.2.sec → p.2.offset + p.1.ty.size ≤ p'.2.offset

namespace LaidOut

variable {start : Section → Nat} {ps : List (Ir.Global × Address)} {image : Section → Image}

lemma empty (start : Section → Nat) (stem : String) (header : Array String) :
    LaidOut start [] {} { stem } { header } fun _ => {} where
  consistent := Symbols.consistent_empty stem
  entries := rfl
  assembled sec := by cases sec <;> rfl
  used sec := by cases sec <;> rfl
  labels _ := rfl
  sec := List.forall_mem_nil _
  aligned := List.forall_mem_nil _
  below := List.forall_mem_nil _
  contents := List.forall_mem_nil _
  apart := .nil

lemma not_mem_labels (h : LaidOut start ps u symbols l image)
    (hname : g.name ∉ symbols.sources) (sec : Section) :
    symbols.stem ++ g.name ∉ (image sec).labels.map (·.1) := by
  intro hmem
  rw [h.labels, List.map_map, List.mem_map] at hmem
  obtain ⟨p, hp, heq⟩ := hmem
  refine hname ?_
  rw [← (String.append_right_inj _).mp heq, Symbols.sources, h.entries, List.map_map]
  exact List.mem_map.mpr ⟨p, List.mem_of_mem_filter hp, rfl⟩

theorem step (h : LaidOut start ps u symbols l image) (hstart : ∀ sec, 8 ∣ start sec)
    (hcheck : checkGlobal g = .ok ()) (hname : g.name ∉ symbols.sources) :
    LaidOut start (ps ++ [(g, (u.place g).1)]) (u.place g).2
      (symbols.push (g.entry symbols.stem (u.place g).1))
      ((globalItems g (symbols.stem ++ g.name)).foldl (·.append g.sec ·) l)
      (Function.update image g.sec ((image g.sec).add g (symbols.stem ++ g.name))) := by
  have hold {sec : Section} (hsec : g.sec ≠ sec) (m : Image) :
      Function.update image g.sec m sec = image sec := Function.update_of_ne hsec.symm _ _
  constructor
  case consistent => exact h.consistent.push hname rfl (by rintro ⟨⟩)
  case entries =>
    rw [Symbols.stem_push, List.map_append, ← h.entries]
    rfl
  case assembled =>
    intro sec
    rw [Listing.items_foldl_append]
    by_cases hsec : g.sec = sec
    · subst hsec
      rw [if_pos rfl, assemble_append (h.assembled _),
        foldlM_globalItems (hstart _) hcheck (h.not_mem_labels hname _), Function.update_self]
    · rw [if_neg hsec, List.append_nil, hold hsec, h.assembled]
  case used =>
    intro sec
    rw [used_place]
    by_cases hsec : g.sec = sec
    · subst hsec
      rw [if_pos rfl, Function.update_self, Image.length_add, h.used]
    · rw [if_neg hsec, hold hsec, h.used]
  case labels =>
    intro sec
    rw [List.filter_append, List.map_append, place_fst]
    by_cases hsec : g.sec = sec
    · subst hsec
      rw [Function.update_self, Image.add, h.labels, h.used]
      simp
    · rw [hold hsec, h.labels]
      simp [hsec]
  case sec =>
    refine List.forall_mem_append.mpr ⟨h.sec, List.forall_mem_singleton.mpr ?_⟩
    rw [place_fst]
  case aligned =>
    refine List.forall_mem_append.mpr ⟨h.aligned, List.forall_mem_singleton.mpr ?_⟩
    rw [place_fst]
    exact dvd_alignSlot _
  case below =>
    refine List.forall_mem_append.mpr ⟨fun p hp => (h.below p hp).trans ?_,
      List.forall_mem_singleton.mpr ?_⟩
    · rw [used_place]
      have hle := le_alignSlot (u.used p.2.sec)
      split_ifs <;> omega
    · rw [used_place, place_fst, if_pos rfl]
  case contents =>
    refine List.forall_mem_append.mpr ⟨fun p hp => ?_, List.forall_mem_singleton.mpr ?_⟩
    · rw [← h.contents p hp]
      by_cases hsec : g.sec = p.2.sec
      · rw [hsec, Function.update_self, Image.take_drop_add_of_le]
        rw [h.used]
        exact h.below p hp
      · rw [hold hsec]
    · rw [place_fst, Function.update_self, ← h.used]
      exact Image.take_drop_add _ _ _
  case apart =>
    refine List.pairwise_append.mpr ⟨h.apart, List.pairwise_singleton _ _, fun p hp => ?_⟩
    refine List.forall_mem_singleton.mpr fun hsec => (h.below p hp).trans ?_
    rw [hsec, place_fst]
    exact le_alignSlot _

end LaidOut

theorem exists_laidOut {start : Section → Nat} {ps : List (Ir.Global × Address)}
    {image : Section → Image} (h : LaidOut start ps u symbols l image)
    (hstart : ∀ sec, 8 ∣ start sec) (hrun : layoutGlobals gs u symbols l = .ok (symbols', l')) :
    ∃ ps' u' image', ps'.map (·.1) = ps.map (·.1) ++ gs ∧
      LaidOut start ps' u' symbols' l' image' := by
  induction gs generalizing ps u symbols l image with
  | nil =>
    cases hrun
    exact ⟨ps, u, image, (List.append_nil _).symm, h⟩
  | cons g gs ih =>
    obtain ⟨hcheck, hname, hrest⟩ := layoutGlobals_cons_ok hrun
    obtain ⟨ps', u', image', hps', hlaid⟩ := ih (h.step hstart hcheck hname) hrest
    exact ⟨ps', u', image', by rw [hps', List.map_append, List.append_assoc]; rfl, hlaid⟩

/-! ### Main result -/

/-- The global `g` with the entry `e` is at the address `a`: its label stands there and nowhere
else, at a multiple of eight, and its bytes follow. -/
structure Located (start : Section → Nat) (image : Section → Image) (g : Ir.Global) (e : Symbol)
    (a : Address) : Prop where
  address : e.address = some a
  sec : a.sec = g.sec
  label : ∀ sec offset, (e.asm, offset) ∈ (image sec).labels ↔ a = ⟨sec, offset⟩
  aligned : 8 ∣ start a.sec + a.offset
  contents : ((image a.sec).bytes.drop a.offset).take g.ty.size = g.contents

section Located

variable {start : Section → Nat} {ps : List (Ir.Global × Address)} {image : Section → Image}

lemma LaidOut.find? (h : LaidOut start ps u symbols l image) {p : Ir.Global × Address}
    (hp : p ∈ ps) : symbols.find? p.1.name = some (p.1.entry symbols.stem p.2) :=
  h.consistent.find?_source (e := p.1.entry symbols.stem p.2)
    (h.entries ▸ List.mem_map.mpr ⟨p, hp, rfl⟩)

lemma LaidOut.located (h : LaidOut start ps u symbols l image)
    (hstart : ∀ sec, 8 ∣ start sec) {p : Ir.Global × Address} (hp : p ∈ ps) :
    Located start image p.1 (p.1.entry symbols.stem p.2) p.2 where
  address := rfl
  sec := h.sec p hp
  label sec offset := by
    rw [h.labels, List.mem_map]
    constructor
    · rintro ⟨p', hp', heq⟩
      obtain ⟨hp', hsec⟩ := List.mem_filter.mp hp'
      obtain ⟨hasm, rfl⟩ := Prod.mk.inj heq
      -- two entries with one name are one entry, with one address
      have hentry := h.find? hp'
      rw [(String.append_right_inj _).mp hasm, h.find? hp] at hentry
      have haddress := congrArg Symbol.address (Option.some.inj hentry)
      rw [Option.some.inj haddress, ← of_decide_eq_true hsec]
    · intro ha
      refine ⟨p, List.mem_filter.mpr ⟨hp, decide_eq_true ?_⟩, ?_⟩ <;> rw [ha]
      rfl
  aligned := dvd_add (hstart _) (h.aligned p hp)
  contents := h.contents p hp

end Located

lemma exists_layoutGlobals_of_listModule {o : Options} {m : Ir.Module} {trace : String}
    (h : listModule o m = .ok (l', trace)) :
    ∃ symbols l, layoutGlobals m.globals {} { stem := o.stem } { header := (header o m).toArray } =
      .ok (symbols, l) ∧ l'.data = l.data ∧ l'.bss = l.bss := by
  obtain ⟨-, -, h⟩ := exists_ok_of_bind h
  obtain ⟨⟨symbols, l⟩, hlayout, h⟩ := exists_ok_of_bind h
  obtain ⟨symbols', -, h⟩ := exists_ok_of_bind h
  obtain ⟨⟨compiled, s⟩, -, h⟩ := exists_ok_of_bind h
  cases h
  refine ⟨symbols, l, hlayout, Array.toList_inj.mp ?_, Array.toList_inj.mp ?_⟩
  · exact (Listing.items_foldl_append _ .text .data l).trans (List.append_nil _)
  · exact (Listing.items_foldl_append _ .text .bss l).trans (List.append_nil _)

/-- The addresses that the symbols have for the globals of a module are those in its assembled data
sections. The globals are accepted exactly if they have sizes and names of their own, and aggregates
start with zeros. Then the lines of each section can be assembled from every aligned address on. Each
global has its label and its bytes where its entry says, at a multiple of eight, and in a section
each global ends before the next one. Compiling the module adds no lines to these sections. -/
theorem located_of_layoutGlobals (o : Options) (m : Ir.Module) :
    ((∃ r, layoutGlobals m.globals {} { stem := o.stem } { header := (header o m).toArray } =
        .ok r) ↔
      (∀ g ∈ m.globals, g.ty.size ≠ 0 ∧ (g.ty.isAggregate = true → g.init.getD 0 = 0)) ∧
        (m.globals.map (·.name)).Nodup) ∧
    ∀ symbols l,
      layoutGlobals m.globals {} { stem := o.stem } { header := (header o m).toArray } =
        .ok (symbols, l) →
      (∀ start : Section → Nat, (∀ sec, 8 ∣ start sec) →
        ∃ image : Section → Image,
          (∀ sec, assemble (start sec) (l.items sec).toList = some (image sec)) ∧
          (∀ g ∈ m.globals, ∃ e a, symbols.find? g.name = some e ∧ Located start image g e a) ∧
          m.globals.Pairwise fun g g' => ∀ e e' a a',
            symbols.find? g.name = some e → symbols.find? g'.name = some e' →
            e.address = some a → e'.address = some a' → a.sec = a'.sec →
            a.offset + g.ty.size ≤ a'.offset) ∧
      ∀ l' trace, listModule o m = .ok (l', trace) → l'.data = l.data ∧ l'.bss = l.bss := by
  refine ⟨?_, fun symbols l h => ⟨fun start hstart => ?_, fun l' trace hlist => ?_⟩⟩
  · rw [layoutGlobals_ok_iff]
    exact and_congr_right fun _ => and_iff_left fun _ _ => List.not_mem_nil
  · obtain ⟨ps, u, image, hps, hlaid⟩ := exists_laidOut (.empty start o.stem _) hstart h
    rw [List.map_nil, List.nil_append] at hps
    refine ⟨image, hlaid.assembled, fun g hg => ?_, ?_⟩
    · obtain ⟨p, hp, rfl⟩ := List.mem_map.mp (hps ▸ hg)
      exact ⟨_, p.2, hlaid.find? hp, hlaid.located hstart hp⟩
    · rw [← hps, List.pairwise_map]
      refine hlaid.apart.imp_of_mem fun {p p'} hp hp' hapart e e' a a' he he' ha ha' hsec => ?_
      obtain rfl : p.1.entry symbols.stem p.2 = e :=
        Option.some.inj ((hlaid.find? hp).symm.trans he)
      obtain rfl : p'.1.entry symbols.stem p'.2 = e' :=
        Option.some.inj ((hlaid.find? hp').symm.trans he')
      cases ha
      cases ha'
      exact hapart hsec
  · obtain ⟨symbols', l₀, h', hdata⟩ := exists_layoutGlobals_of_listModule hlist
    rw [h] at h'
    cases h'
    exact hdata

/-- A byte, an array without an initial value, and a number. -/
def mixedGlobals : Ir.Module where
  globals := [{ name := "flag", ty := .int true .byte, init := some (-2) },
    { name := "table", ty := .array 12 },
    { name := "count", ty := .i64, init := some 0x0102030405060708 }]

/-- The number stands after the byte and the zeros that align it. -/
theorem located_of_layoutGlobals_mixed :
    ∃ symbols l image, layoutGlobals mixedGlobals.globals {} { stem := "_" }
        { header := (header { stem := "_" } mixedGlobals).toArray } = .ok (symbols, l) ∧
      assemble 24 l.data.toList = some image ∧
      (symbols.find? "count").bind (·.address) = some ⟨.data, 8⟩ ∧ ("_count", 8) ∈ image.labels ∧
      (image.bytes.drop 8).take 8 = [8, 7, 6, 5, 4, 3, 2, 1] := by
  obtain ⟨symbols, l, h, hcount⟩ : ∃ symbols l, layoutGlobals mixedGlobals.globals {}
      { stem := "_" } { header := (header { stem := "_" } mixedGlobals).toArray } =
        .ok (symbols, l) ∧
      (symbols.find? "count").map (fun e => (e.asm, e.address)) =
        some ("_count", some ⟨.data, 8⟩) := ⟨_, _, rfl, rfl⟩
  obtain ⟨image, hassembled, hlocated, -⟩ :=
    ((located_of_layoutGlobals { stem := "_" } mixedGlobals).2 symbols l h).1 (fun _ => 24)
      (fun _ => by decide)
  obtain ⟨e, a, he, hlocated⟩ :=
    hlocated { name := "count", ty := .i64, init := some 0x0102030405060708 } (by decide)
  rw [he] at hcount
  obtain ⟨hasm, haddress⟩ := Prod.mk.inj (Option.some.inj hcount)
  obtain rfl : ⟨.data, 8⟩ = a := Option.some.inj (haddress.symm.trans hlocated.address)
  refine ⟨symbols, l, image .data, h, hassembled .data, ?_, ?_, ?_⟩
  · rw [he]
    exact haddress
  · rw [← hasm]
    exact (hlocated.label .data 8).mpr rfl
  · exact hlocated.contents.trans (by decide)

end NativeCode.Compile
