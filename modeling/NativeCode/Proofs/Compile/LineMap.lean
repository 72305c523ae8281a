import NativeCode.Proofs.Compile.Encodable
import NativeCode.Proofs.Ir.Statements

/-!
# The line map of a module

The line map has an entry for every line that was emitted for an instruction or the end of a block,
and for no other line: what sets up or takes down a frame and what stores parameters has no place in
the source, and every statement of a text that has been read has one.
-/

namespace NativeCode

open Machine

/-! ### The entries of lines -/

/-- The entries of the lines that follow line `n` under a label. -/
def mappings : Nat → String → List Item → List LineMapping
  | _, _, [] => []
  | n, label, .directive _ :: items => mappings (n + 1) label items
  | n, _, .label name :: items => mappings (n + 1) name items
  | n, label, .instr i :: items =>
    if i.origin.hasLine then ⟨i.origin, n + 1, label⟩ :: mappings (n + 1) label items
    else mappings (n + 1) label items

/-- The label above the line that follows `items`, which stand under `label`. -/
def labelAfter (label : String) (items : List Item) : String :=
  (items.filterMap label?).getLast?.getD label

variable {n : Nat} {label : String} {items : List Item} {e : LineMapping}

@[simp] lemma labelAfter_nil : labelAfter label [] = label := rfl

lemma labelAfter_label (name : String) :
    labelAfter label (.label name :: items) = labelAfter name items := by
  rw [labelAfter, filterMap_label?_label, List.getLast?_cons]
  rfl

lemma labelAfter_cons {item : Item} (h : label? item = none) :
    labelAfter label (item :: items) = labelAfter label items := by
  rw [labelAfter, List.filterMap_cons_none h]
  rfl

/-- The entries are those of the instructions with a place. -/
theorem mem_mappings : e ∈ mappings n label items ↔
    ∃ pre i post, items = pre ++ .instr i :: post ∧ i.origin.hasLine = true ∧
      e = ⟨i.origin, n + pre.length + 1, labelAfter label pre⟩ := by
  induction items generalizing n label with
  | nil => simp [mappings]
  | cons item items ih =>
    -- a later instruction is one of the rest, counted from the next line
    have hlater (label' : String) (hlabel : ∀ pre, labelAfter label (item :: pre) = labelAfter label' pre) :
        e ∈ mappings (n + 1) label' items ↔
          ∃ pre i post, item :: items = item :: pre ++ .instr i :: post ∧ i.origin.hasLine = true ∧
            e = ⟨i.origin, n + (item :: pre).length + 1, labelAfter label (item :: pre)⟩ := by
      rw [ih]
      refine exists_congr fun pre => exists_congr fun i => exists_congr fun post => ?_
      rw [hlabel, List.cons_append, List.cons_inj_right, List.length_cons, Nat.add_right_comm n,
        Nat.add_assoc n]
    have hsplit (P : List Item → Instr → List Item → Prop) :
        (∃ pre i post, item :: items = pre ++ .instr i :: post ∧ P pre i post) ↔
          (∃ i, item = .instr i ∧ P [] i items) ∨
            ∃ pre i post, item :: items = item :: pre ++ .instr i :: post ∧ P (item :: pre) i post := by
      constructor
      · rintro ⟨pre, i, post, heq, hP⟩
        cases pre with
        | nil =>
          cases heq
          exact Or.inl ⟨i, rfl, hP⟩
        | cons item' pre =>
          cases heq
          exact Or.inr ⟨pre, i, post, rfl, hP⟩
      · rintro (⟨i, rfl, hP⟩ | ⟨pre, i, post, heq, hP⟩)
        · exact ⟨[], i, items, rfl, hP⟩
        · exact ⟨item :: pre, i, post, heq, hP⟩
    rw [hsplit]
    cases item with
    | directive text =>
      rw [mappings, hlater label fun _ => labelAfter_cons rfl]
      simp
    | label name =>
      rw [mappings, hlater name fun _ => labelAfter_label name]
      simp
    | instr i =>
      rw [mappings]
      split_ifs with horigin
      · rw [List.mem_cons, hlater label fun _ => labelAfter_cons rfl]
        simp [horigin]
      · rw [hlater label fun _ => labelAfter_cons rfl]
        simp [horigin]

lemma mappings_eq_nil (h : items.filterMap Item.instr? = []) : mappings n label items = [] := by
  refine List.eq_nil_iff_forall_not_mem.mpr fun e he => ?_
  obtain ⟨pre, i, post, rfl, -, -⟩ := mem_mappings.mp he
  rw [List.filterMap_append] at h
  exact List.cons_ne_nil _ _ (List.append_eq_nil_iff.mp h).2

namespace Listing

lemma lines_items (comments : Bool) (items : List Item) (p : Printer) :
    (items.foldl (Printer.item comments) p).lines.toList =
        p.lines.toList ++ mappings p.line p.label items ∧
      (items.foldl (Printer.item comments) p).line = p.line + items.length := by
  induction items generalizing p with
  | nil => simp [mappings]
  | cons item items ih =>
    obtain ⟨hlines, hline⟩ := ih (p.item comments item)
    rw [List.foldl_cons, hlines, hline, List.length_cons]
    cases item with
    | directive text => exact ⟨rfl, Nat.add_right_comm _ 1 _⟩
    | label name => exact ⟨rfl, Nat.add_right_comm _ 1 _⟩
    | instr i =>
      rw [mappings, Printer.item]
      dsimp only
      split_ifs
      · refine ⟨?_, Nat.add_right_comm _ 1 _⟩
        simp [Printer.writeLine]
      · exact ⟨rfl, Nat.add_right_comm _ 1 _⟩

lemma lines_header (header : List String) (p : Printer) :
    (header.foldl Printer.writeLine p).lines = p.lines ∧
      (header.foldl Printer.writeLine p).line = p.line + header.length := by
  induction header generalizing p with
  | nil => exact ⟨rfl, rfl⟩
  | cons s header ih =>
    obtain ⟨hlines, hline⟩ := ih (p.writeLine s)
    exact ⟨hlines, hline.trans (Nat.add_right_comm _ 1 _)⟩

lemma lines_sec (comments : Bool) (p : Printer) (directive : String) (items : Array Item) :
    (p.sec comments directive items).lines.toList =
        p.lines.toList ++ mappings (p.line + 1) "" items.toList ∧
      (p.sec comments directive items).line =
        p.line + (printedSec comments directive items).length := by
  rw [Printer.sec, printedSec]
  split_ifs with hempty
  · rw [Array.isEmpty_iff.mp hempty]
    exact ⟨(List.append_nil _).symm, rfl⟩
  · obtain ⟨hlines, hline⟩ :=
      lines_items comments items.toList { p.writeLine directive with label := "" }
    rw [← Array.foldl_toList, hlines, hline, List.length_cons, List.length_map]
    exact ⟨rfl, Nat.add_right_comm _ 1 _⟩

/-- The entries of a listing are those of its sections. -/
theorem lines_print_eq_append (l : Listing) (comments : Bool) :
    (l.print comments).lines = mappings (l.header.toList.length + 1) "" l.text.toList ++
      (mappings (l.header.toList.length + (printedSec comments "\t.text" l.text).length + 1) ""
          l.data.toList ++
        mappings (l.header.toList.length + (printedSec comments "\t.text" l.text).length +
          (printedSec comments "\t.data" l.data).length + 1) "" l.bss.toList) := by
  obtain ⟨hlines, hline⟩ := lines_header l.header.toList {}
  simp only [print, (lines_sec _ _ _ _).1, (lines_sec _ _ _ _).2, ← Array.foldl_toList, hlines, hline,
    Nat.zero_add, List.append_assoc]
  rfl

lemma lines_print_eq {l : Listing} (comments : Bool)
    (hdata : l.data.toList.filterMap Item.instr? = [])
    (hbss : l.bss.toList.filterMap Item.instr? = []) :
    (l.print comments).lines = mappings (l.header.toList.length + 1) "" l.text.toList := by
  rw [lines_print_eq_append, mappings_eq_nil hdata, mappings_eq_nil hbss]
  exact List.append_nil _

end Listing

end NativeCode

namespace NativeCode.Compile

open Machine Selection
open Selection (Session)
open Text

variable {o : Options} {m : Ir.Module} {f : Ir.Function} {s s' start : Session} {file : Nat}
  {text : String} {fs : List Ir.Function}

/-! ### The lines of a function and their constructs -/

def bare (item : Item) : Mark := { item }

def Mark.bind (τ : Temps) (k : Mark) : Mark := { k with item := τ.boundItem k.item }

lemma origin_extendInPlace {r : RegOperand} {ty : Ir.Ty} {i : Instr}
    (h : extendInPlace r ty = some i) : i.origin = {} := by
  unfold extendInPlace at h
  split at h <;> cases h <;> rfl

lemma origin_extendingLoad (src : Operand) (dst : RegOperand) (ty : Ir.Ty) :
    (extendingLoad src dst ty).origin = {} := by
  unfold extendingLoad
  split <;> rfl

lemma Homes.origin {index : Nat} {ps : List (Ir.Param × Abi.Placement)}
    {code : List Instr} (h : Homes index ps s code s') : ∀ i ∈ code, i.origin = {} := by
  intro i hi
  obtain ⟨q, -, d, hline, -⟩ := h.exists_homeLine hi
  cases hline with
  | load => exact origin_extendingLoad _ _ _
  | extend _ _ hextend => exact origin_extendInPlace hextend
  | store | storeFloat => rfl

def globalSec (o : Options) (m : Ir.Module) (sec : Section) : Array Item :=
  ((m.globals.filter (·.sec = sec)).flatMap fun g => globalItems g (o.stem ++ g.name)).toArray

lemma filterMap_instr?_globalSec (sec : Section) :
    (globalSec o m sec).toList.filterMap Item.instr? = [] := by
  refine List.filterMap_eq_nil_iff.mpr fun item hitem => ?_
  obtain ⟨g, -, hitem⟩ := List.mem_flatMap.mp hitem
  simp only [globalItems, List.mem_cons, List.not_mem_nil, or_false] at hitem
  rcases hitem with rfl | rfl | rfl | rfl <;> rfl

lemma Listed.lines_print {l : Listing} {cs : List Compiled} (h : Listed o m l cs)
    (comments : Bool) :
    (l.print comments).lines = mappings ((Compile.header o m).length + 1) "" l.text.toList := by
  have hdata : l.data = globalSec o m .data := Array.toList_inj.mp h.data
  have hbss : l.bss = globalSec o m .bss := Array.toList_inj.mp h.bss
  rw [Listing.lines_print_eq comments (hdata ▸ filterMap_instr?_globalSec _)
    (hbss ▸ filterMap_instr?_globalSec _), h.header]

end NativeCode.Compile
