import NativeCode.Proofs.Selection.Uniform
import NativeCode.Proofs.Symbols

/-!
# Code does not depend on the rest of the table

Code selection asks the table of symbols two questions: what a callee is called in the assembly, and
what a piece of data is called. Two tables that answer all of these questions alike are the same to
it: a computation that succeeds with one of them succeeds with the other one, with the same result
and in the same session, the table apart. A callee that enters the table as an external function
changes no answer, so the tables stay alike along a whole computation.
-/

namespace NativeCode.Symbols

/-- The name of a callee in the assembly, if it can be called. -/
def calleeName? (s : Symbols) (name : String) : Option String :=
  (s.callee name).toOption.map (·.1.asm)

/-- The name of data in the assembly, if there is data of this name. -/
def dataName? (s : Symbols) (name : String) : Option String := (s.data name).toOption.map (·.asm)

structure Alike (s t : Symbols) : Prop where
  callees : s.calleeName? = t.calleeName?
  data : s.dataName? = t.dataName?

lemma Alike.symm {s t : Symbols} (h : s.Alike t) : t.Alike s := ⟨h.callees.symm, h.data.symm⟩

lemma Alike.trans {s t u : Symbols} (h : s.Alike t) (h' : t.Alike u) : s.Alike u :=
  ⟨h.callees.trans h'.callees, h.data.trans h'.data⟩

variable {s s' t : Symbols} {e : Symbol} {name : String}

lemma find?_push_external (hnew : s.find? name = none) (n : String) :
    (s.push (external name)).find? n = if n = name then some (external name) else s.find? n := by
  rw [find?, push, List.find?_append]
  split_ifs with hn
  · subst hn
    rw [find?] at hnew
    simp [hnew, external]
  · have hne : name ≠ n := Ne.symm hn
    simp [find?, external, hne]

/-- Asking for a callee changes no answer, not even where it enters an external function. -/
theorem alike_of_callee (h : s.callee name = .ok (e, s')) : s.Alike s' := by
  rcases callee_cases h with ⟨-, -, rfl⟩ | ⟨hnew, rfl, rfl⟩
  · exact ⟨rfl, rfl⟩
  · constructor
    · funext n
      rw [calleeName?, calleeName?, callee, callee, find?_push_external hnew]
      split_ifs with hn
      · subst hn
        rw [hnew, declare, hnew]
        rfl
      · cases hfind : s.find? n with
        | none => rw [declare, declare, find?_push_external hnew, if_neg hn, hfind]; rfl
        | some d =>
          dsimp only
          split_ifs <;> rfl
    · funext n
      rw [dataName?, dataName?, data, data, find?_push_external hnew]
      split_ifs with hn
      · subst hn
        rw [hnew]
        rfl
      · rfl

lemma Alike.callee (hst : s.Alike t) (h : s.callee name = .ok (e, s')) :
    ∃ e' t', t.callee name = .ok (e', t') ∧ e'.asm = e.asm ∧ s'.Alike t' := by
  have hname : t.calleeName? name = some e.asm := by
    rw [← hst.callees, calleeName?, h]
    rfl
  cases ht : t.callee name with
  | error f =>
    rw [calleeName?, ht] at hname
    cases hname
  | ok r =>
    rw [calleeName?, ht] at hname
    exact ⟨r.1, r.2, rfl, Option.some.inj hname,
      (alike_of_callee h).symm.trans (hst.trans (alike_of_callee ht))⟩

lemma Alike.dataName (hst : s.Alike t) (h : s.data name = .ok e) :
    ∃ e', t.data name = .ok e' ∧ e'.asm = e.asm := by
  have hname : t.dataName? name = some e.asm := by
    rw [← hst.data, dataName?, h]
    rfl
  cases ht : t.data name with
  | error f =>
    rw [dataName?, ht] at hname
    cases hname
  | ok e' =>
    rw [dataName?, ht] at hname
    exact ⟨e', rfl, Option.some.inj hname⟩

section Lists

variable {stem : String} {globals functions names : List String}

lemma Lists.find?_cases (hs : s.Lists stem globals functions names) (name : String) :
    (name ∈ functions ∧ ∃ e, s.find? name = some e ∧ e.kind = .function ∧ e.asm = stem ++ name) ∨
      (name ∉ functions ∧ name ∈ globals ∧
        ∃ e, s.find? name = some e ∧ e.kind ≠ .function ∧ e.asm = stem ++ name) ∨
      (name ∉ functions ∧ name ∉ globals ∧
        ∀ e, s.find? name = some e → e.kind = .function ∧ e.asm = name) := by
  by_cases hdefined : name ∈ globals ∨ name ∈ functions
  · obtain ⟨e, he, rfl, hdef⟩ := (hs.defined name).mpr hdefined
    have hfind := hs.consistent.find?_source he
    have hasm : e.asm = stem ++ e.source := by rw [hs.consistent.asm e he, if_pos hdef, hs.stem]
    have hkind := hs.functions e he hdef
    by_cases hf : e.source ∈ functions
    · exact Or.inl ⟨hf, e, hfind, hkind.mpr hf, hasm⟩
    · exact Or.inr (Or.inl ⟨hf, hdefined.resolve_right hf, e, hfind, fun h => hf (hkind.mp h), hasm⟩)
  · obtain ⟨hglobal, hfunction⟩ := not_or.mp hdefined
    refine Or.inr (Or.inr ⟨hfunction, hglobal, fun e hfind => ?_⟩)
    obtain ⟨he, rfl⟩ := of_find?_eq_some hfind
    have hdef : e.defined = false := by
      cases hdef : e.defined with
      | false => rfl
      | true => exact absurd ((hs.defined e.source).mp ⟨e, he, rfl, hdef⟩) hdefined
    refine ⟨hs.consistent.functions e he hdef, ?_⟩
    rw [hs.consistent.asm e he, hdef]
    rfl

lemma Lists.calleeName?_eq (hs : s.Lists stem globals functions names) (name : String) :
    s.calleeName? name =
      if name ∈ functions then some (stem ++ name) else if name ∈ globals then none
      else some name := by
  rw [calleeName?, Symbols.callee]
  rcases hs.find?_cases name with ⟨hf, e, hfind, hkind, hasm⟩ | ⟨hf, hg, e, hfind, hkind, -⟩ |
    ⟨hf, hg, hall⟩
  · rw [hfind, if_pos hf, ← hasm]
    dsimp only
    rw [if_pos hkind]
    rfl
  · rw [hfind, if_neg hf, if_pos hg]
    dsimp only
    rw [if_neg hkind]
    rfl
  · rw [if_neg hf, if_neg hg]
    cases hfind : s.find? name with
    | none =>
      dsimp only
      rw [Symbols.declare, hfind]
      rfl
    | some e =>
      obtain ⟨hkind, hasm⟩ := hall e hfind
      dsimp only
      rw [if_pos hkind]
      exact congrArg some hasm

lemma Lists.dataName?_eq (hs : s.Lists stem globals functions names) (name : String) :
    s.dataName? name =
      if name ∈ functions then none else if name ∈ globals then some (stem ++ name) else none := by
  rw [dataName?, data]
  rcases hs.find?_cases name with ⟨hf, e, hfind, hkind, -⟩ | ⟨hf, hg, e, hfind, hkind, hasm⟩ |
    ⟨hf, hg, hall⟩
  · rw [hfind, if_pos hf]
    dsimp only
    rw [if_pos hkind]
    rfl
  · rw [hfind, if_neg hf, if_pos hg, ← hasm]
    dsimp only
    rw [if_neg hkind]
    rfl
  · rw [if_neg hf, if_neg hg]
    cases hfind : s.find? name with
    | none => rfl
    | some e =>
      dsimp only
      rw [if_pos (hall e hfind).1]
      rfl

/-- Tables of modules that define the same names are alike, whatever else the modules declare and
call. -/
theorem Lists.alike {globals' functions' names' : List String}
    (hs : s.Lists stem globals functions names) (ht : t.Lists stem globals' functions' names')
    (hglobals : ∀ name, name ∈ globals ↔ name ∈ globals')
    (hfunctions : ∀ name, name ∈ functions ↔ name ∈ functions') : s.Alike t := by
  constructor
  · funext name
    rw [hs.calleeName?_eq, ht.calleeName?_eq]
    simp only [hglobals, hfunctions]
  · funext name
    rw [hs.dataName?_eq, ht.dataName?_eq]
    simp only [hglobals, hfunctions]

end Lists

end NativeCode.Symbols

namespace NativeCode.Selection

open Ir (Ty BinaryOp)
open Abi Machine

/-- A computation does the same with every table that is alike, and leaves tables that are alike. -/
def Repeats {α : Type} (x : StateT Session (Except Failure) α) : Prop :=
  ∀ ⦃s : Session⦄ ⦃a : α⦄ ⦃s' : Session⦄, x.run s = .ok (a, s') → ∀ t, s.symbols.Alike t →
    ∃ t', s'.symbols.Alike t' ∧ x.run (s.under t) = .ok (a, s'.under t')

/-- The same of a computation that emits code at any site. -/
def Replays {α : Type} (x : Emit α) : Prop := ∀ site, Repeats (x.run site)

variable {α β : Type}

/-! ### Composition -/

section Repeats

variable {x : StateT Session (Except Failure) α} {g : α → StateT Session (Except Failure) β}

lemma repeats_pure (a : α) : Repeats (pure a) := by
  rintro s _ _ ⟨⟩ t ht
  exact ⟨t, ht, rfl⟩

lemma repeats_bind_of (hx : Repeats x) (hg : ∀ s a s', x.run s = .ok (a, s') → Repeats (g a)) :
    Repeats (x >>= g) := by
  intro s b s'' h t ht
  rw [StateT.run_bind] at h
  cases hrun : x.run s with
  | error e =>
    rw [hrun] at h
    cases h
  | ok r =>
    rw [hrun] at h
    obtain ⟨t', ht', hx'⟩ := hx hrun t ht
    obtain ⟨t'', ht'', hg'⟩ := hg s r.1 r.2 hrun h t' ht'
    refine ⟨t'', ht'', ?_⟩
    rw [StateT.run_bind, hx']
    exact hg'

lemma repeats_bind (hx : Repeats x) (hg : ∀ a, Repeats (g a)) : Repeats (x >>= g) :=
  repeats_bind_of hx fun _ a _ _ => hg a

lemma repeats_get_bind {g : Session → StateT Session (Except Failure) β}
    (htable : ∀ s t, g (Session.under s t) = g s) (hg : ∀ s, Repeats (g s)) :
    Repeats (get >>= g) := by
  intro s b s' h t ht
  obtain ⟨t', ht', hg'⟩ := hg s h t ht
  refine ⟨t', ht', ?_⟩
  rw [← htable s t] at hg'
  exact hg'

lemma repeats_modifyGet {h : Session → α × Session}
    (htable : ∀ s t, h (Session.under s t) = ((h s).1, (h s).2.under t))
    (hkeeps : ∀ s, (h s).2.symbols = s.symbols) :
    Repeats (modifyGet h : StateT Session (Except Failure) α) := by
  intro s a s' hrun t ht
  obtain ⟨rfl, rfl⟩ := Prod.mk.inj (Except.ok.inj hrun)
  exact ⟨t, by rw [hkeeps]; exact ht, congrArg Except.ok (htable s t)⟩

lemma repeats_modify {h : Session → Session}
    (htable : ∀ s t, h (Session.under s t) = (h s).under t)
    (hkeeps : ∀ s, (h s).symbols = s.symbols) :
    Repeats (modify h : StateT Session (Except Failure) PUnit) :=
  repeats_modifyGet (fun s t => congrArg (Prod.mk PUnit.unit) (htable s t)) hkeeps

lemma repeats_throw (e : Failure) : Repeats (throw e : StateT Session (Except Failure) α) := by
  rintro s _ _ ⟨⟩

lemma repeats_lift_bind (x : Except Failure α) (hg : ∀ a, Repeats (g a)) :
    Repeats (liftM x >>= g) := by
  cases x with
  | error e => exact repeats_throw e
  | ok a => exact hg a

end Repeats

/-! ### Steps of code selection -/

lemma replays_data_bind {name : String} {g : String → Emit β}
    (hg : ∀ s e, Symbols.data s name = .ok e → Replays (g e.asm)) :
    Replays (do g (← (← get).symbols.data name).asm) := by
  intro site s b s' h t ht
  have hrun : Yields (do g (← (← get).symbols.data name).asm) site s b s' := h
  simp only [yields_get_bind, yields_lift_bind] at hrun
  obtain ⟨e, he, hrun⟩ := hrun
  obtain ⟨e', he', hasm⟩ := ht.dataName he
  obtain ⟨t', ht', hg'⟩ := hg s.symbols e he site hrun t ht
  have hrun' : Yields (do g (← (← get).symbols.data name).asm) site (s.under t) b (s'.under t') := by
    simp only [yields_get_bind, yields_lift_bind]
    refine ⟨e', he', ?_⟩
    rw [hasm]
    exact hg'
  exact ⟨t', ht', hrun'⟩

lemma replays_allocate (bytes : Nat) : Replays (allocate bytes) := by
  intro site s d s' h t ht
  obtain ⟨frame, hframe, rfl⟩ := yields_allocate.mp h
  have hrun : Yields (allocate bytes) site (s.under t) d { s.under t with frame } :=
    yields_allocate.mpr ⟨frame, hframe, rfl⟩
  exact ⟨t, ht, hrun⟩

lemma replays_callee (name : String) : Replays (callee name) := by
  intro site s asm s' h t ht
  have hrun : Yields (callee name) site s asm s' := h
  simp only [callee, yields_get_bind, yields_lift_bind, yields_set_bind, yields_pure] at hrun
  obtain ⟨⟨e, symbols⟩, he, rfl, rfl⟩ := hrun
  obtain ⟨e', t', he', hasm, ht'⟩ := ht.callee he
  have hrun' : Yields (callee name) site (s.under t) e.asm ({ s with symbols }.under t') := by
    simp only [callee, yields_get_bind, yields_lift_bind, yields_set_bind, yields_pure]
    exact ⟨(e', t'), he', hasm, rfl⟩
  exact ⟨t', ht', hrun'⟩

lemma replays_newTemp (cls : RegClass) : Replays (newTemp cls) := by
  intro site s r s' h t ht
  obtain ⟨q, hissue, rfl, rfl⟩ := yields_newTemp.mp h
  have hrun : Yields (newTemp cls) site (s.under t) (.temp q.1 cls) { s.under t with temps := q.2 } :=
    yields_newTemp.mpr ⟨q, hissue, rfl, rfl⟩
  exact ⟨t, ht, hrun⟩

lemma uniform_replays : Uniform @Replays where
  holds_pure a _ := repeats_pure a
  holds_bind hx hk site := repeats_bind_of (hx site) fun s a s' ha => hk a ⟨site, s, s', ha⟩ site
  holds_get_bind htable hk site :=
    repeats_get_bind (fun s t => congrArg (ReaderT.run · site) (htable s t)) fun s => hk s site
  holds_read_bind _ hk site := hk site site
  holds_lift_bind {_ _ x _} _ hk site := by
    cases x with
    | error e => exact repeats_throw e
    | ok a => exact hk a rfl site
  holds_data_bind := replays_data_bind
  holds_newTemp := replays_newTemp
  holds_allocate := replays_allocate
  holds_modify hk _ := by cases hk <;> exact repeats_modify (fun _ _ => rfl) fun _ => rfl
  holds_callee := replays_callee
  holds_emit _ _ _ _ := repeats_modify (fun _ _ => rfl) fun _ => rfl
  holds_stop _ _ _ := repeats_throw _
  holds_stopHere _ _ _ := repeats_throw _

/-- The code of an instruction is the same with every table that is alike. -/
theorem replays_instrCode (i : Ir.Instr) : Replays (instrCode i) :=
  uniform_replays.holds_instrCode i

/-- The code of a block end is the same with every table that is alike. -/
theorem replays_leave (t : Ir.Terminator) (next : Option Nat) : Replays (leave t next) :=
  uniform_replays.holds_leave t next

end NativeCode.Selection
