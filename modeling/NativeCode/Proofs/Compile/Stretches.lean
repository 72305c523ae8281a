import NativeCode.Proofs.Compile.Blocks

/-!
# The code of a function construct by construct

The code of the blocks of a function is that of their instructions and ends, one after the other. All
temporaries end with the construct that they were issued for; everything else in a session is handed
on to the next construct.
-/

namespace NativeCode

def Item.instr? : Item → Option Machine.Instr
  | .instr i => some i
  | _ => none

end NativeCode

namespace NativeCode.Compile

open Machine Selection
open Selection (Session)

/-- What a stretch of code is selected for: an instruction, or the end of a block in front of the
block that is emitted next. -/
inductive Construct where
  | instr (i : Ir.Instr)
  | term (b : Ir.Block) (next : Option Nat)

def Construct.select : Construct → Emit Unit
  | .instr i => instrCode i
  | .term b next => leave b.term next

def Construct.loc : Construct → Source.Loc
  | .instr i => i.loc
  | .term b _ => b.term.loc

/-- The constructs of blocks that are emitted one after the other. -/
def constructs : List Ir.Block → List Construct
  | [] => []
  | b :: bs => b.instrs.map .instr ++ .term b (bs.head?.map (·.id)) :: constructs bs

/-- The code of a construct, with the sessions around it. -/
structure Stretch where
  construct : Construct
  site : Site
  before : Session
  after : Session
  code : List Instr

/-- A stretch holds the code that is selected for its construct. -/
structure Stretch.Selected (o : Options) (x : Stretch) : Prop where
  options : x.site.options = o
  yields : Yields x.construct.select x.site x.before () x.after
  code : x.after.code.toList = x.before.code.toList ++ x.code
  term : ∀ b next, x.construct = .term b next → x.site.flagsOnly = false ∧
    (x.before.pending = none ∨ ∃ i ∈ b.instrs, fuses x.before i b.term = true)

/-- A line, with the construct that it was emitted for if it holds one of its instructions. -/
structure Mark where
  item : Item
  construct : Option Construct := none

def Stretch.marks (x : Stretch) : List Mark := x.code.map fun i => ⟨.instr i, x.construct⟩

/-- The lines `marks` hold the code of stretches one after the other, with labels in between. -/
inductive Laid : List Mark → List Stretch → Prop
  | nil : Laid [] []
  | label {marks : List Mark} {xs : List Stretch} (name : String) (h : Laid marks xs) :
      Laid ({ item := .label name } :: marks) xs
  | code {marks : List Mark} {xs : List Stretch} (x : Stretch) (h : Laid marks xs) :
      Laid (x.marks ++ marks) (x :: xs)

/-- The next construct starts without live temporaries, possibly in a new machine block. -/
def Resumes (s s' : Session) : Prop := ∃ code labels, s' = { s.release with code, labels }

/-- The stretches `xs` follow one another from session `s` to session `s'`. -/
inductive Stretches (o : Options) : Session → List Stretch → Session → Prop
  | nil (s : Session) : Stretches o s [] s
  | cons {x : Stretch} {xs : List Stretch} {s s' : Session} (hx : x.Selected o)
      (hnext : Resumes x.after s) (hrest : Stretches o s xs s') :
      Stretches o x.before (x :: xs) s'

variable {o : Options} {t : Ir.Terminator} {is : List Ir.Instr} {b : Ir.Block} {bs : List Ir.Block}
  {s s' s'' : Session} {items : List Item} {x : Stretch} {xs ys : List Stretch}

lemma mem_constructs_instr {i : Ir.Instr} (h : .instr i ∈ constructs bs) :
    ∃ b ∈ bs, i ∈ b.instrs := by
  induction bs with
  | nil => cases h
  | cons b bs ih =>
    rw [constructs, List.mem_append, List.mem_cons] at h
    rcases h with h | h | h
    · obtain ⟨j, hj, hij⟩ := List.mem_map.mp h
      cases hij
      exact ⟨b, List.mem_cons_self, hj⟩
    · cases h
    · obtain ⟨b', hb', hi⟩ := ih h
      exact ⟨b', List.mem_cons_of_mem _ hb', hi⟩

lemma term_mem_constructs (hb : b ∈ bs) : ∃ next, .term b next ∈ constructs bs := by
  induction bs with
  | nil => cases hb
  | cons b' bs ih =>
    simp only [constructs, List.mem_append, List.mem_cons]
    rcases List.mem_cons.mp hb with rfl | hb
    · exact ⟨_, Or.inr (Or.inl rfl)⟩
    · obtain ⟨next, hnext⟩ := ih hb
      exact ⟨next, Or.inr (Or.inr hnext)⟩

lemma instr_mem_constructs {i : Ir.Instr} (hb : b ∈ bs) (hi : i ∈ b.instrs) :
    .instr i ∈ constructs bs := by
  induction bs with
  | nil => cases hb
  | cons b' bs ih =>
    rw [constructs, List.mem_append, List.mem_cons]
    rcases List.mem_cons.mp hb with rfl | hb
    · exact Or.inl (List.mem_map_of_mem hi)
    · exact Or.inr (Or.inr (ih hb))

lemma Stretches.append (h : Stretches o s xs s') (h' : Stretches o s' ys s'') :
    Stretches o s (xs ++ ys) s'' := by
  induction h with
  | nil => exact h'
  | cons hx hnext _ ih => exact .cons hx hnext (ih h')

/-! ### Blocks -/

lemma filterMap_instr?_instr (is : List Instr) :
    (is.map Item.instr).filterMap Item.instr? = is := by
  rw [List.filterMap_map]
  exact List.filterMap_some

lemma Stretch.map_item_marks (x : Stretch) : x.marks.map (·.item) = x.code.map .instr := by
  rw [Stretch.marks, List.map_map]
  rfl

lemma Laid.append {marks marks' : List Mark} (h : Laid marks xs) (h' : Laid marks' ys) :
    Laid (marks ++ marks') (xs ++ ys) := by
  induction h with
  | nil => exact h'
  | label name _ ih => exact .label name ih
  | code x _ ih =>
    rw [List.append_assoc]
    exact .code x ih

lemma Laid.filterMap_instr? {marks : List Mark} (h : Laid marks xs) :
    (marks.map (·.item)).filterMap Item.instr? = xs.flatMap (·.code) := by
  induction h with
  | nil => rfl
  | label name _ ih => rw [List.map_cons, List.filterMap_cons_none rfl, ih]
  | code x _ ih =>
    rw [List.map_append, x.map_item_marks, List.filterMap_append, filterMap_instr?_instr, ih,
      List.flatMap_cons]

lemma Lowers.exists_laid (h : Lowers o t is s items s') :
    ∃ xs marks, Stretches o s xs s' ∧ xs.map (·.construct) = is.map .instr ∧ Laid marks xs ∧
      marks.map (·.item) = items ∧ ∀ x ∈ xs, x.site.origin = x.construct.loc := by
  induction h with
  | nil s => exact ⟨[], [], .nil s, rfl, .nil, rfl, by simp⟩
  | @step i is s s₁ s' code items hkind hi he hrest ih =>
    obtain ⟨xs, marks, hxs, hmap, hlaid, hitems, horigin⟩ := ih
    let x : Stretch := ⟨.instr i, instrSite o i (is.isEmpty && fuses s i t), s, s₁, code⟩
    have hx : x.Selected o := ⟨rfl, hi, he.code, by simp [x]⟩
    refine ⟨x :: xs, x.marks ++ marks, .cons hx ⟨s₁.code, s₁.labels, rfl⟩ hxs,
      by rw [List.map_cons, hmap]; rfl, .code x hlaid, ?_, List.forall_mem_cons.mpr ⟨rfl, horigin⟩⟩
    rw [List.map_append, x.map_item_marks, hitems]
  | @ret i is s s₁ s' code items hkind hi _ he hrest ih =>
    obtain ⟨xs, marks, hxs, hmap, hlaid, hitems, horigin⟩ := ih
    let x : Stretch := ⟨.instr i, instrSite o i false, s, s₁.push ((instrSite o i false).exit s₁),
      code ++ [(instrSite o i false).exit s₁]⟩
    have hx : x.Selected o := by
      refine ⟨rfl, hi, ?_, by simp [x]⟩
      have hcode : s₁.code.toList = s.code.toList ++ code := he.code
      simp [x, Session.push, hcode]
    refine ⟨x :: xs, x.marks ++ { item := .label s₁.contLabel } :: marks,
      .cons hx ⟨#[], s₁.labels + 1, rfl⟩ hxs, by rw [List.map_cons, hmap]; rfl,
      .code x (.label _ hlaid), ?_, List.forall_mem_cons.mpr ⟨rfl, horigin⟩⟩
    rw [List.map_append, x.map_item_marks, List.map_cons, hitems, List.map_append, List.append_assoc]
    rfl

/-- The lines of blocks are made of stretches, whose code is selected at the place of its
construct. -/
theorem LowersBlocks.exists_laid (h : LowersBlocks o bs s items s') (hs : s.pending = none) :
    ∃ xs marks, Stretches o s xs s' ∧ xs.map (·.construct) = constructs bs ∧ Laid marks xs ∧
      marks.map (·.item) = items ∧ ∀ x ∈ xs, x.site.origin = x.construct.loc := by
  induction h with
  | nil s => exact ⟨[], [], .nil s, rfl, .nil, rfl, by simp⟩
  | @cons b bs s s₁ s' items rest hb _ ih =>
    obtain ⟨ys, marks', hys, hmap, hlaid', hrest, horigin'⟩ := ih (hb.pending hs)
    obtain ⟨s₂, s₃, body, code, hbody, hleave, hexits, rfl, rfl⟩ := hb.lowers
    obtain ⟨xs, marks, hxs, hinstrs, hlaid, hitems, horigin⟩ := hbody.exists_laid
    let x : Stretch := ⟨.term b (bs.head?.map (·.id)), termSite o b.term, s₂, s₃, code⟩
    have hx : x.Selected o := by
      refine ⟨rfl, hleave, hexits.code, fun b' next hb' => ?_⟩
      cases hb'
      exact ⟨rfl, hbody.pending hs⟩
    refine ⟨xs ++ x :: ys, { item := .label (s.blockLabel b.id) } :: (marks ++ (x.marks ++ marks')),
      hxs.append (.cons hx ⟨#[], s₃.labels, rfl⟩ hys), ?_, .label _ (hlaid.append (.code x hlaid')),
      ?_, List.forall_mem_append.mpr ⟨horigin, List.forall_mem_cons.mpr ⟨rfl, horigin'⟩⟩⟩
    · rw [List.map_append, List.map_cons, hinstrs, hmap]
      rfl
    · rw [List.map_cons, List.map_append, List.map_append, x.map_item_marks, hitems, hrest,
        List.cons_append, List.cons_append, List.append_assoc]

/-! ### Sessions along stretches -/

theorem Resumes.later (h : Resumes s s') : s.Later s' := by
  obtain ⟨code, labels, rfl⟩ := h
  exact { Session.Later.refl s with }

theorem Stretch.Selected.later (h : x.Selected o) : x.before.Later x.after := by
  have hyields := h.yields
  have hterm := h.term
  obtain ⟨construct, site, before, after, code⟩ := x
  dsimp only at hyields hterm ⊢
  cases construct with
  | instr i =>
    by_cases hkind : i.kind = .ret
    · have hearly : Yields (earlyReturn i) site before () after := by
        rw [Construct.select, instrCode, hkind] at hyields
        exact hyields
      obtain ⟨s₁, is, -, he, rfl⟩ := emits_earlyReturn hearly
      have hl := he.later
      exact { hl with }
    · obtain ⟨is, he⟩ := emits_instrCode hkind hyields
      exact he.later
  | term b next =>
    obtain ⟨is, hexits⟩ := exits_of_leave (hterm b next rfl).1 hyields
    exact hexits.later

theorem Stretches.later (h : Stretches o s xs s') : s.Later s' := by
  induction h with
  | nil s => exact .refl s
  | cons hx hnext _ ih => exact hx.later.trans (hnext.later.trans ih)

lemma Stretches.later_of_mem (h : Stretches o s xs s') (hx : x ∈ xs) :
    x.Selected o ∧ s.Later x.before ∧ x.after.Later s' := by
  induction h with
  | nil => cases hx
  | @cons y ys s s' hy hnext hrest ih =>
    rcases List.mem_cons.mp hx with rfl | hx
    · exact ⟨hy, .refl _, hnext.later.trans hrest.later⟩
    · obtain ⟨hselected, hbefore, hafter⟩ := ih hx
      exact ⟨hselected, hy.later.trans (hnext.later.trans hbefore), hafter⟩

lemma Stretches.invariant {P : Session → Prop} (hs : P s)
    (hselected : ∀ x ∈ xs, x.Selected o → P x.before → P x.after)
    (hresumes : ∀ s s', Resumes s s' → P s → P s') (h : Stretches o s xs s') :
    P s' ∧ ∀ x ∈ xs, P x.before ∧ P x.after := by
  induction h with
  | nil => exact ⟨hs, by simp⟩
  | @cons y ys s s' hy hnext hrest ih =>
    have hafter := hselected y List.mem_cons_self hy hs
    obtain ⟨hlast, hall⟩ := ih (hresumes _ _ hnext hafter)
      fun x hx => hselected x (List.mem_cons_of_mem _ hx)
    refine ⟨hlast, fun x hx => ?_⟩
    rcases List.mem_cons.mp hx with rfl | hx
    · exact ⟨hs, hafter⟩
    · exact hall x hx

/-- The lines of a function between prologue and epilogue are made of stretches. -/
theorem Parts.exists_laid {f : Ir.Function} {start : Session} {c : Machine.Function}
    (parts : Parts o f start c) :
    ∃ xs marks, Stretches o { parts.homed with reads := f.reads } xs parts.last ∧
      xs.map (·.construct) = constructs parts.order ∧ Laid marks xs ∧
      marks.map (·.item) = parts.blocks.flatMap blockItems ∧
      ∀ x ∈ xs, x.site.origin = x.construct.loc :=
  parts.lowers.exists_laid parts.pending_homed

theorem Parts.exists_selected {f : Ir.Function} {start : Session} {c : Machine.Function}
    (parts : Parts o f start c) :
    ∃ xs, Stretches o { parts.homed with reads := f.reads } xs parts.last ∧
      xs.map (·.construct) = constructs parts.order ∧
      parts.blocks.flatMap (·.code) = xs.flatMap (·.code) := by
  obtain ⟨xs, marks, hxs, hconstructs, hlaid, hmarks, -⟩ := parts.exists_laid
  have hitems : (parts.blocks.flatMap blockItems).filterMap Item.instr? =
      parts.blocks.flatMap (·.code) := by
    rw [List.filterMap_flatMap]
    congr 1
    funext b
    rw [blockItems, List.filterMap_cons_none rfl, filterMap_instr?_instr]
  refine ⟨xs, hxs, hconstructs, ?_⟩
  rw [← hitems, ← hmarks, hlaid.filterMap_instr?]

end NativeCode.Compile
