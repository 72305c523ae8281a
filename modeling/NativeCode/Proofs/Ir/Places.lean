import NativeCode.Proofs.Ir.Reading

/-!
# Places of a module

Reading never looks at places: with other places it goes on in the same way, and gives the same
module with other places.
-/

namespace NativeCode.Ir

open Text
open Source (Loc)

section MapLoc

variable (g : Loc → Loc)

def Instr.mapLoc (i : Instr) : Instr := { i with loc := g i.loc }

def Terminator.mapLoc (t : Terminator) : Terminator := { t with loc := g t.loc }

def Block.mapLoc (b : Block) : Block :=
  { b with instrs := b.instrs.map (Instr.mapLoc g), term := b.term.mapLoc g }

def Function.mapLoc (f : Function) : Function := { f with blocks := f.blocks.map (Block.mapLoc g) }

def Module.mapLoc (m : Module) : Module :=
  { m with functions := m.functions.map (Function.mapLoc g) }

end MapLoc

namespace Reader

section MapLoc

variable (g : Loc → Loc)

/-- A block that is being read, with other places. -/
def OpenBlock.mapLoc (b : OpenBlock) : OpenBlock :=
  { b with instrs := b.instrs.map (Instr.mapLoc g), term := b.term.map (Terminator.mapLoc g) }

/-- A function that is being read, with other places. -/
def OpenFunction.mapLoc (f : OpenFunction) : OpenFunction :=
  { f with blocks := f.blocks.map (Block.mapLoc g), current := f.current.map (OpenBlock.mapLoc g) }

def Progress.mapLoc (p : Progress) : Progress :=
  { p with
    functions := p.functions.map (Function.mapLoc g)
    body := p.body.map (OpenFunction.mapLoc g) }

end MapLoc

attribute [local simp] OpenBlock.mapLoc OpenFunction.mapLoc Progress.mapLoc Instr.mapLoc
  Terminator.mapLoc Block.mapLoc Function.mapLoc Module.mapLoc Except.map

variable {g : Loc → Loc}

lemma close_mapLoc (b : OpenBlock) : (b.mapLoc g).close = b.close.map (Block.mapLoc g) := by
  obtain ⟨id, instrs, term⟩ := b
  cases term with
  | some t => simp [OpenBlock.close]
  | none =>
    cases hlast : instrs.back? with
    | none => simp [OpenBlock.close, hlast]
    | some last =>
      by_cases hkind : last.kind.isRet = true <;> simp [OpenBlock.close, hlast, hkind]

namespace OpenFunction

variable (f : OpenFunction)

lemma closeBlock_mapLoc : (f.mapLoc g).closeBlock = f.closeBlock.map (mapLoc g) := by
  cases hcurrent : f.current with
  | none => simp [closeBlock, hcurrent]
  | some b =>
    have hb : (f.mapLoc g).current = some (b.mapLoc g) := by simp [hcurrent]
    unfold closeBlock
    rw [hb, hcurrent]
    dsimp only
    rw [Reader.close_mapLoc]
    cases b.close with
    | error e => rfl
    | ok block => simp [bind, Except.bind, pure, Except.pure]

lemma close_mapLoc : (f.mapLoc g).close = f.close.map (Function.mapLoc g) := by
  unfold close
  rw [closeBlock_mapLoc]
  cases f.closeBlock with
  | error e => rfl
  | ok f =>
    by_cases hempty : f.blocks = #[] <;>
      simp [bind, Except.bind, pure, Except.pure, hempty, throw, throwThe, MonadExceptOf.throw]

lemma openBlock_mapLoc (line digits : List Char) :
    (f.mapLoc g).openBlock line digits = (f.openBlock line digits).map (mapLoc g) := by
  unfold openBlock
  rw [closeBlock_mapLoc]
  cases index? digits with
  | none => rfl
  | some id => cases f.closeBlock <;> simp [bind, Except.bind, pure, Except.pure]

lemma acceptsStatement_mapLoc : (f.mapLoc g).acceptsStatement = f.acceptsStatement := by
  unfold acceptsStatement OpenFunction.mapLoc
  cases f.current with
  | none => rfl
  | some b =>
    obtain ⟨id, instrs, term⟩ := b
    cases term <;> rfl

lemma push_mapLoc (loc : Loc) (result : Option Nat) (st : Statement) :
    (f.push loc result st).mapLoc g = (f.mapLoc g).push (g loc) result st := by
  cases st <;> cases hb : f.current <;> simp [push, hb]

lemma readLine_mapLoc (place : Nat → Loc) (c : Cursor) :
    (f.mapLoc g).readLine (g ∘ place) c =
      (f.readLine place c).map (Sum.map (mapLoc g) (Function.mapLoc g)) := by
  unfold readLine
  rw [acceptsStatement_mapLoc, close_mapLoc]
  dsimp only
  split_ifs with hbrace
  · cases f.close <;> rfl
  · cases label? c.rest with
    | some digits =>
      dsimp only
      rw [openBlock_mapLoc]
      cases f.openBlock c.rest digits <;> rfl
    | none =>
      dsimp only
      change (readStatement f.params f.ret f.acceptsStatement).run c >>= _ = Except.map _ (_ >>= _)
      cases (readStatement f.params f.ret f.acceptsStatement).run c with
      | error e => rfl
      | ok r => exact congrArg (fun f => Except.ok (Sum.inl f)) (push_mapLoc f _ _ _).symm

end OpenFunction

namespace Progress

variable (p : Progress)

lemma readItem_mapLoc (hbody : p.body = none) (c : Cursor) :
    (p.mapLoc g).readItem.run c = (p.readItem.run c).map (Prod.map (mapLoc g) id) := by
  have hbind {β : Type} {x : Scan β} {k k' : β → Scan Progress} {c : Cursor}
      (hk : ∀ b, Reads x b → ∀ c, (k' b).run c = ((k b).run c).map (Prod.map (mapLoc g) id)) :
      (x >>= k').run c = ((x >>= k).run c).map (Prod.map (mapLoc g) id) := by
    rw [StateT.run_bind, StateT.run_bind]
    cases hx : x.run c with
    | error e => rfl
    | ok r => exact hk r.1 ⟨c, _, hx⟩ r.2
  -- what is entered is the same, and the rest of the progress is only handed on
  have hpure {q q' : Progress} (hq : q' = q.mapLoc g) (c : Cursor) :
      (pure q' : Scan Progress).run c =
        ((pure q : Scan Progress).run c).map (Prod.map (mapLoc g) id) := by
    rw [hq]
    rfl
  refine hbind fun column _ c => hbind fun w _ c => ?_
  split
  case h_6 => rfl
  case h_5 =>
    refine hbind fun f hf => hpure ?_
    have hempty := ensures_readHeader_empty.of_reads hf
    obtain ⟨name, params, ret, blocks, current, nextId⟩ := f
    obtain ⟨rfl, rfl⟩ := hempty
    simp
  all_goals
    refine hbind fun _ _ => hpure ?_
    simp [hbody]

/-- A line is read in the same way whatever the places are. -/
theorem readContent_mapLoc (place : Nat → Loc) (c : Cursor) :
    (p.mapLoc g).readContent (g ∘ place) c = (p.readContent place c).map (mapLoc g) := by
  unfold readContent
  cases hbody : p.body with
  | none =>
    have hmapped : (p.mapLoc g).body = none := by simp [hbody]
    rw [hmapped]
    dsimp only
    rw [readItem_mapLoc p hbody]
    cases p.readItem.run c <;> rfl
  | some f =>
    have hmapped : (p.mapLoc g).body = some (f.mapLoc g) := by simp [hbody]
    rw [hmapped]
    dsimp only
    rw [OpenFunction.readLine_mapLoc]
    cases f.readLine place c with
    | error e => rfl
    | ok r => cases r <;> simp [bind, Except.bind, pure, Except.pure]

end Progress

end Reader

end NativeCode.Ir
