import NativeCode.Proofs.Compile.Outcomes
import NativeCode.Proofs.Compile.Stretches
import NativeCode.Proofs.Selection.Uniform

/-!
# The failure that is reported

A module is given up at its first failure. Functions are compiled as they are declared, their blocks in
the order of emission and the constructs of a block from top to bottom, and nothing is compiled behind
a construct that cannot be lowered. The steps of code selection know neither the function nor, most of
them, the place: what they leave open is filled in on the way out, and what they fill in themselves is
the place of the construct. So the report always names the function and the place of the construct that
failed first, whichever step failed.
-/

namespace NativeCode.Selection

/-- The failures of a computation name no function, and no place but that of the site. -/
def Blames {α : Type} (x : Emit α) : Prop :=
  ∀ site s e, (x.run site).run s = .error e →
    e.function = "" ∧ (e.loc = {} ∨ e.loc = site.origin)

section Blames

variable {α β : Type}

lemma blames_bind {x : Emit α} {k : α → Emit β} (hx : Blames x)
    (hk : ∀ a, (∃ site s s', Yields x site s a s') → Blames (k a)) : Blames (x >>= k) := by
  intro site s e h
  rw [ReaderT.run_bind, StateT.run_bind] at h
  cases hrun : (x.run site).run s with
  | error e' =>
    rw [hrun] at h
    cases h
    exact hx site s e hrun
  | ok r =>
    rw [hrun] at h
    exact hk r.1 ⟨site, s, r.2, hrun⟩ site r.2 e h

lemma blames_of_raises {x : Emit α}
    (h : ∀ site s, ∃ A, Raises A ((x.run site).run s)) : Blames x := by
  intro site s e he
  obtain ⟨A, hA⟩ := h site s
  exact ⟨(hA e he).2.1, Or.inl (hA e he).2.2⟩

/-- Code selection leaves the function and the place to its construct. -/
theorem uniform_blames : Uniform @Blames where
  holds_pure _ := by rintro site s e ⟨⟩
  holds_bind := blames_bind
  holds_get_bind _ hk := blames_bind (by rintro site s e ⟨⟩) fun s _ => hk s
  holds_read_bind _ hk := blames_bind (by rintro site s e ⟨⟩) fun site _ => hk site
  holds_lift_bind {_ _ x _} hx hk := by
    cases x with
    | error e =>
      refine blames_of_raises fun _ _ => ⟨fun _ => True, fun e' he' => ?_⟩
      cases he'
      exact hx e rfl
    | ok a => exact hk a rfl
  holds_data_bind {_ name _} hk := by
    refine blames_bind (by rintro site s e ⟨⟩) fun s _ => ?_
    cases hdata : s.symbols.data name with
    | error e =>
      refine blames_of_raises fun _ _ => ⟨(·.isPlain = true), fun e' he' => ?_⟩
      cases he'
      exact s.symbols.raises_data name e hdata
    | ok e => exact hk s.symbols e hdata
  holds_newTemp cls := blames_of_raises fun site s =>
    ⟨_, run_newTemp site s cls ▸ raises_bind (s.temps.raises_issue _ cls) fun _ => raises_ok _⟩
  holds_allocate bytes := blames_of_raises fun site s =>
    ⟨_, run_allocate site s bytes ▸ s.raises_allocate bytes⟩
  holds_modify _ := by rintro site s e ⟨⟩
  holds_callee name := blames_of_raises fun site s =>
    ⟨_, run_callee site s name ▸ raises_bind (s.symbols.raises_callee name) fun _ => raises_ok _⟩
  holds_emit _ _ _ := by rintro site s e ⟨⟩
  holds_stop _ _ := by
    rintro site s e ⟨⟩
    exact ⟨rfl, Or.inl rfl⟩
  holds_stopHere _ _ := by
    rintro site s e ⟨⟩
    exact ⟨rfl, Or.inr rfl⟩

lemma located_of_mapError {x : Emit α} (hx : Blames x) {site : Site} {s : Session}
    {text : String} (htext : text ≠ "") {e : Failure}
    (h : ((x.run site).run s).mapError (fun e => e.locate text site.origin) = .error e) :
    e.function = "" ∧ e.loc = site.origin ∧ e.construct ≠ "" := by
  cases hrun : (x.run site).run s with
  | ok r => rw [hrun] at h; cases h
  | error e' =>
    rw [hrun] at h
    cases h
    obtain ⟨hfunction, hloc⟩ := hx site s e' hrun
    refine ⟨hfunction, ?_, ?_⟩
    · change e'.loc.orElse site.origin = site.origin
      rcases hloc with hloc | hloc
      · rw [hloc]
        rfl
      · rw [hloc]
        exact ite_self _
    · change (if e'.construct.isEmpty then text else e'.construct) ≠ ""
      split_ifs with hempty
      · exact htext
      · simpa using hempty

end Blames

end NativeCode.Selection

namespace NativeCode.Ir

lemma Instr.text_ne_empty (i : Instr) : i.text ≠ "" := by
  simp [Instr.text]

lemma Terminator.text_ne_empty (t : Terminator) : t.text ≠ "" := by
  obtain ⟨exit, value, loc⟩ := t
  cases exit with
  | ret => cases value <;> simp [Terminator.text]
  | _ => simp [Terminator.text]

end NativeCode.Ir

namespace NativeCode.Compile

open Selection
open Selection (Session)

variable {o : Options} {cs rest : List Construct} {c : Construct} {b : Ir.Block}

/-! ### Constructs one after the other -/

/-- Whether an instruction is fused with the construct after it, the end of its block. -/
def fusesWith (s : Session) (i : Ir.Instr) : List Construct → Bool
  | .term b _ :: _ => fuses s i b.term
  | _ => false

/-- Selects the code of a construct in front of others. -/
def Construct.lower (o : Options) (rest : List Construct) : Construct → Build Unit
  | .instr i => do selectInstr o i (fusesWith (← get) i rest)
  | .term b next => selectTerm o b.term next

/-- The session after the code of a construct. Its temporaries end, and a return or the end of a block
also ends the machine block. -/
def Construct.close (s : Session) : Construct → Session
  | .instr i =>
    if i.kind.isRet then ({ s.release with code := #[] }.freshLabel "cont").2 else s.release
  | .term _ _ => { s.release with code := #[] }

/-- The first of some constructs that cannot be lowered after those in front of it, with its
failure. -/
def firstFailure (o : Options) : List Construct → Session → Option (Construct × Failure)
  | [], _ => none
  | c :: cs, s =>
    match (c.lower o cs).run s with
    | .error e => some (c, e)
    | .ok r => firstFailure o cs (c.close r.2)

theorem located_of_firstFailure {s : Session} {e : Failure}
    (h : firstFailure o cs s = some (c, e)) :
    e.function = "" ∧ e.loc = c.loc ∧ e.construct ≠ "" := by
  induction cs generalizing s with
  | nil => cases h
  | cons c' cs ih =>
    rw [firstFailure] at h
    split at h
    case h_2 => exact ih h
    case h_1 e' he' =>
      cases h
      cases c with
      | instr i =>
        exact @located_of_mapError _ _ (uniform_blames.holds_instrCode i) (instrSite o i _) _ _
          i.text_ne_empty _ he'
      | term b next =>
        exact @located_of_mapError _ _ (uniform_blames.holds_leave b.term next) (termSite o b.term) _
          _ b.term.text_ne_empty _ he'

/-- A computation fails like the first of the constructs `cs` that cannot be lowered, or it gets to the
constructs `rest` after them. -/
def Walks {α : Type} (o : Options) (cs rest : List Construct) (x : Build α) : Prop :=
  ∀ s, match x.run s with
    | .error e => ∃ c, firstFailure o cs s = some (c, e)
    | .ok r => firstFailure o cs s = firstFailure o rest r.2

lemma walks_bind {α β : Type} {x : Build α} {k : α → Build β} {cs' : List Construct}
    (hx : Walks o cs cs' x) (hk : ∀ a, Walks o cs' rest (k a)) : Walks o cs rest (x >>= k) := by
  intro s
  have hs := hx s
  rw [StateT.run_bind]
  cases hrun : x.run s with
  | error e =>
    rw [hrun] at hs
    exact hs
  | ok r =>
    rw [hrun] at hs
    dsimp only at hs
    rw [hs]
    exact hk r.1 r.2

lemma walks_get_bind {α : Type} {k : Session → Build α} (hk : ∀ s, Walks o cs rest (k s)) :
    Walks o cs rest (get >>= k) := fun s => hk s s

lemma walks_lower {α : Type} {x : Build Unit} {k : Unit → Build α}
    (hx : x = c.lower o cs)
    (hk : ∀ s, ∃ k', Walks o cs rest k' ∧ (k ()).run s = k'.run (c.close s)) :
    Walks o (c :: cs) rest (x >>= k) := by
  intro s
  rw [firstFailure, StateT.run_bind, hx]
  cases hrun : (c.lower o cs).run s with
  | error e => exact ⟨c, rfl⟩
  | ok r =>
    obtain ⟨k', hk', hrun'⟩ := hk r.2
    have hs := hk' (c.close r.2)
    rw [← hrun'] at hs
    exact hs

lemma walks_compileInstrs (next : Option Nat) (is : List Ir.Instr) (label : String)
    (closed : List Machine.Block) :
    Walks o (is.map .instr ++ .term b next :: rest) (.term b next :: rest)
      (compileInstrs o b.term is label closed) := by
  induction is generalizing label closed with
  | nil => exact fun s => rfl
  | cons i is ih =>
    -- the last instruction of a block looks at the end of the block, which is the next construct
    have hfused (s : Session) : (is.isEmpty && fuses s i b.term) =
        fusesWith s i (is.map .instr ++ .term b next :: rest) := by cases is <;> rfl
    have hlower : (do selectInstr o i (is.isEmpty && fuses (← get) i b.term)) =
        (Construct.instr i).lower o (is.map .instr ++ .term b next :: rest) := by
      simp only [hfused]
      rfl
    rw [List.map_cons, List.cons_append, compileInstrs, ← bind_assoc]
    refine walks_lower hlower fun s => ?_
    by_cases hret : i.kind.isRet = true
    · exact ⟨_, ih (s.release.freshLabel "cont").1 (closed ++ [⟨label, s.code.toList⟩]),
        by simp only [hret, Construct.close, if_true]; rfl⟩
    · exact ⟨_, ih label closed, by simp [hret, Construct.close]⟩

lemma walks_compileBlock (next : Option Nat) :
    Walks o (b.instrs.map .instr ++ .term b next :: rest) rest (compileBlock o b next) := by
  refine walks_get_bind fun s => walks_bind (walks_compileInstrs next b.instrs _ []) fun r => ?_
  exact walks_lower rfl fun s => ⟨pure _, fun _ => rfl, rfl⟩

theorem walks_compileEach (bs : List Ir.Block) : Walks o (constructs bs) [] (compileEach o bs) := by
  induction bs with
  | nil => exact fun s => rfl
  | cons b bs ih =>
    refine walks_bind (walks_compileBlock _) fun _ => walks_bind ih fun _ s => rfl

/-! ### Functions and modules -/

/-- The session in which the blocks of a function are compiled: its parameters have their homes. -/
def openSession (o : Options) (f : Ir.Function) (s : Session) : Except Failure Session := do
  if f.ret.isAggregate then throw { cause := .notReturnable f.ret, construct := f.name }
  let (_, s) ← (homeParams o.target f).run (s.enter f (asmName o s.symbols f))
  return { s with reads := f.reads }

variable {f : Ir.Function} {s s₁ : Session} {e : Failure}

lemma run_bind_eq_error {α β : Type} {x : Build α} {k : α → Build β} :
    (x >>= k).run s = .error e ↔
      x.run s = .error e ∨ ∃ a s', Makes x s a s' ∧ (k a).run s' = .error e := by
  rw [StateT.run_bind]
  simp only [Makes]
  cases x.run s with
  | error e' => simp [bind, Except.bind]
  | ok r => simp [bind, Except.bind, Prod.ext_iff]

lemma compileFunction_of_compileBlocks (hopen : openSession o f s = .ok s₁)
    (hblocks : (compileBlocks o f).run s₁ = .error e) :
    (compileFunction o f).run s = .error (e.within f.name) := by
  have hbody : (compileBody o f).run (s.enter f (asmName o s.symbols f)) = .error e := by
    rw [openSession] at hopen
    by_cases hret : f.ret.isAggregate = true
    · rw [if_pos hret] at hopen
      cases hopen
    · rw [if_neg hret] at hopen
      obtain ⟨⟨homing, homed⟩, hhomes, hs⟩ := exists_ok_of_bind hopen
      cases hs
      delta compileBody
      dsimp only
      rw [if_neg hret]
      refine run_bind_eq_error.mpr (Or.inr ⟨homing, homed, hhomes, ?_⟩)
      refine run_bind_eq_error.mpr (Or.inr ⟨⟨⟩, { homed with reads := f.reads }, rfl, ?_⟩)
      exact run_bind_eq_error.mpr (Or.inl hblocks)
  change ((compileBody o f).run _).mapError _ = _
  rw [hbody]
  rfl

lemma compileFunctions_eq_error_iff {fs : List Ir.Function} :
    (compileFunctions o fs).run s = .error e ↔ ∃ before f after compiled s',
      fs = before ++ f :: after ∧ Makes (compileFunctions o before) s compiled s' ∧
        (compileFunction o f).run s' = .error e := by
  constructor
  · intro h
    induction fs generalizing s with
    | nil => cases h
    | cons f fs ih =>
      rcases run_bind_eq_error.mp h with hf | ⟨c, s₁, hf, h⟩
      · exact ⟨[], f, fs, [], s, rfl, rfl, hf⟩
      · rcases run_bind_eq_error.mp h with hfs | ⟨cs, s₂, -, h⟩
        · obtain ⟨before, g, after, compiled, s', rfl, hbefore, hg⟩ := ih hfs
          refine ⟨f :: before, g, after, c :: compiled, s', rfl, ?_, hg⟩
          exact makes_bind.mpr ⟨c, s₁, hf, makes_bind.mpr ⟨compiled, s', hbefore, rfl⟩⟩
        · cases h
  · rintro ⟨before, f, after, compiled, s', rfl, hbefore, hf⟩
    induction before generalizing s compiled with
    | nil =>
      cases hbefore
      exact run_bind_eq_error.mpr (Or.inl hf)
    | cons g before ih =>
      obtain ⟨c, s₁, hg, hrest⟩ := makes_bind.mp hbefore
      obtain ⟨cs, s₂, hcs, hs₂⟩ := makes_bind.mp hrest
      cases hs₂
      refine run_bind_eq_error.mpr (Or.inr ⟨c, s₁, hg, ?_⟩)
      exact run_bind_eq_error.mpr (Or.inl (ih cs hcs))

/-- A module that passes the checks and whose globals are accepted fails exactly if one of its functions
does, and it fails with the first one in the order of declaration. If a function fails while its blocks
are compiled, then with the first construct that cannot be lowered, in the order in which the blocks are
emitted and from top to bottom in each of them: the failure has the name of the function and the place
of the construct, and it shows a construct. -/
theorem first_failure_reported {m : Ir.Module} {symbols : Symbols} {l : Listing}
    (hcheck : WellFormed.checkModule m = .ok ())
    (hglobals : layoutGlobals m.globals {} { stem := o.stem } { header := (header o m).toArray } =
      .ok (symbols, l)) :
    ∃ table, defineFunctions m.functions symbols = .ok table ∧
      (∀ e, compileModule o m = .error e ↔ ∃ before f after compiled s,
        m.functions = before ++ f :: after ∧
        Makes (compileFunctions o before) { symbols := declareExterns m.externs table } compiled s ∧
        (compileFunction o f).run s = .error e) ∧
      ∀ f ∈ m.functions, ∀ s s₁ e₁, openSession o f s = .ok s₁ →
        (compileBlocks o f).run s₁ = .error e₁ → ∃ e order c,
          (compileFunction o f).run s = .error e ∧ ControlFlow.order f = .ok order ∧
          firstFailure o (constructs order) s₁ = some (c, e₁) ∧
          e = { e₁ with function := f.name } ∧ e.loc = c.loc ∧ e.construct ≠ "" := by
  obtain ⟨table, htable⟩ := exists_table hcheck hglobals
  refine ⟨table, htable, fun e => ?_, fun f hf s s₁ e₁ hopen hblocks => ?_⟩
  · rw [← compileFunctions_eq_error_iff]
    simp only [compileModule, listModule, hcheck, hglobals, htable, bind, Except.bind, pure, Except.pure]
    cases (compileFunctions o m.functions).run { symbols := declareExterns m.externs table } <;> simp
  · have hsound := (WellFormed.checkModule_eq_ok_iff.mp hcheck).2 f hf
    obtain ⟨order, horder⟩ := ControlFlow.exists_order hsound.nonempty hsound.targets
    have hwalk := walks_compileEach (o := o) order s₁
    have heach : (compileEach o order).run s₁ = .error e₁ := by
      rw [compileBlocks, horder] at hblocks
      exact hblocks
    rw [heach] at hwalk
    obtain ⟨c, hc⟩ := hwalk
    obtain ⟨hfunction, hloc, hconstruct⟩ := located_of_firstFailure hc
    have hwithin : e₁.within f.name = { e₁ with function := f.name } := by
      rw [Failure.within, hfunction]
      rfl
    exact ⟨_, order, c, compileFunction_of_compileBlocks hopen hblocks, horder, hc, hwithin, hloc,
      hconstruct⟩

/-- Two of its constructs use values that nothing computes. The one that stands first is emitted
last. -/
def strays : Ir.Function where
  name := "strays"
  blocks := [
    { id := 0, term := { exit := .jump 2, loc := ⟨1, 7, 3⟩ } },
    { id := 1
      instrs := [{ result := some 1, kind := .const, operands := [.value 9], loc := ⟨1, 9, 3⟩ }]
      term := { exit := .ret, loc := ⟨1, 10, 3⟩ } },
    { id := 2
      instrs := [
        { result := some 2, kind := .const, operands := [.const .i64 1], loc := ⟨1, 12, 3⟩ },
        { result := some 3, kind := .binary .add, operands := [.value 2, .value 8],
          loc := ⟨1, 13, 3⟩ }]
      term := { exit := .jump 1, loc := ⟨1, 14, 3⟩ } }]

/-- The function behind one that can be compiled. -/
def straysBehind : Ir.Module where
  functions := [
    { name := "f", blocks := [{ id := 0, term := { exit := .ret, loc := ⟨1, 3, 3⟩ } }] }, strays]

lemma lowers_straysBehind :
    (do
      let table ← defineFunctions straysBehind.functions {}
      let r ← (compileFunctions {} (straysBehind.functions.take 1)).run { symbols := table }
      let s₁ ← openSession {} strays r.2
      let order ← ControlFlow.order strays
      return (((compileBlocks {} strays).run s₁).isOk,
        (firstFailure {} (constructs order) s₁).map (·.1.loc)) :
        Except Failure (Bool × Option Source.Loc)) = .ok (false, some ⟨1, 13, 3⟩) := by decide +kernel

/-- The report is about the addition: it is the first one in the order of emission. -/
theorem first_failure_reported_straysBehind :
    WellFormed.checkModule straysBehind = .ok () ∧ ∃ e, compileModule {} straysBehind = .error e ∧
      e.function = "strays" ∧ e.loc = ⟨1, 13, 3⟩ ∧ e.construct ≠ "" := by
  have hcheck : WellFormed.checkModule straysBehind = .ok () := by decide
  obtain ⟨table, htable, hmodule, hblocks⟩ := first_failure_reported (o := {}) hcheck rfl
  obtain ⟨table', htable', h⟩ := exists_ok_of_bind lowers_straysBehind
  obtain ⟨⟨compiled, s⟩, hfront, h⟩ := exists_ok_of_bind h
  obtain ⟨s₁, hopen, h⟩ := exists_ok_of_bind h
  obtain ⟨order', horder', h⟩ := exists_ok_of_bind h
  obtain ⟨hfails, hfirst⟩ := Prod.ext_iff.mp (Except.ok.inj h)
  cases Except.ok.inj (htable.symm.trans htable')
  cases hrun : (compileBlocks {} strays).run s₁ with
  | ok r =>
    rw [hrun] at hfails
    cases hfails
  | error e₁ =>
    obtain ⟨e, order, c, he, horder, hc, rfl, hloc, hconstruct⟩ :=
      hblocks strays (by simp [straysBehind]) s s₁ e₁ hopen hrun
    cases Except.ok.inj (horder.symm.trans horder')
    rw [hc] at hfirst
    refine ⟨hcheck, _, (hmodule _).mpr ⟨_, strays, [], compiled, s, rfl, hfront, he⟩, rfl, ?_, hconstruct⟩
    exact hloc.trans (Option.some.inj hfirst)

end NativeCode.Compile
