import NativeCode.Compile.Function
import NativeCode.Proofs.Selection.Exits

/-!
# The lines of a function and the instructions they come from

The lines of a compiled function are, in order, the code of each instruction and of each block end,
under the labels of the blocks. A return in the middle of a block is followed by a label of its own.
These relations say which lines belong to which part of a function, before temporaries are bound.
-/

namespace NativeCode.Compile

open Abi Machine Selection

variable {α β : Type} {s s' s'' : Session} {a : α} {b : β} {o : Options} {t : Ir.Terminator}
  {next : Option Nat} {index : Nat} {code : List Instr}

/-- A computation in session `s` ends with result `a` in session `s'`. -/
def Makes (x : Build α) (s : Session) (a : α) (s' : Session) : Prop := x.run s = .ok (a, s')

@[simp] lemma makes_pure {c : α} : Makes (pure c) s a s' ↔ c = a ∧ s = s' := by
  constructor
  · intro h
    cases h
    exact ⟨rfl, rfl⟩
  · rintro ⟨rfl, rfl⟩
    rfl

lemma makes_bind {x : Build α} {f : α → Build β} :
    Makes (x >>= f) s b s'' ↔ ∃ a s', Makes x s a s' ∧ Makes (f a) s' b s'' :=
  run_bind_eq_ok_iff

@[simp] lemma makes_get_bind {f : Session → Build β} :
    Makes (get >>= f) s b s' ↔ Makes (f s) s b s' := Iff.rfl

@[simp] lemma makes_modify_bind {f : Session → Session} {g : PUnit → Build β} :
    Makes (modify f >>= g) s b s' ↔ Makes (g ()) (f s) b s' := Iff.rfl

@[simp] lemma makes_set_bind {t : Session} {g : PUnit → Build β} :
    Makes (set t >>= g) s b s' ↔ Makes (g ()) t b s' := Iff.rfl

@[simp] lemma makes_lift_bind {x : Except Failure α} {f : α → Build β} :
    Makes (liftM x >>= f) s b s' ↔ ∃ a, x = .ok a ∧ Makes (f a) s b s' :=
  run_lift_bind_eq_ok_iff

def instrSite (o : Options) (i : Ir.Instr) (fused : Bool) : Site where
  options := o
  origin := i.loc
  flagsOnly := fused

def termSite (o : Options) (t : Ir.Terminator) : Site where
  options := o
  origin := t.loc

lemma makes_selectInstr {i : Ir.Instr} {fused : Bool} {u : Unit} :
    Makes (selectInstr o i fused) s u s' ↔ Yields (instrCode i) (instrSite o i fused) s u s' :=
  mapError_eq_ok_iff

lemma makes_selectTerm {u : Unit} :
    Makes (selectTerm o t next) s u s' ↔ Yields (leave t next) (termSite o t) s u s' :=
  mapError_eq_ok_iff

/-! ### Instructions -/

def blockItems (b : Machine.Block) : List Item := .label b.label :: b.code.map .instr

/-- The lines `items` come from the instructions of a block with end `t`. -/
inductive Lowers (o : Options) (t : Ir.Terminator) :
    List Ir.Instr → Session → List Item → Session → Prop
  | nil (s : Session) : Lowers o t [] s [] s
  | step {i : Ir.Instr} {is : List Ir.Instr} {s s₁ s' : Session} {code : List Instr}
      {items : List Item} (hkind : i.kind ≠ .ret)
      (h : Yields (instrCode i) (instrSite o i (is.isEmpty && fuses s i t)) s () s₁)
      (he : Emits (instrSite o i (is.isEmpty && fuses s i t)) s s₁ code)
      (hrest : Lowers o t is s₁.release items s') :
      Lowers o t (i :: is) s (code.map .instr ++ items) s'
  | ret {i : Ir.Instr} {is : List Ir.Instr} {s s₁ s' : Session} {code : List Instr}
      {items : List Item} (hkind : i.kind = .ret)
      (hi : Yields (instrCode i) (instrSite o i false) s ()
        (s₁.push ((instrSite o i false).exit s₁)))
      (h : Yields (returnValue i.operands.head? i.text) (instrSite o i false) s () s₁)
      (he : Emits (instrSite o i false) { s with returns := true } s₁ code)
      (hrest : Lowers o t is s₁.resume items s') :
      Lowers o t (i :: is) s (code.map .instr ++
        .instr ((instrSite o i false).exit s₁) :: .label s₁.contLabel :: items) s'

lemma fuses_of_ret {i : Ir.Instr} (h : i.kind = .ret) : fuses s i t = false := by
  rw [fuses, h]

lemma lowers_of_compileInstrs {is : List Ir.Instr} {label : String} {closed : List Machine.Block}
    {r : List Machine.Block × String} (h : Makes (compileInstrs o t is label closed) s r s') :
    ∃ items, Lowers o t is s items s' ∧
      r.1.flatMap blockItems ++ .label r.2 :: s'.code.toList.map .instr =
        closed.flatMap blockItems ++ .label label :: s.code.toList.map .instr ++ items := by
  induction is generalizing s label closed with
  | nil =>
    rw [compileInstrs, makes_pure] at h
    obtain ⟨rfl, rfl⟩ := h
    exact ⟨[], .nil s, by simp⟩
  | cons i is ih =>
    rw [compileInstrs, makes_get_bind, makes_bind] at h
    obtain ⟨⟨⟩, s₁, hi, h⟩ := h
    rw [makes_selectInstr] at hi
    rw [makes_modify_bind] at h
    by_cases hkind : i.kind = .ret
    · have hret : i.kind.isRet = true := by rw [hkind]; rfl
      rw [fuses_of_ret hkind, Bool.and_false] at hi
      have hearly : Yields (earlyReturn i) (instrSite o i false) s () s₁ := by
        rw [instrCode, hkind] at hi
        exact hi
      obtain ⟨s₂, code, hvalue, he, rfl⟩ := emits_earlyReturn hearly
      rw [if_pos hret] at h
      have hcont : Makes (compileInstrs o t is s₂.contLabel (closed ++
          [{ label, code := (s₂.push ((instrSite o i false).exit s₂)).code.toList }]))
          s₂.resume r s' := h
      obtain ⟨items, hl, heq⟩ := ih hcont
      refine ⟨_, .ret hkind hi hvalue he hl, ?_⟩
      rw [heq]
      simp [blockItems, Session.push, Session.resume, Session.cut, he.code]
    · have hret : i.kind.isRet = false := by
        cases hk : i.kind <;> first | rfl | exact absurd hk hkind
      obtain ⟨code, he⟩ := emits_instrCode hkind hi
      simp only [hret, Bool.false_eq_true, if_false] at h
      obtain ⟨items, hl, heq⟩ := ih h
      refine ⟨_, .step hkind hi he hl, ?_⟩
      rw [heq]
      simp [Session.release, he.code]

/-! ### Blocks -/

/-- The lines `items` come from a block; `next` is the block that is emitted after it. -/
structure LowersBlock (o : Options) (b : Ir.Block) (next : Option Nat) (s : Session)
    (items : List Item) (s' : Session) : Prop where
  intro ::
  lowers : ∃ s₁ s₂ body code, Lowers o b.term b.instrs s body s₁ ∧
    Yields (leave b.term next) (termSite o b.term) s₁ () s₂ ∧
    Exits (termSite o b.term) b.term s₁ s₂ code ∧ s' = s₂.cut ∧
    items = .label (s.blockLabel b.id) :: body ++ code.map .instr

/-- The lines `items` come from blocks that are emitted one after the other. -/
inductive LowersBlocks (o : Options) : List Ir.Block → Session → List Item → Session → Prop
  | nil (s : Session) : LowersBlocks o [] s [] s
  | cons {b : Ir.Block} {bs : List Ir.Block} {s s₁ s' : Session} {items rest : List Item}
      (h : LowersBlock o b (bs.head?.map (·.id)) s items s₁)
      (hrest : LowersBlocks o bs s₁ rest s') : LowersBlocks o (b :: bs) s (items ++ rest) s'

lemma compileBlock_cases {b : Ir.Block} {r : List Machine.Block}
    (h : Makes (compileBlock o b next) s r s') :
    ∃ closed label s₁ s₂,
      Makes (compileInstrs o b.term b.instrs (s.blockLabel b.id) []) s (closed, label) s₁ ∧
      Yields (leave b.term next) (termSite o b.term) s₁ () s₂ ∧
      r = closed ++ [{ label, code := s₂.code.toList }] ∧ s' = s₂.cut := by
  rw [compileBlock, makes_get_bind, makes_bind] at h
  obtain ⟨⟨closed, label⟩, s₁, hinstrs, h⟩ := h
  dsimp only at h
  obtain ⟨⟨⟩, s₂, hterm, h⟩ := makes_bind.mp h
  have hclose : Makes (pure (closed ++ [{ label, code := s₂.code.toList }])) s₂.cut r s' := h
  obtain ⟨rfl, rfl⟩ := makes_pure.mp hclose
  exact ⟨closed, label, s₁, s₂, hinstrs, makes_selectTerm.mp hterm, rfl, rfl⟩

lemma lowersBlock_of_compileBlock {b : Ir.Block} {r : List Machine.Block} (hs : s.code = #[])
    (h : Makes (compileBlock o b next) s r s') :
    LowersBlock o b next s (r.flatMap blockItems) s' ∧ s'.code = #[] := by
  obtain ⟨closed, label, s₁, s₂, hinstrs, hterm, rfl, rfl⟩ := compileBlock_cases h
  obtain ⟨body, hbody, heq⟩ := lowers_of_compileInstrs hinstrs
  obtain ⟨code, hexits⟩ := exits_of_leave rfl hterm
  refine ⟨⟨s₁, s₂, body, code, hbody, hterm, hexits, rfl, ?_⟩, rfl⟩
  simp only [hs, List.flatMap_nil, List.nil_append, List.map_nil, List.singleton_append] at heq
  rw [← heq]
  simp [blockItems, hexits.code]

lemma lowersBlocks_of_compileEach {bs : List Ir.Block} {r : List Machine.Block × List BlockSize}
    (hs : s.code = #[]) (h : Makes (compileEach o bs) s r s') :
    LowersBlocks o bs s (r.1.flatMap blockItems) s' := by
  induction bs generalizing s r with
  | nil =>
    rw [compileEach, makes_pure] at h
    obtain ⟨rfl, rfl⟩ := h
    exact .nil s
  | cons b bs ih =>
    obtain ⟨code, s₁, hb, h⟩ := makes_bind.mp h
    obtain ⟨⟨rest, sizes⟩, s₂, hrest, h⟩ := makes_bind.mp h
    rw [makes_pure] at h
    obtain ⟨rfl, rfl⟩ := h
    obtain ⟨hblock, hs₁⟩ := lowersBlock_of_compileBlock hs hb
    rw [List.flatMap_append]
    exact .cons hblock (ih hs₁ hrest)

/-! ### Homes of parameters -/

/-- The place of a parameter that stays where it arrives: on the stack, at full width. -/
def stays? (p : Ir.Param) (placement : Placement) : Option Int :=
  match placement.place with
  | .stack offset =>
    if placement.cls = .gpr ∧ p.ty.size < 8 then none else some (incomingBase + offset)
  | .register _ => none

/-- The code that fills the home of a parameter at a displacement. -/
def homeCode (p : Ir.Param) (placement : Placement) (d : Int) : List Instr :=
  match placement.place with
  | .stack offset =>
    [extendingLoad (.slot (incomingBase + offset)) { reg := .ofGpr .rax } p.ty,
      homeStore (.mov .quad) (.gpr .rax) d ("%" ++ p.name)]
  | .register r =>
    match placement.cls with
    | .xmm => [homeStore (floatMove p.ty) r d ("%" ++ p.name)]
    | .gpr =>
      (extendInPlace { reg := .phys r } p.ty).toList ++
        [homeStore (.mov .quad) r d ("%" ++ p.name)]

lemma makes_newSlot_bind {f : Int → Build β} :
    Makes (newSlot >>= f) s b s' ↔
      ∃ d frame, s.frame.allocate 8 = .ok (d, frame) ∧ Makes (f d) { s with frame } b s' := by
  simp only [newSlot, Session.allocate, bind_assoc, makes_get_bind]
  cases s.frame.allocate 8 with
  | error e =>
    constructor
    · intro h
      cases h
    · rintro ⟨_, _, h, -⟩
      cases h
  | ok r =>
    constructor
    · intro h
      exact ⟨r.1, r.2, rfl, h⟩
    · rintro ⟨_, _, h, hf⟩
      cases h
      exact hf

lemma homeParam_cases {p : Ir.Param} {placement : Placement} {r : Int × List Instr}
    (h : Makes (homeParam p placement) s r s') :
    (∃ d, stays? p placement = some d ∧ r = (d, []) ∧ s' = s) ∨
      ∃ d frame, stays? p placement = none ∧ s.frame.allocate 8 = .ok (d, frame) ∧
        r = (d, homeCode p placement d) ∧ s' = { s with frame } := by
  unfold homeParam at h
  dsimp only at h
  cases hp : placement.place with
  | stack offset =>
    simp only [hp] at h
    split_ifs at h with hnarrow
    · rw [makes_newSlot_bind] at h
      obtain ⟨d, frame, hframe, h⟩ := h
      obtain ⟨rfl, rfl⟩ := makes_pure.mp h
      exact Or.inr ⟨d, frame, by simp [stays?, hp, hnarrow], hframe, by simp [homeCode, hp], rfl⟩
    · obtain ⟨rfl, rfl⟩ := makes_pure.mp h
      exact Or.inl ⟨incomingBase + offset, by simp only [stays?, hp, if_neg hnarrow], rfl, rfl⟩
  | register q =>
    simp only [hp] at h
    rw [makes_newSlot_bind] at h
    obtain ⟨d, frame, hframe, h⟩ := h
    refine Or.inr ⟨d, frame, by simp [stays?, hp], hframe, ?_⟩
    cases hcls : placement.cls
    all_goals
      simp only [hcls] at h
      obtain ⟨rfl, rfl⟩ := makes_pure.mp h
      exact ⟨by simp [homeCode, hp, hcls], rfl⟩

/-- The parameters from a position on have got their homes, and `code` fills them. -/
inductive Homes : Nat → List (Ir.Param × Placement) → Session → List Instr → Session → Prop
  | nil (index : Nat) (s : Session) : Homes index [] s [] s
  | stays {index : Nat} {p : Ir.Param} {placement : Placement} {d : Int}
      {rest : List (Ir.Param × Placement)} {s s' : Session} {code : List Instr}
      (hd : stays? p placement = some d) (hindex : index < s.params.length)
      (hrest : Homes (index + 1) rest
        { s with params := s.params.set index { access := .home, ty := p.ty, disp := d } } code s') :
      Homes index ((p, placement) :: rest) s code s'
  | home {index : Nat} {p : Ir.Param} {placement : Placement} {d : Int} {frame : Frame.Needs}
      {rest : List (Ir.Param × Placement)} {s s' : Session} {code : List Instr}
      (hd : stays? p placement = none) (hframe : s.frame.allocate 8 = .ok (d, frame))
      (hindex : index < s.params.length)
      (hrest : Homes (index + 1) rest
        { s with
          frame
          params := s.params.set index { access := .home, ty := p.ty, disp := d } } code s') :
      Homes index ((p, placement) :: rest) s (homeCode p placement d ++ code) s'

lemma makes_setParam_bind {r : Residence} {x : Build β} :
    Makes (do set (← (← get).setParam index r); x) s b s' ↔
      index < s.params.length ∧ Makes x { s with params := s.params.set index r } b s' := by
  rw [makes_get_bind, makes_lift_bind]
  simp only [Session.setParam, makes_set_bind]
  constructor
  · rintro ⟨t, ht, h⟩
    split_ifs at ht with hlt
    · cases ht
      exact ⟨hlt, h⟩
    · cases ht
  · rintro ⟨hlt, h⟩
    exact ⟨_, if_pos hlt, h⟩

lemma homes_of_homeEach {ps : List (Ir.Param × Placement)}
    (h : Makes (homeEach index ps) s code s') : Homes index ps s code s' := by
  induction ps generalizing index s code with
  | nil =>
    rw [homeEach, makes_pure] at h
    obtain ⟨rfl, rfl⟩ := h
    exact .nil index s
  | cons q ps ih =>
    obtain ⟨p, placement⟩ := q
    obtain ⟨⟨d, is⟩, s₁, hp, h⟩ := makes_bind.mp h
    dsimp only at h
    rw [makes_setParam_bind, makes_bind] at h
    obtain ⟨hindex, rest, s₂, hrest, h⟩ := h
    rw [makes_pure] at h
    obtain ⟨rfl, rfl⟩ := h
    rcases homeParam_cases hp with ⟨d', hd, hr, rfl⟩ | ⟨d', frame, hd, hframe, hr, rfl⟩
    · cases hr
      exact .stays hd hindex (ih hrest)
    · cases hr
      exact .home hd hframe hindex (ih hrest)

lemma Homes.eq {ps : List (Ir.Param × Placement)} (h : Homes index ps s code s') :
    s' = { s with frame := s'.frame, params := s'.params } := by
  induction h with
  | nil => rfl
  | stays _ _ _ ih => exact ih
  | home _ _ _ _ ih => exact ih

lemma homes_of_homeParams {t : Target} {f : Ir.Function} (h : Makes (homeParams t f) s code s') :
    ∃ placements, t.place (f.params.map (·.ty)) = .ok placements ∧
      Homes 0 (f.params.zip placements) s code s' := by
  rw [homeParams, makes_lift_bind] at h
  obtain ⟨placements, hplace, h⟩ := h
  exact ⟨placements, hplace, homes_of_homeEach h⟩

/-! ### Functions -/

/-- What a successful compilation of a function has gone through. -/
structure Parts (o : Options) (f : Ir.Function) (start : Session) (c : Machine.Function) where
  /-- The session after the parameters have their homes. -/
  homed : Session
  /-- The last session. -/
  last : Session
  /-- The code that stores the parameters in their homes. -/
  homing : List Instr
  /-- The blocks in the order of emission. -/
  order : List Ir.Block
  /-- The machine blocks before temporaries are bound. -/
  blocks : List Machine.Block
  frame : Frame.Layout
  returnable : f.ret.isAggregate = false
  homes : Makes (homeParams o.target f) (start.enter f (asmName o start.symbols f)) homing homed
  ordered : ControlFlow.order f = .ok order
  lowers : LowersBlocks o order { homed with reads := f.reads } (blocks.flatMap blockItems) last
  layout : last.frame.layout o.target (last.temps.saved o.target) o.maxFrame = .ok frame
  bound : last.temps.bind
    { name := last.symbol
      prologue := frame.prologue ++ homing
      blocks
      epilogueLabel := if last.returns then last.epilogueLabel else ""
      epilogue := if last.returns then frame.epilogue else [] } = .ok c

theorem exists_parts {f : Ir.Function} {c : Compiled} (h : Makes (compileFunction o f) s c s') :
    ∃ parts : Parts o f s c.code, parts.last = s' := by
  have h : Makes (compileBody o f) (s.enter f (asmName o s.symbols f)) c s' := mapError_eq_ok_iff.mp h
  unfold compileBody at h
  dsimp only at h
  by_cases hret : f.ret.isAggregate = true
  · simp only [hret, if_true] at h
    cases h
  · simp only [hret, Bool.false_eq_true, if_false] at h
    obtain ⟨homing, s₁, hhomes, h⟩ := makes_bind.mp h
    rw [makes_modify_bind, makes_bind] at h
    obtain ⟨⟨blocks, sizes⟩, s₂, hblocks, h⟩ := h
    dsimp only at h
    rw [makes_get_bind, makes_lift_bind] at h
    obtain ⟨frame, hframe, h⟩ := h
    rw [makes_lift_bind] at h
    obtain ⟨code, hcode, h⟩ := h
    rw [makes_pure] at h
    obtain ⟨rfl, rfl⟩ := h
    rw [compileBlocks, makes_lift_bind] at hblocks
    obtain ⟨order, horder, hblocks⟩ := hblocks
    obtain ⟨placements, -, hhomed⟩ := homes_of_homeParams hhomes
    have hempty : s₁.code = #[] := by rw [hhomed.eq]; rfl
    have hlowers := lowersBlocks_of_compileEach (s := { s₁ with reads := f.reads }) hempty hblocks
    exact ⟨⟨s₁, s₂, homing, order, blocks, frame, by simpa using hret, hhomes, horder, hlowers,
      hframe, hcode⟩, rfl⟩

end NativeCode.Compile
