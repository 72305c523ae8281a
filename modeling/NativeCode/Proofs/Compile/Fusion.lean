import NativeCode.Proofs.Compile.Routing

/-!
# Comparisons that are fused into branches

A comparison at the end of a block that only the branch after it reads need not store its result. The
code that leaves it in the flags goes to the same block as the code that stores it and compares the
stored word with zero, for all words of the operands and whichever block comes next. Nothing stands
between the comparison and the jump, and nothing else reads the result.
-/

namespace NativeCode.Ir

lemma mem_reads_of_operand {b : Block} {j : Instr} {id : Nat} (hj : j ∈ b.instrs)
    (hread : .value id ∈ j.operands) :
    id ∈ b.instrs.flatMap (fun i => i.operands.filterMap Operand.valueId?) :=
  List.mem_flatMap.mpr ⟨j, hj, List.mem_filterMap.mpr ⟨_, hread, rfl⟩⟩

/-- A result that is read once, by the end of a block, is read by nothing else. -/
theorem Function.reader_unique {f : Function} {id : Nat} (hcount : f.reads.count id = 1)
    {b : Block} (hb : b ∈ f.blocks) (hvalue : b.term.value = some (.value id)) :
    ∀ b' ∈ f.blocks, (∀ j ∈ b'.instrs, .value id ∉ j.operands) ∧
      (b'.term.value = some (.value id) → b' = b) := by
  obtain ⟨front, back, hblocks⟩ := List.append_of_mem hb
  have hterm : ((b.term.value.bind Operand.valueId?).toList).count id = 1 := by
    rw [hvalue]
    simp [Operand.valueId?]
  rw [reads, hblocks, List.flatMap_append, List.flatMap_cons, List.count_append, List.count_append,
    Block.reads, List.count_append, hterm] at hcount
  -- the one reading is that of the block end
  have hinstrs : id ∉ b.instrs.flatMap (fun i => i.operands.filterMap Operand.valueId?) :=
    List.count_eq_zero.mp (by omega)
  have hfront : id ∉ front.flatMap Block.reads := List.count_eq_zero.mp (by omega)
  have hback : id ∉ back.flatMap Block.reads := List.count_eq_zero.mp (by omega)
  have hother {b' : Block} (hb' : id ∉ b'.reads) : (∀ j ∈ b'.instrs, .value id ∉ j.operands) ∧
      b'.term.value ≠ some (.value id) := by
    rw [Block.reads, List.mem_append, not_or] at hb'
    refine ⟨fun j hj hread => hb'.1 (mem_reads_of_operand hj hread), fun h => hb'.2 ?_⟩
    rw [h]
    simp [Operand.valueId?]
  intro b' hb'
  rw [hblocks, List.mem_append, List.mem_cons] at hb'
  rcases hb' with hb' | rfl | hb'
  · have h := hother fun hid => hfront (List.mem_flatMap.mpr ⟨b', hb', hid⟩)
    exact ⟨h.1, fun hvalue' => absurd hvalue' h.2⟩
  · exact ⟨fun j hj hread => hinstrs (mem_reads_of_operand hj hread), fun _ => rfl⟩
  · have h := hother fun hid => hback (List.mem_flatMap.mpr ⟨b', hb', hid⟩)
    exact ⟨h.1, fun hvalue' => absurd hvalue' h.2⟩

end NativeCode.Ir

namespace NativeCode.Selection

open Machine

variable {site site' : Site} {s s' : Session} {x : Ir.Operand}

lemma yields_loadGpr_congr {t : Reg} (h : Yields (loadGpr x) site s t s')
    (hoptions : site'.options = site.options) (horigin : site'.origin = site.origin) :
    Yields (loadGpr x) site' s t s' := by
  have hload (v : Source) (dst : RegOperand) : v.load site' dst = v.load site dst := by
    unfold Source.load Site.instr
    rw [horigin]
  rw [yields_loadGpr] at h ⊢
  rw [hoptions]
  simpa only [hload] using h

lemma yields_gprSource_congr {src : Operand} (h : Yields (gprSource x) site s src s')
    (hoptions : site'.options = site.options) (horigin : site'.origin = site.origin) :
    Yields (gprSource x) site' s src s' := by
  have hload (h : Yields (do return .full (← loadGpr x)) site s src s') :
      Yields (do return .full (← loadGpr x)) site' s src s' := by
    rw [yields_bind] at h ⊢
    obtain ⟨t, s₁, ht, h⟩ := h
    exact ⟨t, s₁, yields_loadGpr_congr ht hoptions horigin, yields_pure.mpr (yields_pure.mp h)⟩
  rw [gprSource, yields_reach_bind] at h ⊢
  obtain ⟨r, hr, h⟩ := h
  refine ⟨r, hr, ?_⟩
  rcases r with name | ⟨access, ty, disp, bits⟩
  · exact hload h
  · cases access with
    | home => exact yields_pure.mpr (yields_pure.mp h)
    | address => exact hload h
    | constant =>
      dsimp only at h ⊢
      split_ifs at h ⊢ with hfits
      · exact yields_pure.mpr (yields_pure.mp h)
      · exact hload h

section Branches

variable {onTrue onFalse : Nat}

lemma exists_yields_branch_of_pending {cond : Cond} (h : s.pending = some cond)
    (hne : onTrue ≠ onFalse) (site : Site) (x : Ir.Operand) (next : Option Nat) :
    ∃ s', Yields (branch (some x) onTrue onFalse next) site s () s' := by
  refine ⟨{ s with pending := none }.pushAll (site.fork s cond onTrue onFalse next), ?_⟩
  rw [branch, if_neg hne, yields_get_bind, h]
  dsimp only
  rw [yields_modify_bind, yields_jumpOn]
  rfl

lemma exists_yields_branch_of_home {ty : Ir.Ty} {d : Int} (hpending : s.pending = none)
    (hx : s.reach? x = some (.residence { access := .home, ty, disp := d }))
    (hint : ty.isInteger = true) (hne : onTrue ≠ onFalse) (site : Site) (next : Option Nat) :
    ∃ s', Yields (branch (some x) onTrue onFalse next) site s () s' := by
  have hsrc : Yields (gprSource x) site s (.slot d) s := by
    rw [gprSource, yields_reach_bind]
    exact ⟨_, hx, yields_pure.mpr ⟨rfl, rfl⟩⟩
  let s₁ := s.push (site.instr .cmp [.imm 0, .slot d])
  refine ⟨s₁.pushAll (site.fork s₁ .ne onTrue onFalse next), ?_⟩
  rw [branch, if_neg hne, yields_get_bind, hpending]
  dsimp only
  rw [jumpOnValue, yields_typeOf_bind]
  refine ⟨_, hx, ?_⟩
  dsimp only
  rw [yields_ite_left not_yields_stop_bind, yields_constantValue_bind]
  refine ⟨hint, _, hx, ?_⟩
  simp only [Reach.known?, reduceCtorEq, if_false]
  refine yields_bind.mpr ⟨_, s, hsrc, ?_⟩
  rw [yields_emit_bind, yields_jumpOn]

end Branches

end NativeCode.Selection

namespace NativeCode.Compile

open Ir (BinaryOp)
open Machine Selection
open Selection (Session)

variable {o : Options} {f : Ir.Function} {b : Ir.Block} {i : Ir.Instr} {t : Ir.Terminator}
  {next : Option Nat} {s s' start : Session} {code : List Instr} {flags : Bool}

/-! ### Sessions in which blocks start -/

/-- Among blocks that are compiled one after the other from a session, the block `b` starts in the
session `s` and is emitted in front of the block `next`. -/
inductive Starts (o : Options) (b : Ir.Block) (next : Option Nat) (s : Session) :
    List Ir.Block → Session → Prop
  | here {bs : List Ir.Block} (hnext : next = bs.head?.map (·.id)) : Starts o b next s (b :: bs) s
  | later {b' : Ir.Block} {bs : List Ir.Block} {s₁ s₂ : Session} {blocks : List Machine.Block}
      (h : Makes (compileBlock o b' (bs.head?.map (·.id))) s₁ blocks s₂)
      (hrest : Starts o b next s bs s₂) : Starts o b next s (b' :: bs) s₁

/-- The block `b` of a function starts to be compiled in the session `s`. -/
def BlockStarts (o : Options) (f : Ir.Function) (start : Session) (b : Ir.Block) (next : Option Nat)
    (s : Session) : Prop :=
  ∃ homing homed order,
    Makes (homeParams o.target f) (start.enter f (asmName o start.symbols f)) homing homed ∧
      ControlFlow.order f = .ok order ∧ Starts o b next s order { homed with reads := f.reads }

lemma Starts.ready {bs : List Ir.Block} {s₁ : Session} (h : Starts o b next s bs s₁)
    (hpending : s₁.pending = none) (hcode : s₁.code = #[]) :
    b ∈ bs ∧ s.pending = none ∧ s.reads = s₁.reads := by
  induction h with
  | here => exact ⟨List.mem_cons_self, hpending, rfl⟩
  | later h _ ih =>
    obtain ⟨hlowers, hcode₂⟩ := lowersBlock_of_compileBlock hcode h
    obtain ⟨hmem, hs, hreads⟩ := ih (hlowers.pending hpending) hcode₂
    exact ⟨List.mem_cons_of_mem _ hmem, hs, hreads.trans hlowers.grown.later.reads⟩

lemma BlockStarts.ready (h : BlockStarts o f start b next s) :
    b ∈ f.blocks ∧ s.pending = none ∧ s.reads = f.reads := by
  obtain ⟨homing, homed, order, hhomes, horder, hstarts⟩ := h
  obtain ⟨placements, -, hhomed⟩ := homes_of_homeParams hhomes
  have heq := hhomed.eq
  obtain ⟨hmem, hpending, hreads⟩ :=
    hstarts.ready (by rw [heq]; rfl) (by rw [heq]; rfl)
  exact ⟨(ControlFlow.ordered_of_order horder).mem b hmem, hpending, hreads⟩

/-! ### The end of a block -/

/-- In session `s`, the code `code` is selected for an instruction and the end of the block after it.
If `flags`, the result of the instruction is only wanted in the flags. -/
def SelectsEnd (o : Options) (flags : Bool) (i : Ir.Instr) (t : Ir.Terminator) (next : Option Nat)
    (s : Session) (code : List Instr) (s' : Session) : Prop :=
  ∃ s₁, Yields (instrCode i) (instrSite o i flags) s () s₁ ∧
    Yields (leave t next) (termSite o t) s₁.release () s' ∧
    s'.code.toList = s.code.toList ++ code

/-- Whatever program it stands in, in front of the block `next`, code between two sessions leads to
the block that `target` names. -/
def GoesTo (s : Session) (next : Option Nat) (code : List Instr) (s' : Session)
    (target : Platform → State → Nat) : Prop :=
  ∀ p τ items after σ, s'.temps.Grows τ →
    (∀ id, next = some id → seek (s.blockLabel id) items = some after) →
    ∀ arrived, (∃ σ', Leaves p items after (boundLines τ code) σ arrived σ') ↔
      seek (s.blockLabel (target p σ)) items = some arrived

/-- The instruction `i` compares the integers `x` and `y`, and the block end `t` branches on the
result. -/
structure BranchesOn (i : Ir.Instr) (t : Ir.Terminator) (op : BinaryOp) (x y : Ir.Operand)
    (onTrue onFalse : Nat) : Prop where
  kind : i.kind = .binary op
  comparison : op.isComparison = true
  integer : i.ty.isInteger = true
  operands : i.operands = [x, y]
  value : ∃ id, i.result = some id ∧ t.value = some (.value id)
  exit : t.exit = .branch onTrue onFalse
  ne : onTrue ≠ onFalse

section Ends

variable {op : BinaryOp} {x y : Ir.Operand} {onTrue onFalse : Nat} {site site' : Site}
  {s₁ s₂ : Session}

lemma BranchesOn.form?_eq (hon : BranchesOn i t op x y onTrue onFalse) :
    form? op i.ty = some .compare := by
  obtain ⟨-, hcmp, hint, -⟩ := hon
  rw [form?, if_pos hint]
  cases op <;> first | rfl | cases hcmp

lemma BranchesOn.compare_of_instrCode (hon : BranchesOn i t op x y onTrue onFalse)
    (h : Yields (instrCode i) site s () s₁) :
    Yields (compare i op x y) site s () s₁ ∧
      ∀ site' s₂, Yields (compare i op x y) site' s () s₂ → Yields (instrCode i) site' s () s₂ := by
  rw [instrCode, hon.kind] at h ⊢
  obtain ⟨form, a, b, ra, rb, hform, hops, hra, hca, hrb, hcb, hcode⟩ := yields_binary.mp h
  obtain rfl : Form.compare = form := Option.some.inj (hon.form?_eq.symm.trans hform)
  obtain ⟨rfl, rfl⟩ : a = x ∧ b = y := by simpa using hops.symm.trans hon.operands
  exact ⟨hcode, fun _ _ h => yields_binary.mpr ⟨_, _, _, _, _, hform, hops, hra, hca, hrb, hcb, h⟩⟩

lemma BranchesOn.leave_eq (hon : BranchesOn i t op x y onTrue onFalse) :
    leave t next = branch t.value onTrue onFalse next := by
  rw [leave, hon.exit]

/-- The block that a comparison chooses by the words of its operands. -/
def chosen (op : BinaryOp) (signed : Bool) (vx vy : Source) (onTrue onFalse : Nat) (p : Platform)
    (σ : State) : Nat :=
  if op.test signed (vx.word p σ) (vy.word p σ) then onTrue else onFalse

variable {vx vy : Source}

theorem SelectsEnd.goesTo_fused (hon : BranchesOn i t op x y onTrue onFalse)
    (h : SelectsEnd o true i t next s code s') (hx : s.source? x = some vx)
    (hy : s.source? y = some vy) :
    GoesTo s next code s' (chosen op i.ty.isSigned vx vy onTrue onFalse) := by
  obtain ⟨s₁, hi, hleave, hcode⟩ := h
  rw [hon.leave_eq] at hleave
  intro p τ items after σ hτ hnext arrived
  obtain ⟨vx', vy', hx', hy', hleads⟩ :=
    leadsTo_fused (p := p) (hon.compare_of_instrCode hi).1 rfl hon.ne hleave hcode hτ hnext
  obtain rfl : vx = vx' := Option.some.inj (hx.symm.trans hx')
  obtain rfl : vy = vy' := Option.some.inj (hy.symm.trans hy')
  obtain ⟨σ₁, hleads⟩ := hleads σ
  have hleaves := hleads.leaves
  constructor
  · rintro ⟨σ', h⟩
    exact ((hleaves arrived σ').mp h).1
  · exact fun h => ⟨σ₁, (hleaves arrived σ₁).mpr ⟨h, rfl⟩⟩

/-- The code that stores the result of a comparison and compares it with zero. -/
theorem SelectsEnd.goesTo_stored (hon : BranchesOn i t op x y onTrue onFalse)
    (hpending : s.pending = none) (h : SelectsEnd o false i t next s code s')
    (hx : s.source? x = some vx) (hy : s.source? y = some vy) :
    GoesTo s next code s' (chosen op i.ty.isSigned vx vy onTrue onFalse) := by
  obtain ⟨s₁, hi, hleave, hcode⟩ := h
  obtain ⟨id, hid, hvalue⟩ := hon.value
  obtain ⟨js, hexits⟩ := exits_of_leave rfl hleave
  have hcompare := (hon.compare_of_instrCode hi).1
  obtain ⟨is, he⟩ := emits_compare hcompare
  rw [hon.leave_eq] at hleave
  intro p τ items after σ hτ hnext arrived
  have hlabel : s₁.release.blockLabel = s.blockLabel := by
    funext id
    exact (blockLabel_congr he.later.symbol id).symm
  -- the result is in its home, as 0 or 1
  obtain ⟨vx', vy', id', d, hx', hy', hid', hdefined, hruns⟩ :=
    computes_compare (p := p) hcompare rfl (hexits.later.temps.trans hτ)
  obtain rfl : vx = vx' := Option.some.inj (hx.symm.trans hx')
  obtain rfl : vy = vy' := Option.some.inj (hy.symm.trans hy')
  obtain rfl : id = id' := Option.some.inj (hid.symm.trans hid')
  obtain ⟨σ₁, hrun, hstored⟩ := (hruns σ).1 _ rfl
  -- the branch goes by the word in the home
  have hpending₁ : s₁.release.pending = none := (he.pending rfl).trans hpending
  have hnext₁ : ∀ id, next = some id → seek (s₁.release.blockLabel id) items = some after := by
    rwa [hlabel]
  obtain ⟨condition, v, hcondition, hv, hleads⟩ :=
    leadsTo_branch (p := p) hpending₁ hon.ne hleave hexits.code hτ hnext₁
  obtain rfl : condition = .value id := Option.some.inj (hcondition.symm.trans hvalue)
  have hhome : s₁.release.source? (.value id) =
      some (.residence { access := .home, ty := .bool, disp := d }) := by
    refine Session.source?_of_residence ?_
    have hvalues : s₁.release.values = _ := hdefined.values
    rw [Session.reach?, hvalues, List.lookup_cons_self]
    rfl
  obtain rfl := Option.some.inj (hhome.symm.trans hv)
  obtain ⟨σ₂, hleads⟩ := hleads σ₁
  have hleaves := hleads.leaves
  have hword : (Source.residence { access := .home, ty := .bool, disp := d }).word p σ₁ =
      if op.test i.ty.isSigned (vx.word p σ) (vy.word p σ) then 1 else 0 := hstored.load_self
  have htaken : (if (Source.residence { access := .home, ty := .bool, disp := d }).word p σ₁ ≠ 0
      then onTrue else onFalse) = chosen op i.ty.isSigned vx vy onTrue onFalse p σ := by
    rw [hword, chosen]
    cases op.test i.ty.isSigned (vx.word p σ) (vy.word p σ) <;> rfl
  rw [htaken, hlabel] at hleaves
  obtain ⟨is', his', hexec⟩ := hrun
  have hsplit : code = is' ++ js := by
    have hjs : s'.code.toList = s₁.code.toList ++ js := hexits.code
    rw [hcode, his', List.append_assoc] at hjs
    exact List.append_cancel_left hjs
  rw [hsplit, boundLines_append]
  simp only [boundLines] at hleaves ⊢
  constructor
  · rintro ⟨σ', h⟩
    exact ((hleaves arrived σ').mp ((leaves_execAll_iff hexec).mp h)).1
  · exact fun h => ⟨σ₂, (leaves_execAll_iff hexec).mpr ((hleaves arrived σ₂).mpr ⟨h, rfl⟩)⟩

lemma exists_fork (site : Site) (s : Session) (cond : Cond) (onTrue onFalse : Nat)
    (next : Option Nat) :
    ∃ jump rest cond', site.fork s cond onTrue onFalse next = jump :: rest ∧
      jump.op = .jcc cond' := by
  rw [Site.fork]
  split_ifs
  · exact ⟨_, _, _, rfl, rfl⟩
  · exact ⟨_, _, _, rfl, rfl⟩

/-- Nothing stands between a comparison that is left in the flags and the conditional jump. -/
theorem SelectsEnd.adjacent (hon : BranchesOn i t op x y onTrue onFalse)
    (h : SelectsEnd o true i t next s code s') :
    ∃ front cmp jump rest cond, code = front ++ cmp :: jump :: rest ∧ cmp.op = .cmp ∧
      jump.op = .jcc cond := by
  obtain ⟨s₁, hi, hleave, hcode⟩ := h
  rw [hon.leave_eq] at hleave
  obtain ⟨hpending, front, cmp, hfront, hcmp⟩ := compare_of_flags (hon.compare_of_instrCode hi).1 rfl
  rcases branch_cases hleave with ⟨heq, -⟩ | ⟨condition, -, -, ⟨cond, -, rfl⟩ | ⟨r, hnone, -⟩⟩
  · exact absurd heq hon.ne
  · obtain ⟨jump, rest, cond', hjumps, hjump⟩ := exists_fork (termSite o t) s₁.release cond onTrue
      onFalse next
    refine ⟨front, cmp, jump, rest, cond', List.append_cancel_left (hcode.symm.trans ?_), hcmp, hjump⟩
    rw [hjumps]
    simp [Session.pushAll, Session.release, hfront]
  · rw [show s₁.pending = none from hnone] at hpending
    cases hpending

/-! ### Both codes can be selected -/

/-- The fused code can be selected in front of any block. -/
theorem SelectsEnd.exists_next (hon : BranchesOn i t op x y onTrue onFalse)
    (h : SelectsEnd o true i t next s code s') (next' : Option Nat) :
    ∃ code' s'', SelectsEnd o true i t next' s code' s'' := by
  obtain ⟨s₁, hi, -, -⟩ := h
  obtain ⟨id, -, hvalue⟩ := hon.value
  have hcompare := (hon.compare_of_instrCode hi).1
  have hpending : s₁.release.pending = some _ := (compare_of_flags hcompare rfl).1
  obtain ⟨s₂, hbranch⟩ :=
    exists_yields_branch_of_pending hpending hon.ne (termSite o t) (.value id) next'
  have hleave : Yields (leave t next') (termSite o t) s₁.release () s₂ := by
    rw [hon.leave_eq, hvalue]
    exact hbranch
  obtain ⟨is, he⟩ := emits_compare hcompare
  obtain ⟨js, hexits⟩ := exits_of_leave rfl hleave
  have hjs : s₂.code.toList = s₁.code.toList ++ js := hexits.code
  exact ⟨is ++ js, s₂, s₁, hi, hleave, by rw [hjs, he.code, List.append_assoc]⟩

/-- Where the fused code can be selected and the frame has room for a word, the code that stores the
result can be selected too. -/
theorem SelectsEnd.exists_stored (hon : BranchesOn i t op x y onTrue onFalse)
    (hpending : s.pending = none) (h : SelectsEnd o true i t next s code s') {r : Int × Frame.Needs}
    (hroom : s.frame.allocate 8 = .ok r) (next' : Option Nat) :
    ∃ code' s'', SelectsEnd o false i t next' s code' s'' := by
  obtain ⟨s₁, hi, -, -⟩ := h
  obtain ⟨id, hid, hvalue⟩ := hon.value
  obtain ⟨hfused, hcode⟩ := hon.compare_of_instrCode hi
  obtain ⟨lhs, s₂, rhs, s₃, s₄, hlhs, hrhs, -, -⟩ := yields_compare.mp hfused
  have hframe : s₃.frame = s.frame :=
    (alike_gprSource hrhs).frame.trans (alike_loadGpr hlhs).frame
  have hcompare : ∃ s₅, Yields (compare i op x y) (instrSite o i false) s () s₅ ∧
      s₅.values.lookup id = some { access := .home, ty := .bool, disp := r.1 } := by
    have hlhs' : Yields (loadGpr x) (instrSite o i false) s lhs s₂ :=
      yields_loadGpr_congr hlhs rfl rfl
    have hrhs' : Yields (gprSource y) (instrSite o i false) s₂ rhs s₃ :=
      yields_gprSource_congr hrhs rfl rfl
    refine ⟨_, yields_compare.mpr ⟨lhs, s₂, rhs, s₃, _, hlhs', hrhs', rfl, Or.inr ⟨rfl,
      yields_storeGpr.mpr ⟨id, r.1, r.2, hid, hframe.symm ▸ hroom, rfl⟩⟩⟩, ?_⟩
    rw [List.lookup_cons_self]
  obtain ⟨s₅, hs₅, hlookup⟩ := hcompare
  obtain ⟨is, he⟩ := emits_compare hs₅
  have hhome : s₅.release.reach? (.value id) =
      some (.residence { access := .home, ty := .bool, disp := r.1 }) := by
    rw [Session.reach?, show s₅.release.values = s₅.values from rfl, hlookup]
    rfl
  have hpending₅ : s₅.release.pending = none := (he.pending rfl).trans hpending
  obtain ⟨s₆, hbranch⟩ :=
    exists_yields_branch_of_home hpending₅ hhome rfl hon.ne (termSite o t) next'
  have hleave : Yields (leave t next') (termSite o t) s₅.release () s₆ := by
    rw [hon.leave_eq, hvalue]
    exact hbranch
  obtain ⟨js, hexits⟩ := exits_of_leave rfl hleave
  have hjs : s₆.code.toList = s₅.code.toList ++ js := hexits.code
  exact ⟨is ++ js, s₆, s₅, hcode _ _ hs₅, hleave, by rw [hjs, he.code, List.append_assoc]⟩

end Ends

/-! ### Fused comparisons -/

lemma Lowers.exists_last {is : List Ir.Instr} {items : List Item}
    (h : Lowers o t is s items s') (hpending : s.pending = none)
    (hlast : is.getLast?.filter (fuses s · t) = some i) :
    ∃ s₀ s₁, Yields (instrCode i) (instrSite o i true) s₀ () s₁ ∧ s' = s₁.release ∧
      s₀.pending = none ∧ s₀.reads = s.reads := by
  have htail {j : Ir.Instr} {is : List Ir.Instr} {s s₁ : Session} (hreads : s₁.reads = s.reads)
      (hlast : (j :: is).getLast?.filter (fuses s · t) = some i)
      (hj : (is.isEmpty && fuses s j t) = false) : is.getLast?.filter (fuses s₁ · t) = some i := by
    rw [filter_fuses_congr hreads]
    cases is with
    | nil =>
      have hj : fuses s j t = false := by simpa using hj
      rw [List.getLast?_singleton, Option.filter_some, hj] at hlast
      cases hlast
    | cons k is => rwa [List.getLast?_cons_cons] at hlast
  induction h with
  | nil s => cases hlast
  | @step j is s s₁ s' code items _ hj he hrest ih =>
    cases hfused : (is.isEmpty && fuses s j t) with
    | false =>
      obtain ⟨s₀, s₂, hi, hs', hs₀, hreads⟩ :=
        ih ((he.pending hfused).trans hpending) (htail he.later.reads hlast hfused)
      exact ⟨s₀, s₂, hi, hs', hs₀, hreads.trans he.later.reads⟩
    | true =>
      rw [hfused] at hj
      rw [Bool.and_eq_true, List.isEmpty_iff] at hfused
      obtain ⟨rfl, -⟩ := hfused
      cases hrest
      obtain ⟨hji, -⟩ := Option.filter_eq_some_iff.mp hlast
      cases hji
      exact ⟨s, s₁, hj, rfl, hpending, rfl⟩
  | ret hkind _ _ he _ ih =>
    obtain ⟨s₀, s₂, hi, hs', hs₀, hreads⟩ := ih ((he.pending rfl).trans hpending)
      (htail he.later.reads hlast (by rw [fuses_of_ret hkind, Bool.and_false]))
    exact ⟨s₀, s₂, hi, hs', hs₀, hreads.trans he.later.reads⟩

/-- The comparison `i` at the end of a block, which is selected in session `s`, can be fused into the
branch after it: nothing else reads its result, the jump comes right after the comparison, and
wherever the code that stores the result goes, the fused code goes too. -/
structure Fusible (o : Options) (f : Ir.Function) (b : Ir.Block) (i : Ir.Instr) (s : Session) :
    Prop where
  reader : ∃ id, i.result = some id ∧ b.term.value = some (.value id) ∧
    ∀ b' ∈ f.blocks, (∀ j ∈ b'.instrs, .value id ∉ j.operands) ∧
      (b'.term.value = some (.value id) → b' = b)
  fused : ∀ next, ∃ code s', SelectsEnd o true i b.term next s code s'
  stored : ∀ r, s.frame.allocate 8 = .ok r → ∀ next, ∃ code s',
    SelectsEnd o false i b.term next s code s'
  adjacent : ∀ next code s', SelectsEnd o true i b.term next s code s' →
    ∃ front cmp jump rest cond, code = front ++ cmp :: jump :: rest ∧ cmp.op = .cmp ∧
      jump.op = .jcc cond
  decides : ∃ op x y vx vy onTrue onFalse, i.kind = .binary op ∧ i.operands = [x, y] ∧
    b.term.exit = .branch onTrue onFalse ∧ s.source? x = some vx ∧ s.source? y = some vy ∧
    ∀ flags next code s', SelectsEnd o flags i b.term next s code s' →
      GoesTo s next code s' (chosen op i.ty.isSigned vx vy onTrue onFalse)

lemma fusible_of_selectsEnd (hb : b ∈ f.blocks) (hreads : s.reads = f.reads)
    (hpending : s.pending = none) (hfuses : fuses s i b.term = true)
    (h : SelectsEnd o true i b.term next s code s') : Fusible o f b i s := by
  obtain ⟨op, id, onTrue, onFalse, hkind, hid, hexit, hvalue, hcmp, hint, hne, hcount⟩ :=
    fuses_cases hfuses
  have hend := h
  obtain ⟨s₁, hi, -, -⟩ := hend
  obtain ⟨op', x, y, hkind', hops, hcompare⟩ := exists_compare_of_fuses hfuses hi
  have hon : BranchesOn i b.term op x y onTrue onFalse :=
    ⟨hkind, hcmp, hint, hops, ⟨id, hid, hvalue⟩, hexit, hne⟩
  obtain ⟨vx, vy, hvx, hvy, -⟩ :=
    exists_runs_compare_flags (p := default) hcompare rfl (Temps.Grows.refl _)
  refine ⟨⟨id, hid, hvalue, ?_⟩, h.exists_next hon, fun r hroom => h.exists_stored hon hpending hroom,
    fun _ _ _ h => h.adjacent hon, op, x, y, vx, vy, onTrue, onFalse, hkind, hops, hexit, hvx, hvy, ?_⟩
  · rw [Session.useCount, hreads] at hcount
    exact Ir.Function.reader_unique hcount hb hvalue
  · intro flags next code s' h
    cases flags with
    | false => exact h.goesTo_stored hon hpending hvx hvy
    | true => exact h.goesTo_fused hon hvx hvy

/-- No flags are wanted where a block starts. A comparison at the end of a block that is fused into
the branch after it is fused safely. -/
theorem fusion_preserves_control (h : BlockStarts o f start b next s) :
    s.pending = none ∧ ∀ blocks s' i, Makes (compileBlock o b next) s blocks s' →
      b.instrs.getLast?.filter (fuses s · b.term) = some i →
      ∃ s₀ s₁ closed label code, blocks = closed ++ [⟨label, s₀.code.toList ++ code⟩] ∧
        s' = s₁.cut ∧ SelectsEnd o true i b.term next s₀ code s₁ ∧ Fusible o f b i s₀ := by
  obtain ⟨hb, hpending, hreads⟩ := h.ready
  refine ⟨hpending, fun blocks s' i hblocks hlast => ?_⟩
  obtain ⟨closed, label, s₁, s₂, hinstrs, hleave, rfl, rfl⟩ := compileBlock_cases hblocks
  obtain ⟨body, hlowers, -⟩ := lowers_of_compileInstrs hinstrs
  obtain ⟨s₀, s₁, hi, rfl, hpending₀, hreads₀⟩ := hlowers.exists_last hpending hlast
  have hfuses : fuses s₀ i b.term = true := by
    rw [fuses_congr hreads₀]
    exact (Option.filter_eq_some_iff.mp hlast).2
  obtain ⟨op, x, y, -, -, hcompare⟩ := exists_compare_of_fuses hfuses hi
  obtain ⟨is, he⟩ := emits_compare hcompare
  obtain ⟨js, hexits⟩ := exits_of_leave rfl hleave
  have hcode : s₂.code.toList = s₀.code.toList ++ (is ++ js) := by
    rw [hexits.code, show s₁.release.code.toList = _ from he.code, List.append_assoc]
  have hend : SelectsEnd o true i b.term next s₀ (is ++ js) s₂ := ⟨s₁, hi, hleave, hcode⟩
  exact ⟨s₀, s₂, closed, label, is ++ js, by rw [hcode], rfl, hend,
    fusible_of_selectsEnd hb (hreads₀.trans hreads) hpending₀ hfuses hend⟩

/-- A loop that is left when a parameter is large. -/
def spins : Ir.Function where
  params := [⟨"n", .int true .long⟩]
  ret := .int true .long
  blocks := [
    { id := 0, term := { exit := .jump 1 } },
    { id := 1
      instrs := [{ result := some 0, kind := .binary .ge, ty := .int true .long,
                   operands := [.param 0, .const (.int true .long) 10] }]
      term := { exit := .branch 2 1, value := some (.value 0) } },
    { id := 2, term := { exit := .ret, value := some (.param 0) } }]

private def spinsHeader : Build (List Machine.Block) := do
  let _ ← homeParams ({} : Options).target spins
  modify fun s => { s with reads := spins.reads }
  let _ ← compileBlock {} spins.blocks[0] (some 1)
  compileBlock {} spins.blocks[1] (some 2)

lemma isOk_spinsHeader :
    (spinsHeader.run (({} : Session).enter spins (asmName {} {} spins))).isOk = true := by
  decide +kernel

/-- The comparison of the loop is fused into the branch behind it. -/
theorem fusion_preserves_control_spins : ∃ s blocks s' s₀ closed label code,
    BlockStarts {} spins {} spins.blocks[1] (some 2) s ∧ s.pending = none ∧
      Makes (compileBlock {} spins.blocks[1] (some 2)) s blocks s' ∧
      blocks = closed ++ [⟨label, s₀.code.toList ++ code⟩] ∧
      Fusible {} spins spins.blocks[1] spins.blocks[1].instrs[0] s₀ := by
  cases hrun : spinsHeader.run (({} : Session).enter spins (asmName {} {} spins)) with
  | error e =>
    have hok := isOk_spinsHeader
    rw [hrun] at hok
    cases hok
  | ok r =>
    have hmakes : Makes spinsHeader _ r.1 r.2 := hrun
    rw [spinsHeader, makes_bind] at hmakes
    obtain ⟨homing, homed, hhomes, hmakes⟩ := hmakes
    rw [makes_modify_bind, makes_bind] at hmakes
    obtain ⟨entry, s, hentry, hheader⟩ := hmakes
    have hstarts : BlockStarts {} spins {} spins.blocks[1] (some 2) s :=
      ⟨homing, homed, spins.blocks, hhomes, by decide, .later hentry (.here rfl)⟩
    obtain ⟨hpending, hfused⟩ := fusion_preserves_control hstarts
    have hreads : s.reads = spins.reads := hstarts.ready.2.2
    have hlast : spins.blocks[1].instrs.getLast?.filter (fuses s · spins.blocks[1].term) =
        some spins.blocks[1].instrs[0] := by
      rw [filter_fuses_congr (s := { reads := spins.reads }) hreads]
      decide
    obtain ⟨s₀, s₁, closed, label, code, hblocks, -, -, hfusible⟩ := hfused _ _ _ hheader hlast
    exact ⟨s, r.1, r.2, s₀, closed, label, code, hstarts, hpending, hheader, hblocks, hfusible⟩

end NativeCode.Compile
