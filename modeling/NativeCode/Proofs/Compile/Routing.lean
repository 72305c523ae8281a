import NativeCode.Proofs.Compile.Blocks
import NativeCode.Proofs.Compile.Program
import NativeCode.Proofs.Selection.Integers

/-!
# Where blocks lead

The lines of a block are cut at the returns in its middle. Each piece but the last one leads to the
epilogue. The last piece leads where the end of the block says, by a jump or by falling into the
block that is emitted next.
-/

namespace NativeCode.Compile

open Abi
open Ir (BinaryOp)
open Machine Selection
open Selection (Session)

/-! ### Conditions -/

section Outcome

variable (last : Session) (p : Platform) (σ : State)

/-- What a comparison says about the words of its operands. -/
def comparison? (i : Ir.Instr) : Option Bool :=
  match i.kind, i.operands with
  | .binary op, [a, b] => do
    let va ← last.source? a
    let vb ← last.source? b
    return op.test i.ty.isSigned (va.word p σ) (vb.word p σ)
  | _, _ => none

/-- What the condition of a branch says: a comparison at the end of the block that only the branch
reads goes by its operands, and any other condition by whether its word is zero. -/
def outcome? (b : Ir.Block) : Option Bool :=
  match b.instrs.getLast?.filter (fuses last · b.term) with
  | some i => comparison? last p σ i
  | none => do
    let v ← last.source? (← b.term.value)
    return v.word p σ ≠ 0

def exitLabel? (b : Ir.Block) : Option String :=
  match b.term.exit with
  | .ret => some last.epilogueLabel
  | .jump target => some (last.blockLabel target)
  | .branch onTrue onFalse =>
    if onTrue = onFalse then some (last.blockLabel onTrue)
    else (outcome? last p σ b).map fun taken => last.blockLabel (if taken then onTrue else onFalse)
  | .unreachable => none

end Outcome

variable {o : Options} {t : Ir.Terminator} {is : List Ir.Instr} {b : Ir.Block} {p : Platform}
  {s s' last : Session} {items after arrived : List Item} {σ σ' : State} {site : Site} {τ : Temps}

/-! ### Pieces of a block -/

def Straight (i : Instr) : Prop := i.op ≠ .jmp ∧ (∀ c, i.op ≠ .jcc c) ∧ i.op ≠ .ret

lemma straight_of_tame {target : Target} {i : Instr} (h : Tame target s i) : Straight i := by
  cases h with
  | plain hop =>
    refine ⟨?_, fun c => ?_, ?_⟩
    all_goals
      intro h
      rw [h] at hop
      cases hop
  | call f hop => exact ⟨by simp [hop], by simp [hop], by simp [hop]⟩

/-- How the instructions of a block end: with no flags wanted, or with the code `tail` of a
comparison for the branch after it. -/
inductive Ending (o : Options) (t : Ir.Terminator) (is : List Ir.Instr) (s' : Session) :
    List Instr → Prop
  | plain (hpending : s'.pending = none) (hlast : is.getLast?.filter (fuses s' · t) = none) :
      Ending o t is s' []
  | fused {i : Ir.Instr} {op : BinaryOp} {a b : Ir.Operand} {s₀ s₁ : Session} {tail : List Instr}
      (hlast : is.getLast?.filter (fuses s' · t) = some i) (hkind : i.kind = .binary op)
      (hops : i.operands = [a, b]) (h : Yields (compare i op a b) (instrSite o i true) s₀ () s₁)
      (he : Emits (instrSite o i true) s₀ s₁ tail) (hs' : s' = s₁.release) : Ending o t is s' tail

/-- The machine blocks `early` and `final` come from the instructions of a block. -/
structure Pieces (o : Options) (t : Ir.Terminator) (is : List Ir.Instr) (s' : Session)
    (early : List Machine.Block) (final : Machine.Block) : Prop where
  length : early.length = is.countP (·.kind.isRet)
  early : ∀ mb ∈ early, ∃ code e, mb.code = code ++ [e] ∧ (∀ i ∈ code, Straight i) ∧
    e.op = .jmp ∧ e.operands = [.label s'.epilogueLabel]
  final : ∃ body tail, final.code = body ++ tail ∧ (∀ i ∈ body ++ tail, Straight i) ∧
    Ending o t is s' tail

lemma exists_compare_of_fuses {i : Ir.Instr} (hfuses : fuses s i t = true)
    (h : Yields (instrCode i) site s () s') :
    ∃ op a b, i.kind = .binary op ∧ i.operands = [a, b] ∧
      Yields (compare i op a b) site s () s' := by
  obtain ⟨op, -, -, -, hkind, -, -, -, hcmp, hint, -⟩ := fuses_cases hfuses
  rw [instrCode, hkind] at h
  obtain ⟨form, a, b, ra, rb, hform, hops, -, -, -, -, hcode⟩ := yields_binary.mp h
  have hcompare : intForm op = .compare := by
    cases op <;> first | rfl | cases hcmp
  rw [form?, if_pos hint, hcompare, Option.some.injEq] at hform
  subst hform
  exact ⟨op, a, b, hkind, hops, hcode⟩

lemma filter_fuses_congr (h : s'.reads = s.reads) (i? : Option Ir.Instr) :
    i?.filter (fuses s' · t) = i?.filter (fuses s · t) := by
  congr 1
  funext i
  exact fuses_congr h i t

lemma Ending.cons {i : Ir.Instr} {tail : List Instr} (h : Ending o t is s' tail)
    (hi : is = [] → fuses s' i t = false) : Ending o t (i :: is) s' tail := by
  have hlast : (i :: is).getLast?.filter (fuses s' · t) = is.getLast?.filter (fuses s' · t) := by
    cases is with
    | nil => rw [List.getLast?_singleton, Option.filter_some, hi rfl]; rfl
    | cons j js => rw [List.getLast?_cons_cons]
  cases h with
  | plain hpending h => exact .plain hpending (hlast.trans h)
  | fused h hkind hops hyields he hs' => exact .fused (hlast.trans h) hkind hops hyields he hs'

/-- The instructions of a block are cut into pieces, the first of which starts with `label` and the
code `code`. -/
theorem Lowers.exists_pieces (h : Lowers o t is s items s') (hinv : s.Inv o.target)
    (hpending : s.pending = none) (label : String) {code : List Instr}
    (hcode : ∀ i ∈ code, Straight i) :
    ∃ early final, Pieces o t is s' early final ∧
      (early ++ [final]).head?.map (·.label) = some label ∧
      .label label :: (code.map .instr ++ items) = (early ++ [final]).flatMap blockItems := by
  induction h generalizing label code with
  | nil s =>
    exact ⟨[], ⟨label, code⟩, ⟨rfl, by simp, code, [], by simp, by simpa using hcode,
      .plain hpending rfl⟩, rfl, by simp [blockItems]⟩
  | @step i is s s₁ s' code' items hkind hi he hrest ih =>
    have hret : i.kind.isRet = false := by
      rw [← Bool.not_eq_true, Ir.InstrKind.isRet_iff]
      exact hkind
    have hboth : ∀ j ∈ code ++ code', Straight j := by
      intro j hj
      rcases List.mem_append.mp hj with hj | hj
      · exact hcode j hj
      · exact straight_of_tame (he.tame hinv j hj)
    cases hfused : (is.isEmpty && fuses s i t) with
    | true =>
      rw [hfused] at hi he
      rw [Bool.and_eq_true, List.isEmpty_iff] at hfused
      obtain ⟨rfl, hfuses⟩ := hfused
      cases hrest
      obtain ⟨op, a, b, hbinary, hops, hcompare⟩ := exists_compare_of_fuses hfuses hi
      have hreads : s₁.release.reads = s.reads := he.later.reads
      refine ⟨[], ⟨label, code ++ code'⟩, ⟨by simp [hret], by simp, code, code', rfl, hboth,
        .fused ?_ hbinary hops hcompare he rfl⟩, rfl, by simp [blockItems]⟩
      rw [filter_fuses_congr hreads, List.getLast?_singleton, Option.filter_some, if_pos hfuses]
    | false =>
      have hinv₁ : s₁.release.Inv o.target := { he.inv hinv with }
      have hpending₁ : s₁.release.pending = none := (he.pending hfused).trans hpending
      obtain ⟨early, final, ⟨hlength, hearly, body, tail, hfinal, hbody, hending⟩, hhead, hlines⟩ :=
        ih hinv₁ hpending₁ label hboth
      refine ⟨early, final, ⟨by simp [hlength, hret], hearly, body, tail, hfinal, hbody, ?_⟩, hhead,
        ?_⟩
      · refine hending.cons ?_
        rintro rfl
        have hreads : s'.reads = s.reads := hrest.grown.later.reads.trans he.later.reads
        rw [fuses_congr hreads]
        simpa using hfused
      · rw [← hlines]
        simp
  | @ret i is s s₁ s' code' items hkind _ hi he hrest ih =>
    have hinv₁ : s₁.resume.Inv o.target :=
      { he.inv { hinv with } with }
    have hpending₁ : s₁.resume.pending = none := (he.pending rfl).trans hpending
    obtain ⟨early, final, ⟨hlength, hearly, body, tail, hfinal, hbody, hending⟩, hhead, hlines⟩ :=
      @ih hinv₁ hpending₁ s₁.contLabel [] (by simp)
    have hepilogue : s'.epilogueLabel = s₁.epilogueLabel := by
      rw [Session.epilogueLabel, Session.epilogueLabel, hrest.grown.later.symbol]
      rfl
    let first : Machine.Block := ⟨label, code ++ code' ++ [(instrSite o i false).exit s₁]⟩
    refine ⟨first :: early, final, ⟨?_, fun mb hmb => ?_, body, tail, hfinal, hbody, ?_⟩, rfl, ?_⟩
    · have hret : i.kind.isRet = true := (Ir.InstrKind.isRet_iff _).mpr hkind
      simp [hlength, hret]
    · rcases List.mem_cons.mp hmb with rfl | hmb
      · refine ⟨code ++ code', _, rfl, fun j hj => ?_, rfl, by rw [hepilogue]; rfl⟩
        rcases List.mem_append.mp hj with hj | hj
        · exact hcode j hj
        · exact straight_of_tame (he.tame { hinv with } j hj)
      · exact hearly mb hmb
    · exact hending.cons fun _ => fuses_of_ret hkind
    · rw [List.cons_append, List.flatMap_cons, ← hlines]
      simp [first, blockItems]

/-! ### Jumps at the end of a block -/

section Jumps

variable {next : Option Nat} {σ₁ : State}

/-- The lines of code whose temporaries are bound. -/
def boundLines (τ : Temps) (is : List Instr) : List Item := (is.map τ.boundInstr).map .instr

lemma boundLines_append (τ : Temps) (is js : List Instr) :
    boundLines τ (is ++ js) = boundLines τ is ++ boundLines τ js := by
  rw [boundLines, List.map_append, List.map_append]
  rfl

lemma head?_boundLines_ne (τ : Temps) (is : List Instr) (l : String) :
    (boundLines τ is).head? ≠ some (.label l) := by
  cases is with
  | nil => simp [boundLines]
  | cons i is => simp [boundLines]

/-- The jump to a block, which may be the next one, arrives there. -/
theorem leaves_goto_iff {target : Nat}
    (hnext : ∀ id, next = some id → seek (s.blockLabel id) items = some after) :
    Leaves p items after (boundLines τ (site.goto s target next)) σ arrived σ' ↔
      seek (s.blockLabel target) items = some arrived ∧ σ' = σ := by
  rw [Site.goto]
  split_ifs with hn
  · rw [hnext target hn, Option.some.injEq, eq_comm (a := after)]
    exact leaves_nil_iff
  · exact leaves_jmp_iff rfl rfl (by simp)

/-- The jumps to one of two blocks, either of which may be the next one, arrive at the right one. -/
theorem leaves_fork_iff {cond : Cond} {onTrue onFalse : Nat}
    (hnext : ∀ id, next = some id → seek (s.blockLabel id) items = some after) :
    Leaves p items after (boundLines τ (site.fork s cond onTrue onFalse next)) σ arrived σ' ↔
      seek (s.blockLabel (if cond.holds σ.flags then onTrue else onFalse)) items = some arrived ∧
        σ' = σ := by
  rw [Site.fork]
  split_ifs with hn hc hc
  · -- the jump on the inverted condition is passed
    refine (leaves_jcc_iff rfl rfl (by simp)).trans ?_
    rw [Cond.holds_invert, hc, if_neg (by simp), List.map_nil, List.map_nil, leaves_nil_iff,
      hnext onTrue hn, Option.some.injEq, eq_comm (a := after)]
  · refine (leaves_jcc_iff rfl rfl (by simp)).trans ?_
    rw [Cond.holds_invert, if_pos (by simpa using hc)]
  · refine (leaves_jcc_iff rfl rfl (head?_boundLines_ne _ _ _)).trans ?_
    rw [if_pos hc]
  · refine (leaves_jcc_iff rfl rfl (head?_boundLines_ne _ _ _)).trans ?_
    rw [if_neg hc]
    exact leaves_goto_iff hnext

lemma blockLabel_congr (h : last.symbol = s.symbol) (id : Nat) :
    s.blockLabel id = last.blockLabel id := by
  rw [Session.blockLabel, Session.blockLabel, h]

/-- Bound to registers, code runs straight from `σ` to `σ₁`, which has memory and the frame pointer as
they were, and from there arrives at a label. -/
structure LeadsTo (p : Platform) (τ : Temps) (items after : List Item) (code : List Instr) (σ : State)
    (l : String) (σ₁ : State) : Prop where
  straight : ∃ front jumps, code = front ++ jumps ∧ execAll p (front.map τ.boundInstr) σ = .ok σ₁
  mem : σ₁.mem = σ.mem
  rbp : σ₁.gpr .rbp = σ.gpr .rbp
  leaves : ∀ arrived σ', Leaves p items after (boundLines τ code) σ arrived σ' ↔
    seek l items = some arrived ∧ σ' = σ₁

lemma LeadsTo.of_runs {js code : List Instr} {l : String} (hrun : Runs p τ s s' σ (.ok σ₁))
    (hmem : σ₁.mem = σ.mem) (hrbp : σ₁.gpr .rbp = σ.gpr .rbp)
    (hcode : (s'.pushAll js).code.toList = s.code.toList ++ code)
    (hjumps : ∀ arrived σ', Leaves p items after (boundLines τ js) σ₁ arrived σ' ↔
      seek l items = some arrived ∧ σ' = σ₁) : LeadsTo p τ items after code σ l σ₁ := by
  obtain ⟨is, his, hexec⟩ := hrun
  have heq : code = is ++ js := by
    rw [Session.pushAll, Array.toList_append, his, List.append_assoc] at hcode
    exact (List.append_cancel_left hcode).symm
  refine ⟨⟨is, js, heq, hexec⟩, hmem, hrbp, fun arrived σ' => ?_⟩
  rw [heq, boundLines_append, boundLines, leaves_execAll_iff hexec, hjumps]

/-- A jump leads to its block, which may be the next one. -/
theorem leadsTo_goto {code : List Instr} {target : Nat}
    (hcode : (s.pushAll (site.goto s target next)).code.toList = s.code.toList ++ code)
    (hnext : ∀ id, next = some id → seek (s.blockLabel id) items = some after) :
    LeadsTo p τ items after code σ (s.blockLabel target) σ :=
  .of_runs (.refl rfl) rfl rfl hcode fun _ _ => leaves_goto_iff hnext

/-- A return leads to the epilogue, with the returned value in its register. -/
theorem leadsTo_ret {s₁ : Session} {js code : List Instr} {value : Option Ir.Operand} {text : String}
    (h : Yields (returnValue value text) site s () s₁)
    (hcode : (s₁.pushAll js).code.toList = s.code.toList ++ code) (hτ : s₁.temps.Grows τ)
    (hjs : js = [site.exit s₁] ∨ js = [] ∧ seek s₁.epilogueLabel items = some after) :
    ∃ f, s.function = some f ∧ ∀ σ, ∃ σ₁, LeadsTo p τ items after code σ s₁.epilogueLabel σ₁ ∧
      ∀ v, value = some v → f.ret.isFloat = false →
        ∃ src, s.source? v = some src ∧ σ₁.gpr .rax = src.word p σ := by
  obtain ⟨f, hf, hruns⟩ := exists_runs_returnValue (p := p) h hτ
  refine ⟨f, hf, fun σ => ?_⟩
  obtain ⟨σ₁, hrun, hmem, hpoised, hvalue⟩ := hruns σ
  refine ⟨σ₁, .of_runs hrun hmem hpoised.rbp hcode fun arrived σ' => ?_, hvalue⟩
  obtain rfl | ⟨rfl, hseek⟩ := hjs
  · exact leaves_jmp_iff rfl rfl (by simp)
  · rw [hseek, Option.some.injEq, eq_comm (a := after)]
    exact leaves_nil_iff

section Branches

variable {s₁ s₂ : Session} {code : List Instr} {value : Option Ir.Operand} {onTrue onFalse : Nat}

/-- A branch on a condition that has a residence goes by its word. -/
theorem leadsTo_branch (hpending : s.pending = none) (hne : onTrue ≠ onFalse)
    (h : Yields (branch value onTrue onFalse next) site s () s₂)
    (hcode : s₂.code.toList = s.code.toList ++ code) (hτ : s₂.temps.Grows τ)
    (hnext : ∀ id, next = some id → seek (s.blockLabel id) items = some after) :
    ∃ condition v, value = some condition ∧ s.source? condition = some v ∧ ∀ σ, ∃ σ₁,
      LeadsTo p τ items after code σ
        (s.blockLabel (if v.word p σ ≠ 0 then onTrue else onFalse)) σ₁ := by
  rcases branch_cases h with ⟨heq, -⟩ |
    ⟨condition, -, hvalue, ⟨cond, hcond, -⟩ | ⟨r, -, hr, -, hv⟩⟩
  · exact absurd heq hne
  · rw [hpending] at hcond
    cases hcond
  · rcases hv with ⟨bits, hknown, rfl⟩ | ⟨src, s₁, -, hsrc, rfl⟩
    · obtain ⟨v, hv, hword⟩ := exists_source?_of_known hr hknown
      refine ⟨condition, v, hvalue, hv, fun σ => ⟨σ, ?_⟩⟩
      rw [hword]
      exact leadsTo_goto hcode hnext
    · obtain ⟨v, hv, -, hruns⟩ := exists_runs_gprSource (p := p) hsrc hτ
      refine ⟨condition, v, hvalue, hv, fun σ => ?_⟩
      obtain ⟨σ₁, hrun, hspare, hread⟩ := hruns σ
      have hzero : σ₁.read p .quad (τ.boundOperand (.imm 0)) = .ok 0 := rfl
      have hcmp := exec_cmp (i := τ.boundInstr (site.instr .cmp [.imm 0, src])) rfl rfl hzero hread
      have hlabel : s₁.blockLabel = s.blockLabel := by
        obtain ⟨is, he⟩ := emits_gprSource hsrc
        funext id
        exact (blockLabel_congr he.later.symbol id).symm
      have hnext' : ∀ id, next = some id → seek (s₁.blockLabel id) items = some after := by
        rwa [hlabel]
      have hflags : Cond.ne.holds (.ofSub (v.word p σ) 0) = decide (v.word p σ ≠ 0) :=
        holds_intCond .ne false _ _
      refine ⟨{ σ₁ with flags := .ofSub (v.word p σ) 0 },
        .of_runs (hrun.trans (.push hcmp)) hspare.mem hspare.rbp hcode fun arrived σ' => ?_⟩
      rw [leaves_fork_iff hnext', hlabel]
      simp only [hflags, decide_eq_true_eq]

/-- A branch on a comparison whose result stays in the flags goes by what the comparison says. -/
theorem leadsTo_fused {i : Ir.Instr} {op : BinaryOp} {x y : Ir.Operand} {site' : Site}
    (h : Yields (compare i op x y) site' s () s₁) (hflags : site'.flagsOnly = true)
    (hne : onTrue ≠ onFalse)
    (hbranch : Yields (branch value onTrue onFalse next) site s₁.release () s₂)
    (hcode : s₂.code.toList = s.code.toList ++ code) (hτ : s₂.temps.Grows τ)
    (hnext : ∀ id, next = some id → seek (s.blockLabel id) items = some after) :
    ∃ vx vy, s.source? x = some vx ∧ s.source? y = some vy ∧ ∀ σ, ∃ σ₁,
      LeadsTo p τ items after code σ (s.blockLabel
        (if op.test i.ty.isSigned (vx.word p σ) (vy.word p σ) then onTrue else onFalse)) σ₁ := by
  have hpending : s₁.release.pending = some (intCond op i.ty.isSigned) :=
    (compare_of_flags h hflags).1
  rcases branch_cases hbranch with ⟨heq, -⟩ |
    ⟨condition, -, -, ⟨cond, hcond, rfl⟩ | ⟨r, hnone, -⟩⟩
  · exact absurd heq hne
  · obtain rfl : intCond op i.ty.isSigned = cond := Option.some.inj (hpending.symm.trans hcond)
    obtain ⟨vx, vy, hvx, hvy, hruns⟩ := exists_runs_compare_flags (p := p) h hflags hτ
    have hlabel : s₁.release.blockLabel = s.blockLabel := by
      obtain ⟨is, he⟩ := emits_compare h
      funext id
      exact (blockLabel_congr he.later.symbol id).symm
    have hnext' : ∀ id, next = some id → seek (s₁.release.blockLabel id) items = some after := by
      rwa [hlabel]
    refine ⟨vx, vy, hvx, hvy, fun σ => ?_⟩
    obtain ⟨σ₁, hrun, hspare, hσ₁⟩ := hruns σ
    have hrun : Runs p τ s s₁.release σ (.ok σ₁) := hrun
    refine ⟨σ₁, .of_runs hrun hspare.mem hspare.rbp hcode fun arrived σ' => ?_⟩
    rw [leaves_fork_iff hnext', hσ₁, holds_intCond, hlabel]
  · rw [hnone] at hpending
    cases hpending

end Branches

/-- A run of the stretch `lines` from a state arrives at the label that a block leads to, with memory
and the frame pointer as they were. -/
def Closes (last : Session) (p : Platform) (items after : List Item) (b : Ir.Block)
    (lines : List Item) (σ : State) : Prop :=
  ∃ l σ₁, exitLabel? last p σ b = some l ∧ σ₁.mem = σ.mem ∧ σ₁.gpr .rbp = σ.gpr .rbp ∧
    ∀ arrived σ', Leaves p items after lines σ arrived σ' ↔ seek l items = some arrived ∧ σ' = σ₁

section Closing

variable {s₁ s₂ : Session} {code tail : List Instr}

lemma closes_ret (hexit : b.term.exit = .ret)
    (h : Yields (returnValue b.term.value b.term.text) site s () s₁)
    (hcode : (s₁.pushAll (if next.isSome then [site.exit s₁] else [])).code.toList =
      s.code.toList ++ code)
    (htemps : s₁.temps.Grows last.temps) (hsymbol : last.symbol = s₁.symbol)
    (hret : next = none → seek last.epilogueLabel items = some after)
    (σ : State) : Closes last p items after b (boundLines last.temps code) σ := by
  have hlabel : s₁.epilogueLabel = last.epilogueLabel := by
    rw [Session.epilogueLabel, Session.epilogueLabel, hsymbol]
  have hjs : (if next.isSome then [site.exit s₁] else []) = [site.exit s₁] ∨
      (if next.isSome then [site.exit s₁] else []) = [] ∧
        seek s₁.epilogueLabel items = some after := by
    cases next with
    | none => exact .inr ⟨rfl, hlabel ▸ hret rfl⟩
    | some id => exact .inl rfl
  obtain ⟨f, -, hruns⟩ := leadsTo_ret (p := p) h hcode htemps hjs
  obtain ⟨σ₁, hleads, -⟩ := hruns σ
  exact ⟨s₁.epilogueLabel, σ₁, by rw [exitLabel?, hexit, hlabel], hleads.mem, hleads.rbp,
    hleads.leaves⟩

lemma closes_branch {onTrue onFalse : Nat} (hexit : b.term.exit = .branch onTrue onFalse)
    (hpending : s.pending = none) (hlast : b.instrs.getLast?.filter (fuses s · b.term) = none)
    (h : Yields (branch b.term.value onTrue onFalse next) site s () s₂)
    (hcode : s₂.code.toList = s.code.toList ++ code) (hs : s.Later last) (hlater : s₂.Later last)
    (hnodup : (last.values.map Prod.fst).Nodup)
    (hnext : ∀ id, next = some id → seek (last.blockLabel id) items = some after) (σ : State) :
    Closes last p items after b (boundLines last.temps code) σ := by
  have hnext' : ∀ id, next = some id → seek (s.blockLabel id) items = some after := by
    intro id hid
    rw [blockLabel_congr hs.symbol]
    exact hnext id hid
  by_cases heq : onTrue = onFalse
  · subst heq
    obtain ⟨-, rfl⟩ | ⟨condition, hne, -⟩ := branch_cases h
    · have hleads : LeadsTo p last.temps items after code σ (s.blockLabel onTrue) σ :=
        leadsTo_goto (s := s) hcode hnext'
      rw [blockLabel_congr hs.symbol] at hleads
      exact ⟨_, σ, by simp [exitLabel?, hexit], rfl, rfl, hleads.leaves⟩
    · exact absurd rfl hne
  · obtain ⟨condition, v, hvalue, hv, hleads⟩ :=
      leadsTo_branch (p := p) hpending heq h hcode hlater.temps hnext'
    obtain ⟨σ₁, hleads⟩ := hleads σ
    rw [blockLabel_congr hs.symbol] at hleads
    refine ⟨_, σ₁, ?_, hleads.mem, hleads.rbp, hleads.leaves⟩
    -- the word of the condition decides
    rw [exitLabel?, hexit]
    dsimp only
    rw [if_neg heq, outcome?, filter_fuses_congr hs.reads, hlast, hvalue]
    simp [source?_of_later hs hnodup hv]

lemma closes_fused {i : Ir.Instr} {op : BinaryOp} {x y : Ir.Operand}
    (hlast : b.instrs.getLast?.filter (fuses s₁.release · b.term) = some i)
    (hkind : i.kind = .binary op) (hops : i.operands = [x, y])
    (h : Yields (compare i op x y) (instrSite o i true) s () s₁)
    (he : Emits (instrSite o i true) s s₁ tail)
    (hleave : Yields (leave b.term next) site s₁.release () s₂)
    (hcode : s₂.code.toList = s₁.release.code.toList ++ code) (hs : s₁.release.Later last)
    (hlater : s₂.Later last) (hnodup : (last.values.map Prod.fst).Nodup)
    (hnext : ∀ id, next = some id → seek (last.blockLabel id) items = some after) (σ : State) :
    Closes last p items after b (boundLines last.temps (tail ++ code)) σ := by
  have hs₀ : s.Later last := he.later.trans ((later_release s₁).trans hs)
  obtain ⟨-, -, onTrue, onFalse, -, -, hexit, -, -, -, hne, -⟩ :=
    fuses_cases (Option.filter_eq_some_iff.mp hlast).2
  have hbranch : Yields (branch b.term.value onTrue onFalse next) site s₁.release () s₂ := by
    rw [leave, hexit] at hleave
    exact hleave
  have hcode' : s₂.code.toList = s.code.toList ++ (tail ++ code) := by
    rw [hcode, ← List.append_assoc, ← he.code]
    rfl
  obtain ⟨vx, vy, hvx, hvy, hleads⟩ :=
    leadsTo_fused (p := p) h rfl hne hbranch hcode' hlater.temps fun id hid => by
      rw [blockLabel_congr hs₀.symbol]
      exact hnext id hid
  obtain ⟨σ₁, hleads⟩ := hleads σ
  rw [blockLabel_congr hs₀.symbol] at hleads
  refine ⟨_, σ₁, ?_, hleads.mem, hleads.rbp, hleads.leaves⟩
  rw [exitLabel?, hexit]
  dsimp only
  rw [if_neg hne, outcome?, filter_fuses_congr hs.reads, hlast]
  simp [comparison?, hkind, hops, source?_of_later hs₀ hnodup hvx, source?_of_later hs₀ hnodup hvy]

end Closing

/-- The end of a block arrives at the label that the block leads to. -/
theorem closes_of_leave {s₂ : Session} {tail code : List Instr}
    (hend : Ending o b.term b.instrs s tail)
    (h : Yields (leave b.term next) (termSite o b.term) s () s₂)
    (hcode : s₂.code.toList = s.code.toList ++ code) (hlater : s₂.Later last)
    (hnodup : (last.values.map Prod.fst).Nodup) (hexit : b.term.exit ≠ .unreachable)
    (hnext : ∀ id, next = some id → seek (last.blockLabel id) items = some after)
    (hret : next = none → b.term.exit = .ret → seek last.epilogueLabel items = some after)
    (σ : State) : Closes last p items after b (boundLines last.temps (tail ++ code)) σ := by
  obtain ⟨js, hexits⟩ := exits_of_leave rfl h
  have hs := hexits.later.trans hlater
  cases hend with
  | plain hpending hlast =>
    rw [List.nil_append]
    obtain ⟨s₁, hx, hvalue, rfl⟩ | ⟨target, hx, rfl⟩ | ⟨onTrue, onFalse, hx, hbranch⟩ | ⟨hx, -⟩ :=
      leave_cases h
    · exact closes_ret hx hvalue hcode hlater.temps hlater.symbol (hret · hx) σ
    · have hleads := leadsTo_goto (p := p) (τ := last.temps) (σ := σ) hcode fun id hid => by
        rw [blockLabel_congr hs.symbol]
        exact hnext id hid
      rw [blockLabel_congr hs.symbol] at hleads
      exact ⟨_, σ, by rw [exitLabel?, hx], rfl, rfl, hleads.leaves⟩
    · exact closes_branch hx hpending hlast hbranch hcode hs hlater hnodup hnext σ
    · exact absurd hx hexit
  | fused hlast hkind hops hcompare he hs' =>
    subst hs'
    exact closes_fused hlast hkind hops hcompare he h hcode hs hlater hnodup hnext σ

end Jumps

end NativeCode.Compile
