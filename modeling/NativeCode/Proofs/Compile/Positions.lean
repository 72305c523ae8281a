import NativeCode.Proofs.Compile.Flow
import NativeCode.Proofs.Compile.Fusion
import NativeCode.Proofs.Compile.Operations
import NativeCode.Proofs.Compile.Preservation

/-!
# Positions in a function

The lines that follow a position in the middle of a block are those of the remaining instructions and
of the end of the block, and then those of the next block or of the epilogue. From a position the
lines of one instruction can be run, which leads to the next position of the block. The end of a block
leads to the first position of another block, and a return to the epilogue and out of the function.
-/

namespace NativeCode.Compile

open Abi NativeCode.Frame Machine Selection
open Selection (Session)

variable {o : Options} {f : Ir.Function} {start : Session} {c : Machine.Function} {b : Ir.Block}
  {i : Ir.Instr} {rest : List Ir.Instr} {next : Option Nat} {lines after : List Item} {p : Platform}
  {σ₀ σ σ' : State}

lemma boundLines_eq (τ : Temps) (is : List Instr) :
    boundLines τ is = (is.map .instr).map τ.boundItem := by
  rw [boundLines, List.map_map, List.map_map]
  rfl

lemma LowersBlocks.exists_label {bs : List Ir.Block} {s s' : Session} {items : List Item}
    (h : LowersBlocks o (b :: bs) s items s') : ∃ rest, items = .label (s.blockLabel b.id) :: rest := by
  cases h with
  | cons hb =>
    obtain ⟨s₁, s₂, body, code, -, -, -, -, rfl⟩ := hb.lowers
    exact ⟨_, rfl⟩

namespace Parts

/-- The code `code` was selected for `x` between two sessions of the function, and its lines are lines
of the function. -/
structure Selects (parts : Parts o f start c) (x : Emit Unit) (site : Site) (s : Session)
    (code : List Instr) (s' : Session) : Prop where
  yields : Yields x site s () s'
  appended : s'.code.toList = s.code.toList ++ code
  before : s.Later parts.last
  after : s'.Later parts.last
  lines : ∀ j ∈ code, BodyLine o.target parts.last (.instr j)

/-- The lines `after` follow the block `b`, which is emitted before the block `next`: they are those
of the next block, or those of the epilogue if there is no next block and `b` returns. -/
structure Follows (parts : Parts o f start c) (b : Ir.Block) (next : Option Nat)
    (after : List Item) : Prop where
  block : ∀ id, next = some id →
    seek (parts.last.blockLabel id) (Listing.functionItems c) = some after
  epilogue : next = none → b.term.exit = .ret →
    seek parts.last.epilogueLabel (Listing.functionItems c) = some after

/-- The lines from a position in the block `b` on, where the instructions `rest` remain. -/
inductive Remains (parts : Parts o f start c) (b : Ir.Block) : List Ir.Instr → List Item → Prop
  | intro {rest : List Ir.Instr} {s s₁ s₂ : Session} {next : Option Nat} {body after : List Item}
      {code : List Instr} (hinv : s.Inv o.target) (hpending : s.pending = none)
      (hlowers : Lowers o b.term rest s body s₁)
      (hleave : Yields (leave b.term next) (termSite o b.term) s₁ () s₂)
      (hexits : Exits (termSite o b.term) b.term s₁ s₂ code) (hlast : s₂.Later parts.last)
      (hfollows : parts.Follows b next after) :
      Remains parts b rest (body.map parts.last.temps.boundItem ++
        (boundLines parts.last.temps code ++ after))

variable (parts : Parts o f start c)

/-! ### First positions -/

lemma functionItems_eq_blocks :
    Listing.functionItems c =
      [.directive (".globl " ++ parts.last.symbol), .directive ".p2align 4",
        .label parts.last.symbol] ++ c.prologue.map .instr ++
      ((parts.blocks.flatMap blockItems).map parts.last.temps.boundItem ++ parts.tail) := by
  have hhoming : (parts.homing.map Item.instr).map parts.last.temps.boundItem =
      (parts.homing.map parts.last.temps.boundInstr).map .instr :=
    (boundLines_eq _ _).symm
  rw [parts.functionItems_eq, parts.prologue_eq, body, List.map_append, List.map_append, hhoming]
  simp only [List.append_assoc]

lemma seek_of_suffix (parts : Parts o f start c) {l : String} {found : List Item}
    (h : .label l :: found <:+ Listing.functionItems c) :
    seek l (Listing.functionItems c) = some (.label l :: found) := by
  have hnodup := parts.nodup_labels
  obtain ⟨front, hitems⟩ := h
  rw [← hitems] at hnodup ⊢
  exact seek_of_nodup hnodup

lemma tail_eq (h : parts.last.returns = true) :
    parts.tail = .label parts.last.epilogueLabel :: parts.frame.epilogue.map .instr := by
  rw [tail, if_pos h]

lemma seek_epilogue (h : parts.last.returns = true) :
    seek parts.last.epilogueLabel (Listing.functionItems c) = some parts.tail := by
  have hsuffix : parts.tail <:+ Listing.functionItems c := by
    rw [parts.functionItems_eq_blocks]
    exact (List.suffix_append _ _).trans (List.suffix_append _ _)
  rw [parts.tail_eq h] at hsuffix ⊢
  exact parts.seek_of_suffix hsuffix

/-- The first position of a block stands behind its label. -/
theorem exists_remains (hb : b ∈ parts.order) :
    ∃ lines, seek (parts.last.blockLabel b.id) (Listing.functionItems c) =
        some (.label (parts.last.blockLabel b.id) :: lines) ∧ parts.Remains b b.instrs lines := by
  have hpending : ({ parts.homed with reads := f.reads } : Session).pending = none :=
    parts.pending_homed
  have hinv : ({ parts.homed with reads := f.reads } : Session).Inv o.target :=
    { parts.inv_homed with }
  obtain ⟨before, behind, horder⟩ := List.append_of_mem hb
  have hlowers := parts.lowers
  rw [horder] at hlowers
  obtain ⟨s, s', items₁, lines, items₂, hgrown, -, hs, hblock, hbehind, hitems⟩ :=
    hlowers.exists_split hpending
  obtain ⟨s₁, s₂, body, code, hbody, hleave, hexits, rfl, rfl⟩ := hblock.lowers
  have hcut : s₂.cut.Later parts.last := hbehind.grown.later
  have hs₂ : s₂.Later parts.last := (later_cut s₂).trans hcut
  have hlast : s.Later parts.last := (hbody.grown.later.trans hexits.later).trans hs₂
  have hsuffix : .label (parts.last.blockLabel b.id) :: (body.map parts.last.temps.boundItem ++
      (boundLines parts.last.temps code ++
        (items₂.map parts.last.temps.boundItem ++ parts.tail))) <:+ Listing.functionItems c := by
    refine ⟨[.directive (".globl " ++ parts.last.symbol), .directive ".p2align 4",
      .label parts.last.symbol] ++ c.prologue.map .instr ++
        items₁.map parts.last.temps.boundItem, ?_⟩
    rw [parts.functionItems_eq_blocks, hitems, ← blockLabel_congr hlast.symbol, boundLines_eq]
    simp [Temps.boundItem]
  refine ⟨_, parts.seek_of_suffix hsuffix, .intro (hgrown.inv hinv) hs hbody hleave hexits hs₂
    ⟨fun id hid => ?_, fun hnone hret => ?_⟩⟩
  · -- what follows the block starts with the next label
    cases behind with
    | nil => cases hid
    | cons b' bs =>
      cases hid
      obtain ⟨rest, rfl⟩ := hbehind.exists_label
      rw [← blockLabel_congr hcut.symbol]
      exact parts.seek_of_suffix ((List.suffix_append _ _).trans ((List.suffix_append _ _).trans
        ((List.suffix_cons _ _).trans hsuffix)))
  · cases behind with
    | cons b' bs => cases hnone
    | nil =>
      obtain rfl : items₂ = [] := by
        generalize parts.last = last at hbehind
        cases hbehind
        rfl
      exact parts.seek_epilogue (parts.returns_iff.mpr ⟨b, hb, by simp [Ir.Block.returns, hret]⟩)

/-! ### What stands at a position -/

variable {parts}

/-- The code of an instruction that is not fused into a branch. Unless it returns, the rest of the
block follows. -/
theorem Remains.exists_instr (h : parts.Remains b (i :: rest) lines)
    (hplain : rest = [] → fuses parts.last i b.term = false) :
    ∃ s code s₁ after, parts.Selects (instrCode i) (instrSite o i false) s code s₁ ∧
      lines = boundLines parts.last.temps code ++ after ∧
      (i.kind ≠ .ret → parts.Remains b rest after) := by
  obtain @⟨s, s', s₂, next, body, after, code, hinv, hpending, hlowers, hleave, hexits, hlast,
    hfollows⟩ := h
  have hs' : s'.Later parts.last := hexits.later.trans hlast
  have hlines : ∀ item ∈ body, BodyLine o.target parts.last item := fun item hitem =>
    (hlowers.grown.lines hinv item hitem).mono hs'
  have hs : s.Later parts.last := hlowers.grown.later.trans hs'
  cases hlowers with
  | @step _ _ _ s₁ _ front items hkind hi he hrest =>
    have hfused : (rest.isEmpty && fuses s i b.term) = false := by
      rw [Bool.and_eq_false_imp, List.isEmpty_iff, ← fuses_congr hs.reads]
      exact hplain
    rw [hfused] at hi he
    have hs₁ : s₁.Later parts.last := (later_release s₁).trans (hrest.grown.later.trans hs')
    have hinv₁ : s₁.release.Inv o.target := { he.inv hinv with }
    have hpending₁ : s₁.release.pending = none := (he.pending rfl).trans hpending
    refine ⟨s, front, s₁, _, ⟨hi, he.code, hs, hs₁, fun j hj => hlines _ ?_⟩, ?_, fun _ =>
      .intro hinv₁ hpending₁ hrest hleave hexits hlast hfollows⟩
    · exact List.mem_append_left _ (List.mem_map_of_mem hj)
    · rw [boundLines_eq _ front, List.map_append, List.append_assoc]
  | @ret _ _ _ s₁ _ front items hkind hi _ he hrest =>
    have hs₁ : (s₁.push ((instrSite o i false).exit s₁)).Later parts.last := by
      have hl := (later_resume s₁).trans (hrest.grown.later.trans hs')
      exact { hl with }
    refine ⟨s, front ++ [(instrSite o i false).exit s₁], _, .label s₁.contLabel ::
      (items.map parts.last.temps.boundItem ++ (boundLines parts.last.temps code ++ after)),
      ⟨hi, ?_, hs, hs₁, fun j hj => hlines _ ?_⟩, ?_, fun hne => absurd hkind hne⟩
    · simp [Session.push, he.code]
    · rcases List.mem_append.mp hj with hj | hj
      · exact List.mem_append_left _ (List.mem_map_of_mem hj)
      · rw [List.mem_singleton.mp hj]
        exact List.mem_append_right _ List.mem_cons_self
    · rw [boundLines_append, boundLines_eq _ front]
      simp [boundLines, Temps.boundItem]

/-- The code of the end of a block, where no flags are wanted. -/
theorem Remains.exists_end (h : parts.Remains b [] lines) :
    ∃ s code s₁ next after, s.pending = none ∧
      parts.Selects (leave b.term next) (termSite o b.term) s code s₁ ∧
      parts.Follows b next after ∧ lines = boundLines parts.last.temps code ++ after := by
  obtain @⟨s, s', s₂, next, body, after, code, hinv, hpending, hlowers, hleave, hexits, hlast,
    hfollows⟩ := h
  cases hlowers
  refine ⟨s, code, s₂, next, after, hpending, ⟨hleave, hexits.code, hexits.later.trans hlast, hlast,
    fun j hj => ?_⟩, hfollows, rfl⟩
  exact ((Grown.of_exits hexits).lines hinv _ (List.mem_map_of_mem hj)).mono hlast

/-- The code of a comparison that is fused into the branch after it, and of the branch. -/
theorem Remains.exists_fused (h : parts.Remains b [i] lines)
    (hfuses : fuses parts.last i b.term = true) :
    ∃ s code s₁ next after, SelectsEnd o true i b.term next s code s₁ ∧ s.Later parts.last ∧
      s₁.Later parts.last ∧ (∀ j ∈ code, BodyLine o.target parts.last (.instr j)) ∧
      parts.Follows b next after ∧ lines = boundLines parts.last.temps code ++ after := by
  obtain @⟨s, s', s₂, next, body, after, code, hinv, hpending, hlowers, hleave, hexits, hlast,
    hfollows⟩ := h
  have hs' : s'.Later parts.last := hexits.later.trans hlast
  have hinv' : s'.Inv o.target := hlowers.grown.inv hinv
  have hs : s.Later parts.last := hlowers.grown.later.trans hs'
  have hbody : ∀ item ∈ body, BodyLine o.target parts.last item := fun item hitem =>
    (hlowers.grown.lines hinv item hitem).mono hs'
  have hcode : ∀ item ∈ code.map Item.instr, BodyLine o.target parts.last item := fun item hitem =>
    ((Grown.of_exits hexits).lines hinv' item hitem).mono hlast
  cases hlowers with
  | ret hkind =>
    rw [fuses_of_ret hkind] at hfuses
    cases hfuses
  | @step _ _ _ s₁ _ front items hkind hi he hrest =>
    cases hrest
    rw [List.isEmpty_nil, Bool.true_and, ← fuses_congr hs.reads, hfuses] at hi he
    refine ⟨s, front ++ code, s₂, next, after, ⟨s₁, hi, hleave, ?_⟩, hs, hlast, fun j hj => ?_,
      hfollows, ?_⟩
    · rw [hexits.code, show s₁.release.code.toList = _ from he.code, List.append_assoc]
    · rcases List.mem_append.mp hj with hj | hj
      · exact hbody _ (List.mem_append_left _ (List.mem_map_of_mem hj))
      · exact hcode _ (List.mem_map_of_mem hj)
    · rw [boundLines_append, List.append_nil, ← boundLines_eq, List.append_assoc]

/-! ### Moving on -/

/-- Straight code among the lines of a function keeps the registers that it has to keep. -/
theorem steady_of_execAll {is : List Instr}
    (his : ∀ j ∈ is, BodyLine o.target parts.last (.instr j))
    (h : execAll p (is.map parts.last.temps.boundInstr) σ = .ok σ') :
    Steady o.target parts.frame σ σ' := by
  induction is generalizing σ with
  | nil =>
    obtain rfl : σ = σ' := by simpa using h
    exact .refl _ _ σ
  | cons j js ih =>
    obtain ⟨σ₁, hj, hjs⟩ := execAll_cons_eq_ok h
    refine Steady.trans ?_ (ih (fun k hk => his k (List.mem_cons_of_mem _ hk)) hjs)
    cases his j List.mem_cons_self with
    | tame htame => exact steady_of_exec parts htame hj
    | jump l hjump =>
      have hcontrol := isControl_of_exec hj
      rw [Temps.boundInstr_op] at hcontrol
      rcases hjump.op with hop | ⟨cond, hop⟩ <;> (rw [hop] at hcontrol; cases hcontrol)
    | trap hop =>
      rw [exec, Temps.boundInstr_op, hop] at hj
      cases hj

lemma WritesAt.inFrame {id : Nat} (h : parts.WritesAt id σ σ')
    (hsteady : Steady o.target parts.frame σ σ') (hin : InFrame o.target parts.frame σ₀ σ) :
    InFrame o.target parts.frame σ₀ σ' := by
  refine hsteady.inFrame hin ?_
  obtain hmem | ⟨r, n, w, hr, hplace, hn, hmem⟩ := h.mem
  · intro e _
    rw [hmem]
  · obtain ⟨hlow, hhigh⟩ := parts.inv.slots (id, r) hr hplace
    rw [hmem]
    exact load_store_saved (p := default) parts hin w hn (.slot hlow hhigh) State.place_offset rfl

lemma inFrame_of_leadsTo {code : List Instr} {l : String}
    (hcode : ∀ j ∈ code, BodyLine o.target parts.last (.instr j))
    (hin : InFrame o.target parts.frame σ₀ σ)
    (h : LeadsTo p parts.last.temps (Listing.functionItems c) after code σ l σ') :
    InFrame o.target parts.frame σ₀ σ' := by
  obtain ⟨front, jumps, rfl, hexec⟩ := h.straight
  have hsteady : Steady o.target parts.frame σ σ' :=
    steady_of_execAll (fun j hj => hcode j (List.mem_append_left _ hj)) hexec
  exact hsteady.inFrame hin fun e _ => by rw [h.mem]

/-- The epilogue leads back to the caller, with `%rax` as it is. -/
theorem exists_returned (hreturns : parts.last.returns = true)
    (hin : InFrame o.target parts.frame σ₀ σ) :
    ∃ a σ', Reaches p (Listing.functionItems c) (.at parts.tail σ) (.returned a σ') ∧
      Kept o.target σ₀ a σ' ∧ σ'.gpr .rax = σ.gpr .rax := by
  obtain ⟨σ₁, hexec, hrestored, hgpr, -⟩ := exists_restored_of_epilogue (p := p) (c := o.convention)
    parts.moderate parts.keeps_saved hin
  refine ⟨_, _, ?_, kept_of_restored hrestored, ?_⟩
  · rw [parts.tail_eq hreturns, Layout.epilogue_eq, List.map_append]
    exact .head (.next rfl) ((Reaches.of_execAll hexec).trans (.single (.next rfl)))
  · have hrax : o.convention.target.Scratch (.gpr .rax) := scratch_of_mem (by simp)
    rw [State.setGpr_gpr_of_ne _ _ (by decide)]
    exact hgpr .rax hrax.1 (by decide)

lemma exists_returned_of_leadsTo {code : List Instr} (hreturns : parts.last.returns = true)
    (hcode : ∀ j ∈ code, BodyLine o.target parts.last (.instr j))
    (hin : InFrame o.target parts.frame σ₀ σ)
    (h : LeadsTo p parts.last.temps (Listing.functionItems c) after code σ
      parts.last.epilogueLabel σ') :
    ∃ a σ'', Reaches p (Listing.functionItems c)
        (.at (boundLines parts.last.temps code ++ after) σ) (.returned a σ'') ∧
      Kept o.target σ₀ a σ'' ∧ σ''.gpr .rax = σ'.gpr .rax := by
  obtain ⟨a, σ'', hreaches, hkept⟩ :=
    exists_returned (p := p) hreturns (inFrame_of_leadsTo hcode hin h)
  exact ⟨a, σ'', ((h.leaves _ _).mpr ⟨parts.seek_epilogue hreturns, rfl⟩).reaches.trans hreaches,
    hkept⟩

lemma exists_block (hf : WellFormed.Sound f) (hb : b ∈ parts.order) {id : Nat}
    (hid : id ∈ b.term.successors) : ∃ b' ∈ parts.order, f.block? id = some b' ∧ b'.id = id := by
  obtain ⟨b', hb', rfl⟩ := List.mem_map.mp (parts.ordered_order.closed b hb id hid)
  refine ⟨b', hb', ?_, rfl⟩
  have hfind : (f.blocks.find? (·.id == b'.id)).isSome = true :=
    List.find?_isSome.mpr ⟨b', parts.ordered_order.mem b' hb', by simp⟩
  obtain ⟨b'', hb''⟩ := Option.isSome_iff_exists.mp hfind
  have hmem := List.mem_of_find?_eq_some hb''
  have hid : b''.id = b'.id := by simpa using List.find?_some hb''
  rw [Ir.Function.block?, hb'', List.inj_on_of_nodup_map hf.ids hmem
    (parts.ordered_order.mem b' hb') hid]

lemma exists_steps_of_leadsTo {code : List Instr} (hb : b ∈ parts.order)
    (h : LeadsTo p parts.last.temps (Listing.functionItems c) after code σ
      (parts.last.blockLabel b.id) σ') :
    ∃ n lines, Steps p (Listing.functionItems c) (n + 1)
        (.at (boundLines parts.last.temps code ++ after) σ) (.at lines σ') ∧
      parts.Remains b b.instrs lines := by
  obtain ⟨lines, hseek, hremains⟩ := parts.exists_remains hb
  obtain ⟨n, hsteps⟩ := ((h.leaves _ _).mpr ⟨hseek, rfl⟩).reaches
  exact ⟨n, lines, hsteps.trans (.single (.next rfl)), hremains⟩

variable (parts)

end Parts

end NativeCode.Compile
