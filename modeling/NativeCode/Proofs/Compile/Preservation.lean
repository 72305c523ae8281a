import NativeCode.Proofs.Compile.Program

/-!
# What a function keeps for its caller

A function that is called with an aligned stack comes back with the stack pointer above the return
address, at the return address, and with every register that a callee has to keep as it was. On the
way the stack is aligned at every call.

Two things come from outside: the functions that are called keep what a callee has to keep, and
neither they nor stores through pointers write where the function has saved something.
-/

namespace NativeCode.Machine

open Abi

/-- Called functions keep the stack pointer and the registers that a callee has to keep. -/
structure Platform.Honors (p : Platform) (t : Target) : Prop where
  rsp : ∀ f σ σ', p.callee f σ σ' → σ'.gpr .rsp = σ.gpr .rsp
  gpr : ∀ f σ σ', p.callee f σ σ' → ∀ g, t.keeps (.gpr g) = true → σ'.gpr g = σ.gpr g
  xmm : ∀ f σ σ', p.callee f σ σ' → ∀ x, t.keeps (.xmm x) = true → σ'.xmm x = σ.xmm x

def pushList (is : List Instr) : List PhysReg :=
  is.filterMap fun i => if i.op = .push then i.operands.head?.bind Operand.phys? else none

/-- Where code that starts with the stack pointer at `d` pushes words. -/
def pushSlots (d : Int) : List Instr → List Int
  | [] => []
  | i :: is =>
    match i.op, i.operands with
    | .push, _ => (d - 8) :: pushSlots (d - 8) is
    | .alu .sub, [.imm v, .reg ⟨.phys (.gpr .rsp), .quad⟩] => pushSlots (d - v.toInt) is
    | _, _ => pushSlots d is

/-- Where the return address and the words that the prologue pushes lie, from the stack pointer at
the entry on. -/
def savedSlots (f : Function) : List Int := 0 :: pushSlots 0 f.prologue

/-- Memory that is found through a pointer or a symbol, and not from the stack or frame pointer. -/
def Operand.viaPointer : Operand → Bool
  | .mem m => m.base ≠ .ofGpr .rbp && m.base ≠ .ofGpr .rsp
  | .rip _ => true
  | _ => false

/-- Whether an instruction stores through a pointer or a symbol. -/
def Instr.viaPointer (i : Instr) : Bool := i.dst?.any Operand.viaPointer

/-- A step that leaves the words at some slots alone if it stores through a pointer or is a call. -/
def Spares (base : Word) (slots : List Int) : Config → Config → Prop
  | .at (.instr i :: _) σ, .at _ σ' =>
    (i.op = .call ∨ i.viaPointer = true) →
      ∀ d ∈ slots, σ'.mem.load (addr base d) 8 = σ.mem.load (addr base d) 8
  | _, _ => True

end NativeCode.Machine

namespace NativeCode.Compile

open Abi NativeCode.Frame Machine Selection

variable {o : Options} {f : Ir.Function} {start : Session} {c : Machine.Function} {l : Layout}
  {i : Instr} {rest : List Item} {cfg d : Config} {p : Platform} {σ₀ σ σ' : State}
  (parts : Parts o f start c)

/-! ### Straight code in the frame -/

lemma savedSlot_cases {e : Int} (he : e ∈ parts.frame.savedSlots) :
    -8 ≤ e ∧ e ≤ 0 ∨
      -8 - parts.frame.adjust - 8 * parts.frame.saved.length ≤ e ∧
        e + 8 ≤ -8 - parts.last.frame.locals := by
  simp only [Layout.savedSlots, List.mem_cons, List.mem_map, List.mem_range] at he
  rcases he with rfl | rfl | ⟨k, hk, rfl⟩
  · left; omega
  · left; omega
  · right
    have hlocals : parts.last.frame.locals ≤ parts.frame.adjust := by
      rcases parts.sound.locals with h | ⟨h, -⟩
      · exact h
      · rw [parts.sound.pushes, h] at hk
        cases hk
    simp only [Layout.pushSlot]
    omega

lemma load_store_saved (hin : InFrame o.target parts.frame σ₀ σ) {dst : Operand} {a : Word}
    {n : Nat} (v : Word) (hn : n ≤ 8) (hdst : MayWrite o.target parts.last dst)
    (ha : σ.place p (parts.last.temps.boundOperand dst) = .ok a)
    (hptr : (parts.last.temps.boundOperand dst).viaPointer = false) :
    ∀ e ∈ parts.frame.savedSlots,
      (σ.mem.store a n v).load (addr (σ₀.gpr .rsp) e) 8 = σ.mem.load (addr (σ₀.gpr .rsp) e) 8 := by
  intro e he
  have hslot := savedSlot_cases parts he
  have hm := parts.moderate
  obtain ⟨gs, hgs, -, -, -, hlen⟩ := hm.pushes
  have hlength : parts.frame.saved.length ≤ 16 := by rw [hgs, List.length_map]; exact hlen
  have hadj := hm.adjust
  have hout := hm.outgoing
  have hlocals := parts.inv.locals
  have houtgoing := parts.sound.outgoing_ge
  cases hdst with
  | reg h => cases ha
  | @slot d h h' =>
    have ha' : a = addr (σ₀.gpr .rsp) (-8 + d) := by
      rw [← addr_addr, ← hin.rbp]
      exact (Except.ok.inj ha).symm
    rw [ha']
    refine Memory.load_store_apart _ _ v ?_
    rcases hslot with h | h
    · left; omega
    · right; omega
  | @outgoing d h h' =>
    have ha' : a = addr (σ₀.gpr .rsp) (-parts.frame.depth + d) := by
      rw [← addr_addr, ← hin.rsp]
      exact (Except.ok.inj ha).symm
    rw [ha']
    refine Memory.load_store_apart _ _ v ?_
    left
    simp only [Layout.depth]
    rcases hslot with h | h <;> omega
  | @pointer id cls h =>
    have hget : parts.last.temps.regs[id]? = some parts.last.temps.regs[id] :=
      Array.getElem?_eq_getElem h
    obtain ⟨hrsp, hrbp, -⟩ := pool_of_temp parts.inv hget
    simp [Temps.boundOperand, Temps.boundReg_temp hget, Operand.viaPointer, hrsp, hrbp] at hptr
  | symbol asm => cases hptr

/-- What straight code keeps of the registers: stack pointer and frame pointer, and what a function
has to keep and has not saved. -/
structure Steady (t : Target) (l : Layout) (σ σ' : State) : Prop where
  rbp : σ'.gpr .rbp = σ.gpr .rbp
  rsp : σ'.gpr .rsp = σ.gpr .rsp
  gpr : ∀ g, t.keeps (.gpr g) = true → g ≠ .rbp → .gpr g ∉ l.saved → σ'.gpr g = σ.gpr g
  xmm : ∀ x, t.keeps (.xmm x) = true → σ'.xmm x = σ.xmm x

lemma Steady.refl (t : Target) (l : Layout) (σ : State) : Steady t l σ σ :=
  ⟨rfl, rfl, fun _ _ _ _ => rfl, fun _ _ => rfl⟩

lemma Steady.trans {t : Target} {σ σ' σ'' : State} (h : Steady t l σ σ')
    (h' : Steady t l σ' σ'') : Steady t l σ σ'' where
  rbp := h'.rbp.trans h.rbp
  rsp := h'.rsp.trans h.rsp
  gpr g hg hne hsaved := (h'.gpr g hg hne hsaved).trans (h.gpr g hg hne hsaved)
  xmm x hx := (h'.xmm x hx).trans (h.xmm x hx)

lemma Steady.inFrame {t : Target} (h : Steady t l σ σ') (hin : InFrame t l σ₀ σ)
    (hmem : ∀ e ∈ l.savedSlots,
      σ'.mem.load (addr (σ₀.gpr .rsp) e) 8 = σ.mem.load (addr (σ₀.gpr .rsp) e) 8) :
    InFrame t l σ₀ σ' :=
  hin.keep h.rbp h.rsp hmem h.gpr h.xmm

lemma steady_of_exec (htame : Tame o.target parts.last i)
    (hexec : exec p (parts.last.temps.boundInstr i) σ = .ok σ') :
    Steady o.target parts.frame σ σ' := by
  have hwritten := written_of_tame parts.inv htame
  cases htame with
  | call g hop hargs =>
    rw [exec, Temps.boundInstr_op, hop] at hexec
    cases hexec
  | plain hop hdst =>
    have hchanges := changes_of_exec (i := parts.last.temps.boundInstr i) hop hexec
    refine ⟨?_, ?_, ?_, ?_⟩
    · exact hchanges.gpr _ fun h => (hwritten _ h).2.1 rfl
    · exact hchanges.gpr _ fun h => (hwritten _ h).1 rfl
    · intro g hg _ hsaved
      refine hchanges.gpr g fun h => hsaved ?_
      rw [parts.sound.pushes]
      exact (hwritten _ h).2.2 hg
    · intro x hx
      refine hchanges.xmm x fun h => ?_
      obtain ⟨gs, hgs, -⟩ := parts.moderate.pushes
      have hmem := (hwritten _ h).2.2 hx
      rw [← parts.sound.pushes, hgs] at hmem
      simp at hmem

lemma inFrame_of_exec (hin : InFrame o.target parts.frame σ₀ σ) (htame : Tame o.target parts.last i)
    (hexec : exec p (parts.last.temps.boundInstr i) σ = .ok σ')
    (hspares : (parts.last.temps.boundInstr i).viaPointer = true →
      ∀ e ∈ parts.frame.savedSlots,
        σ'.mem.load (addr (σ₀.gpr .rsp) e) 8 = σ.mem.load (addr (σ₀.gpr .rsp) e) 8) :
    InFrame o.target parts.frame σ₀ σ' := by
  refine (steady_of_exec parts htame hexec).inFrame hin ?_
  cases hptr : (parts.last.temps.boundInstr i).viaPointer with
  | true => exact hspares hptr
  | false =>
    cases htame with
    | call g hop hargs =>
      rw [exec, Temps.boundInstr_op, hop] at hexec
      cases hexec
    | plain hop hdst =>
      have hchanges := changes_of_exec (i := parts.last.temps.boundInstr i) hop hexec
      rcases hchanges.mem with hmem | ⟨dst, a, n, v, hd, ha, hn, hmem⟩
      · intro e _
        rw [hmem]
      · rw [dst?_bound, Option.map_eq_some_iff] at hd
        obtain ⟨d, hd, rfl⟩ := hd
        rw [hmem]
        refine load_store_saved parts hin v hn (hdst d hd) ha ?_
        simpa [Instr.viaPointer, dst?_bound, hd] using hptr

lemma inFrame_of_callee {g : String}
    (hp : p.Honors o.target) (hin : InFrame o.target l σ₀ σ) (hcallee : p.callee g σ σ')
    (hspares : ∀ e ∈ l.savedSlots,
      σ'.mem.load (addr (σ₀.gpr .rsp) e) 8 = σ.mem.load (addr (σ₀.gpr .rsp) e) 8) :
    InFrame o.target l σ₀ σ' :=
  hin.keep (hp.gpr g σ σ' hcallee .rbp (keeps_rbp o.convention)) (hp.rsp g σ σ' hcallee) hspares
    (fun r hr _ _ => hp.gpr g σ σ' hcallee r hr) (hp.xmm g σ σ' hcallee)

/-! ### Pushed words -/

lemma pushSlots_push (d : Int) (rs : List PhysReg) (js : List Instr) (k : Nat)
    (hk : k < rs.length) : d - 8 * (k + 1) ∈ pushSlots d (rs.map pushInstr ++ js) := by
  induction rs generalizing d k with
  | nil => cases hk
  | cons r rs ih =>
    rw [List.map_cons, List.cons_append]
    change _ ∈ (d - 8) :: pushSlots (d - 8) _
    cases k with
    | zero => simp
    | succ k =>
      refine List.mem_cons_of_mem _ ?_
      have h := ih (d - 8) k (by simpa using hk)
      rwa [show d - 8 * (((k + 1 : Nat) : Int) + 1) = d - 8 - 8 * ((k : Int) + 1) by push_cast; ring]

lemma savedSlots_subset_prologue (hl : l.Moderate) (is : List Instr) :
    l.savedSlots ⊆ 0 :: pushSlots 0 (l.prologue ++ is) := by
  obtain ⟨hadj, hadj'⟩ := hl.adjust
  have hmove : ∀ js, pushSlots (-8)
      ((if 0 < l.adjust then [Layout.moveStack .sub l.adjust "locals"] else []) ++ js) =
        pushSlots (-(8 + l.adjust)) js := by
    intro js
    have hint : (BitVec.ofInt 64 l.adjust).toInt = l.adjust :=
      BitVec.toInt_ofInt_eq_self (by decide) (by omega) (by omega)
    split_ifs with h
    · change pushSlots (-8 - (BitVec.ofInt 64 l.adjust).toInt) js = _
      rw [hint]
      congr 1
      ring
    · obtain h : l.adjust = 0 := by omega
      rw [h]
      rfl
  have hpushed : pushSlots 0 (l.prologue ++ is) = -8 :: pushSlots (-(8 + l.adjust))
      (l.saved.map pushInstr ++
        ((if 0 < l.outgoing then [Layout.moveStack .sub l.outgoing l.outgoingComment] else []) ++
          is)) := by
    rw [Layout.prologue_eq, ← hmove]
    simp only [List.append_assoc]
    rfl
  intro e he
  simp only [Layout.savedSlots, List.mem_cons, List.mem_map, List.mem_range] at he
  rw [hpushed]
  rcases he with rfl | rfl | ⟨k, hk, rfl⟩
  · exact List.mem_cons_self
  · exact List.mem_cons_of_mem _ List.mem_cons_self
  · refine List.mem_cons_of_mem _ (List.mem_cons_of_mem _ ?_)
    exact pushSlots_push _ _ _ k hk

lemma savedSlots_subset : parts.frame.savedSlots ⊆ savedSlots c := by
  rw [savedSlots, parts.prologue_eq]
  exact savedSlots_subset_prologue parts.moderate _

/-! ### Runs of a function -/

/-- What a function has kept when it returns to `a` with the state `σ`. -/
structure Kept (t : Target) (σ₀ : State) (a : Word) (σ : State) : Prop where
  address : a = σ₀.mem.load (σ₀.gpr .rsp) 8
  rsp : σ.gpr .rsp = addr (σ₀.gpr .rsp) 8
  gpr : ∀ g, t.keeps (.gpr g) = true → σ.gpr g = σ₀.gpr g
  xmm : ∀ x, t.keeps (.xmm x) = true → σ.xmm x = σ₀.xmm x

lemma kept_of_restored (h : Restored o.target σ₀ σ) :
    Kept o.target σ₀ (σ.mem.load (σ.gpr .rsp) 8) (σ.setGpr .rsp (addr (σ.gpr .rsp) 8)) := by
  refine ⟨h.returnAddress, ?_, fun g hg => ?_, h.xmm⟩
  · rw [State.setGpr_gpr, h.rsp]
  · have hne : g ≠ .rsp := fun e => by
      rw [e, show o.target = o.convention.target from rfl, keeps_rsp] at hg
      cases hg
    rw [State.setGpr_gpr_of_ne _ _ hne]
    exact h.gpr g hg

/-- The points of a run of a function that was entered with the state `σ₀`. -/
inductive Phase (parts : Parts o f start c) (p : Platform) (σ₀ : State) : Config → Prop
  | entry : Phase parts p σ₀ (.at (.label parts.last.symbol ::
      (parts.frame.prologue.map .instr ++ (parts.body ++ parts.tail))) σ₀)
  | setup {done todo : List Instr} {σ : State} (h : parts.frame.prologue = done ++ todo)
      (hexec : execAll p done σ₀ = .ok σ) :
      Phase parts p σ₀ (.at (todo.map .instr ++ (parts.body ++ parts.tail)) σ)
  | body {rest : List Item} {σ : State} (h : rest <:+ parts.body)
      (hin : InFrame o.target parts.frame σ₀ σ) : Phase parts p σ₀ (.at (rest ++ parts.tail) σ)
  | teardown {done todo : List Instr} {σ₁ σ : State} (h : parts.frame.teardown = done ++ todo)
      (hin : InFrame o.target parts.frame σ₀ σ₁) (hexec : execAll p done σ₁ = .ok σ) :
      Phase parts p σ₀ (.at (todo.map .instr ++ [.instr { op := .ret }]) σ)
  | returned {a : Word} {σ : State} (h : Kept o.target σ₀ a σ) : Phase parts p σ₀ (.returned a σ)
  | faulted (e : Fault) (σ : State) : Phase parts p σ₀ (.faulted e σ)

lemma exec_of_execAll {is done todo : List Instr} {σ₁ : State}
    (h : is = done ++ i :: todo) (hall : execAll p is σ₀ = .ok σ₁)
    (hdone : execAll p done σ₀ = .ok σ) :
    ∃ σ', exec p i σ = .ok σ' ∧ execAll p (done ++ [i]) σ₀ = .ok σ' := by
  rw [h, execAll_append_ok hdone] at hall
  obtain ⟨σ', hi, -⟩ := execAll_cons_eq_ok hall
  exact ⟨σ', hi, by rw [execAll_append_ok hdone, execAll_cons_ok hi, execAll_nil]⟩

lemma eq_of_step_exec {items : List Item} (hexec : exec p i σ = .ok σ')
    (hstep : Step p items (.at (.instr i :: rest) σ) d) : d = .at rest σ' := by
  cases hstep with
  | next h => rw [next_of_exec hexec] at h; exact (Option.some.inj h).symm
  | call hop _ _ => exact absurd (isControl_of_exec hexec) (by rw [hop]; decide)

lemma exists_of_seek_local {l : Local} {found : List Item}
    (h : seek (localLabel parts.last.symbol l) (Listing.functionItems c) = some found) :
    ∃ rest, rest <:+ parts.body ∧ found = rest ++ parts.tail := by
  have hname := (localLabel_ne_symbol parts.last.symbol l).symm
  have hhead : seek (localLabel parts.last.symbol l)
      [.directive (".globl " ++ parts.last.symbol), .directive ".p2align 4",
        .label parts.last.symbol] = none := by
    simp [seek, hname]
  rw [parts.functionItems_eq, seek_append, hhead, Option.map_none, Option.none_or, seek_append,
    seek_map_instr, Option.map_none, Option.none_or, seek_append] at h
  cases hbody : seek (localLabel parts.last.symbol l) parts.body with
  | some rest =>
    rw [hbody] at h
    obtain ⟨before, -, -, heq⟩ := exists_of_seek hbody
    exact ⟨rest, ⟨before, heq.symm⟩, (Option.some.inj h).symm⟩
  | none =>
    rw [hbody, Option.map_none, Option.none_or, Parts.tail] at h
    refine ⟨[], List.nil_suffix, ?_⟩
    rw [List.nil_append, Parts.tail]
    split_ifs at h ⊢ with hreturns
    · rw [seek] at h
      split_ifs at h
      · exact (Option.some.inj h).symm
      · rw [seek_map_instr] at h
        cases h
    · cases h

lemma phase_of_step_body (hp : p.Honors o.target) {item : Item}
    (hsuffix : item :: rest <:+ parts.body) (hin : InFrame o.target parts.frame σ₀ σ)
    (hstep : Step p (Listing.functionItems c) (.at (item :: (rest ++ parts.tail)) σ) d)
    (hspares : Spares (σ₀.gpr .rsp) (savedSlots c) (.at (item :: (rest ++ parts.tail)) σ) d) :
    Phase parts p σ₀ d := by
  have hrest : rest <:+ parts.body := (List.suffix_cons item rest).trans hsuffix
  have hslots := savedSlots_subset parts
  obtain ⟨line, hline, rfl⟩ := parts.exists_bodyLine (hsuffix.subset List.mem_cons_self)
  have hjump {i : Instr} (l : Local) (hi : Jumps i (localLabel parts.last.symbol l))
      (h : jump (Listing.functionItems c) (parts.last.temps.boundInstr i) σ = some d) :
      Phase parts p σ₀ d := by
    rw [jump, Instr.target?, Temps.boundInstr_operands, hi.operands] at h
    obtain ⟨found, hfound, rfl⟩ := Option.map_eq_some_iff.mp h
    obtain ⟨rest', hrest', rfl⟩ := exists_of_seek_local parts hfound
    exact .body hrest' hin
  cases hline with
  | label l =>
    cases hstep with
    | next h =>
      cases h
      exact .body hrest hin
  | @trap i h =>
    cases hstep with
    | call hop _ _ => rw [Temps.boundInstr_op, h] at hop; cases hop
    | next h' =>
      have hcontrol : (parts.last.temps.boundInstr i).op.isControl = false := by
        rw [Temps.boundInstr_op, h]; rfl
      have hexec : exec p (parts.last.temps.boundInstr i) σ = .error .invalidOpcode := by
        rw [exec, Temps.boundInstr_op, h]
      rw [Temps.boundItem, next_of_not_isControl hcontrol, hexec] at h'
      cases h'
      exact .faulted _ _
  | @jump i l h =>
    cases hstep with
    | call hop _ _ =>
      rcases h.op with hop' | ⟨cond, hop'⟩ <;> (rw [Temps.boundInstr_op, hop'] at hop; cases hop)
    | next h' =>
      rcases h.op with hop | ⟨cond, hop⟩
      · simp only [Temps.boundItem, next, Temps.boundInstr_op, hop] at h'
        exact hjump l h h'
      · simp only [Temps.boundItem, next, Temps.boundInstr_op, hop] at h'
        split_ifs at h' with hcond
        · exact hjump l h h'
        · cases h'
          exact .body hrest hin
  | @tame i h =>
    cases hstep with
    | @call _ g _ _ σ' hop hargs hcallee =>
      exact .body hrest (inFrame_of_callee hp hin hcallee fun e he =>
        hspares (Or.inl hop) e (hslots he))
    | next h' =>
      cases h with
      | call g hop hargs =>
        simp only [Temps.boundItem, next, Temps.boundInstr_op, hop] at h'
        cases h'
      | plain hop hdst =>
        have hcontrol : (parts.last.temps.boundInstr i).op.isControl = false := by
          rw [Temps.boundInstr_op]
          cases hi : i.op <;> simp_all [Opcode.isPlain, Opcode.isControl]
        rw [Temps.boundItem, next_of_not_isControl hcontrol] at h'
        cases hexec : exec p (parts.last.temps.boundInstr i) σ with
        | error e =>
          rw [hexec] at h'
          cases h'
          exact .faulted _ _
        | ok σ' =>
          rw [hexec] at h'
          cases h'
          exact .body hrest (inFrame_of_exec parts hin (.plain hop hdst) hexec fun hptr e he =>
            hspares (Or.inr hptr) e (hslots he))

lemma phase_of_step_tail (hin : InFrame o.target parts.frame σ₀ σ)
    (hstep : Step p (Listing.functionItems c) (.at parts.tail σ) d) : Phase parts p σ₀ d := by
  rw [Parts.tail] at hstep
  split_ifs at hstep
  · cases hstep with
    | next h =>
      cases h
      rw [Layout.epilogue_eq, List.map_append]
      exact .teardown (List.nil_append _).symm hin (execAll_nil p σ)
  · cases hstep with
    | next h => cases h

lemma phase_of_step_inFrame (hp : p.Honors o.target) (hsuffix : rest <:+ parts.body)
    (hin : InFrame o.target parts.frame σ₀ σ)
    (hstep : Step p (Listing.functionItems c) (.at (rest ++ parts.tail) σ) d)
    (hspares : Spares (σ₀.gpr .rsp) (savedSlots c) (.at (rest ++ parts.tail) σ) d) :
    Phase parts p σ₀ d := by
  cases rest with
  | nil => exact phase_of_step_tail parts hin hstep
  | cons item rest => exact phase_of_step_body parts hp hsuffix hin hstep hspares

lemma inFrame_of_setup (hexec : execAll p parts.frame.prologue σ₀ = .ok σ) :
    InFrame o.target parts.frame σ₀ σ := by
  obtain ⟨σ', hexec', hin, -⟩ :=
    exists_inFrame_of_prologue (p := p) (c := o.convention) parts.moderate σ₀
  rw [hexec'] at hexec
  cases hexec
  exact hin

/-- Every step of a function leads from phase to phase. -/
theorem Phase.step {parts : Parts o f start c} (hp : p.Honors o.target) (h : Phase parts p σ₀ cfg)
    (hstep : Step p (Listing.functionItems c) cfg d)
    (hspares : Spares (σ₀.gpr .rsp) (savedSlots c) cfg d) : Phase parts p σ₀ d := by
  cases h with
  | entry =>
    cases hstep with
    | next h =>
      cases h
      exact .setup (List.nil_append _).symm (execAll_nil p σ₀)
  | @setup done todo σ hpro hexec =>
    cases todo with
    | nil =>
      rw [List.append_nil] at hpro
      rw [← hpro] at hexec
      exact phase_of_step_inFrame parts hp List.suffix_rfl (inFrame_of_setup parts hexec) hstep
        hspares
    | cons i todo =>
      obtain ⟨σ₁, hall, -⟩ :=
        exists_inFrame_of_prologue (p := p) (c := o.convention) parts.moderate σ₀
      obtain ⟨σ', hi, hdone⟩ := exec_of_execAll hpro hall hexec
      rw [eq_of_step_exec hi hstep]
      exact .setup (by rw [hpro, List.append_assoc, List.singleton_append]) hdone
  | body hsuffix hin => exact phase_of_step_inFrame parts hp hsuffix hin hstep hspares
  | @teardown done todo σ₁ σ hdown hin hexec =>
    obtain ⟨σ₂, hall, hrestored, -⟩ := exists_restored_of_epilogue (p := p) (c := o.convention)
      parts.moderate parts.keeps_saved hin
    cases todo with
    | nil =>
      rw [List.append_nil] at hdown
      rw [← hdown, hall] at hexec
      cases hexec
      cases hstep with
      | call hop _ _ => cases hop
      | next h =>
        cases h
        exact .returned (kept_of_restored hrestored)
    | cons i todo =>
      obtain ⟨σ', hi, hdone⟩ := exec_of_execAll hdown hall hexec
      rw [eq_of_step_exec hi hstep]
      exact .teardown (by rw [hdown, List.append_assoc, List.singleton_append]) hin hdone
  | returned => cases hstep with | next h => cases h
  | faulted => cases hstep with | next h => cases h

theorem Phase.run {parts : Parts o f start c} (hp : p.Honors o.target) (h : Phase parts p σ₀ cfg)
    (hrun : RunsWith p (Listing.functionItems c) (Spares (σ₀.gpr .rsp) (savedSlots c)) cfg d) :
    Phase parts p σ₀ d := by
  induction hrun with
  | refl => exact h
  | tail _ hstep ih => exact ih.step hp hstep.1 hstep.2

lemma aligned_of_inFrame (hl : l.Moderate) (hentry : (σ₀.gpr .rsp).toNat % 16 = 8)
    (hin : InFrame o.target l σ₀ σ) : (σ.gpr .rsp).toNat % 16 = 0 := by
  have haligned := hl.aligned
  have houtgoing := hl.outgoing_aligned
  rw [hin.rsp, addr, BitVec.toNat_add, BitVec.toNat_ofInt, Layout.depth]
  omega

lemma Phase.aligned {parts : Parts o f start c} (h : Phase parts p σ₀ cfg)
    (hentry : (σ₀.gpr .rsp).toNat % 16 = 8) (hcfg : cfg = .at (.instr i :: rest) σ)
    (hop : i.op = .call) : (σ.gpr .rsp).toNat % 16 = 0 := by
  have hcontrol {σ' : State} (hexec : exec p i σ = .ok σ') : False := by
    have := isControl_of_exec hexec
    rw [hop] at this
    cases this
  cases h with
  | entry => cases hcfg
  | @setup done todo σ hpro hexec =>
    cases todo with
    | nil =>
      obtain ⟨-, rfl⟩ := Config.at.inj hcfg
      rw [List.append_nil] at hpro
      rw [← hpro] at hexec
      exact aligned_of_inFrame parts.moderate hentry (inFrame_of_setup parts hexec)
    | cons j todo =>
      cases hcfg
      obtain ⟨σ₁, hall, -⟩ :=
        exists_inFrame_of_prologue (p := p) (c := o.convention) parts.moderate σ₀
      obtain ⟨σ', hi, -⟩ := exec_of_execAll hpro hall hexec
      exact (hcontrol hi).elim
  | body hsuffix hin =>
    obtain ⟨-, rfl⟩ := Config.at.inj hcfg
    exact aligned_of_inFrame parts.moderate hentry hin
  | @teardown done todo σ₁ σ hdown hin hexec =>
    cases todo with
    | nil =>
      cases hcfg
      cases hop
    | cons j todo =>
      cases hcfg
      obtain ⟨σ₂, hall, -⟩ := exists_restored_of_epilogue (p := p) (c := o.convention)
        parts.moderate parts.keeps_saved hin
      obtain ⟨σ', hi, -⟩ := exec_of_execAll hdown hall hexec
      exact (hcontrol hi).elim
  | returned => cases hcfg
  | faulted => cases hcfg

lemma seek_name :
    seek c.name (Listing.functionItems c) = some (.label parts.last.symbol ::
      (parts.frame.prologue.map .instr ++ (parts.body ++ parts.tail))) := by
  rw [parts.functionItems_eq, parts.name_eq]
  simp [seek]

lemma mem_pushList_prologue {r : PhysReg} (h : r ∈ l.saved) :
    r ∈ pushList l.prologue := by
  rw [pushList, List.mem_filterMap]
  refine ⟨pushInstr r, ?_, rfl⟩
  rw [Layout.prologue_eq]
  simp only [List.mem_append]
  exact Or.inr (Or.inr (Or.inl (List.mem_map_of_mem h)))

lemma written_of_bodyLine (h : BodyLine o.target parts.last (.instr i)) :
    ∀ r ∈ (parts.last.temps.boundInstr i).written, r ≠ .gpr .rsp ∧ r ≠ .gpr .rbp ∧
      (o.target.keeps r = true → r ∈ pushList parts.frame.prologue) := by
  intro r hr
  cases h with
  | tame h =>
    obtain ⟨hrsp, hrbp, hsaved⟩ := written_of_tame parts.inv h r hr
    refine ⟨hrsp, hrbp, fun hkeeps => mem_pushList_prologue ?_⟩
    rw [parts.sound.pushes]
    exact hsaved hkeeps
  | jump l h =>
    rcases h.op with hop | ⟨cond, hop⟩ <;>
      simp [Instr.written, Instr.dst?, hop, Opcode.implicit, Opcode.writesLast] at hr
  | trap h => simp [Instr.written, Instr.dst?, h, Opcode.implicit, Opcode.writesLast] at hr

/-- A compiled function outside prologue and epilogue writes neither stack pointer nor frame pointer,
and pushes every register that it writes and has to keep. When a run of it returns, it does so to the
caller, with the stack pointer above the return address and all that a callee has to keep as it was.
The stack is aligned at every call. -/
theorem callee_obligations {o : Options} {f : Ir.Function} {s s' : Session} {c : Compiled}
    (h : (compileFunction o f).run s = .ok (c, s')) :
    (∃ (frame : Layout) (homing : List Instr), c.code.prologue = frame.prologue ++ homing ∧
      ∀ i ∈ homing ++ c.code.blocks.flatMap (·.code), ∀ r ∈ i.written,
        r ≠ .gpr .rsp ∧ r ≠ .gpr .rbp ∧
          (o.target.keeps r = true → r ∈ pushList frame.prologue)) ∧
    ∃ entry, seek c.code.name (Listing.functionItems c.code) = some entry ∧
      ∀ (p : Platform) (σ₀ : State) (d : Config), p.Honors o.target →
        (σ₀.gpr .rsp).toNat % 16 = 8 →
        RunsWith p (Listing.functionItems c.code)
          (Spares (σ₀.gpr .rsp) (savedSlots c.code)) (.at entry σ₀) d →
        (∀ a σ, d = .returned a σ → Kept o.target σ₀ a σ) ∧
          ∀ i rest σ, d = .at (.instr i :: rest) σ → i.op = .call → (σ.gpr .rsp).toNat % 16 = 0 := by
  obtain ⟨parts, -⟩ := exists_parts h
  refine ⟨⟨parts.frame, _, parts.prologue_eq, ?_⟩, _, seek_name parts, ?_⟩
  · intro i hi
    rw [parts.blocks_eq, List.flatMap_map, List.mem_append, List.mem_map, List.mem_flatMap] at hi
    rcases hi with ⟨j, hj, rfl⟩ | ⟨b, hb, hi⟩
    · exact written_of_bodyLine parts (.tame (parts.tame_homing j hj))
    · obtain ⟨j, hj, rfl⟩ := List.mem_map.mp hi
      refine written_of_bodyLine parts (parts.bodyLine _ (List.mem_flatMap.mpr ⟨b, hb, ?_⟩))
      exact List.mem_cons_of_mem _ (List.mem_map_of_mem hj)
  · intro p σ₀ d hp hentry hrun
    have hphase : Phase parts p σ₀ d := Phase.entry.run hp hrun
    refine ⟨?_, fun i rest σ hd hop => hphase.aligned hentry hd hop⟩
    rintro a σ rfl
    cases hphase with
    | returned h => exact h

/-- A run in which calls change nothing and nothing is stored through a pointer. -/
private def calmRun (p : Platform) (items : List Item) : Nat → Config → Option Config
  | 0, cfg => some cfg
  | n + 1, .at (.instr i :: rest) σ =>
    if i.op = .call then
      match i.operands with
      | [.symbol _] => calmRun p items n (.at rest σ)
      | _ => none
    else if i.viaPointer then none
    else (next p items (.at (.instr i :: rest) σ)).bind (calmRun p items n)
  | n + 1, cfg => (next p items cfg).bind (calmRun p items n)

lemma runsWith_of_calmRun (base : Word) (slots : List Int) {items : List Item} {n : Nat}
    (hp : ∀ g σ, p.callee g σ σ) (h : calmRun p items n cfg = some d) :
    RunsWith p items (Spares base slots) cfg d := by
  induction n generalizing cfg with
  | zero => cases h; exact .refl
  | succ n ih =>
    unfold calmRun at h
    split at h
    case h_1 hm => cases hm
    case h_2 m i rest σ hm =>
      cases hm
      split_ifs at h with hop hptr
      · split at h
        case h_1 g hargs =>
          exact .head ⟨.call hop hargs (hp g σ), fun _ _ _ => rfl⟩ (ih h)
        case h_2 => cases h
      · obtain ⟨cfg', hnext, h⟩ := Option.bind_eq_some_iff.mp h
        refine .head ⟨.next hnext, ?_⟩ (ih h)
        cases cfg' with
        | «at» rest' σ' => rintro (h' | h') <;> contradiction
        | returned | faulted => trivial
    case h_3 m hm hinstr =>
      cases hm
      obtain ⟨cfg', hnext, h⟩ := Option.bind_eq_some_iff.mp h
      refine .head ⟨.next hnext, ?_⟩ (ih h)
      unfold Spares
      split
      · exact absurd rfl (hinstr _ _ _)
      · trivial

/-- A function with a narrow parameter that calls another one. -/
def callsOnce : Ir.Function where
  params := [⟨"x", .int true .byte⟩]
  blocks := [{ instrs := [{ kind := .call "g", ty := .void }], term := { exit := .ret } }]

def quiet : Platform where
  symbol _ := 0
  arith _ _ _ _ := 0
  order _ _ _ := none
  looseFlags _ σ := σ.flags
  callee _ σ σ' := σ' = σ

/-- A state whose stack is as it is after a call. -/
def freshState : State where
  gpr _ := 4104
  xmm _ := 0
  flags := default
  mem _ := 7

private def isAtCall : Config → Bool
  | .at (.instr i :: _) _ => i.op = .call
  | _ => false

private def isReturned : Config → Bool
  | .returned _ _ => true
  | _ => false

lemma calmRun_callsOnce :
    ((compileFunction {} callsOnce).run {}).toOption.any (fun r =>
      (seek r.1.code.name (Listing.functionItems r.1.code)).any fun entry =>
        ((calmRun quiet (Listing.functionItems r.1.code) 7 (.at entry freshState)).any isAtCall) &&
        ((calmRun quiet (Listing.functionItems r.1.code) 12 (.at entry freshState)).any
          isReturned)) = true := by
  decide +kernel

/-- A compiled function is run to its call and to its return. -/
theorem callee_obligations_callsOnce :
    ∃ c s', (compileFunction {} callsOnce).run {} = .ok (c, s') ∧ ∃ entry,
      seek c.code.name (Listing.functionItems c.code) = some entry ∧
      (∃ i rest σ, RunsWith quiet (Listing.functionItems c.code)
          (Spares (freshState.gpr .rsp) (savedSlots c.code)) (.at entry freshState)
          (.at (.instr i :: rest) σ) ∧ i.op = .call ∧ (σ.gpr .rsp).toNat % 16 = 0) ∧
      ∃ a σ, RunsWith quiet (Listing.functionItems c.code)
          (Spares (freshState.gpr .rsp) (savedSlots c.code)) (.at entry freshState)
          (.returned a σ) ∧ Kept Convention.sysv.target freshState a σ := by
  have hquiet : quiet.Honors Convention.sysv.target :=
    ⟨fun _ _ _ h => by rw [h], fun _ _ _ h _ _ => by rw [h], fun _ _ _ h _ _ => by rw [h]⟩
  have h := calmRun_callsOnce
  rw [Option.any_eq_true] at h
  obtain ⟨⟨c, s'⟩, hc, h⟩ := h
  have hc : (compileFunction {} callsOnce).run {} = .ok (c, s') := by
    cases hrun : (compileFunction {} callsOnce).run {} with
    | error e => rw [hrun] at hc; cases hc
    | ok r => rw [hrun] at hc; cases hc; rfl
  rw [Option.any_eq_true] at h
  obtain ⟨entry, hentry, h⟩ := h
  rw [Bool.and_eq_true, Option.any_eq_true, Option.any_eq_true] at h
  obtain ⟨⟨d, hd, hcall⟩, ⟨e, he, hreturned⟩⟩ := h
  obtain ⟨entry', hentry', hall⟩ := (callee_obligations hc).2
  rw [hentry] at hentry'
  cases hentry'
  have hquiet' : ∀ g σ, quiet.callee g σ σ := fun _ _ => rfl
  refine ⟨c, s', hc, entry, hentry, ?_, ?_⟩
  · cases d with
    | returned | faulted => cases hcall
    | «at» lines σ =>
      match lines, hcall with
      | .instr i :: rest, hcall =>
        have hop : i.op = .call := of_decide_eq_true hcall
        have hd := runsWith_of_calmRun (freshState.gpr .rsp) (savedSlots c.code) hquiet' hd
        exact ⟨i, rest, σ, hd, hop, (hall _ _ _ hquiet (by decide) hd).2 i rest σ rfl hop⟩
  · cases e with
    | «at» | faulted => cases hreturned
    | returned a σ =>
      have he := runsWith_of_calmRun (freshState.gpr .rsp) (savedSlots c.code) hquiet' he
      exact ⟨a, σ, he, (hall _ _ _ hquiet (by decide) he).1 a σ rfl⟩

end NativeCode.Compile
