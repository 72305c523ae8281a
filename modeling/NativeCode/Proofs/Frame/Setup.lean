import NativeCode.Proofs.Frame.Layout
import NativeCode.Proofs.Machine.Execution

/-!
# Setting a frame up and taking it down

The prologue saves the frame pointer and the registers that a function uses, and the epilogue brings
them back from any state that still has what was saved. Displacements are taken from the stack
pointer at the entry of the function, where the return address lies.
-/

namespace NativeCode.Frame

open Abi Machine

variable {p : Platform}

/-! ### Stack instructions -/

def pushInstr (r : PhysReg) : Instr := { op := .push, operands := [.full (.phys r)] }

def popInstr (r : PhysReg) : Instr := { op := .pop, operands := [.full (.phys r)] }

lemma exec_push (σ : State) (g : Gpr) :
    exec p (pushInstr (.gpr g)) σ = .ok (σ.pushWord (σ.gpr g)) := by
  simp [exec, pushInstr, unary, State.read, bind, Except.bind, pure, Except.pure]

lemma exec_pop (σ : State) (g : Gpr) :
    exec p (popInstr (.gpr g)) σ =
      .ok ((σ.setGpr .rsp (addr (σ.gpr .rsp) 8)).setGpr g (σ.mem.load (σ.gpr .rsp) 8)) := by
  simp [exec, popInstr, unary, State.write]

lemma exists_execAll_push (rs : List Gpr) (hrs : .rsp ∉ rs) {b : Word} {d : Int} (σ : State)
    (hσ : σ.gpr .rsp = addr b d) (hd : d ≤ 0) (hlow : -4294967296 ≤ d - 8 * rs.length) :
    ∃ σ', execAll p (rs.map fun r => pushInstr (.gpr r)) σ = .ok σ' ∧
      σ'.gpr .rsp = addr b (d - 8 * rs.length) ∧ (∀ r, r ≠ .rsp → σ'.gpr r = σ.gpr r) ∧
      σ'.xmm = σ.xmm ∧
      (∀ (k : Nat) r, rs[k]? = some r → σ'.mem.load (addr b (d - 8 * (k + 1))) 8 = σ.gpr r) ∧
      ∀ e, d ≤ e → e ≤ 8589934592 → σ'.mem (addr b e) = σ.mem (addr b e) := by
  induction rs generalizing d σ with
  | nil => exact ⟨σ, rfl, by simpa using hσ, fun _ _ => rfl, rfl, by simp, fun _ _ _ => rfl⟩
  | cons r rs ih =>
    have hne : ∀ q ∈ rs, q ≠ .rsp := fun q hq h => hrs (h ▸ List.mem_cons_of_mem _ hq)
    rw [List.length_cons] at hlow
    push_cast at hlow
    have hrsp₁ : (σ.pushWord (σ.gpr r)).gpr .rsp = addr b (d - 8) := by
      rw [State.pushWord_rsp, hσ, addr_addr]
      rfl
    have hregs : ∀ q, q ≠ .rsp → (σ.pushWord (σ.gpr r)).gpr q = σ.gpr q := fun q hq =>
      σ.pushWord_gpr_of_ne _ hq
    have hmem₁ : (σ.pushWord (σ.gpr r)).mem = σ.mem.store (addr b (d - 8)) 8 (σ.gpr r) := by
      rw [State.pushWord_mem, hσ, addr_addr]
      rfl
    obtain ⟨σ', hall, hrsp, hgpr, hxmm, hsaved, hmem⟩ :=
      ih (fun h => hrs (List.mem_cons_of_mem _ h)) _ hrsp₁ (by omega) (by omega)
    refine ⟨σ', ?_, ?_, fun q hq => (hgpr q hq).trans (hregs q hq), hxmm, ?_, ?_⟩
    · rw [List.map_cons, execAll_cons_ok (exec_push σ r)]
      exact hall
    · rw [hrsp, List.length_cons]
      congr 1
      push_cast
      ring
    · intro k q hq
      cases k with
      | zero =>
        cases hq
        rw [show d - 8 * ((0 : Nat) + 1 : Int) = d - 8 by simp]
        rw [Memory.load_addr_congr fun e he he' => hmem e he (by omega), hmem₁]
        exact (Memory.load_store_self σ.mem _ .quad _).trans (Width.zeroExtend_quad _)
      | succ k =>
        have hq' : rs[k]? = some q := by simpa using hq
        have h := hsaved k q hq'
        rw [hregs q (hne q (List.mem_of_getElem? hq'))] at h
        rw [← h]
        congr 2
        push_cast
        ring
    · intro e he he'
      rw [hmem e (by omega) (by omega), hmem₁]
      exact Memory.store_apart σ.mem b _ (Or.inl ⟨by push_cast; omega, by push_cast; omega⟩)

lemma exists_execAll_pop (rs : List Gpr) (hrs : .rsp ∉ rs) (hnodup : rs.Nodup) {b : Word} {d : Int}
    (σ : State) (hσ : σ.gpr .rsp = addr b (d - 8 * rs.length)) :
    ∃ σ', execAll p (rs.reverse.map fun r => popInstr (.gpr r)) σ = .ok σ' ∧
      σ'.gpr .rsp = addr b d ∧ (∀ r, r ≠ .rsp → r ∉ rs → σ'.gpr r = σ.gpr r) ∧
      σ'.xmm = σ.xmm ∧ σ'.mem = σ.mem ∧
      ∀ (k : Nat) r, rs[k]? = some r → σ'.gpr r = σ.mem.load (addr b (d - 8 * (k + 1))) 8 := by
  induction rs using List.reverseRecOn generalizing σ with
  | nil => exact ⟨σ, rfl, by simpa using hσ, fun _ _ _ => rfl, rfl, rfl, by simp⟩
  | append_singleton rs r ih =>
    have hr : r ≠ .rsp := fun h => hrs (by simp [h])
    have hnew : r ∉ rs := fun h => by
      have := (List.nodup_append.mp hnodup).2.2 r h r (by simp)
      exact this rfl
    let σ₁ := (σ.setGpr .rsp (addr (σ.gpr .rsp) 8)).setGpr r (σ.mem.load (σ.gpr .rsp) 8)
    have hrsp₁ : σ₁.gpr .rsp = addr b (d - 8 * rs.length) := by
      rw [State.setGpr_gpr_of_ne _ _ hr.symm, State.setGpr_gpr, hσ, addr_addr]
      congr 1
      rw [List.length_append, List.length_singleton]
      push_cast
      ring
    have hregs : ∀ q, q ≠ .rsp → q ≠ r → σ₁.gpr q = σ.gpr q := fun q hq hqr => by
      rw [State.setGpr_gpr_of_ne _ _ hqr, State.setGpr_gpr_of_ne _ _ hq]
    obtain ⟨σ', hall, hrsp, hgpr, hxmm, hmem, hback⟩ :=
      ih (fun h => hrs (by simp [h])) (List.nodup_append.mp hnodup).1 σ₁ hrsp₁
    refine ⟨σ', ?_, hrsp, ?_, hxmm, hmem, ?_⟩
    · rw [List.reverse_append, List.reverse_singleton, List.singleton_append, List.map_cons,
        execAll_cons_ok (exec_pop σ r)]
      exact hall
    · intro q hq hmem
      rw [List.mem_append, List.mem_singleton, not_or] at hmem
      rw [hgpr q hq hmem.1, hregs q hq hmem.2]
    · intro k q hq
      by_cases hk : k < rs.length
      · rw [List.getElem?_append_left hk] at hq
        rw [hback k q hq]
        rfl
      · have hlt : k < (rs ++ [r]).length := (List.getElem?_eq_some_iff.mp hq).1
        have hk : k = rs.length := by
          rw [List.length_append, List.length_singleton] at hlt
          omega
        subst hk
        rw [List.getElem?_concat_length] at hq
        cases hq
        rw [hgpr r hr hnew, State.setGpr_gpr, hσ]
        rw [List.length_append, List.length_singleton]
        push_cast
        rfl

lemma exists_execAll_moveStack {op : AluOp} {n m : Int} (hn : 0 ≤ n)
    (hop : op = .sub ∧ m = -n ∨ op = .add ∧ m = n) (text : String) (σ : State) :
    ∃ σ', execAll p (if 0 < n then [Layout.moveStack op n text] else []) σ = .ok σ' ∧
      σ'.gpr .rsp = addr (σ.gpr .rsp) m ∧ (∀ r, r ≠ .rsp → σ'.gpr r = σ.gpr r) ∧
      σ'.xmm = σ.xmm ∧ σ'.mem = σ.mem := by
  by_cases h : 0 < n
  · obtain ⟨f, hexec⟩ : ∃ f, exec p (Layout.moveStack op n text) σ =
        .ok ({ σ with flags := f }.setGpr .rsp (addr (σ.gpr .rsp) m)) := by
      rcases hop with ⟨rfl, rfl⟩ | ⟨rfl, rfl⟩
      · refine ⟨.ofSub (σ.gpr .rsp) (BitVec.ofInt 64 n), ?_⟩
        rw [← sub_ofInt_eq_addr]
        simp [exec, Layout.moveStack, binary, State.read, State.write, bind, Except.bind,
          AluOp.apply, AluOp.flags]
      · refine ⟨.ofAdd (σ.gpr .rsp) (BitVec.ofInt 64 m), ?_⟩
        simp [exec, Layout.moveStack, binary, State.read, State.write, bind, Except.bind,
          AluOp.apply, AluOp.flags, addr]
    refine ⟨{ σ with flags := f }.setGpr .rsp (addr (σ.gpr .rsp) m), ?_, State.setGpr_gpr _ _ _,
      fun r hr => State.setGpr_gpr_of_ne _ _ hr, rfl, rfl⟩
    rw [if_pos h, execAll_cons_ok hexec, execAll_nil]
  · obtain rfl : n = 0 := by omega
    obtain rfl : m = 0 := by omega
    exact ⟨σ, by simp, by simp, fun _ _ => rfl, rfl, rfl⟩

/-- The instruction that copies one register into another. -/
def copyInstr (src dst : Gpr) : Instr := { op := .mov .quad, operands := [.gpr src, .gpr dst] }

lemma exec_copy (σ : State) (src dst : Gpr) :
    exec p (copyInstr src dst) σ = .ok (σ.setGpr dst (σ.gpr src)) := by
  simp [exec, copyInstr, binary, State.move, State.read, State.write, bind, Except.bind]

lemma execAll_enter (σ : State) :
    execAll p [pushInstr (.gpr .rbp), copyInstr .rsp .rbp] σ =
      .ok ((σ.pushWord (σ.gpr .rbp)).setGpr .rbp (addr (σ.gpr .rsp) (-8))) := by
  rw [execAll_cons_ok (exec_push σ .rbp), execAll_cons_ok (exec_copy _ _ _), State.pushWord_rsp,
    execAll_nil]

/-! ### Frames -/

/-- How far the stack pointer of the body is below its entry value. -/
def Layout.depth (l : Layout) : Int := 8 + l.adjust + 8 * l.saved.length + l.outgoing

def Layout.pushSlot (l : Layout) (k : Nat) : Int := -(8 + l.adjust) - 8 * (k + 1)

/-- The places of the return address, the frame pointer and the pushed registers. -/
def Layout.savedSlots (l : Layout) : List Int :=
  0 :: -8 :: (List.range l.saved.length).map l.pushSlot

lemma Layout.prologue_eq (l : Layout) :
    l.prologue = [pushInstr (.gpr .rbp), copyInstr .rsp .rbp] ++
      ((if 0 < l.adjust then [Layout.moveStack .sub l.adjust "locals"] else []) ++
        (l.saved.map pushInstr ++
          if 0 < l.outgoing then [Layout.moveStack .sub l.outgoing l.outgoingComment] else [])) := by
  rw [prologue, List.append_assoc, List.append_assoc]
  rfl

/-- A frame of moderate size that pushes general-purpose registers. -/
structure Layout.Moderate (l : Layout) : Prop where
  adjust : 0 ≤ l.adjust ∧ l.adjust ≤ 2147483662
  outgoing : 0 ≤ l.outgoing ∧ l.outgoing ≤ 1073741824
  aligned : (16 : Int) ∣ l.adjust + 8 * l.saved.length
  outgoing_aligned : (16 : Int) ∣ l.outgoing
  pushes : ∃ gs : List Gpr, l.saved = gs.map .gpr ∧ gs.Nodup ∧ .rsp ∉ gs ∧ .rbp ∉ gs ∧
    gs.length ≤ 16

/-- A state of a function body, seen from the state at its entry. -/
structure InFrame (t : Target) (l : Layout) (σ₀ σ : State) : Prop where
  rbp : σ.gpr .rbp = addr (σ₀.gpr .rsp) (-8)
  rsp : σ.gpr .rsp = addr (σ₀.gpr .rsp) (-l.depth)
  returnAddress : σ.mem.load (addr (σ₀.gpr .rsp) 0) 8 = σ₀.mem.load (σ₀.gpr .rsp) 8
  framePointer : σ.mem.load (addr (σ₀.gpr .rsp) (-8)) 8 = σ₀.gpr .rbp
  pushed : ∀ (k : Nat) g, l.saved[k]? = some (.gpr g) →
    σ.mem.load (addr (σ₀.gpr .rsp) (l.pushSlot k)) 8 = σ₀.gpr g
  gpr : ∀ g, t.keeps (.gpr g) = true → g ≠ .rbp → .gpr g ∉ l.saved → σ.gpr g = σ₀.gpr g
  xmm : ∀ x, t.keeps (.xmm x) = true → σ.xmm x = σ₀.xmm x

/-- What keeps the pointers, the saved words and the registers that were not saved stays in the
frame. -/
lemma InFrame.keep {t : Target} {l : Layout} {σ₀ σ σ' : State} (h : InFrame t l σ₀ σ)
    (hrbp : σ'.gpr .rbp = σ.gpr .rbp) (hrsp : σ'.gpr .rsp = σ.gpr .rsp)
    (hmem : ∀ d ∈ l.savedSlots, σ'.mem.load (addr (σ₀.gpr .rsp) d) 8 =
      σ.mem.load (addr (σ₀.gpr .rsp) d) 8)
    (hgpr : ∀ g, t.keeps (.gpr g) = true → g ≠ .rbp → .gpr g ∉ l.saved → σ'.gpr g = σ.gpr g)
    (hxmm : ∀ x, t.keeps (.xmm x) = true → σ'.xmm x = σ.xmm x) : InFrame t l σ₀ σ' where
  rbp := hrbp.trans h.rbp
  rsp := hrsp.trans h.rsp
  returnAddress := (hmem 0 (by simp [Layout.savedSlots])).trans h.returnAddress
  framePointer := (hmem (-8) (by simp [Layout.savedSlots])).trans h.framePointer
  pushed k g hk := by
    have hlt : k < l.saved.length := (List.getElem?_eq_some_iff.mp hk).1
    refine (hmem (l.pushSlot k) ?_).trans (h.pushed k g hk)
    simp only [Layout.savedSlots, List.mem_cons, List.mem_map, List.mem_range]
    exact Or.inr (Or.inr ⟨k, hlt, rfl⟩)
  gpr g hg hg' hsaved := (hgpr g hg hg' hsaved).trans (h.gpr g hg hg' hsaved)
  xmm x hx := (hxmm x hx).trans (h.xmm x hx)

/-- A state in which all that a callee has to keep is back. -/
structure Restored (t : Target) (σ₀ σ : State) : Prop where
  rsp : σ.gpr .rsp = σ₀.gpr .rsp
  returnAddress : σ.mem.load (σ.gpr .rsp) 8 = σ₀.mem.load (σ₀.gpr .rsp) 8
  gpr : ∀ g, t.keeps (.gpr g) = true → σ.gpr g = σ₀.gpr g
  xmm : ∀ x, t.keeps (.xmm x) = true → σ.xmm x = σ₀.xmm x

variable {c : Convention} {l : Layout}

/-- The prologue sets the frame up, and leaves everything above the return address and all other
registers alone. -/
theorem exists_inFrame_of_prologue (hl : l.Moderate) (σ₀ : State) :
    ∃ σ, execAll p l.prologue σ₀ = .ok σ ∧ InFrame c.target l σ₀ σ ∧
      (∀ g, g ≠ .rsp → g ≠ .rbp → σ.gpr g = σ₀.gpr g) ∧ σ.xmm = σ₀.xmm ∧
      ∀ e, 0 ≤ e → e ≤ 8589934592 →
        σ.mem (addr (σ₀.gpr .rsp) e) = σ₀.mem (addr (σ₀.gpr .rsp) e) := by
  obtain ⟨gs, hgs, hnodup, hrsp, hrbp, hlen⟩ := hl.pushes
  obtain ⟨hadj, hadj'⟩ := hl.adjust
  obtain ⟨hout, hout'⟩ := hl.outgoing
  have hlength : l.saved.length = gs.length := by rw [hgs, List.length_map]
  -- the saved frame pointer
  let σ₁ := (σ₀.pushWord (σ₀.gpr .rbp)).setGpr .rbp (addr (σ₀.gpr .rsp) (-8))
  have h₁ := execAll_enter (p := p) σ₀
  have hrsp₁ : σ₁.gpr .rsp = addr (σ₀.gpr .rsp) (-8) := by
    rw [State.setGpr_gpr_of_ne _ _ (by decide), State.pushWord_rsp]
  have hregs₁ : ∀ g, g ≠ .rsp → g ≠ .rbp → σ₁.gpr g = σ₀.gpr g := fun g hg hg' => by
    rw [State.setGpr_gpr_of_ne _ _ hg', State.pushWord_gpr_of_ne _ _ hg]
  -- the locals, the pushed registers and the outgoing arguments
  obtain ⟨σ₂, h₂, hrsp₂, hgpr₂, hxmm₂, hmem₂⟩ :=
    exists_execAll_moveStack (p := p) hadj (Or.inl ⟨rfl, rfl⟩) "locals" σ₁
  rw [hrsp₁, addr_addr] at hrsp₂
  obtain ⟨σ₃, h₃, hrsp₃, hgpr₃, hxmm₃, hpushed, hmem₃⟩ :=
    exists_execAll_push (p := p) gs hrsp σ₂ hrsp₂ (by omega) (by omega)
  obtain ⟨σ₄, h₄, hrsp₄, hgpr₄, hxmm₄, hmem₄⟩ :=
    exists_execAll_moveStack (p := p) hout (Or.inl ⟨rfl, rfl⟩) l.outgoingComment σ₃
  have hexec : execAll p l.prologue σ₀ = .ok σ₄ := by
    have hpush : l.saved.map pushInstr = gs.map fun r => pushInstr (.gpr r) := by
      rw [hgs, List.map_map]
      rfl
    rw [Layout.prologue_eq, hpush, execAll_append_ok h₁, execAll_append_ok h₂, execAll_append_ok h₃,
      h₄]
  have hmem₁ : σ₁.mem = σ₀.mem.store (addr (σ₀.gpr .rsp) (-8)) 8 (σ₀.gpr .rbp) := rfl
  have hkeep : ∀ e, -8 ≤ e → e ≤ 8589934592 →
      σ₄.mem (addr (σ₀.gpr .rsp) e) = σ₁.mem (addr (σ₀.gpr .rsp) e) := fun e he he' => by
    rw [hmem₄, hmem₃ e (by omega) he', hmem₂]
  have hgpr : ∀ g, g ≠ .rsp → σ₄.gpr g = σ₁.gpr g := fun g hg => by
    rw [hgpr₄ g hg, hgpr₃ g hg, hgpr₂ g hg]
  have hxmm : σ₄.xmm = σ₀.xmm := by rw [hxmm₄, hxmm₃, hxmm₂]; rfl
  refine ⟨σ₄, hexec, ⟨?_, ?_, ?_, ?_, ?_, ?_, ?_⟩, ?_, hxmm, ?_⟩
  · rw [hgpr .rbp (by decide), State.setGpr_gpr]
  · rw [hrsp₄, hrsp₃, addr_addr, Layout.depth, hlength]
    congr 1
    ring
  · rw [Memory.load_addr_congr fun e he he' => hkeep e (by omega) (by omega), hmem₁]
    rw [Memory.load_store_apart _ _ _ (Or.inl ⟨by decide, by decide⟩), addr_zero]
  · rw [Memory.load_addr_congr fun e he he' => hkeep e (by omega) (by omega), hmem₁]
    exact (Memory.load_store_self σ₀.mem _ .quad _).trans (Width.zeroExtend_quad _)
  · intro k g hk
    rw [hgs, List.getElem?_map, Option.map_eq_some_iff] at hk
    obtain ⟨q, hq, hqg⟩ := hk
    cases hqg
    have hg := List.mem_of_getElem? hq
    have hg' : g ≠ .rsp ∧ g ≠ .rbp := ⟨fun h => hrsp (h ▸ hg), fun h => hrbp (h ▸ hg)⟩
    have h := hpushed k g hq
    rw [hgpr₂ g hg'.1, hregs₁ g hg'.1 hg'.2] at h
    rw [hmem₄, ← h, Layout.pushSlot]
    congr 2
    ring
  · intro g hkeeps hg _
    have hg' : g ≠ .rsp := fun h => by rw [h, keeps_rsp] at hkeeps; cases hkeeps
    rw [hgpr g hg', hregs₁ g hg' hg]
  · intro x _
    rw [hxmm]
  · intro g hg hg'
    rw [hgpr g hg, hregs₁ g hg hg']
  · intro e he he'
    rw [hkeep e (by omega) he', hmem₁]
    exact Memory.store_apart _ _ _ (Or.inl ⟨by omega, by omega⟩)

def Layout.teardown (l : Layout) : List Instr :=
  (if 0 < l.outgoing then [Layout.moveStack .add l.outgoing l.outgoingComment] else []) ++
    (l.saved.reverse.map popInstr ++
      ((if 0 < l.adjust then [copyInstr .rbp .rsp] else []) ++ [popInstr (.gpr .rbp)]))

lemma Layout.epilogue_eq (l : Layout) : l.epilogue = l.teardown ++ [{ op := .ret }] := by
  simp [epilogue, teardown, popInstr, copyInstr]

/-- The lines that set a frame up or take it down. -/
inductive Layout.Line (l : Layout) : Instr → Prop
  | push {r : PhysReg} (h : r ∈ PhysReg.gpr .rbp :: l.saved) : Line l (pushInstr r)
  | pop {r : PhysReg} (h : r ∈ PhysReg.gpr .rbp :: l.saved) : Line l (popInstr r)
  | copy (src dst : Gpr) : Line l (copyInstr src dst)
  | locals : Line l (moveStack .sub l.adjust "locals")
  | outgoing {op : AluOp} (h : op = .sub ∨ op = .add) :
      Line l (moveStack op l.outgoing l.outgoingComment)
  | ret : Line l { op := .ret }

lemma Layout.line_of_mem {l : Layout} {i : Instr} (h : i ∈ l.prologue ++ l.epilogue) :
    l.Line i := by
  have hite {c : Prop} [Decidable c] {j : Instr} (hj : l.Line j)
      (hi : i ∈ if c then [j] else []) : l.Line i := by
    split_ifs at hi
    · rwa [List.mem_singleton.mp hi]
    · cases hi
  rw [prologue_eq, epilogue_eq, teardown] at h
  simp only [List.mem_append, List.mem_cons, List.not_mem_nil, or_false, List.mem_map,
    List.mem_reverse] at h
  rcases h with ((rfl | rfl) | h | ⟨r, hr, rfl⟩ | h) | ((h | ⟨r, hr, rfl⟩ | h | rfl) | rfl)
  · exact .push List.mem_cons_self
  · exact .copy _ _
  · exact hite .locals h
  · exact .push (List.mem_cons_of_mem _ hr)
  · exact hite (.outgoing (Or.inl rfl)) h
  · exact hite (.outgoing (Or.inr rfl)) h
  · exact .pop (List.mem_cons_of_mem _ hr)
  · exact hite (.copy _ _) h
  · exact .pop List.mem_cons_self
  · exact .ret

/-- The epilogue takes the frame down, and leaves memory and the registers that a callee need not
keep alone. -/
theorem exists_restored_of_epilogue (hl : l.Moderate)
    (hkeeps : ∀ r ∈ l.saved, c.target.keeps r = true) {σ₀ σ : State}
    (h : InFrame c.target l σ₀ σ) :
    ∃ σ', execAll p l.teardown σ = .ok σ' ∧ Restored c.target σ₀ σ' ∧
      (∀ g, c.target.keeps (.gpr g) = false → g ≠ .rsp → σ'.gpr g = σ.gpr g) ∧
      σ'.xmm = σ.xmm ∧ σ'.mem = σ.mem := by
  obtain ⟨gs, hgs, hnodup, hrsp, hrbp, hlen⟩ := hl.pushes
  have hlength : l.saved.length = gs.length := by rw [hgs, List.length_map]
  obtain ⟨σ₁, h₁, hrsp₁, hgpr₁, hxmm₁, hmem₁⟩ := exists_execAll_moveStack (p := p) hl.outgoing.1
    (Or.inr ⟨rfl, rfl⟩) l.outgoingComment σ
  have hrsp₁' : σ₁.gpr .rsp = addr (σ₀.gpr .rsp) (-(8 + l.adjust) - 8 * gs.length) := by
    rw [hrsp₁, h.rsp, addr_addr, Layout.depth, hlength]
    congr 1
    ring
  obtain ⟨σ₂, h₂, hrsp₂, hgpr₂, hxmm₂, hmem₂, hback⟩ :=
    exists_execAll_pop (p := p) gs hrsp hnodup σ₁ hrsp₁'
  have hrbp₂ : σ₂.gpr .rbp = addr (σ₀.gpr .rsp) (-8) := by
    rw [hgpr₂ .rbp (by decide) hrbp, hgpr₁ .rbp (by decide), h.rbp]
  obtain ⟨σ₃, h₃, hrsp₃, hgpr₃, hxmm₃, hmem₃⟩ : ∃ σ₃,
      execAll p (if 0 < l.adjust then [copyInstr .rbp .rsp] else []) σ₂ = .ok σ₃ ∧
        σ₃.gpr .rsp = addr (σ₀.gpr .rsp) (-8) ∧ (∀ g, g ≠ .rsp → σ₃.gpr g = σ₂.gpr g) ∧
        σ₃.xmm = σ₂.xmm ∧ σ₃.mem = σ₂.mem := by
    by_cases hadj : 0 < l.adjust
    · refine ⟨σ₂.setGpr .rsp (σ₂.gpr .rbp), ?_, ?_, fun g hg => σ₂.setGpr_gpr_of_ne _ hg, rfl, rfl⟩
      · rw [if_pos hadj, execAll_cons_ok (exec_copy σ₂ .rbp .rsp), execAll_nil]
      · rw [State.setGpr_gpr, hrbp₂]
    · have hzero : l.adjust = 0 := le_antisymm (not_lt.mp hadj) hl.adjust.1
      exact ⟨σ₂, by rw [if_neg hadj, execAll_nil], by rw [hrsp₂, hzero]; rfl, fun _ _ => rfl, rfl,
        rfl⟩
  have hmem : σ₃.mem = σ.mem := by rw [hmem₃, hmem₂, hmem₁]
  refine ⟨(σ₃.setGpr .rsp (addr (σ₃.gpr .rsp) 8)).setGpr .rbp (σ₃.mem.load (σ₃.gpr .rsp) 8),
    ?_, ⟨?_, ?_, ?_, ?_⟩, ?_, ?_, ?_⟩
  · have hpop : l.saved.reverse.map popInstr = gs.reverse.map fun r => popInstr (.gpr r) := by
      rw [hgs, ← List.map_reverse, List.map_map]
      rfl
    rw [Layout.teardown, hpop, execAll_append_ok h₁, execAll_append_ok h₂, execAll_append_ok h₃,
      execAll_cons_ok (exec_pop σ₃ .rbp), execAll_nil]
  · rw [State.setGpr_gpr_of_ne _ _ (by decide), State.setGpr_gpr, hrsp₃, addr_addr]
    exact addr_zero _
  · rw [State.setGpr_gpr_of_ne _ _ (by decide), State.setGpr_gpr, hrsp₃, addr_addr,
      State.setGpr_mem, State.setGpr_mem, hmem]
    exact h.returnAddress
  · intro g hg
    have hg' : g ≠ .rsp := fun e => by rw [e, keeps_rsp] at hg; cases hg
    by_cases hgp : g = .rbp
    · subst hgp
      rw [State.setGpr_gpr, hrsp₃, hmem, h.framePointer]
    · rw [State.setGpr_gpr_of_ne _ _ hgp, State.setGpr_gpr_of_ne _ _ hg', hgpr₃ g hg']
      by_cases hmemg : g ∈ gs
      · obtain ⟨k, hk, hkg⟩ := List.getElem_of_mem hmemg
        have hk' : gs[k]? = some g := by rw [List.getElem?_eq_getElem hk, hkg]
        rw [hback k g hk', hmem₁]
        exact h.pushed k g (by rw [hgs, List.getElem?_map, hk']; rfl)
      · rw [hgpr₂ g hg' hmemg, hgpr₁ g hg']
        exact h.gpr g hg hgp (by rw [hgs]; simpa using hmemg)
  · intro x hx
    rw [State.setGpr_xmm, State.setGpr_xmm, hxmm₃, hxmm₂, hxmm₁]
    exact h.xmm x hx
  · intro g hg hg'
    have hgp : g ≠ .rbp := fun e => by rw [e, keeps_rbp] at hg; cases hg
    have hmemg : g ∉ gs := fun e => by
      have := hkeeps (.gpr g) (by rw [hgs]; exact List.mem_map_of_mem e)
      rw [hg] at this
      cases this
    rw [State.setGpr_gpr_of_ne _ _ hgp, State.setGpr_gpr_of_ne _ _ hg', hgpr₃ g hg',
      hgpr₂ g hg' hmemg, hgpr₁ g hg']
  · rw [State.setGpr_xmm, State.setGpr_xmm, hxmm₃, hxmm₂, hxmm₁]
  · rw [State.setGpr_mem, State.setGpr_mem, hmem]

end NativeCode.Frame
