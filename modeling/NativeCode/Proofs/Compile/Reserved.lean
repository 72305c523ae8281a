import NativeCode.Proofs.Compile.Typing
import NativeCode.Proofs.Frame.Regions

/-!
# The stack of a compiled function

The frame of a compiled function is laid out for what its code has asked for: slots for parameters,
results and allocations, and space for the arguments of its calls. Every stack argument is stored
relative to the stack pointer, inside of the space that the prologue reserves, and a function whose
locals lie in the red zone neither calls nor pushes.
-/

namespace NativeCode.Frame

def Needs.Asked (n : Needs) : Prop :=
  ∃ rs : List Request, (∀ r ∈ rs, r.Valid) ∧ (Ledger.after rs).needs = n

namespace Needs.Asked

variable {n n' : Needs}

lemma empty : Asked {} := ⟨[], by simp, rfl⟩

lemma serve (h : n.Asked) {r : Request} (hr : r.Valid)
    (hn : ∀ g : Ledger, g.needs = n → (g.serve r).needs = n') : n'.Asked := by
  obtain ⟨rs, hrs, hneeds⟩ := h
  refine ⟨rs ++ [r], ?_, ?_⟩
  · intro q hq
    rcases List.mem_append.mp hq with hq | hq
    · exact hrs q hq
    · rw [List.mem_singleton.mp hq]
      exact hr
  · unfold Ledger.after Ledger.serveAll
    rw [List.foldl_append]
    exact hn _ hneeds

lemma allocate (h : n.Asked) {bytes : Nat} {d : Int} (hn : n.allocate bytes = .ok (d, n')) :
    n'.Asked := by
  refine h.serve (r := .slot bytes) trivial fun g hg => ?_
  subst hg
  rw [Ledger.serve, hn]

lemma noteCall (h : n.Asked) {bytes : Int} (hbytes : 0 ≤ bytes) : (n.noteCall bytes).Asked :=
  h.serve (r := .call bytes) hbytes fun g hg => by rw [← hg]; rfl

end Needs.Asked

end NativeCode.Frame

namespace NativeCode.Compile

open Abi NativeCode.Frame Machine Selection
open Selection (Session)

variable {o : Options} {f : Ir.Function} {s s' start : Session} {c : Machine.Function}

/-! ### Requests -/

lemma Homes.asked {index : Nat} {ps : List (Ir.Param × Placement)} {code : List Instr}
    (h : Homes index ps s code s') (hs : s.frame.Asked) : s'.frame.Asked := by
  induction h with
  | nil => exact hs
  | stays _ _ _ ih => exact ih hs
  | home _ hframe _ _ ih => exact ih (hs.allocate hframe)

lemma asked_instrCode {i : Ir.Instr} {site : Site} {u : Unit} (hs : s.frame.Asked)
    (h : Yields (instrCode i) site s u s') : s'.frame.Asked := by
  obtain ⟨n, hnoted, houtcome⟩ := exists_outcome h
  have hn : n.Asked := by
    unfold Noted at hnoted
    split at hnoted
    · obtain ⟨tys, placements, -, -, rfl⟩ := hnoted
      refine hs.noteCall (le_trans ?_ (shadowSpace_le_outgoingBytes _ placements))
      cases hc : site.options.convention <;> simp [Options.target, hc, Convention.target, sysv, win64]
    · rw [hnoted]
      exact hs
  generalize s'.frame = n', s'.values = vs at houtcome
  cases houtcome with
  | none => exact hn
  | home _ hn' | address _ _ hn' => exact hn.allocate hn'
  | constant => exact hn

lemma Stretches.asked {xs : List Stretch} (h : Stretches o s xs s') (hs : s.frame.Asked) :
    s'.frame.Asked := by
  refine (h.invariant (P := fun s => s.frame.Asked) hs (fun x hx hselected hbefore => ?_)
    fun s s' hresumes hs => ?_).1
  · have hyields := hselected.yields
    cases hconstruct : x.construct with
    | instr i =>
      rw [hconstruct] at hyields
      exact asked_instrCode hbefore hyields
    | term t next =>
      rw [hconstruct] at hyields
      rw [(alike_leave hyields).frame]
      exact hbefore
  · obtain ⟨code, labels, rfl⟩ := hresumes
    exact hs

/-! ### Functions -/

/-- The code of a function keeps to the frame `l`: the prologue sets it up, what is stored at the
stack pointer lies in the space for arguments, every stack argument is stored there, and nothing is
called or pushed when the locals lie in the red zone. -/
structure Framed (o : Options) (f : Ir.Function) (c : Machine.Function) (l : Layout) : Prop where
  prologue : ∃ homing, c.prologue = l.prologue ++ homing ∧
    ∀ i ∈ homing ++ c.blocks.flatMap (·.code),
      (∀ d, i.dst? = some (.offset (.ofGpr .rsp) d) → 0 ≤ d ∧ d + 8 ≤ l.outgoing) ∧
      (l.usesRedZone = true → i.op ≠ .call ∧ i.op ≠ .push)
  entered : ∀ p σ₀, ∃ σ, execAll p l.prologue σ₀ = .ok σ ∧
    σ.gpr .rsp = addr (σ.gpr .rbp) (-l.drop) ∧
    ∀ (k : Nat) g, l.saved[k]? = some (.gpr g) → ∃ d ∈ l.pushedArea, d + 7 ∈ l.pushedArea ∧
      σ.mem.load (addr (σ.gpr .rbp) d) 8 = σ₀.gpr g
  arguments : WellFormed.Sound f → ∀ b, f.Reached b → ∀ i ∈ b.instrs, ∀ name,
    i.kind = .call name → ∃ tys placements,
      List.Forall₂ (fun x ty => f.typeOf? x = some ty) i.operands tys ∧
      o.target.place tys = .ok placements ∧
      ∀ p ∈ placements, ∀ offset, p.place = .stack offset →
        ∃ j ∈ c.blocks.flatMap (·.code), ∃ r, j.op = .mov .quad ∧
          j.operands = [.full r, .offset (.ofGpr .rsp) offset]

namespace Parts

variable (parts : Parts o f start c)

theorem asked : parts.last.frame.Asked := by
  obtain ⟨placements, -, -, hhomes⟩ := parts.exists_homes
  obtain ⟨xs, hxs, -, -⟩ := parts.exists_selected
  exact hxs.asked (hhomes.asked .empty)

lemma store_of_tame {i : Instr} (h : Tame o.target parts.last i) {d : Int}
    (hd : (parts.last.temps.boundInstr i).dst? = some (.offset (.ofGpr .rsp) d)) :
    0 ≤ d ∧ d + 8 ≤ parts.last.frame.outgoing := by
  rw [dst?_bound, Option.map_eq_some_iff] at hd
  obtain ⟨x, hx, hbound⟩ := hd
  cases h with
  | call name hop =>
    rw [Instr.dst?, hop] at hx
    cases hx
  | plain hop hdst =>
    cases hdst x hx with
    | reg | slot | symbol => cases hbound
    | outgoing h₀ h₁ =>
      cases hbound
      exact ⟨h₀, h₁⟩
    | @pointer id cls hlt =>
      have hget := Array.getElem?_eq_getElem hlt
      rw [Temps.boundOperand, Temps.boundReg_temp hget] at hbound
      obtain ⟨hrsp, -⟩ := pool_of_temp parts.inv hget
      simp only [Operand.mem.injEq, Mem.mk.injEq, Reg.phys.injEq] at hbound
      exact absurd hbound.1 hrsp

/-- A line between prologue and epilogue stores what it stores at the stack pointer in the space for
arguments, and neither calls nor pushes unless there are calls. -/
lemma keeps_of_bodyLine {i : Instr} (h : BodyLine o.target parts.last (.instr i)) :
    (∀ d, (parts.last.temps.boundInstr i).dst? = some (.offset (.ofGpr .rsp) d) →
        0 ≤ d ∧ d + 8 ≤ parts.last.frame.outgoing) ∧
      (parts.last.frame.hasCalls = false → i.op ≠ .call ∧ i.op ≠ .push) := by
  cases h with
  | tame h =>
    refine ⟨fun d hd => parts.store_of_tame h hd, fun hcalls => ?_⟩
    cases h with
    | call name hop hargs hcalls' =>
      rw [hcalls] at hcalls'
      cases hcalls'
    | plain hop =>
      refine ⟨fun h => ?_, fun h => ?_⟩
      all_goals
        rw [h] at hop
        cases hop
  | jump l h =>
    rcases h.op with hop | ⟨cond, hop⟩ <;> simp [Instr.dst?, hop, Opcode.writesLast]
  | trap hop => simp [Instr.dst?, hop, Opcode.writesLast]

lemma exists_bodyLine_of_mem {i : Instr}
    (h : i ∈ parts.homing.map parts.last.temps.boundInstr ++ c.blocks.flatMap (·.code)) :
    ∃ j, BodyLine o.target parts.last (.instr j) ∧ i = parts.last.temps.boundInstr j := by
  rcases List.mem_append.mp h with h | h
  · obtain ⟨j, hj, rfl⟩ := List.mem_map.mp h
    exact ⟨j, .tame (parts.tame_homing j hj), rfl⟩
  · rw [parts.blocks_eq, List.flatMap_map, List.mem_flatMap] at h
    obtain ⟨b, hb, hi⟩ := h
    obtain ⟨j, hj, rfl⟩ := List.mem_map.mp hi
    refine ⟨j, parts.bodyLine _ (List.mem_flatMap.mpr ⟨b, hb, ?_⟩), rfl⟩
    exact List.mem_cons_of_mem _ (List.mem_map_of_mem hj)

lemma exists_entered (p : Platform) (σ₀ : State) :
    ∃ σ, execAll p parts.frame.prologue σ₀ = .ok σ ∧
      σ.gpr .rsp = addr (σ.gpr .rbp) (-parts.frame.drop) ∧
      ∀ (k : Nat) g, parts.frame.saved[k]? = some (.gpr g) →
        ∃ d ∈ parts.frame.pushedArea, d + 7 ∈ parts.frame.pushedArea ∧
          σ.mem.load (addr (σ.gpr .rbp) d) 8 = σ₀.gpr g := by
  obtain ⟨σ, hσ, hframe, -⟩ :=
    exists_inFrame_of_prologue (p := p) (c := o.convention) parts.moderate σ₀
  refine ⟨σ, hσ, ?_, fun k g hk => ⟨-parts.frame.adjust - 8 * (k + 1), ?_, ?_, ?_⟩⟩
  · rw [hframe.rsp, hframe.rbp, addr_addr]
    congr 1
    unfold Layout.depth Layout.drop
    omega
  all_goals have hlt : k < parts.frame.saved.length := (List.getElem?_eq_some_iff.mp hk).1
  · rw [Layout.pushedArea, Set.mem_Ico]
    omega
  · rw [Layout.pushedArea, Set.mem_Ico]
    omega
  · rw [hframe.rbp, addr_addr, ← hframe.pushed k g hk]
    congr 2
    unfold Layout.pushSlot
    omega

lemma exists_argumentStore (parts : Parts o f start c) (hf : WellFormed.Sound f)
    {b : Ir.Block} (hb : f.Reached b) {i : Ir.Instr} (hi : i ∈ b.instrs) {name : String}
    (hkind : i.kind = .call name) :
    ∃ tys placements, List.Forall₂ (fun x ty => f.typeOf? x = some ty) i.operands tys ∧
      o.target.place tys = .ok placements ∧
      ∀ p ∈ placements, ∀ offset, p.place = .stack offset →
        ∃ j ∈ c.blocks.flatMap (·.code), ∃ r, j.op = .mov .quad ∧
          j.operands = [.full r, .offset (.ofGpr .rsp) offset] := by
  obtain ⟨xs, hxs, hconstructs, hcode, -, htyped⟩ := parts.exists_stretches hf
  have hmem := instr_mem_constructs (parts.mem_order hf hb) hi
  rw [← hconstructs, List.mem_map] at hmem
  obtain ⟨x, hx, hconstruct⟩ := hmem
  have hselected := (hxs.later_of_mem hx).1
  have hyields : Yields (call i name) x.site x.before () x.after := by
    have h := hselected.yields
    rw [hconstruct, Construct.select, instrCode, hkind] at h
    exact h
  obtain ⟨is, tys, placements, he, htys, hplace, hstores⟩ := emits_call hyields
  rw [hselected.options] at hplace
  refine ⟨tys, placements, htys.imp fun y ty hy => ?_, hplace, fun p hp offset hoffset => ?_⟩
  · obtain ⟨r, hr, rfl⟩ := hy
    exact (htyped x hx).1.typeOf?_of_reach hr
  · obtain ⟨r, hr⟩ := hstores p hp offset hoffset
    have hxcode : x.code = is := List.append_cancel_left (hselected.code.symm.trans he.code)
    have hjcode : x.site.argumentStore r offset ∈ parts.blocks.flatMap (·.code) := by
      rw [hcode, List.mem_flatMap]
      exact ⟨x, hx, hxcode ▸ hr⟩
    refine ⟨parts.last.temps.boundInstr (x.site.argumentStore r offset), ?_,
      parts.last.temps.boundReg r, rfl, rfl⟩
    obtain ⟨b, hb, hj⟩ := List.mem_flatMap.mp hjcode
    rw [parts.blocks_eq, List.flatMap_map, List.mem_flatMap]
    exact ⟨b, hb, List.mem_map_of_mem hj⟩

lemma framed : Framed o f c parts.frame := by
  obtain ⟨rs, hrs, hneeds⟩ := parts.asked
  have hapart := Ledger.apart_of_layout (c := o.convention) hrs (hneeds ▸ parts.layout)
  have houtgoing := parts.sound.outgoing_ge
  refine ⟨⟨_, parts.prologue_eq, fun i hi => ?_⟩, parts.exists_entered,
    fun hf b hb i hi name hkind => parts.exists_argumentStore hf hb hi hkind⟩
  obtain ⟨j, hj, rfl⟩ := parts.exists_bodyLine_of_mem hi
  obtain ⟨hstore, hquiet⟩ := parts.keeps_of_bodyLine hj
  refine ⟨fun d hd => ?_, fun hzone => hquiet ?_⟩
  · obtain ⟨h₀, h₁⟩ := hstore d hd
    exact ⟨h₀, h₁.trans houtgoing⟩
  · rw [← hneeds]
    exact (hapart.redZone hzone).1

end Parts

/-- Whatever is asked of a frame, slots and regions do not overlap, and a slot that is refused changes
nothing. The frame of a compiled function is such a frame, and its code keeps to it. -/
theorem regions_apart :
    (∀ (c : Convention) (rs : List Request), (∀ r ∈ rs, r.Valid) →
      (Ledger.after rs).Separate ∧
      (∀ saved limit l, (Ledger.after rs).needs.layout c.target saved limit = .ok l →
        l.Apart (Ledger.after rs) ∧ ∀ bytes, .call bytes ∈ rs → bytes ≤ l.outgoing) ∧
      ∀ bytes, ((∃ e, (Ledger.after rs).needs.allocate bytes = .error e) ↔
          2147483647 < (Ledger.after rs).needs.locals + roundUp (max bytes 8) 8) ∧
        ∀ e, (Ledger.after rs).needs.allocate bytes = .error e →
          (Ledger.after rs).serve (.slot bytes) = Ledger.after rs) ∧
    ∀ (o : Options) (f : Ir.Function) (start : Session) (c : Compiled) (s : Session),
      (compileFunction o f).run start = .ok (c, s) → ∃ rs l, (∀ r ∈ rs, r.Valid) ∧
        (Ledger.after rs).needs.layout o.target (s.temps.saved o.target) o.maxFrame = .ok l ∧
        Framed o f c.code l := by
  refine ⟨fun c rs hrs => ⟨Ledger.separate_after hrs, fun saved limit l hl => ?_,
    fun bytes => ⟨Needs.allocate_eq_error_iff, fun e he => ?_⟩⟩, fun o f start c s h => ?_⟩
  · have hinv := Ledger.inv_after hrs
    have hsound := Needs.layout_eq_ok hinv.locals hinv.outgoing hl
    exact ⟨Ledger.apart_of_layout hrs hl, fun bytes hbytes =>
      (Ledger.call_le_outgoing hbytes).trans hsound.outgoing_ge⟩
  · rw [Ledger.serve, he]
  · obtain ⟨parts, rfl⟩ := exists_parts h
    obtain ⟨rs, hrs, hneeds⟩ := parts.asked
    exact ⟨rs, parts.frame, hrs, hneeds ▸ parts.layout, parts.framed⟩

/-- A call with more arguments than there are registers for them. -/
def callsWithSeven : Ir.Instr where
  kind := .call "g"
  ty := .void
  operands := List.replicate 7 (.const .i64 5)

def passesOnStack : Ir.Function where
  blocks := [{ instrs := [callsWithSeven], term := { exit := .ret } }]

lemma isOk_passesOnStack : ((compileFunction {} passesOnStack).run {}).isOk = true := by
  decide +kernel

/-- Two slots around a call do not overlap, and the seventh argument of a call is stored at the stack
pointer, inside of the space for arguments. -/
theorem regions_apart_passesOnStack :
    (∃ a b, (Ledger.after [.slot 12, .call 40, .slot 8]).slots = [b, a] ∧
      Disjoint b.range a.range) ∧
    ∃ c s l, (compileFunction {} passesOnStack).run {} = .ok (c, s) ∧
      Framed {} passesOnStack c.code l ∧ 8 ≤ l.outgoing ∧
      ∃ j ∈ c.code.blocks.flatMap (·.code), j.dst? = some (.offset (.ofGpr .rsp) 0) := by
  have hseparate := (regions_apart.1 .sysv [.slot 12, .call 40, .slot 8]
    (by simp [Request.Valid])).1
  refine ⟨⟨⟨-16, 12⟩, ⟨-24, 8⟩, rfl, (List.pairwise_cons.mp hseparate.apart).1 _ (by decide)⟩, ?_⟩
  cases hrun : (compileFunction {} passesOnStack).run {} with
  | error e =>
    have hok := isOk_passesOnStack
    rw [hrun] at hok
    cases hok
  | ok r =>
    obtain ⟨rs, l, -, -, hframed⟩ := regions_apart.2 {} passesOnStack {} r.1 r.2 hrun
    have hsound : WellFormed.Sound passesOnStack :=
      sound_of_checkModule (m := { functions := [passesOnStack] }) (by decide) List.mem_cons_self
    obtain ⟨tys, placements, htys, hplace, hstores⟩ := hframed.arguments hsound _ (.entry rfl)
      callsWithSeven List.mem_cons_self "g" rfl
    have heq : tys = List.replicate 7 .i64 := by
      obtain ⟨hlen, htypes⟩ := List.forall₂_iff_get.mp htys
      refine List.eq_replicate_iff.mpr ⟨hlen.symm, fun ty hty => ?_⟩
      obtain ⟨k, rfl⟩ := List.get_of_mem hty
      have hlt : k.val < callsWithSeven.operands.length := hlen.symm ▸ k.isLt
      have hk := htypes k hlt k.isLt
      have hoperand : callsWithSeven.operands.get ⟨k, hlt⟩ = .const .i64 5 :=
        List.eq_of_mem_replicate (List.get_mem _ _)
      rw [hoperand] at hk
      exact (Option.some.inj hk).symm
    subst heq
    cases hplace
    obtain ⟨j, hj, q, hop, hops⟩ := hstores ⟨.gpr, .stack 0⟩ (by decide) 0 rfl
    have hdst : j.dst? = some (.offset (.ofGpr .rsp) 0) := by
      rw [Instr.dst?, hop, hops]
      rfl
    obtain ⟨homing, -, hkept⟩ := hframed.prologue
    have hspace := ((hkept j (List.mem_append_right _ hj)).1 0 hdst).2
    exact ⟨r.1, r.2, l, rfl, hframed, by omega, j, hj, hdst⟩

end NativeCode.Compile
