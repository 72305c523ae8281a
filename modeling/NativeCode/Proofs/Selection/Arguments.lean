import NativeCode.Proofs.Selection.Temporaries
import NativeCode.Proofs.Selection.Words

/-!
# Arguments of a call

The code of a call first stores the arguments that travel on the stack at the stack pointer, and then
loads those that travel in registers. An operand is read from the frame, from a literal or from a
symbol, and never from a place of another argument. So in the end the word of every argument is in its
place.
-/

namespace NativeCode.Selection

open Ir (Ty)
open Abi Machine

variable {p : Platform} {τ : Temps} {site : Site} {s s' s'' : Session} {σ σ' σ'' : State}
  {args : List (Ir.Operand × Placement)} {drop n : Int} {u : Unit}

/-- The word `w` of a value of type `ty` is in a place. Slots are counted from the address `base`, and
of a float only the bits that its type has are in a vector register. -/
def Arrives (base : Word) (σ : State) (ty : Ty) (w : Word) : Place → Prop
  | .register (.gpr g) => σ.gpr g = w
  | .register (.xmm x) => (precision ty).low (σ.xmm x) = (precision ty).width.zeroExtend w
  | .stack offset => σ.mem.load (addr base offset) 8 = w

/-- An operand that does not lie in the `n` bytes from `drop` bytes below the frame pointer on. -/
def Source.Clear (drop n : Int) (v : Source) : Prop :=
  ∀ r, v = .residence r → r.access = .home →
    -drop + n ≤ r.disp ∧ r.disp + 8 ≤ -drop + 18446744073709551616

lemma Source.word_of_clear {v : Source} (hv : v.Clear drop n)
    (hσ : σ.gpr .rsp = addr (σ.gpr .rbp) (-drop)) (hrbp : σ'.gpr .rbp = σ.gpr .rbp)
    (hmem : ∀ e, n ≤ e → e < 18446744073709551616 →
      σ'.mem (addr (σ.gpr .rsp) e) = σ.mem (addr (σ.gpr .rsp) e)) :
    v.word p σ' = v.word p σ := by
  rcases v with asm | ⟨access, ty, d, bits⟩
  · rfl
  · cases access with
    | home =>
      obtain ⟨hlow, hhigh⟩ := hv _ rfl rfl
      simp only [word, hrbp]
      refine Memory.load_addr_congr fun e he he' => ?_
      have heq : addr (σ.gpr .rbp) e = addr (σ.gpr .rsp) (e + drop) := by
        rw [hσ, addr_addr]
        congr 1
        omega
      dsimp only at hlow hhigh
      rw [heq]
      exact hmem _ (by omega) (by omega)
    | address => simp only [word, hrbp]
    | constant => rfl

/-! ### Arguments on the stack -/

/-- The arguments on the stack are in their slots, and no other byte has changed. -/
structure Stacked (p : Platform) (s : Session) (args : List (Ir.Operand × Placement))
    (σ σ' : State) : Prop where
  rsp : σ'.gpr .rsp = σ.gpr .rsp
  rbp : σ'.gpr .rbp = σ.gpr .rbp
  arrived : ∀ a ∈ args, ∀ offset, a.2.place = .stack offset → ∃ v, s.source? a.1 = some v ∧
    σ'.mem.load (addr (σ.gpr .rsp) offset) 8 = v.word p σ
  rest : ∀ e, (∀ a ∈ args, ∀ offset, a.2.place = .stack offset → Apart offset 8 e 1) →
    σ'.mem (addr (σ.gpr .rsp) e) = σ.mem (addr (σ.gpr .rsp) e)

/-- The space of `n` bytes at the stack pointer holds all slots, and no operand lies in it. -/
structure Spaced (s : Session) (drop n : Int) (args : List (Ir.Operand × Placement)) : Prop where
  slots : ∀ a ∈ args, ∀ offset, a.2.place = .stack offset → 0 ≤ offset ∧ offset + 8 ≤ n
  clear : ∀ a ∈ args, ∀ v, s.source? a.1 = some v → v.Clear drop n
  apart : args.Pairwise fun a b => a.2.place.Apart b.2.place
  small : n ≤ 4294967296

lemma Spaced.tail {a : Ir.Operand × Placement} (h : Spaced s drop n (a :: args))
    (hs : s.Alike s') : Spaced s' drop n args where
  slots b hb := h.slots b (List.mem_cons_of_mem _ hb)
  clear b hb v hv := h.clear b (List.mem_cons_of_mem _ hb) v (hs.source? b.1 ▸ hv)
  apart := h.apart.of_cons
  small := h.small

lemma Stacked.word (h : Stacked p s args σ σ') (hspaced : Spaced s drop n args)
    (hσ : σ.gpr .rsp = addr (σ.gpr .rbp) (-drop)) {v : Source} (hv : v.Clear drop n) :
    v.word p σ' = v.word p σ := by
  refine Source.word_of_clear hv hσ h.rbp fun e he he' => h.rest e fun a ha offset hoffset => ?_
  obtain ⟨hlow, hhigh⟩ := hspaced.slots a ha offset hoffset
  exact Or.inl ⟨by push_cast; omega, by push_cast; omega⟩

theorem exists_runs_stackArguments (h : Yields (stackArguments args) site s u s')
    (hτ : s'.temps.Grows τ) (hspaced : Spaced s drop n args)
    (hσ : σ.gpr .rsp = addr (σ.gpr .rbp) (-drop)) :
    ∃ σ', Runs p τ s s' σ (.ok σ') ∧ Stacked p s args σ σ' := by
  induction args generalizing s σ with
  | nil =>
    obtain ⟨-, rfl⟩ := yields_pure.mp h
    exact ⟨σ, .refl rfl, rfl, rfl, by simp, fun _ _ => rfl⟩
  | cons a args ih =>
    obtain ⟨o, placement⟩ := a
    obtain ⟨s₁, h', ⟨r, hplace, rfl⟩ | ⟨offset, t, s₂, hplace, ht, rfl⟩⟩ :=
      stackArguments_cons_cases h
    · obtain ⟨σ', hruns, hrsp, hrbp, harrived, hrest⟩ := ih h' (hspaced.tail (.refl _)) hσ
      refine ⟨σ', hruns, hrsp, hrbp, List.forall_mem_cons.mpr ⟨fun offset hoffset => ?_, harrived⟩,
        fun e he => hrest e fun b hb => he b (List.mem_cons_of_mem _ hb)⟩
      rw [hplace] at hoffset
      cases hoffset
    · have halike : s.Alike (s₂.push (site.instr (.mov .quad) [.full t, .offset (.ofGpr .rsp) offset])) :=
        (alike_loadGpr ht).trans (.push _ _)
      obtain ⟨v, g, hv, hg, hload⟩ := exists_runs_loadGpr (p := p) (τ := τ) ht
        ((brings_stackArguments h').grown.1.trans hτ)
      obtain ⟨hlow, hhigh⟩ := hspaced.slots (o, placement) List.mem_cons_self offset hplace
      have hsmall := hspaced.small
      -- the word goes through a temporary into its slot
      let σ₁ := σ.setGpr g (v.word p σ)
      let σ₂ : State := { σ₁ with mem := σ.mem.store (addr (σ.gpr .rsp) offset) 8 (v.word p σ) }
      have hgpr (q : Gpr) (hq : q ∈ [Gpr.rax, .rcx, .rdx, .rsp, .rbp]) : σ₂.gpr q = σ.gpr q :=
        σ.setGpr_gpr_of_ne _ fun e => hg.task (e ▸ hq)
      have hstore : exec p (τ.boundInstr
          (site.instr (.mov .quad) [.full t, .offset (.ofGpr .rsp) offset])) σ₁ = .ok σ₂ := by
        have hread : σ₁.read p .quad (τ.boundOperand (.full t)) = .ok (v.word p σ) := by
          rw [read_full hg.bound, State.setGpr_gpr]
        have hplace : σ₁.place p (τ.boundOperand (.offset (.ofGpr .rsp) offset)) =
            .ok (addr (σ.gpr .rsp) offset) := by
          rw [← hgpr .rsp (by simp)]
          rfl
        exact exec_mov_mem rfl rfl hread hplace
      have hrsp₂ : σ₂.gpr .rsp = σ.gpr .rsp := hgpr _ (by simp)
      have hrbp₂ : σ₂.gpr .rbp = σ.gpr .rbp := hgpr _ (by simp)
      have hword (v' : Source) (hv' : v'.Clear drop n) : v'.word p σ₂ = v'.word p σ :=
        Source.word_of_clear hv' hσ hrbp₂ fun e he he' =>
          Memory.store_apart _ _ _ (Or.inl ⟨by push_cast; omega, by push_cast; omega⟩)
      obtain ⟨σ', hruns, hrsp, hrbp, harrived, hrest⟩ :=
        ih h' (hspaced.tail halike) (by rw [hrsp₂, hrbp₂, hσ])
      rw [hrsp₂] at hrsp harrived hrest
      rw [hrbp₂] at hrbp
      refine ⟨σ', (hload σ).trans ((Runs.push hstore).trans hruns), hrsp, hrbp, ?_, ?_⟩
      · intro a ha d hd
        rcases List.mem_cons.mp ha with rfl | ha
        · rw [hplace] at hd
          cases hd
          refine ⟨v, hv, ?_⟩
          rw [Memory.load_addr_congr fun e he he' => hrest e fun b hb d hd => ?_]
          · exact (Memory.load_store_self σ.mem _ .quad _).trans (Width.zeroExtend_quad _)
          · have hapart := (List.pairwise_cons.mp hspaced.apart).1 b hb
            rw [hplace, hd] at hapart
            have hslot := hspaced.slots b (List.mem_cons_of_mem _ hb) d hd
            rcases hapart with hapart | hapart
            · exact Or.inr ⟨by push_cast; omega, by push_cast; omega⟩
            · exact Or.inl ⟨by push_cast; omega, by push_cast; omega⟩
        · obtain ⟨v', hv', hload'⟩ := harrived a ha d hd
          rw [halike.source?] at hv'
          rw [hword v' (hspaced.clear a (List.mem_cons_of_mem _ ha) v' hv')] at hload'
          exact ⟨v', hv', hload'⟩
      · intro e he
        rw [hrest e fun b hb => he b (List.mem_cons_of_mem _ hb)]
        exact Memory.store_apart _ _ _ (he _ List.mem_cons_self offset hplace)

/-! ### Arguments in registers -/

/-- The arguments in registers are there, and no other parameter register has changed. -/
structure Loaded (p : Platform) (t : Target) (s : Session) (args : List (Ir.Operand × Placement))
    (σ σ' : State) : Prop where
  mem : σ'.mem = σ.mem
  rsp : σ'.gpr .rsp = σ.gpr .rsp
  rbp : σ'.gpr .rbp = σ.gpr .rbp
  arrived : ∀ a ∈ args, ∀ r, a.2.place = .register r → ∃ v, s.source? a.1 = some v ∧
    ∀ ty, (s.reach? a.1).map (·.ty) = some ty →
      Arrives (σ.gpr .rsp) σ' ty (v.word p σ) (.register r)
  gpr : ∀ g, .gpr g ∈ t.intArgs → (∀ a ∈ args, a.2.place ≠ .register (.gpr g)) →
    σ'.gpr g = σ.gpr g
  xmm : ∀ x, (∀ a ∈ args, a.2.place ≠ .register (.xmm x)) → σ'.xmm x = σ.xmm x

lemma Loaded.cons {t : Target} {o : Ir.Operand} {placement : Placement} {r : PhysReg}
    {v : Source} {σ₁ : State} (h : Loaded p t s' args σ₁ σ')
    (hplace : placement.place = .register r)
    (hv : s.source? o = some v) (hs : s.Alike s')
    (hapart : ∀ a ∈ args, placement.place.Apart a.2.place)
    (hargs : r ∈ t.args r.cls) (hmem : σ₁.mem = σ.mem) (hrsp : σ₁.gpr .rsp = σ.gpr .rsp)
    (hrbp : σ₁.gpr .rbp = σ.gpr .rbp)
    (harrived : ∀ ty, (s.reach? o).map (·.ty) = some ty →
      Arrives (σ.gpr .rsp) σ₁ ty (v.word p σ) (.register r))
    (hgpr : ∀ g, .gpr g ∈ t.intArgs → r ≠ .gpr g → σ₁.gpr g = σ.gpr g)
    (hxmm : ∀ x, r ≠ .xmm x → σ₁.xmm x = σ.xmm x) :
    Loaded p t s ((o, placement) :: args) σ σ' := by
  have hnot (a : Ir.Operand × Placement) (ha : a ∈ args) : a.2.place ≠ .register r := fun heq => by
    have h := hapart a ha
    rw [hplace, heq] at h
    exact h rfl
  have hwords (v' : Source) : v'.word p σ₁ = v'.word p σ := v'.word_congr hmem hrbp
  refine ⟨h.mem.trans hmem, h.rsp.trans hrsp, h.rbp.trans hrbp, ?_, ?_, ?_⟩
  · intro a ha q hq
    rcases List.mem_cons.mp ha with rfl | ha
    · rw [hplace] at hq
      cases hq
      refine ⟨v, hv, fun ty hty => ?_⟩
      have harrived := harrived ty hty
      cases r with
      | gpr g => exact (h.gpr g hargs hnot).trans harrived
      | xmm x =>
        rw [Arrives, h.xmm x hnot]
        exact harrived
    · obtain ⟨v', hv', hall⟩ := h.arrived a ha q hq
      rw [hs.source?] at hv'
      have hreach : s'.reach? a.1 = s.reach? a.1 := hs.reach? a.1
      refine ⟨v', hv', fun ty hty => ?_⟩
      have h' := hall ty (hreach ▸ hty)
      rwa [hwords v', hrsp] at h'
  · intro g hg hnone
    rw [h.gpr g hg fun a ha => hnone a (List.mem_cons_of_mem _ ha)]
    exact hgpr g hg fun heq => hnone _ List.mem_cons_self (heq ▸ hplace)
  · intro x hnone
    rw [h.xmm x fun a ha => hnone a (List.mem_cons_of_mem _ ha)]
    exact hxmm x fun heq => hnone _ List.mem_cons_self (heq ▸ hplace)

theorem exists_runs_registerArguments (h : Yields (registerArguments args) site s u s')
    (hτ : s'.temps.Grows τ)
    (hfits : ∀ a ∈ args, ∀ r, a.2.place = .register r → r ∈ site.target.args a.2.cls)
    (hapart : args.Pairwise fun a b => a.2.place.Apart b.2.place) :
    ∃ σ', Runs p τ s s' σ (.ok σ') ∧ Loaded p site.target s args σ σ' := by
  induction args generalizing s σ with
  | nil =>
    obtain ⟨-, rfl⟩ := yields_pure.mp h
    exact ⟨σ, .refl rfl, rfl, rfl, rfl, by simp, fun _ _ _ => rfl, fun _ _ => rfl⟩
  | cons a args ih =>
    obtain ⟨o, placement⟩ := a
    obtain ⟨hhead, htail⟩ := List.pairwise_cons.mp hapart
    have hrest := fun b hb => hfits b (List.mem_cons_of_mem _ hb)
    obtain ⟨s₁, h', ⟨offset, hplace, rfl⟩ | ⟨r, hplace, hcls, ha⟩ | ⟨r, hplace, hcls, ha⟩⟩ :=
      registerArguments_cons_cases h
    · obtain ⟨σ', hruns, hloaded⟩ := ih (σ := σ) h' hrest htail
      refine ⟨σ', hruns, hloaded.mem, hloaded.rsp, hloaded.rbp,
        List.forall_mem_cons.mpr ⟨fun r hr => ?_, hloaded.arrived⟩,
        fun g hg hnone => hloaded.gpr g hg fun b hb => hnone b (List.mem_cons_of_mem _ hb),
        fun x hnone => hloaded.xmm x fun b hb => hnone b (List.mem_cons_of_mem _ hb)⟩
      rw [hplace] at hr
      cases hr
    all_goals
      have hmem : r ∈ site.target.args placement.cls :=
        hfits (o, placement) List.mem_cons_self r hplace
      obtain ⟨hclass, hscratch, -, hbase⟩ := args_scratch (c := site.options.convention) hmem
      have hargs : r ∈ site.target.args r.cls := by
        rw [hclass]
        exact hmem
      rw [hcls] at hclass
    · cases r with
      | xmm x => cases hclass
      | gpr g =>
        obtain ⟨v, hv, -, hload⟩ := runs_loadGprInto (p := p) (τ := τ) (g := g) ha rfl
        obtain ⟨σ', hruns, hloaded⟩ := ih (σ := σ.setGpr g (v.word p σ)) h' hrest htail
        refine ⟨σ', (hload σ).trans hruns, hloaded.cons hplace hv (alike_loadGprInto ha) hhead hargs
          rfl (σ.setGpr_gpr_of_ne _ fun e => hscratch.2 (by rw [e]))
          (σ.setGpr_gpr_of_ne _ fun e => hbase (by rw [e])) (fun ty _ => State.setGpr_gpr _ _ _)
          (fun q _ hq => σ.setGpr_gpr_of_ne _ fun e => hq (by rw [e])) fun x _ => rfl⟩
    · cases r with
      | gpr g => cases hclass
      | xmm x =>
        obtain ⟨v, ty, hv, hty, -, hall⟩ := exists_runs_loadXmmInto (p := p) (τ := τ) (x := x) ha rfl
          ((brings_registerArguments hrest h').grown.1.trans hτ)
        obtain ⟨σ₁, w, hload, hspare, hlow⟩ := hall σ
        obtain ⟨σ', hruns, hloaded⟩ := ih (σ := σ₁.setXmm x w) h' hrest htail
        refine ⟨σ', hload.trans hruns, hloaded.cons hplace hv (alike_loadXmmInto ha) hhead hargs
          hspare.mem (hspare.gpr _ (by simp)) hspare.rbp (fun ty' hty' => ?_)
          (fun q hq _ => hspare.gpr q (Or.inr (Or.inr hq))) fun y hy => ?_⟩
        · obtain rfl := Option.some.inj (hty.symm.trans hty')
          rw [Arrives, State.setXmm_xmm]
          exact hlow
        · rw [σ₁.setXmm_xmm_of_ne w fun e => hy (by rw [e]), hspare.xmm]

/-! ### All arguments -/

/-- The code of a call in front of the call itself brings the word of every operand into its place. -/
theorem exists_runs_arguments {s₁ : Session} (hstack : Yields (stackArguments args) site s () s₁)
    (hregs : Yields (registerArguments args) site s₁ () s') (hτ : s'.temps.Grows τ)
    (hspaced : Spaced s drop n args)
    (hfits : ∀ a ∈ args, ∀ r, a.2.place = .register r → r ∈ site.target.args a.2.cls)
    (hσ : σ.gpr .rsp = addr (σ.gpr .rbp) (-drop)) :
    ∃ σ', Runs p τ s s' σ (.ok σ') ∧ σ'.gpr .rsp = σ.gpr .rsp ∧ σ'.gpr .rbp = σ.gpr .rbp ∧
      ∀ a ∈ args, ∃ v, s.source? a.1 = some v ∧ ∀ ty, (s.reach? a.1).map (·.ty) = some ty →
        Arrives (σ.gpr .rsp) σ' ty (v.word p σ) a.2.place := by
  obtain ⟨σ₁, hruns₁, hstacked⟩ := exists_runs_stackArguments (p := p) hstack
    ((brings_registerArguments hfits hregs).grown.1.trans hτ) hspaced hσ
  obtain ⟨σ', hruns', hloaded⟩ :=
    exists_runs_registerArguments (p := p) (σ := σ₁) hregs hτ hfits hspaced.apart
  have halike := alike_stackArguments hstack
  refine ⟨σ', hruns₁.trans hruns', hloaded.rsp.trans hstacked.rsp, hloaded.rbp.trans hstacked.rbp,
    fun a ha => ?_⟩
  cases hplace : a.2.place with
  | stack offset =>
    obtain ⟨v, hv, hload⟩ := hstacked.arrived a ha offset hplace
    refine ⟨v, hv, fun ty _ => ?_⟩
    rw [Arrives, hloaded.mem]
    exact hload
  | register r =>
    obtain ⟨v, hv, hall⟩ := hloaded.arrived a ha r hplace
    rw [halike.source?] at hv
    refine ⟨v, hv, fun ty hty => ?_⟩
    have harrives := hall ty (halike.reach? a.1 ▸ hty)
    rwa [hstacked.word hspaced hσ (hspaced.clear a ha v hv), hstacked.rsp] at harrives

end NativeCode.Selection
