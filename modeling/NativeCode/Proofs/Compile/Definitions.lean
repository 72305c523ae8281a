import NativeCode.Proofs.Compile.Fusion
import NativeCode.Proofs.Compile.Outcomes
import NativeCode.Proofs.ControlFlow.Dominance
import NativeCode.Proofs.Selection.Resources

/-!
# Results are found where they are read

An instruction that defines a result records its residence. The one exception is a comparison that is
fused into the branch after it: nothing else reads its result, and the branch finds it in the flags.
Blocks are emitted after the blocks that dominate them. So a result whose definition dominates its
readings is found by all of them.
-/

namespace NativeCode.Ir

/-- The instruction defines the result `id`. A store or a return does not, whatever result it names. -/
def Instr.Defines (i : Instr) (id : Nat) : Prop :=
  i.result = some id ∧ i.kind ≠ .store ∧ i.kind ≠ .ret

namespace Function

/-- The result `id` is defined whenever control has passed the instructions `before` of block `b`: by
one of them, or in a block that dominates `b`. -/
def Available (f : Function) (b : Block) (before : List Instr) (id : Nat) : Prop :=
  (∃ i ∈ before, i.Defines id) ∨ ∃ d, f.Dominates d b ∧ ∃ i ∈ d.instrs, i.Defines id

/-- In each block that control can get to, results are available where they are read. -/
structure DefinitionsDominate (f : Function) : Prop where
  instrs : ∀ path b, f.Path path b → ∀ before i after, b.instrs = before ++ i :: after →
    ∀ id, .value id ∈ i.operands → f.Available b before id
  term : ∀ path b, f.Path path b → ∀ id, b.term.value = some (.value id) →
    f.Available b b.instrs id

end Function

end NativeCode.Ir

namespace NativeCode.Selection

open Ir (Ty)

variable {site : Site} {s s' : Session} {i : Ir.Instr} {id : Nat} {u : Unit}

def Session.Finds (s : Session) (id : Nat) : Prop := (s.values.lookup id).isSome = true

lemma Session.Finds.of_suffix (h : s.Finds id) (hs : s.values <:+ s'.values) : s'.Finds id := by
  obtain ⟨new, hnew⟩ := hs
  rw [Finds, ← hnew, List.lookup_append, Option.isSome_or, Bool.or_eq_true]
  exact Or.inr h

lemma Session.finds_of_cons {r : Residence} {vs : List (Nat × Residence)}
    (h : s.values = (id, r) :: vs) : s.Finds id := by
  rw [Finds, h, List.lookup_cons_self]
  rfl

lemma finds_of_storeGpr {r : Machine.Reg} {ty : Ty}
    (h : Yields (storeGpr i r ty) site s u s') (hid : i.result = some id) : s'.Finds id := by
  obtain ⟨id', d, frame, hid', -, rfl⟩ := yields_storeGpr.mp h
  cases hid.symm.trans hid'
  exact Session.finds_of_cons rfl

lemma finds_of_storeXmm {r : Machine.Reg} {ty : Ty}
    (h : Yields (storeXmm i r ty) site s u s') (hid : i.result = some id) : s'.Finds id := by
  obtain ⟨id', d, frame, hid', -, rfl⟩ := yields_storeXmm.mp h
  cases hid.symm.trans hid'
  exact Session.finds_of_cons rfl

lemma finds_of_formCode {op : Ir.BinaryOp} {a b : Ir.Operand} {form : Form}
    (h : Yields (formCode i op a b form) site s u s') (hid : i.result = some id) :
    s'.Finds id ∨ site.flagsOnly = true ∧ s'.pending.isSome = true := by
  cases form with
  | arith alu =>
    obtain ⟨_, _, _, _, -, -, hstore⟩ := arith_cases h
    exact Or.inl (finds_of_storeGpr hstore hid)
  | divide =>
    obtain ⟨_, _, _, -, -, hstore⟩ := divide_cases h
    exact Or.inl (finds_of_storeGpr hstore hid)
  | shift toRight =>
    obtain ⟨_, _, _, _, -, -, -, hstore⟩ := shift_cases h
    exact Or.inl (finds_of_storeGpr hstore hid)
  | compare =>
    obtain ⟨_, _, _, _, _, -, -, -, ⟨hflags, rfl⟩ | ⟨-, hstore⟩⟩ := yields_compare.mp h
    · exact Or.inr ⟨hflags, rfl⟩
    · exact Or.inl (finds_of_storeGpr hstore hid)
  | floatArith f =>
    obtain ⟨_, _, _, _, -, -, hstore⟩ := floatArith_cases h
    exact Or.inl (finds_of_storeXmm hstore hid)
  | floatCompare =>
    obtain ⟨_, _, _, _, _, _, _, _, _, -, -, -, -, -, hstore⟩ := floatCompare_cases h
    exact Or.inl (finds_of_storeGpr hstore hid)

/-- What an instruction defines is found after it, or is left in the flags. -/
theorem finds_of_instrCode (h : Yields (instrCode i) site s u s') (hi : i.Defines id) :
    s'.Finds id ∨ site.flagsOnly = true ∧ s'.pending.isSome = true := by
  obtain ⟨hid, hstore, hret⟩ := hi
  unfold instrCode at h
  split at h <;> rename_i hkind
  case h_1 op =>
    obtain ⟨form, a, b, -, -, -, -, -, -, -, -, hcode⟩ := yields_binary.mp h
    exact finds_of_formCode hcode hid
  case h_2 =>
    refine Or.inl ?_
    obtain ⟨_, _, _, _, _, -, -, -, -, ⟨-, hxmm⟩ | ⟨home, s₃, -, hhome, rfl⟩⟩ := load_cases h
    · exact finds_of_storeXmm hxmm hid
    · obtain ⟨id', d, frame, hid', -, -, rfl⟩ := yields_defineHome.mp hhome
      cases hid.symm.trans hid'
      exact Session.finds_of_cons rfl
  case h_3 => exact absurd hkind hstore
  case h_4 name =>
    refine Or.inl ?_
    obtain ⟨_, _, _, _, _, _, _, -, -, -, -, -, -, ⟨hnone, -⟩ | ⟨-, hresult⟩⟩ := call_cases h
    · cases hid.symm.trans hnone
    · obtain ⟨-, ⟨-, hxmm⟩ | ⟨-, hgpr⟩⟩ := callResult_cases hresult
      · exact finds_of_storeXmm hxmm hid
      · exact finds_of_storeGpr hgpr hid
  case h_5 => exact absurd hkind hret
  case h_6 =>
    obtain ⟨id', d, frame, hid', -, rfl⟩ := alloca_cases h
    cases hid.symm.trans hid'
    exact Or.inl (Session.finds_of_cons rfl)
  case h_7 =>
    obtain ⟨_, id', _, _, -, hid', -, -, rfl⟩ := constant_cases h
    cases hid.symm.trans hid'
    exact Or.inl (Session.finds_of_cons rfl)

lemma suffix_of_instrCode (h : Yields (instrCode i) site s u s') :
    s.values <:+ s'.values := by
  obtain ⟨n, -, houtcome⟩ := exists_outcome h
  generalize s'.values = vs at houtcome
  cases houtcome with
  | none => exact List.suffix_rfl
  | home | address | constant => exact List.suffix_cons _ _

/-! ### Causes -/

/-- A cause other than that a result is used before it is defined. -/
def NotUndefined (c : Cause) : Prop := ∀ id, c ≠ .usedBeforeDefined id

instance : Lenient NotUndefined where
  mem h id hc := by
    subst hc
    cases h

lemma offers_of_finds {t : Abi.Target} {ids : List Nat} {g v : Nat}
    (h : ∀ id ∈ ids, s.Finds id) : Offers NotUndefined t ids g v s :=
  ⟨fun id hid => Or.inr (h id hid), Or.inl nofun, Or.inl nofun⟩

lemma fails_instrCode_of_finds (h : ∀ id, .value id ∈ i.operands → s.Finds id) :
    Fails NotUndefined (((instrCode i).run site).run s) := by
  refine (settles_instrCode i).fails (offers_of_finds fun id hid => ?_)
  obtain ⟨x, hx, hvalue⟩ := List.mem_filterMap.mp hid
  cases x <;> cases hvalue
  exact h id hx

lemma fails_leave_of_finds {t : Ir.Terminator}
    (h : s.pending = none → ∀ id, t.value = some (.value id) → s.Finds id)
    (hflags : s.pending = none ∨ ∃ a b, t.exit = .branch a b) (next : Option Nat) :
    Fails NotUndefined (((leave t next).run site).run s) := by
  cases hpending : s.pending with
  | some cond =>
    obtain ⟨onTrue, onFalse, hexit⟩ := hflags.resolve_left (by rw [hpending]; exact Option.some_ne_none cond)
    rw [leave, hexit]
    exact fails_branch_of_pending hpending (offers_of_finds (List.forall_mem_nil _)) _ _ _ _
  | none =>
    refine (settles_leave t next).fails (offers_of_finds fun id hid => h hpending id ?_)
    obtain ⟨x, hx, hvalue⟩ := Option.bind_eq_some_iff.mp (Option.mem_toList.mp hid)
    cases x <;> cases hvalue
    exact hx

end NativeCode.Selection

namespace NativeCode.Compile

open Selection
open Selection (Session)

variable {o : Options} {f : Ir.Function} {b : Ir.Block} {s s' : Session}

/-! ### Blocks -/

/-- What the instructions of a block define is found after them, except for a comparison that is fused
into the end of the block. -/
theorem Lowers.finds {t : Ir.Terminator} {is : List Ir.Instr} {items : List Item}
    (h : Lowers o t is s items s') {i : Ir.Instr} (hi : i ∈ is) {id : Nat} (hid : i.Defines id) :
    s'.Finds id ∨ s'.pending.isSome = true ∧ fuses s' i t = true := by
  induction h with
  | nil => cases hi
  | @step j is s s₁ s' code items _ hj he hrest ih =>
    rcases List.mem_cons.mp hi with rfl | hi
    · rcases finds_of_instrCode hj hid with hfinds | ⟨hflags, hpending⟩
      · exact Or.inl (hfinds.of_suffix hrest.grown.later.values)
      · obtain ⟨hempty, hfuses⟩ : is.isEmpty = true ∧ fuses s i t = true :=
          Bool.and_eq_true_iff.mp hflags
        cases List.isEmpty_iff.mp hempty
        cases hrest
        exact Or.inr ⟨hpending, (fuses_congr he.later.reads i t).trans hfuses⟩
    · exact ih hi
  | ret hkind _ _ _ _ ih =>
    rcases List.mem_cons.mp hi with rfl | hi
    · exact absurd hkind hid.2.2
    · exact ih hi

/-- What the blocks `done` define is found, except for results that only the end of the block reads
that defines them. -/
def Covers (f : Ir.Function) (done : List Ir.Block) (s : Session) : Prop :=
  ∀ d ∈ done, ∀ i ∈ d.instrs, ∀ id, i.Defines id →
    s.Finds id ∨ f.reads.count id = 1 ∧ d.term.value = some (.value id)

variable {done : List Ir.Block}

lemma Covers.of_suffix (h : Covers f done s) (hs : s.values <:+ s'.values) : Covers f done s' :=
  fun d hd i hi id hid => (h d hd i hi id hid).imp_left fun hfinds => hfinds.of_suffix hs

theorem Covers.lowersBlock {next : Option Nat} {items : List Item} (h : Covers f done s)
    (hreads : s.reads = f.reads) (hb : LowersBlock o b next s items s') :
    Covers f (done ++ [b]) s' := by
  intro d hd i hi id hid
  rcases List.mem_append.mp hd with hd | hd
  · exact h.of_suffix hb.grown.later.values d hd i hi id hid
  · cases List.mem_singleton.mp hd
    obtain ⟨s₁, s₂, body, code, hlowers, hleave, -, rfl, -⟩ := hb.lowers
    rcases hlowers.finds hi hid with hfinds | ⟨-, hfuses⟩
    · refine Or.inl (hfinds.of_suffix ?_)
      rw [show s₂.cut.values = s₁.values from (alike_leave hleave).values]
    · obtain ⟨op, id', _, _, -, hid', -, hvalue, -, -, -, hcount⟩ := fuses_cases hfuses
      cases hid.1.symm.trans hid'
      rw [Session.useCount, hlowers.grown.later.reads, hreads] at hcount
      exact Or.inr ⟨hcount, hvalue⟩

lemma Covers.finds (h : Covers f done s) (hb : b ∈ f.blocks)
    (hdone : ∀ d, f.Dominates d b → d ∈ done ∧ d ∈ f.blocks ∧ d ≠ b) {before : List Ir.Instr}
    {id : Nat} (havailable : f.Available b before id)
    (hread : (∃ i ∈ b.instrs, .value id ∈ i.operands) ∨ b.term.value = some (.value id))
    (hbefore : ∀ j ∈ before, ∀ id, j.Defines id → s.Finds id) : s.Finds id := by
  rcases havailable with ⟨j, hj, hdefines⟩ | ⟨d, hd, j, hj, hdefines⟩
  · exact hbefore j hj id hdefines
  · obtain ⟨hmem, hblock, hne⟩ := hdone d hd
    rcases h d hmem j hj id hdefines with hfinds | ⟨hcount, hvalue⟩
    · exact hfinds
    · -- the block `d` would be the only one to read the result
      obtain ⟨hinstrs, hterm⟩ := Ir.Function.reader_unique hcount hblock hvalue b hb
      rcases hread with ⟨i, hi, hread⟩ | hread
      · exact absurd hread (hinstrs i hi)
      · exact absurd (hterm hread).symm hne

/-! ### Failures -/

section Compose

variable {α β : Type} {A : Cause → Prop}

lemma fails_run_bind {x : Build α} {k : α → Build β} (hx : Fails A (x.run s))
    (hk : ∀ a s', Makes x s a s' → Fails A ((k a).run s')) : Fails A ((x >>= k).run s) := by
  rw [StateT.run_bind]
  exact fails_bind hx fun r hr => hk r.1 r.2 hr

lemma fails_run_get_bind {k : Session → Build β} (hk : Fails A ((k s).run s)) :
    Fails A ((get >>= k).run s) := hk

lemma fails_run_modify_bind {g : Session → Session} {k : PUnit → Build β}
    (hk : Fails A ((k ⟨⟩).run (g s))) : Fails A ((modify g >>= k).run s) := hk

lemma fails_run_lift_bind {x : Except Failure α} {k : α → Build β} (hx : Fails A x)
    (hk : ∀ a, x = .ok a → Fails A ((k a).run s)) : Fails A ((liftM x >>= k).run s) := by
  cases x with
  | error e => exact fun e' he' => by cases he'; exact hx e rfl
  | ok a => exact hk a rfl

lemma fails_mapError {x : Except Failure α} {g : Failure → Failure} (hx : Fails A x)
    (hg : ∀ e, (g e).cause = e.cause) : Fails A (x.mapError g) := by
  intro e he
  obtain ⟨e', he', rfl⟩ := mapError_eq_error_iff.mp he
  exact hg e' ▸ hx e' he'

end Compose

section Block

variable (hdef : f.DefinitionsDominate) {path : List Ir.Block} (hpath : f.Path path b)
  (hdone : ∀ d, f.Dominates d b → d ∈ done ∧ d ∈ f.blocks ∧ d ≠ b)

include hdef hpath hdone

lemma fails_compileInstrs {before is : List Ir.Instr} (hsplit : b.instrs = before ++ is)
    (h : Covers f done s) (hbefore : is ≠ [] → ∀ j ∈ before, ∀ id, j.Defines id → s.Finds id)
    (label : String) (closed : List Machine.Block) :
    Fails NotUndefined ((compileInstrs o b.term is label closed).run s) := by
  induction is generalizing before s label closed with
  | nil => exact fails_ok _
  | cons i is ih =>
    have hi : i ∈ b.instrs := by rw [hsplit]; simp
    have hselect : Fails NotUndefined ((selectInstr o i (is.isEmpty && fuses s i b.term)).run s) := by
      refine fails_mapError (fails_instrCode_of_finds fun id hread => ?_) fun _ => rfl
      exact h.finds hpath.mem hdone (hdef.instrs path b hpath before i is hsplit id hread)
        (Or.inl ⟨i, hi, hread⟩) (hbefore (List.cons_ne_nil i is))
    have hrest (s₁ s₂ : Session) (hs₂ : s₂.values = s₁.values)
        (hmakes : Makes (selectInstr o i (is.isEmpty && fuses s i b.term)) s () s₁)
        (label : String) (closed : List Machine.Block) :
        Fails NotUndefined ((compileInstrs o b.term is label closed).run s₂) := by
      have hyields := makes_selectInstr.mp hmakes
      have hsuffix : s.values <:+ s₂.values := hs₂ ▸ suffix_of_instrCode hyields
      have hsplit' : b.instrs = (before ++ [i]) ++ is := by rw [hsplit, List.append_assoc]; rfl
      refine ih hsplit' (h.of_suffix hsuffix) (fun hne j hj id hid => ?_) label closed
      rcases List.mem_append.mp hj with hj | hj
      · exact (hbefore (List.cons_ne_nil i is) j hj id hid).of_suffix hsuffix
      · cases List.mem_singleton.mp hj
        rcases finds_of_instrCode hyields hid with hfinds | ⟨hflags, -⟩
        · exact hfinds.of_suffix (hs₂ ▸ List.suffix_rfl)
        · exact absurd (List.isEmpty_iff.mp (Bool.and_eq_true_iff.mp hflags).1) hne
    rw [compileInstrs]
    refine fails_run_get_bind (fails_run_bind hselect fun _ s₁ hmakes => fails_run_modify_bind ?_)
    split_ifs
    · exact hrest s₁ s₁.resume rfl hmakes _ _
    · exact hrest s₁ s₁.release rfl hmakes _ _

theorem fails_compileBlock (hpending : s.pending = none) (h : Covers f done s) (next : Option Nat) :
    Fails NotUndefined ((compileBlock o b next).run s) := by
  refine fails_run_get_bind (fails_run_bind ?_ fun r s₁ hinstrs => ?_)
  · exact fails_compileInstrs hdef hpath hdone (List.nil_append b.instrs).symm h (fun _ => nofun) _ _
  obtain ⟨body, hlowers, -⟩ := lowers_of_compileInstrs hinstrs
  have hflags := hlowers.pending hpending
  refine fails_run_bind (fails_mapError (fails_leave_of_finds (fun hnone id hread => ?_) ?_ next)
    fun _ => rfl) fun _ s₂ _ => fails_ok _
  · refine (h.of_suffix hlowers.grown.later.values).finds hpath.mem hdone
      (hdef.term path b hpath id hread) (Or.inr hread) fun j hj id hid => ?_
    rcases hlowers.finds hj hid with hfinds | ⟨hsome, -⟩
    · exact hfinds
    · rw [hnone] at hsome
      cases hsome
  · exact hflags.imp_right fun ⟨i, _, hfuses⟩ => exit_of_fuses hfuses

end Block

lemma fails_compileEach (hdef : f.DefinitionsDominate) {order front bs : List Ir.Block}
    (horder : ControlFlow.order f = .ok order) (hsplit : order = front ++ bs) (hcode : s.code = #[])
    (hreads : s.reads = f.reads) (hpending : s.pending = none) (h : Covers f front s) :
    Fails NotUndefined ((compileEach o bs).run s) := by
  induction bs generalizing front s with
  | nil => exact fails_ok _
  | cons b bs ih =>
    have hordered := ControlFlow.ordered_of_order horder
    obtain ⟨path, hpath, -⟩ := ControlFlow.exists_path_of_order horder hsplit
    have hdone (d : Ir.Block) (hd : f.Dominates d b) : d ∈ front ∧ d ∈ f.blocks ∧ d ≠ b := by
      have hfront := ControlFlow.mem_of_dominates horder hsplit hd
      refine ⟨hfront, hordered.mem d (by rw [hsplit]; exact List.mem_append_left _ hfront), ?_⟩
      rintro rfl
      have hnodup := List.Nodup.of_map _ hordered.nodup
      rw [hsplit] at hnodup
      exact List.disjoint_of_nodup_append hnodup hfront List.mem_cons_self
    refine fails_run_bind (fails_compileBlock hdef hpath hdone hpending h _) fun _ s₁ hb => ?_
    obtain ⟨hlowers, hcode₁⟩ := lowersBlock_of_compileBlock hcode hb
    have hsplit' : order = (front ++ [b]) ++ bs := by rw [hsplit, List.append_assoc]; rfl
    refine fails_run_bind ?_ fun _ _ _ => fails_ok _
    exact ih hsplit' hcode₁ (hlowers.grown.later.reads.trans hreads) (hlowers.pending hpending)
      (h.lowersBlock hreads hlowers)

/-! ### Functions -/

section Function

variable {A : Cause → Prop} [Lenient A]

lemma fails_newSlot : Fails A (newSlot.run s) := by
  refine fails_run_get_bind (fails_run_lift_bind (s.raises_allocate 8).fails_of_lenient fun _ _ => ?_)
  exact fails_ok _

lemma fails_homeParam (p : Ir.Param) (placement : Abi.Placement) :
    Fails A ((homeParam p placement).run s) := by
  obtain ⟨cls, place⟩ := placement
  cases place with
  | stack offset =>
    rw [homeParam]
    dsimp only
    split_ifs
    · exact fails_run_bind fails_newSlot fun _ _ _ => fails_ok _
    · exact fails_ok _
  | register r =>
    refine fails_run_bind fails_newSlot fun _ _ _ => ?_
    cases cls <;> exact fails_ok _

lemma fails_homeEach (index : Nat) (ps : List (Ir.Param × Abi.Placement)) :
    Fails A ((homeEach index ps).run s) := by
  induction ps generalizing index s with
  | nil => exact fails_ok _
  | cons q ps ih =>
    obtain ⟨p, placement⟩ := q
    refine fails_run_bind (fails_homeParam p placement) fun r s₁ _ => fails_run_get_bind ?_
    refine fails_run_lift_bind ?_ fun s₂ _ => ?_
    · rw [Session.setParam]
      split_ifs
      · exact fails_ok _
      · exact fails_of_lenient rfl _ _
    · exact fails_run_bind (fails_ok _) fun _ _ _ => fails_run_bind (ih _) fun _ _ _ => fails_ok _

lemma fails_homeParams (c : Abi.Convention) :
    Fails A ((homeParams c.target f).run s) :=
  fails_run_lift_bind (Abi.raises_place c _).fails_of_lenient fun _ _ => fails_homeEach 0 _

end Function

lemma fails_compileBody (hf : WellFormed.Sound f) (hdef : f.DefinitionsDominate)
    (symbol : String) : Fails NotUndefined ((compileBody o f).run (s.enter f symbol)) := by
  obtain ⟨order, horder⟩ := ControlFlow.exists_order hf.nonempty hf.targets
  rw [compileBody]
  by_cases hret : f.ret.isAggregate = true
  · rw [if_pos hret]
    rintro e ⟨⟩ id ⟨⟩
  rw [if_neg hret]
  refine fails_run_bind (fails_homeParams _) fun homing s₁ hhoming => fails_run_modify_bind ?_
  obtain ⟨placements, -, hhomes⟩ := homes_of_homeParams hhoming
  rw [hhomes.eq]
  refine fails_run_bind ?_ fun r s₂ _ => fails_run_get_bind ?_
  · rw [compileBlocks, horder]
    exact fails_compileEach hdef horder (List.nil_append order).symm rfl rfl rfl
      (List.forall_mem_nil _)
  · refine fails_run_lift_bind (fails_layout (by rintro _ _ id ⟨⟩) _ _ _ _) fun _ _ => ?_
    exact fails_run_lift_bind (fails_temps_bind (by rintro _ id ⟨⟩) _ _) fun _ _ => fails_ok _

/-- If definitions dominate readings in a function that passes the checks, then its compilation does
not stop because a result is used before it is defined. -/
theorem ne_usedBeforeDefined_of_definitionsDominate (hf : WellFormed.checkFunction f = .ok ())
    (hdef : f.DefinitionsDominate) :
    ∀ o s e, (compileFunction o f).run s = .error e → ∀ id, e.cause ≠ .usedBeforeDefined id := by
  intro o s
  have hsound := WellFormed.checkFunction_eq_ok_iff.mp hf
  exact fails_mapError (fails_compileBody hsound hdef (asmName o s.symbols f)) fun _ => rfl

/-- A loop on a result of the entry, which is returned after the loop. The loop comes last. -/
def climbs : Ir.Function where
  params := [⟨"n", .i64⟩]
  ret := .i64
  blocks := [
    { id := 0
      instrs := [{ result := some 0, kind := .binary .add, operands := [.param 0, .const .i64 1] }]
      term := { exit := .jump 1 } },
    { id := 2, term := { exit := .ret, value := some (.value 0) } },
    { id := 1
      instrs := [{ result := some 1, kind := .binary .lt, operands := [.value 0, .const .i64 9] }]
      term := { exit := .branch 1 2, value := some (.value 1) } }]

lemma definitionsDominate_climbs : climbs.DefinitionsDominate := by
  have hentry {b : Ir.Block} (hb : b ≠ climbs.blocks[0]) (before : List Ir.Instr) :
      climbs.Available b before 0 :=
    Or.inr ⟨_, Ir.Function.dominates_of_head? rfl hb, _, List.mem_singleton_self _, rfl, nofun, nofun⟩
  have hblocks {b : Ir.Block} {path : List Ir.Block} (hpath : climbs.Path path b) :
      b = climbs.blocks[0] ∨ b = climbs.blocks[1] ∨ b = climbs.blocks[2] := by
    simpa [climbs] using hpath.mem
  refine ⟨fun path b hpath before i after hsplit id hread => ?_, fun path b hpath id hread => ?_⟩
  · have hi : i ∈ b.instrs := by simp [hsplit]
    rcases hblocks hpath with rfl | rfl | rfl
    · cases List.mem_singleton.mp hi
      simp at hread
    · cases hi
    · cases List.mem_singleton.mp hi
      obtain rfl : id = 0 := by simpa using hread
      exact hentry (by decide) before
  · rcases hblocks hpath with rfl | rfl | rfl
    · cases hread
    · cases hread
      exact hentry (by decide) _
    · cases hread
      exact Or.inl ⟨_, List.mem_singleton_self _, rfl, nofun, nofun⟩

lemma isOk_climbs : ((compileFunction { maxFrame := 0 } climbs).run {}).isOk = false := by
  decide +kernel

/-- The frame of the loop does not fit into nothing, but its results are all found. -/
theorem ne_usedBeforeDefined_climbs :
    WellFormed.checkFunction climbs = .ok () ∧ climbs.DefinitionsDominate ∧
      ∃ e, (compileFunction { maxFrame := 0 } climbs).run {} = .error e ∧
        ∀ id, e.cause ≠ .usedBeforeDefined id := by
  have hcheck : WellFormed.checkFunction climbs = .ok () := by decide
  refine ⟨hcheck, definitionsDominate_climbs, ?_⟩
  cases hrun : (compileFunction { maxFrame := 0 } climbs).run {} with
  | ok r =>
    have hok := isOk_climbs
    rw [hrun] at hok
    cases hok
  | error e =>
    exact ⟨e, rfl, ne_usedBeforeDefined_of_definitionsDominate hcheck definitionsDominate_climbs _ _
      e hrun⟩

end NativeCode.Compile
