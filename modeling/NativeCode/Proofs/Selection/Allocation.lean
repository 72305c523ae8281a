import NativeCode.Proofs.Selection.Replay
import NativeCode.Proofs.Selection.Supplies

/-!
# When registers run out

There are registers enough for the temporaries of every instruction but a call, and of every block
end. A call takes a general-purpose temporary for each argument on the stack, and for each float
constant that goes to a register, and all of them are live until the call is done. So a call is
given up for want of a register exactly if these are more than the registers for temporaries.
-/

namespace NativeCode.Abi

/-- How many general-purpose registers a convention has for temporaries. -/
def Convention.temporaries : Convention → Nat
  | sysv => 7
  | win64 => 9

lemma length_pool_gpr (c : Convention) : (c.target.pool .gpr).length = c.temporaries := by
  cases c <;> rfl

lemma le_length_pool (c : Convention) :
    4 ≤ (c.target.pool .gpr).length ∧ 2 ≤ (c.target.pool .xmm).length := by
  cases c <;> decide

end NativeCode.Abi

namespace NativeCode.Selection

open Ir (Ty)
open Abi Machine

variable {α β : Type} {site : Site} {s s' s'' : Session} {t : Target} {n m : Nat}

/-! ### Exact spending -/

/-- There are registers and numbers for `n` more general-purpose temporaries. -/
def Session.Affords (s : Session) (t : Target) (n : Nat) : Prop :=
  n ≤ s.temps.room t .gpr ∧ n ≤ Temps.limit - s.temps.count

/-- In between `n` general-purpose temporaries have been taken. -/
structure Session.Spent (t : Target) (n : Nat) (s s' : Session) : Prop where
  alike : s.Alike s'
  room : s'.temps.room t .gpr + n = s.temps.room t .gpr
  count : s'.temps.count = s.temps.count + n

namespace Session.Spent

lemma of_temps (h : s.Alike s') (htemps : s'.temps = s.temps) : s.Spent t 0 s' :=
  ⟨h, by rw [htemps]; rfl, by rw [htemps]; rfl⟩

lemma trans (h : s.Spent t n s') (h' : s'.Spent t m s'') : s.Spent t (n + m) s'' where
  alike := h.alike.trans h'.alike
  room := by
    have hroom := h.room
    have hroom' := h'.room
    omega
  count := by rw [h'.count, h.count, Nat.add_assoc]

lemma affords_iff (h : s.Spent t n s') (hn : s.Affords t n) :
    s'.Affords t m ↔ s.Affords t (n + m) := by
  have hroom := h.room
  have hcount := h.count
  have hnumbers := hn.2
  simp only [Session.Affords]
  omega

end Session.Spent

/-- A failure for want of a register or of a number for a temporary. -/
def Lacks (x : Except Failure α) : Prop := ∃ e, x = .error e ∧ e.cause.kind = .registerAllocation

/-- The computation takes `n` general-purpose temporaries and ends, or it fails because they cannot
all be had. -/
structure Spends (n : Nat) (x : Emit α) (site : Site) (s : Session) : Prop where
  yields : s.Affords site.options.target n →
    ∃ a s', Yields x site s a s' ∧ s.Spent site.options.target n s'
  lacks : ¬ s.Affords site.options.target n → Lacks ((x.run site).run s)

section Compose

variable {x : Emit α} {k : α → Emit β} {a : α}

lemma Lacks.bind (h : Lacks ((x.run site).run s)) : Lacks (((x >>= k).run site).run s) := by
  obtain ⟨e, he, hkind⟩ := h
  refine ⟨e, ?_, hkind⟩
  rw [ReaderT.run_bind, StateT.run_bind, he]
  rfl

lemma spends_of_yields (h : Yields x site s a s') (hs : s.Spent site.options.target 0 s') :
    Spends 0 x site s :=
  ⟨fun _ => ⟨a, s', h, hs⟩, fun hnot => absurd ⟨Nat.zero_le _, Nat.zero_le _⟩ hnot⟩

lemma Spends.congr {y : Emit α} (h : Spends n y site s)
    (hrun : (x.run site).run s = (y.run site).run s) : Spends n x site s := by
  refine ⟨fun haffords => ?_, fun hnot => hrun ▸ h.lacks hnot⟩
  obtain ⟨a, s', hyields, hspent⟩ := h.yields haffords
  exact ⟨a, s', hrun.trans hyields, hspent⟩

lemma spends_bind (hx : Spends n x site s)
    (hk : ∀ a s', Yields x site s a s' → s.Spent site.options.target n s' →
      Spends m (k a) site s') : Spends (n + m) (x >>= k) site s := by
  constructor
  · rintro ⟨hroom, hlimit⟩
    have hn : s.Affords site.options.target n := ⟨by omega, by omega⟩
    obtain ⟨a, s₁, hyields, hspent⟩ := hx.yields hn
    obtain ⟨b, s₂, hyields', hspent'⟩ :=
      (hk a s₁ hyields hspent).yields ((hspent.affords_iff hn).mpr ⟨hroom, hlimit⟩)
    exact ⟨b, s₂, yields_bind.mpr ⟨a, s₁, hyields, hyields'⟩, hspent.trans hspent'⟩
  · intro hnot
    by_cases hn : s.Affords site.options.target n
    · obtain ⟨a, s₁, hyields, hspent⟩ := hx.yields hn
      rw [run_bind_of_yields hyields]
      exact (hk a s₁ hyields hspent).lacks fun hm => hnot ((hspent.affords_iff hn).mp hm)
    · exact (hx.lacks hn).bind

lemma Spends.lacks_bind_iff (hx : Spends n x site s)
    (hk : s.Affords site.options.target n → ∀ a s', s.Spent site.options.target n s' →
      ¬ Lacks (((k a).run site).run s')) :
    Lacks (((x >>= k).run site).run s) ↔ ¬ s.Affords site.options.target n := by
  refine ⟨fun hlacks haffords => ?_, fun hnot => (hx.lacks hnot).bind⟩
  obtain ⟨a, s', hyields, hspent⟩ := hx.yields haffords
  rw [run_bind_of_yields hyields] at hlacks
  exact hk haffords a s' hspent hlacks

end Compose

/-! ### Operands -/

section Operands

variable {x : Ir.Operand} {v : Source}

lemma spends_newGpr : Spends 1 (newTemp .gpr) site s := by
  rcases s.temps.issue_cases site.options.target .gpr with
    ⟨hlimit, hissue⟩ | ⟨-, hroom, hissue⟩ | ⟨hlimit, hroom, id, τ, hissue⟩
  · refine ⟨fun haffords => ?_, fun _ => ⟨_, by rw [run_newTemp, hissue]; rfl, rfl⟩⟩
    have := haffords.2
    omega
  · refine ⟨fun haffords => ?_, fun _ => ⟨_, by rw [run_newTemp, hissue]; rfl, rfl⟩⟩
    have := haffords.1
    omega
  · refine ⟨fun _ => ⟨_, _, yields_newTemp.mpr ⟨_, hissue, rfl, rfl⟩, ?_⟩, fun hnot => ?_⟩
    · obtain ⟨hrooms, hcount⟩ := Temps.room_issue hissue
      exact ⟨⟨rfl, rfl, rfl, rfl⟩, hrooms .gpr, hcount⟩
    · exact absurd ⟨hroom, by omega⟩ hnot

lemma spends_emit (op : Opcode) (os : List Operand) (comment : String) :
    Spends 0 (emit op os comment) site s :=
  spends_of_yields rfl (.of_temps ⟨rfl, rfl, rfl, rfl⟩ rfl)

lemma spends_loadGprInto (hx : s.source? x = some v) (dst : RegOperand) :
    Spends 0 (loadGprInto x dst) site s :=
  spends_of_yields (a := ()) (yields_loadGprInto.mpr ⟨v, hx, rfl⟩) (.of_temps (.push _ _) rfl)

lemma spends_loadGpr (hx : s.source? x = some v) : Spends 1 (loadGpr x) site s := by
  refine spends_bind (m := 0) spends_newGpr fun r s₁ _ hspent => ?_
  refine spends_bind (m := 0) (n := 0) (spends_loadGprInto ((hspent.alike.source? x).trans hx) _)
    fun _ s₂ _ _ => ?_
  exact spends_of_yields rfl (.of_temps (.refl _) rfl)

lemma spends_loadXmmInto {r : Residence} (hr : s.reach? x = some (.residence r))
    (hfloat : r.ty.isFloat = true) (haccess : r.access ≠ .address) (dst : RegOperand) :
    Spends (if r.access = .constant then 1 else 0) (loadXmmInto x dst) site s := by
  have hload : Spends 1 (do
      let bits ← loadGpr x
      emit (.mov .quad) [.full bits, .reg dst]) site s :=
    spends_bind (m := 0) (spends_loadGpr (Session.source?_of_residence hr)) fun _ _ _ _ =>
      spends_emit _ _ _
  obtain ⟨access, ty, disp, bits⟩ := r
  -- the type and the residence of the operand are found, and the residence decides
  rw [loadXmmInto]
  refine Spends.congr ?_ (run_bind_of_yields (yields_typeOf hr))
  dsimp only
  have hty : (Reach.residence ⟨access, ty, disp, bits⟩).ty.isFloat = true := hfloat
  rw [if_pos hty]
  refine Spends.congr ?_ (run_bind_of_yields (yields_reach hr))
  cases access with
  | home => exact spends_emit _ _ _
  | constant => exact hload
  | address => exact absurd rfl haccess

end Operands

/-! ### Arguments -/

section Arguments

variable {args : List (Ir.Operand × Placement)}

/-- Whether an operand is a float constant, written down or recorded as the result of an
instruction. -/
def Session.isFloatConstant (s : Session) (x : Ir.Operand) : Bool :=
  match s.reach? x with
  | some (.residence r) => r.access = .constant && r.ty.isFloat
  | _ => false

/-- The addresses among the residences are pointers. -/
def Session.Points (s : Session) : Prop :=
  ∀ x r, s.reach? x = some (.residence r) → r.access = .address → r.ty = .ptr

lemma Session.Alike.isFloatConstant (h : s.Alike s') :
    s'.isFloatConstant = s.isFloatConstant := by
  funext x
  rw [Session.isFloatConstant, Session.isFloatConstant, h.reach? x]

lemma Session.Alike.points (h : s.Alike s') (hs : s.Points) : s'.Points :=
  fun x r hr => hs x r ((h.reach? x).symm.trans hr)

theorem spends_stackArguments (h : ∀ a ∈ args, ∃ v, s.source? a.1 = some v) :
    Spends (args.countP (·.2.place.isStack)) (stackArguments args) site s := by
  induction args generalizing s with
  | nil => exact spends_of_yields rfl (.of_temps (.refl _) rfl)
  | cons a args ih =>
    obtain ⟨x, p⟩ := a
    obtain ⟨⟨v, hv⟩, h⟩ := List.forall_mem_cons.mp h
    have hrest (s₁ : Session) (hs₁ : s.Alike s₁) :
        Spends (args.countP (·.2.place.isStack)) (stackArguments args) site s₁ := by
      refine ih fun a ha => ?_
      rw [hs₁.source?]
      exact h a ha
    rw [stackArguments, List.countP_cons]
    cases hplace : p.place with
    | register r => exact hrest s (.refl s)
    | stack offset =>
      rw [Place.isStack, if_pos rfl, Nat.add_comm]
      refine spends_bind (spends_loadGpr hv) fun _ s₁ _ hs₁ => ?_
      rw [← Nat.zero_add (args.countP _)]
      refine spends_bind (spends_emit _ _ _) fun _ s₂ _ hs₂ => ?_
      exact hrest s₂ (hs₁.alike.trans hs₂.alike)

lemma spends_registerArgument {x : Ir.Operand} {v : Source} {r : Reach} (hs : s.Points)
    (hv : s.source? x = some v) (hr : s.reach? x = some r) (dst : RegOperand) :
    Spends (if s.isFloatConstant x = true then 1 else 0) (match r.ty.regClass with
      | .xmm => loadXmmInto x dst
      | .gpr => loadGprInto x dst) site s := by
  rw [Session.isFloatConstant, hr, Ty.regClass]
  cases r with
  | symbol name => exact spends_loadGprInto hv dst
  | residence r =>
    dsimp only [Reach.ty]
    by_cases hfloat : r.ty.isFloat = true
    · have haddress : r.access ≠ .address := by
        intro haccess
        rw [hs x r hr haccess] at hfloat
        cases hfloat
      simp only [hfloat, Bool.and_true, decide_eq_true_eq, if_true]
      exact spends_loadXmmInto hr hfloat haddress dst
    · simp only [hfloat, Bool.and_false, Bool.false_eq_true, if_false]
      exact spends_loadGprInto hv dst

/-- Of the arguments in registers the float constants take a temporary. -/
theorem spends_registerArguments (hs : s.Points) (h : ∀ a ∈ args, ∃ v, s.source? a.1 = some v)
    (hcls : ∀ a ∈ args, ∃ r, s.reach? a.1 = some r ∧ a.2.cls = r.ty.regClass) :
    Spends (args.countP fun a => !a.2.place.isStack && s.isFloatConstant a.1)
      (registerArguments args) site s := by
  induction args generalizing s with
  | nil => exact spends_of_yields rfl (.of_temps (.refl _) rfl)
  | cons a args ih =>
    obtain ⟨x, p⟩ := a
    obtain ⟨⟨v, hv⟩, h⟩ := List.forall_mem_cons.mp h
    obtain ⟨⟨r, hr, hp⟩, hcls⟩ := List.forall_mem_cons.mp hcls
    have hrest (s₁ : Session) (hs₁ : s.Alike s₁) :
        Spends (args.countP fun a => !a.2.place.isStack && s.isFloatConstant a.1)
          (registerArguments args) site s₁ := by
      rw [← hs₁.isFloatConstant]
      refine ih (hs₁.points hs) (fun a ha => ?_) fun a ha => ?_
      · rw [hs₁.source?]
        exact h a ha
      · rw [hs₁.reach?]
        exact hcls a ha
    rw [registerArguments, List.countP_cons]
    cases hplace : p.place with
    | stack offset => exact hrest s (.refl s)
    | register q =>
      have hone := @spends_registerArgument site s x v r hs hv hr { reg := .phys q }
      rw [Place.isStack, Bool.not_false, Bool.true_and, Nat.add_comm]
      dsimp only at hp ⊢
      rw [hp]
      cases hclass : r.ty.regClass <;> rw [hclass] at hone
      all_goals exact spends_bind hone fun _ s₁ _ hs₁ => hrest s₁ hs₁.alike

end Arguments

/-! ### Calls -/

section Call

variable {i : Ir.Instr} {name : String} {xs : List Ir.Operand}

def Session.typeOf (s : Session) (x : Ir.Operand) : Ty :=
  match s.reach? x with
  | some r => r.ty
  | none => .void

/-- The operands of a call with the places of the arguments. -/
def Session.arguments (s : Session) (t : Target) (xs : List Ir.Operand) :
    List (Ir.Operand × Placement) :=
  xs.zip (t.assign (xs.map s.typeOf))

/-- How many temporaries the arguments of a call take: one for each argument on the stack, and one
for each float constant in a register. -/
def Session.argumentTemps (s : Session) (t : Target) (xs : List Ir.Operand) : Nat :=
  (s.arguments t xs).countP (·.2.place.isStack) +
    (s.arguments t xs).countP fun a => !a.2.place.isStack && s.isFloatConstant a.1

/-- A call names what can be called, and its operands are found and can be passed. -/
structure Session.Passes (s : Session) (name : String) (xs : List Ir.Operand) : Prop where
  callee : ∃ r, s.symbols.callee name = .ok r
  found : ∀ x ∈ xs, ∃ v, s.source? x = some v
  scalar : ∀ x ∈ xs, ((s.typeOf x).isVoid || (s.typeOf x).isAggregate) = false

lemma exists_reach {x : Ir.Operand} {v : Source} (h : s.source? x = some v) :
    ∃ r, s.reach? x = some r ∧ s.typeOf x = r.ty := by
  rw [Session.typeOf]
  cases hr : s.reach? x with
  | none =>
    rw [Session.source?, hr] at h
    cases h
  | some r => exact ⟨r, rfl, rfl⟩

lemma yields_mapM_typeOf (h : ∀ x ∈ xs, ∃ v, s.source? x = some v) :
    Yields (xs.mapM typeOf) site s (xs.map s.typeOf) s := by
  induction xs with
  | nil => exact yields_pure.mpr ⟨rfl, rfl⟩
  | cons x xs ih =>
    obtain ⟨⟨v, hv⟩, h⟩ := List.forall_mem_cons.mp h
    obtain ⟨r, hr, hty⟩ := exists_reach hv
    rw [List.mapM_cons, yields_typeOf_bind, List.map_cons, hty]
    exact ⟨r, hr, yields_bind.mpr ⟨_, s, ih h, yields_pure.mpr ⟨rfl, rfl⟩⟩⟩

lemma cls_of_mem_arguments {c : Convention} {a : Ir.Operand × Placement}
    (ha : a ∈ s.arguments c.target xs) : a.1 ∈ xs ∧ a.2.cls = (s.typeOf a.1).regClass := by
  obtain ⟨k, hk⟩ := List.mem_iff_getElem?.mp ha
  obtain ⟨hx, hp⟩ := List.getElem?_zip_eq_some.mp hk
  have hty : (xs.map s.typeOf)[k]? = some (s.typeOf a.1) := by rw [List.getElem?_map, hx]; rfl
  refine ⟨List.mem_of_getElem? hx, ?_⟩
  rw [getElem?_assign c hty] at hp
  exact congrArg Placement.cls (Option.some.inj hp).symm

lemma spends_arguments (hs : s.Points) (h : ∀ x ∈ xs, ∃ v, s.source? x = some v) :
    Spends (s.argumentTemps site.options.target xs) (do
      stackArguments (s.arguments site.options.target xs)
      registerArguments (s.arguments site.options.target xs)) site s := by
  have hmem {a : Ir.Operand × Placement} (ha : a ∈ s.arguments site.options.target xs) :
      a.1 ∈ xs ∧ a.2.cls = (s.typeOf a.1).regClass :=
    @cls_of_mem_arguments s xs site.options.convention a ha
  refine spends_bind (spends_stackArguments fun a ha => h a.1 (hmem ha).1) fun _ s₁ _ hs₁ => ?_
  rw [← hs₁.alike.isFloatConstant]
  refine spends_registerArguments (hs₁.alike.points hs) (fun a ha => ?_) fun a ha => ?_
  · rw [hs₁.alike.source?]
    exact h a.1 (hmem ha).1
  · obtain ⟨v, hv⟩ := h a.1 (hmem ha).1
    obtain ⟨r, hr, hty⟩ := exists_reach hv
    rw [hs₁.alike.reach?]
    exact ⟨r, hr, hty ▸ (hmem ha).2⟩

lemma argumentTemps_congr (h : ∀ x, s'.reach? x = s.reach? x) :
    s'.argumentTemps t xs = s.argumentTemps t xs := by
  have htypeOf : s'.typeOf = s.typeOf := by
    funext x
    rw [Session.typeOf, Session.typeOf, h]
  have hconstant : s'.isFloatConstant = s.isFloatConstant := by
    funext x
    rw [Session.isFloatConstant, Session.isFloatConstant, h]
  rw [Session.argumentTemps, Session.argumentTemps, Session.arguments, Session.arguments, htypeOf,
    hconstant]

lemma source?_of_callee {e : Symbol} {symbols : Symbols}
    (h : s.symbols.callee name = .ok (e, symbols)) (x : Ir.Operand) :
    ({ s with symbols } : Session).source? x = s.source? x := by
  have hreach : ({ s with symbols } : Session).reach? x = s.reach? x := by cases x <;> rfl
  rw [Session.source?, Session.source?, hreach]
  cases s.reach? x with
  | none => rfl
  | some r =>
    cases r with
    | residence r => rfl
    | symbol n =>
      have hname := congrArg (Option.map Source.symbol)
        (congrFun (Symbols.alike_of_callee h).data n)
      rw [Symbols.dataName?, Symbols.dataName?, Option.map_map, Option.map_map] at hname
      exact hname.symm

/-- The causes that blame neither registers nor numbers of temporaries. -/
private def Sufficed (c : Cause) : Prop := c.kind ≠ .registerAllocation

private instance : Lenient Sufficed where
  mem {c} h hkind := by cases c <;> simp_all [Cause.isShortage, Cause.kind]

private def callEnd (i : Ir.Instr) (name asm : String) (bytes : Int) : Emit Unit := do
  emit .call [.symbol asm]
  modify fun s => { s with frame := s.frame.noteCall bytes }
  if i.result.isSome then callResult i name

lemma not_lacks_callEnd (asm : String) (bytes : Int) (hs : s.temps.count ≤ Temps.limit) :
    ¬ Lacks (((callEnd i name asm bytes).run site).run s) := by
  rintro ⟨e, he, hkind⟩
  have hsettles : Settles Sufficed [] 0 0 0 0 ⊤ (callEnd i name asm bytes) := by
    refine settles_bind (settles_emit _ _ _) fun _ _ => ?_
    refine settles_bind (settles_modify fun _ _ hs => { hs with }) fun _ _ => ?_
    split_ifs with hsome
    · exact compositional_settles.holds_callResult name hsome False.elim
    · exact settles_pure trivial
  exact hsettles.fails ⟨nofun, Or.inr hs, Or.inr ⟨Nat.zero_le _, Nat.zero_le _⟩⟩ e he hkind

/-- A call is given up for want of a temporary exactly if its arguments take more than can be
had. -/
theorem lacks_call_iff (hs : s.Points) (hcount : s.temps.count ≤ Temps.limit)
    (h : s.Passes name i.operands) : Lacks (((call i name).run site).run s) ↔
      ¬ s.Affords site.options.target (s.argumentTemps site.options.target i.operands) := by
  obtain ⟨⟨e, symbols⟩, hcallee⟩ := h.callee
  -- the callee is entered first, and nothing that follows depends on it
  let s₀ : Session := { s with symbols }
  have hreach (x : Ir.Operand) : s₀.reach? x = s.reach? x := by cases x <;> rfl
  have hyields : Yields (callee name) site s e.asm s₀ := by
    rw [Yields, run_callee, hcallee]
    rfl
  have hfound : ∀ x ∈ i.operands, ∃ v, s₀.source? x = some v := by
    intro x hx
    rw [source?_of_callee hcallee]
    exact h.found x hx
  have hpoints : s₀.Points := fun x r hr => hs x r ((hreach x).symm.trans hr)
  have hplace : site.options.target.place (i.operands.map s₀.typeOf) =
      .ok (site.options.target.assign (i.operands.map s₀.typeOf)) := by
    refine place_eq_assign site.options.convention fun ty hty => ?_
    obtain ⟨x, hx, rfl⟩ := List.mem_map.mp hty
    rw [Session.typeOf, hreach]
    exact h.scalar x hx
  rw [← argumentTemps_congr hreach]
  change _ ↔ ¬ s₀.Affords _ _
  rw [call, run_bind_of_yields (rfl : Yields read site s site s), run_bind_of_yields hyields,
    run_bind_of_yields (yields_mapM_typeOf hfound), run_lift_bind, hplace]
  have hend := (@spends_arguments site s₀ i.operands hpoints hfound).lacks_bind_iff
    (k := fun _ => callEnd i name e.asm
      (site.options.target.outgoingBytes (site.options.target.assign (i.operands.map s₀.typeOf))))
    fun haffords _ s₁ hs₁ => not_lacks_callEnd _ _ ?_
  · rw [bind_assoc] at hend
    exact hend
  · have hnumbers := haffords.2
    have hcount₁ := hs₁.count
    change _ = s.temps.count + _ at hcount₁
    change _ ≤ Temps.limit - s.temps.count at hnumbers
    omega

end Call

/-! ### All constructs -/

section Constructs

variable {o : Options} {i : Ir.Instr} {u : Unit} {e : Failure}

private def Numbered (c : Cause) : Prop := c.kind = .registerAllocation → c = .temporariesExhausted

private instance : Lenient Numbered where
  mem {c} h hkind := by cases c <;> simp_all [Cause.isShortage, Cause.kind]

lemma exhausted_of_settles {x : Emit α} {ids : List Nat} {g v : Nat}
    (h : ∀ (E : Cause → Prop) [Lenient E], Settles E ids g v 0 0 ⊤ x)
    (hgpr : g ≤ s.temps.room site.options.target .gpr)
    (hxmm : v ≤ s.temps.room site.options.target .xmm) (he : (x.run site).run s = .error e)
    (hkind : e.cause.kind = .registerAllocation) :
    e.cause = .temporariesExhausted ∧ Temps.limit < s.temps.count + (g + v) := by
  have hregisters := And.intro hgpr hxmm
  refine ⟨?_, not_le.mp fun hle => ?_⟩
  · exact (h Numbered).fails ⟨fun _ _ => Or.inl nofun, Or.inl fun _ => rfl, Or.inr hregisters⟩ e he
      hkind
  · exact (h Sufficed).fails ⟨fun _ _ => Or.inl nofun, Or.inr hle, Or.inr hregisters⟩ e he hkind

section Located

variable {x : Except Failure α} {construct : String} {loc : Source.Loc}

lemma exists_of_located (he : x.mapError (·.locate construct loc) = .error e) :
    ∃ e', x = .error e' ∧ e'.cause = e.cause := by
  obtain ⟨e', he', rfl⟩ := mapError_eq_error_iff.mp he
  exact ⟨e', he', rfl⟩

lemma eq_ok_of_located {a : α} (h : x.mapError (·.locate construct loc) = .ok a) :
    x = .ok a := mapError_eq_ok_iff.mp h

lemma lacks_located_iff : Lacks (x.mapError (·.locate construct loc)) ↔ Lacks x := by
  constructor
  · rintro ⟨e, he, hkind⟩
    obtain ⟨e', he', heq⟩ := exists_of_located he
    exact ⟨e', he', heq ▸ hkind⟩
  · rintro ⟨e, rfl, hkind⟩
    exact ⟨e.locate construct loc, rfl, hkind⟩

end Located

lemma points_enter (s : Session) (f : Ir.Function) (symbol : String) :
    (s.enter f symbol).Points := by
  intro x r hr haccess
  rcases Session.residence_cases hr with ⟨id, -, hmem⟩ | ⟨k, -, hk⟩ | ⟨ty, bits, -, rfl⟩
  · cases hmem
  · rw [Session.enter, List.getElem?_map] at hk
    obtain ⟨p, -, rfl⟩ := Option.map_eq_some_iff.mp hk
    cases haccess
  · cases haccess

lemma points_setParam (hs : s.Points) {index : Nat} {r : Residence}
    (hr : r.access = .home) (h : s.setParam index r = .ok s') : s'.Points := by
  rw [Session.setParam] at h
  split_ifs at h with hindex
  · cases h
    intro x r' hr' haccess
    cases x with
    | param k =>
      rw [Session.reach?] at hr'
      rcases eq_or_ne index k with rfl | hne
      · rw [List.getElem?_set_self hindex] at hr'
        cases hr'
        cases hr.symm.trans haccess
      · rw [List.getElem?_set_ne hne] at hr'
        exact hs (.param k) r' hr' haccess
    | value id => exact hs (.value id) r' hr' haccess
    | const ty bits => exact hs (.const ty bits) r' hr' haccess
    | global name => exact hs (.global name) r' hr' haccess
  · cases h

lemma points_of_instrCode (hs : s.Points) (h : Yields (instrCode i) site s u s') :
    s'.Points := by
  have hparams : s'.params = s.params := by
    by_cases hkind : i.kind = .ret
    · rw [instrCode, hkind] at h
      obtain ⟨s₁, -, hvalue, rfl⟩ := earlyReturn_cases h
      exact (alike_returnValue hvalue).params
    · obtain ⟨code, he⟩ := emits_instrCode hkind h
      exact he.later.params
  obtain ⟨n, -, houtcome⟩ := exists_outcome h
  intro x r hr haccess
  cases x with
  | param index =>
    rw [Session.reach?, hparams] at hr
    exact hs (.param index) r hr haccess
  | const ty bits =>
    cases hr
    cases haccess
  | global name => cases hr
  | value id =>
    obtain ⟨r', hlookup, hr'⟩ := Option.map_eq_some_iff.mp hr
    cases hr'
    have hold (hlookup : s.values.lookup id = some r) : r.ty = .ptr :=
      hs (.value id) r (by rw [Session.reach?, hlookup]; rfl) haccess
    have hnew {id' : Nat} {r' : Residence} (hr' : r'.access = .address → r'.ty = .ptr)
        (hlookup : ((id', r') :: s.values).lookup id = some r) : r.ty = .ptr := by
      rw [List.lookup_cons] at hlookup
      split at hlookup
      · cases hlookup
        exact hr' haccess
      · exact hold hlookup
    generalize s'.values = vs at houtcome hlookup
    cases houtcome with
    | none => exact hold hlookup
    | home | constant => exact hnew (by rintro ⟨⟩) hlookup
    | address hkind => exact hnew (fun _ => by rw [Ir.Instr.resultTy, hkind]) hlookup

lemma points_of_leave {t : Ir.Terminator} {next : Option Nat} (hs : s.Points)
    (h : Yields (leave t next) site s u s') : s'.Points :=
  (alike_leave h).points hs

/-- How many numbers of temporaries an instruction takes at most. -/
def Session.demand (s : Session) (t : Target) (i : Ir.Instr) : Nat :=
  match i.kind with
  | .call _ => s.argumentTemps t i.operands
  | _ => 6

lemma exhausted_of_instrCode (hlive : s.temps.live = [])
    (hkind : ∀ name, i.kind ≠ .call name) (he : ((instrCode i).run site).run s = .error e)
    (hlacks : e.cause.kind = .registerAllocation) :
    e.cause = .temporariesExhausted ∧ Temps.limit < s.temps.count + 6 := by
  have hdemand : gprDemand i = 4 := by
    rw [gprDemand]
    split
    · exact absurd ‹_› (hkind _)
    · rfl
  have hsettles (E : Cause → Prop) [Lenient E] :
      Settles E (i.operands.filterMap Ir.Operand.valueId?) 4 2 0 0 ⊤ (instrCode i) :=
    hdemand ▸ settles_instrCode i
  obtain ⟨hgpr, hxmm⟩ := le_length_pool site.options.convention
  refine exhausted_of_settles hsettles ?_ ?_ he hlacks
  · rw [Temps.room_of_live_eq_nil hlive]
    exact hgpr
  · rw [Temps.room_of_live_eq_nil hlive]
    exact hxmm

lemma exhausted_of_leave {t : Ir.Terminator} {next : Option Nat}
    (hlive : s.temps.live = []) (he : ((leave t next).run site).run s = .error e)
    (hlacks : e.cause.kind = .registerAllocation) :
    e.cause = .temporariesExhausted ∧ Temps.limit < s.temps.count + 1 := by
  obtain ⟨hgpr, -⟩ := le_length_pool site.options.convention
  refine exhausted_of_settles (fun E _ => settles_leave t next) ?_ (Nat.zero_le _) he hlacks
  rw [Temps.room_of_live_eq_nil hlive]
  exact le_trans (by decide) hgpr

lemma lacks_selectInstr_iff {name : String} (hlive : s.temps.live = []) (hs : s.Points)
    (hkind : i.kind = .call name) (h : s.Passes name i.operands) (fused : Bool)
    (hcount : s.temps.count + s.argumentTemps o.target i.operands ≤ Temps.limit) :
    Lacks ((selectInstr o i fused).run s) ↔
      o.convention.temporaries < s.argumentTemps o.target i.operands := by
  have hroom : s.temps.room o.target .gpr = o.convention.temporaries :=
    (Temps.room_of_live_eq_nil hlive _ _).trans (length_pool_gpr o.convention)
  refine lacks_located_iff.trans ?_
  rw [instrCode, hkind]
  refine (lacks_call_iff hs (by omega) h).trans ?_
  change ¬ s.Affords o.target (s.argumentTemps o.target i.operands) ↔ _
  rw [Session.Affords, hroom]
  omega

/-- Where no temporary is live, an instruction with numbers enough is given up for want of a
register if and only if it is a call whose arguments take more temporaries than there are registers
for them. All other instructions and all block ends find a register of either class, so that they
can only run out of numbers. That addresses are pointers holds where a function is entered, and is
kept where a parameter gets its home, by instructions and by block ends. -/
theorem lacks_register_iff (o : Options) (hlive : s.temps.live = []) (hs : s.Points) :
    (∀ i fused, (∀ name, i.kind = .call name → s.Passes name i.operands) →
      s.temps.count + s.demand o.target i ≤ 65535 →
      (Lacks ((selectInstr o i fused).run s) ↔ ∃ name, i.kind = .call name ∧
        o.convention.temporaries < s.argumentTemps o.target i.operands)) ∧
    (∀ i fused e, (∀ name, i.kind ≠ .call name) → (selectInstr o i fused).run s = .error e →
      e.cause.kind = .registerAllocation → e.cause = .temporariesExhausted) ∧
    (∀ t next e, (selectTerm o t next).run s = .error e → e.cause.kind = .registerAllocation →
      e.cause = .temporariesExhausted ∧ 65535 ≤ s.temps.count) ∧
    (∀ f symbol, (s.enter f symbol).Points) ∧
    (∀ index r s', r.access = .home → s.setParam index r = .ok s' → s'.Points) ∧
    (∀ i fused s', (selectInstr o i fused).run s = .ok ((), s') → s'.Points) ∧
    (∀ t next s', (selectTerm o t next).run s = .ok ((), s') → s'.Points) := by
  refine ⟨fun i fused hpasses hcount => ?_, fun i fused e hkind he hlacks => ?_,
    fun t next e he hlacks => ?_, points_enter s, fun index r s' hr h => points_setParam hs hr h,
    fun i fused s' h => ?_, fun t next s' h => ?_⟩
  · by_cases hcall : ∃ name, i.kind = .call name
    · obtain ⟨name, hkind⟩ := hcall
      rw [Session.demand, hkind] at hcount
      rw [lacks_selectInstr_iff hlive hs hkind (hpasses name hkind) fused hcount]
      exact ⟨fun hlt => ⟨name, hkind, hlt⟩, fun ⟨_, _, hlt⟩ => hlt⟩
    · have hkind : ∀ name, i.kind ≠ .call name := not_exists.mp hcall
      have hdemand : s.demand o.target i = 6 := by
        rw [Session.demand]
        split
        · exact absurd ‹_› (hkind _)
        · rfl
      refine ⟨fun ⟨e, he, hlacks⟩ => ?_, fun ⟨name, hname, _⟩ => absurd hname (hkind name)⟩
      obtain ⟨e', he', hcause⟩ := exists_of_located he
      obtain ⟨-, hlimit⟩ := exhausted_of_instrCode hlive hkind he' (hcause ▸ hlacks)
      rw [Temps.limit] at hlimit
      omega
  · obtain ⟨e', he', hcause⟩ := exists_of_located he
    exact hcause ▸ (exhausted_of_instrCode hlive hkind he' (hcause ▸ hlacks)).1
  · obtain ⟨e', he', hcause⟩ := exists_of_located he
    obtain ⟨hexhausted, hlimit⟩ := exhausted_of_leave hlive he' (hcause ▸ hlacks)
    exact ⟨hcause ▸ hexhausted, Nat.le_of_lt_succ hlimit⟩
  · exact points_of_instrCode hs (eq_ok_of_located h)
  · exact points_of_leave hs (eq_ok_of_located h)

/-- A call with eight float constants: all are in registers under System V, and half of them under
Windows x64. -/
def passesFloats : Ir.Instr where
  kind := .call "g"
  operands := List.replicate 8 (.const (.float .double) 0)

lemma passes_floats : ({} : Session).Passes "g" passesFloats.operands := by
  refine ⟨⟨_, rfl⟩, fun x hx => ?_, fun x hx => ?_⟩ <;> obtain rfl := List.eq_of_mem_replicate hx
  · exact ⟨_, rfl⟩
  · rfl

lemma points_empty : ({} : Session).Points := by
  rintro (id | index | ⟨ty, bits⟩ | name) r hr haccess <;> cases hr
  cases haccess

/-- There are seven registers for eight temporaries under System V, and nine under Windows x64. -/
theorem lacks_register_floats :
    Lacks ((selectInstr {} passesFloats false).run {}) ∧
      ¬ Lacks ((selectInstr { convention := .win64 } passesFloats false).run {}) := by
  have hpasses (name : String) (hname : passesFloats.kind = .call name) :
      ({} : Session).Passes name passesFloats.operands := by
    cases hname
    exact passes_floats
  constructor
  · exact ((lacks_register_iff {} rfl points_empty).1 passesFloats false hpasses (by decide)).mpr
      ⟨"g", rfl, by decide⟩
  · intro hlacks
    obtain ⟨name, -, hlt⟩ := ((lacks_register_iff { convention := .win64 } rfl points_empty).1
      passesFloats false hpasses (by decide)).mp hlacks
    revert hlt
    decide

end Constructs

end NativeCode.Selection
