import NativeCode.Proofs.Selection.Compositional

/-!
# What selection keeps, and why it stops

Code selection stops for many reasons, but two kinds of them depend on what it is given. The structure
of a module is never the reason once a function is open. The shape of a construct is the reason only
if the construct lacks the shape that its kind asks for.

Until it stops it changes a session in a few ways only, so that a property which each of them keeps
is kept by the code of every construct. The operands that it emits name nothing but symbols of the
table and labels of blocks and of the epilogue.
-/

namespace NativeCode.Selection

open Ir (Ty BinaryOp)
open Abi Machine

/-- A session in which `f` is open: every parameter has its place. -/
structure Session.Opens (f : Ir.Function) (s : Session) : Prop where
  function : s.function = some f
  params : s.params.length = f.params.length

/-- A property of sessions that every change of a session keeps, calls apart. -/
class Kept (I : Session → Prop) : Prop where
  push {s : Session} (hs : I s) {i : Instr} (hop : i.op ≠ .call) (hi : ∀ x ∈ i.operands, Known I x)
    (hcomment : i.comment = "" ∨ i.comment = "unreachable") : I (s.push i)
  temps {s : Session} (hs : I s) (temps : Temps) : I { s with temps }
  frame {s : Session} (hs : I s) (frame : Frame.Needs) : I { s with frame }
  values {s : Session} (hs : I s) (values : List (Nat × Residence)) : I { s with values }
  pending {s : Session} (hs : I s) (pending : Option Cond) : I { s with pending }
  returns {s : Session} (hs : I s) : I { s with returns := true }

/-- A property of sessions in which `f` is open. -/
class Within (f : Ir.Function) (I : Session → Prop) : Prop where
  opens {s : Session} (hs : I s) : s.Opens f

/-- A computation keeps a property `I` of sessions and gives a result with property `Q`, or it fails
with a cause that is allowed. -/
def Halts {α : Type} (I : Session → Prop) (W : Prop) (Q : α → Prop)
    (x : StateT Session (Except Failure) α) : Prop :=
  ∀ s, I s → match x.run s with
    | .ok r => I r.2 ∧ Q r.1
    | .error e => Allows W e.cause

/-- The same of a computation that emits code at any site. -/
def Stops {α : Type} (I : Session → Prop) (W : Prop) (Q : α → Prop) (x : Emit α) : Prop :=
  ∀ site, Halts I W Q (x.run site)

instance (f : Ir.Function) : Within f (Session.Opens f) := ⟨fun hs => hs⟩

/-- Sessions of a function stay sessions of it. -/
instance (f : Ir.Function) : Kept (Session.Opens f) where
  push hs _ _ _ _ := ⟨hs.function, hs.params⟩
  temps hs _ := ⟨hs.function, hs.params⟩
  frame hs _ := ⟨hs.function, hs.params⟩
  values hs _ := ⟨hs.function, hs.params⟩
  pending hs _ := ⟨hs.function, hs.params⟩
  returns hs := ⟨hs.function, hs.params⟩

variable {α β : Type} {f : Ir.Function} {I : Session → Prop} {W : Prop} {P : α → Prop} {Q : β → Prop}
  {s : Session}

/-! ### Composition -/

section Halts

variable {x : StateT Session (Except Failure) α} {g : α → StateT Session (Except Failure) β}

lemma halts_of (h : ∀ s, I s → (∀ r, x.run s = .ok r → I r.2 ∧ P r.1) ∧
    Fails (Allows W) (x.run s)) : Halts I W P x := by
  intro s hs
  obtain ⟨hok, herror⟩ := h s hs
  cases hrun : x.run s with
  | error e => exact herror e hrun
  | ok r => exact hok r hrun

lemma Halts.of_ok (hx : Halts I W P x) (hs : I s) {r : α × Session}
    (h : x.run s = .ok r) : I r.2 ∧ P r.1 := by
  have hs' := hx s hs
  rwa [h] at hs'

lemma Halts.fails (hx : Halts I W P x) (hs : I s) :
    Fails (Allows W) (x.run s) := by
  intro e h
  have hs' := hx s hs
  rwa [h] at hs'

lemma halts_throw {e : Failure} (h : Allows W e.cause) :
    Halts I W P (throw e : StateT Session (Except Failure) α) := fun _ _ => h

lemma halts_pure {a : α} (ha : P a) : Halts I W P (pure a) := fun _ hs => ⟨hs, ha⟩

lemma halts_bind (hx : Halts I W P x) (hg : ∀ a, P a → Halts I W Q (g a)) :
    Halts I W Q (x >>= g) := by
  intro s hs
  have hs' := hx s hs
  rw [StateT.run_bind]
  cases h : x.run s with
  | error e =>
    rw [h] at hs'
    exact hs'
  | ok r =>
    rw [h] at hs'
    exact hg r.1 hs'.2 r.2 hs'.1

lemma halts_get_bind {g : Session → StateT Session (Except Failure) β}
    (hg : ∀ s, I s → Halts I W Q (g s)) : Halts I W Q (get >>= g) := fun s hs => hg s hs s hs

lemma halts_modify {h : Session → Session} (hh : ∀ s, I s → I (h s)) :
    Halts I W ⊤ (modify h) := fun s hs => ⟨hh s hs, trivial⟩

lemma halts_set {t : Session} (ht : I t) : Halts I W ⊤ (set t) :=
  fun _ _ => ⟨ht, trivial⟩

lemma halts_lift_bind {x : Except Failure α} (hx : Fails (Allows W) x)
    (hg : ∀ a, x = .ok a → Halts I W Q (g a)) : Halts I W Q (liftM x >>= g) := by
  intro s hs
  cases x with
  | error e => exact hx e rfl
  | ok a => exact hg a rfl s hs

lemma halts_check {b : Prop} [Decidable b] {y : StateT Session (Except Failure) PUnit}
    {g : PUnit → StateT Session (Except Failure) β} (hy : b → Halts I W ⊤ y)
    (hg : ∀ u, Halts I W Q (g u)) : Halts I W Q (if b then y >>= g else g ⟨⟩) := by
  split_ifs with hb
  · exact halts_bind (hy hb) fun u _ => hg u
  · exact hg _

end Halts

section Stops

variable {x : Emit α} {g : α → Emit β}

lemma Stops.of_yields (hx : Stops I W P x) {site : Site} {s s' : Session} {a : α}
    (h : Yields x site s a s') (hs : I s) : I s' ∧ P a := (hx site).of_ok hs h

lemma stops_pure {a : α} (ha : P a) : Stops I W P (pure a) := fun _ => halts_pure ha

lemma stops_bind (hx : Stops I W P x) (hg : ∀ a, P a → Stops I W Q (g a)) :
    Stops I W Q (x >>= g) := fun site => halts_bind (hx site) fun a ha => hg a ha site

lemma stops_get_bind {g : Session → Emit β} (hg : ∀ s, I s → Stops I W Q (g s)) :
    Stops I W Q (get >>= g) := fun site => halts_get_bind fun s hs => hg s hs site

lemma stops_modify {h : Session → Session} (hh : ∀ s, I s → I (h s)) :
    Stops I W ⊤ (modify h) := fun _ => halts_modify hh

lemma stops_set {t : Session} (ht : I t) : Stops I W ⊤ (set t) := fun _ => halts_set ht

lemma stops_lift_bind {x : Except Failure α} (hx : Fails (Allows W) x)
    (hg : ∀ a, x = .ok a → Stops I W Q (g a)) : Stops I W Q (liftM x >>= g) := fun site =>
  halts_lift_bind hx fun a ha => hg a ha site

end Stops

/-! ### The steps of code selection -/

lemma fails_of_plain {x : Except Failure α} (hx : Raises (·.isPlain = true) x) :
    Fails (Allows W) x := hx.fails fun _ hc => (Cause.isPlain_iff.mp hc).1 W

lemma Session.Opens.current (hs : s.Opens f) : s.current = .ok f := by
  rw [Session.current, hs.function]

lemma fails_param (hs : s.Opens f) {index : Nat}
    (hindex : W → index < f.params.length) : Fails (Allows W) (s.param index) := by
  delta Session.param
  cases hget : s.params[index]? with
  | some r => exact fails_ok r
  | none =>
    rw [hs.current]
    refine fails_fail (allows_of rfl fun hW => ?_) _ _
    exact absurd (hs.params ▸ hindex hW) (not_lt.mpr (List.getElem?_eq_none_iff.mp hget))

/-- What is given when a construct of a function is compiled. -/
def Setting.within (f : Ir.Function) (I : Session → Prop) (W : Prop) : Setting where
  ret := f.ret
  shaped := W
  allowed := Allows W
  operand o := W → o.Declared f.params.length
  session := I

lemma Setting.fits_within [Within f I] : (Setting.within f I W).Fits where
  allows h _ := h
  value _ _ := (Session.raises_value _ _).fails <| by
    rintro _ rfl
    exact allows_of rfl fun _ => rfl
  param hs ho := fails_param (Within.opens (I := I) hs) ho
  current {s} hs := by
    rw [(Within.opens (f := f) (I := I) hs).current]
    exact fails_ok _
  returns {s f'} hs hf _ := by
    rw [(Within.opens (f := f) (I := I) hs).current] at hf
    cases hf
    rfl

lemma stops_emit {op : Opcode} {os : List Operand} {comment : String}
    (hI : ∀ s origin, I s → I (s.push { op, operands := os, comment, origin })) :
    Stops I W ⊤ (emit op os comment) := fun site => halts_modify fun s => hI s site.origin

variable [Kept I]

lemma kept_of_allocate {s s' : Session} {bytes : Nat} {d : Int} (hs : I s)
    (h : s.allocate bytes = .ok (d, s')) : I s' := by
  delta Session.allocate at h
  cases hframe : s.frame.allocate bytes with
  | error e => rw [hframe] at h; cases h
  | ok r =>
    rw [hframe] at h
    cases h
    exact Kept.frame hs _

lemma stops_newTemp (cls : RegClass) :
    Stops I W (fun r => r.cls = cls) (newTemp cls) := by
  refine fun site => halts_of fun s hs => ⟨?_, ?_⟩
  · rintro ⟨t, s'⟩ hr
    obtain ⟨_, -, rfl, rfl⟩ := yields_newTemp.mp hr
    exact ⟨Kept.temps hs _, rfl⟩
  · rw [run_newTemp]
    refine fails_bind ((s.temps.raises_issue _ cls).fails ?_) fun _ _ => fails_ok _
    rintro _ (rfl | rfl) <;> exact allows_of rfl fun _ => rfl

lemma kept_of_change {k : Session → Session} (hk : Change k) (hs : I s) :
    I (k s) := by
  cases hk with
  | define => exact Kept.values hs _
  | flags => exact Kept.pending hs _
  | returns => exact Kept.returns hs
  | called => exact Kept.frame hs _

/-- The steps of code selection keep a property of sessions. -/
theorem compositional_stops [Within f I] :
    Compositional (.within f I W) fun _ _ _ _ _ Q x => Stops I W Q x where
  toFits := Setting.fits_within
  holds_pure := stops_pure
  holds_bind := stops_bind
  holds_mono hx _ _ := hx
  holds_get_bind _ := stops_get_bind
  holds_read_bind _ hk site := hk site site
  holds_lift_bind hx := stops_lift_bind fun e he => (hx e he).1
  holds_data_bind hk := stops_get_bind fun s hs =>
    stops_lift_bind (fails_of_plain (s.symbols.raises_data _)) fun e he => hk _ (known_of_data hs he)
  holds_newGpr := stops_newTemp .gpr
  holds_newXmm := stops_newTemp .xmm
  holds_allocate bytes := stops_get_bind fun s hs =>
    stops_lift_bind (fails_of_plain (s.raises_allocate bytes)) fun r hr =>
      stops_bind (stops_set (kept_of_allocate hs hr)) fun _ _ => stops_pure trivial
  holds_modify hk := stops_modify fun _ hs => kept_of_change hk hs
  holds_callee hname := stops_get_bind fun s hs =>
    stops_lift_bind (fails_of_plain (s.symbols.raises_callee _)) fun r hr =>
      stops_bind (stops_set (hname s r.1 r.2 hs hr).1) fun _ _ => stops_pure (hname s r.1 r.2 hs hr).2
  holds_emit {_ _ op os} haccepts hos := by
    have hop := ne_call_of_accepts haccepts hos
    exact stops_emit fun s _ hs => Kept.push hs hop (List.forall_iff_forall_mem.mp hos) (Or.inl rfl)
  holds_emitCall hasm := stops_emit hasm
  holds_trap := stops_emit fun s _ hs => Kept.push hs Opcode.noConfusion (List.forall_mem_nil _) (Or.inr rfl)
  holds_stop _ hc _ _ _ := hc
  holds_stopHere _ hc _ _ _ := hc

/-- The code of an instruction keeps a property of sessions. It is never given up for the structure of
the module, and for the shape of the instruction only if it is not shaped. -/
theorem stops_instrCode [Within f I] {i : Ir.Instr}
    (hcall : ∀ name, i.kind = .call name → Admits I name)
    (hi : W → i.Shaped f.params.length f.ret) : Stops I W ⊤ (instrCode i) :=
  (compositional_stops (f := f)).holds_instrCode hcall (fun x hx hW => (hi hW).declared x hx)
    fun hW => (hi hW).asks

theorem stops_leave [Within f I] {t : Ir.Terminator} (ht : W → t.Shaped f.params.length f.ret)
    (next : Option Nat) : Stops I W ⊤ (leave t next) :=
  (compositional_stops (f := f)).holds_leave (fun x hx hW => (ht hW).declared x hx)
    (fun hW => (ht hW).asks) next

end NativeCode.Selection
