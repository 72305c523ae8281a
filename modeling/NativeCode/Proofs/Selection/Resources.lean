import NativeCode.Proofs.Selection.Compositional

/-!
# What the code of a construct takes

Code selection can run short of three things: the residence of a result that is read, a register for
a temporary, and a number for it. These are the only causes that depend on what happened before the
construct. A session offers some results, and room for some temporaries of each class. Code for
operands and results takes at most so many, and what is left is offered to the code that follows.
-/

namespace NativeCode

/-- Causes of failure among which are all that are no shortages. -/
class Lenient (E : Cause → Prop) : Prop where
  mem {c : Cause} (h : c.isShortage = false) : E c

lemma fails_of_lenient {α : Type} {E : Cause → Prop} [Lenient E] {c : Cause}
    (h : c.isShortage = false) (construct : String) (loc : Source.Loc) :
    Fails E (fail c construct loc : Except Failure α) :=
  fails_fail (Lenient.mem h) construct loc

lemma Raises.fails_of_lenient {α : Type} {E : Cause → Prop} [Lenient E] {x : Except Failure α}
    (hx : Raises (·.isPlain = true) x) : Fails E x :=
  hx.fails fun _ hc => Lenient.mem (Cause.isPlain_iff.mp hc).2

end NativeCode

namespace NativeCode.Temps

open Abi Machine

variable {τ τ' : Temps} {cls cls' : RegClass} {id : Nat} {c : Convention}

/-- How many registers of a class no live temporary holds. -/
def room (τ : Temps) (t : Target) (cls : RegClass) : Nat :=
  (t.pool cls).countP fun r => !τ.holds r

lemma room_of_live_eq_nil (h : τ.live = []) (t : Target) (cls : RegClass) :
    τ.room t cls = (t.pool cls).length := by
  rw [room, List.countP_eq_length]
  intro r _
  simp [holds, h]

lemma holds_push (τ : Temps) (q r : PhysReg) :
    holds { regs := τ.regs.push q, live := τ.live ++ [τ.regs.size] } r =
      (τ.holds r || decide (q = r)) := by
  rw [holds, List.any_append, List.any_cons, List.any_nil, Bool.or_false]
  simp only [Array.getElem?_push_size, Option.some_beq_some]
  by_cases hqr : q = r
  · simp [hqr]
  · -- a number that is not issued yet holds nothing before and `q` after
    have hany : (τ.live.any fun id => (τ.regs.push q)[id]? == some r) = τ.holds r := by
      refine List.any_congr rfl fun id => ?_
      rw [Array.getElem?_push]
      split_ifs with hid
      · simp [hid, hqr]
      · rfl
    rw [hany]
    simp [hqr]

lemma nodup_pool (c : Convention) (cls : RegClass) : (c.target.pool cls).Nodup := by
  cases c <;> cases cls <;> decide

lemma mem_pool_iff {q : PhysReg} (h : q ∈ c.target.pool cls) :
    q ∈ c.target.pool cls' ↔ cls' = cls := by
  have hall : ∀ q ∈ c.target.pool cls, (q ∈ c.target.pool cls' ↔ cls' = cls) := by
    cases c <;> cases cls <;> cases cls' <;> decide
  exact hall q h

lemma countP_and_ne {l : List PhysReg} (hl : l.Nodup) {p : PhysReg → Bool} {q : PhysReg}
    (hq : p q = true) :
    l.countP (fun r => p r && !decide (q = r)) + (if q ∈ l then 1 else 0) = l.countP p := by
  induction l with
  | nil => rfl
  | cons r l ih =>
    obtain ⟨hr, hl⟩ := List.nodup_cons.mp hl
    have ih := ih hl
    rw [List.countP_cons, List.countP_cons]
    by_cases hqr : q = r
    · subst hqr
      rw [if_neg hr] at ih
      simp only [hq, decide_true, Bool.not_true, Bool.and_false, Bool.false_eq_true, if_false,
        List.mem_cons_self, if_true]
      omega
    · simp only [hqr, decide_false, Bool.not_false, Bool.and_true, List.mem_cons, false_or]
      omega

/-- A temporary takes one register of its class, and one number. -/
theorem room_issue (h : τ.issue c.target cls = .ok (id, τ')) :
    (∀ cls', τ'.room c.target cls' + (if cls' = cls then 1 else 0) = τ.room c.target cls') ∧
      τ'.count = τ.count + 1 := by
  obtain ⟨q, hq, hfree, -, hr⟩ := issue_eq_ok h
  cases hr
  refine ⟨fun cls' => ?_, Array.size_push _⟩
  simp only [room, holds_push, Bool.not_or, ← mem_pool_iff hq]
  exact countP_and_ne (nodup_pool c cls') (by rw [hfree]; rfl)

/-- A temporary is issued if there is a number and a register for it. -/
theorem issue_cases (τ : Temps) (t : Target) (cls : RegClass) :
    (limit ≤ τ.count ∧ τ.issue t cls = fail .temporariesExhausted) ∨
    (τ.count < limit ∧ τ.room t cls = 0 ∧ τ.issue t cls = fail (.noFreeRegister cls)) ∨
    (τ.count < limit ∧ 0 < τ.room t cls ∧ ∃ id τ', τ.issue t cls = .ok (id, τ')) := by
  rw [issue]
  split_ifs with hlimit
  · exact Or.inl ⟨hlimit, rfl⟩
  · have hlt : τ.count < limit := not_le.mp hlimit
    cases hfree : τ.free? t cls with
    | none =>
      refine Or.inr (Or.inl ⟨hlt, List.countP_eq_zero.mpr fun r hr => ?_, rfl⟩)
      exact List.find?_eq_none.mp hfree r hr
    | some q =>
      have hq := List.find?_some hfree
      refine Or.inr (Or.inr ⟨hlt, List.countP_pos_iff.mpr ⟨q, ?_⟩, _, _, rfl⟩)
      exact ⟨List.mem_of_find?_eq_some hfree, hq⟩

end NativeCode.Temps

namespace NativeCode.Selection

open Ir (Ty BinaryOp)
open Abi Machine

/-- What a session has left for the code of a construct: the residences of the results `ids`, and
`g` general-purpose and `v` vector temporaries. Nothing is asked for where a shortage is a failure
from `E`. -/
structure Offers (E : Cause → Prop) (t : Target) (ids : List Nat) (g v : Nat) (s : Session) :
    Prop where
  defined : ∀ id ∈ ids, E (.usedBeforeDefined id) ∨ (s.values.lookup id).isSome = true
  numbers : E .temporariesExhausted ∨ s.temps.count + (g + v) ≤ Temps.limit
  registers : (∀ cls, E (.noFreeRegister cls)) ∨
    g ≤ s.temps.room t .gpr ∧ v ≤ s.temps.room t .xmm

/-- A computation that starts with an offer of `g` and `v` temporaries leaves `g'` and `v'` of them
and gives a result with property `Q`, or it fails with a cause from `E`. -/
def Settles {α : Type} (E : Cause → Prop) (ids : List Nat) (g v g' v' : Nat) (Q : α → Prop)
    (x : Emit α) : Prop :=
  ∀ site s, Offers E site.options.target ids g v s → match (x.run site).run s with
    | .ok r => Offers E site.options.target ids g' v' r.2 ∧ Q r.1
    | .error e => E e.cause

variable {α β : Type} {E : Cause → Prop} {ids : List Nat} {g v g' v' g'' v'' : Nat} {P : α → Prop}
  {Q : β → Prop} {t : Target} {s s' : Session}

lemma Offers.mono (h : Offers E t ids g v s) (hg : g' ≤ g) (hv : v' ≤ v) :
    Offers E t ids g' v' s :=
  ⟨h.defined, h.numbers.imp_right fun hn => by omega,
    h.registers.imp_right fun ⟨hgpr, hxmm⟩ => ⟨hg.trans hgpr, hv.trans hxmm⟩⟩

lemma Offers.setValue (h : Offers E t ids g v s) (id : Nat) (r : Residence) :
    Offers E t ids g v (s.setValue id r) := by
  refine ⟨fun id' hid' => (h.defined id' hid').imp_right fun hsome => ?_, h.numbers, h.registers⟩
  rw [Session.setValue, List.lookup_cons]
  split
  · rfl
  · exact hsome

/-! ### Composition -/

section Compose

variable {x : Emit α} {k : α → Emit β}

lemma settles_of (h : ∀ site s, Offers E site.target ids g v s →
    Fails E ((x.run site).run s) ∧ ∀ a s', Yields x site s a s' →
      Offers E site.target ids g' v' s' ∧ P a) : Settles E ids g v g' v' P x := by
  intro site s hs
  obtain ⟨hfails, hyields⟩ := h site s hs
  cases hrun : (x.run site).run s with
  | error e => exact hfails e hrun
  | ok r => exact hyields r.1 r.2 hrun

lemma Settles.fails (h : Settles E ids g v g' v' P x) {site : Site}
    (hs : Offers E site.target ids g v s) : Fails E ((x.run site).run s) := by
  intro e he
  have hrun := h site s hs
  rwa [he] at hrun

lemma Settles.mono (h : Settles E ids g v g' v' P x) (hg : g ≤ g'') (hv : v ≤ v'') :
    Settles E ids g'' v'' g' v' P x := fun site s hs => h site s (hs.mono hg hv)

lemma settles_pure {a : α} (ha : P a) : Settles E ids g v g v P (pure a) :=
  fun _ _ hs => ⟨hs, ha⟩

lemma settles_bind (hx : Settles E ids g v g' v' P x)
    (hk : ∀ a, P a → Settles E ids g' v' g'' v'' Q (k a)) :
    Settles E ids g v g'' v'' Q (x >>= k) := by
  intro site s hs
  have hrun := hx site s hs
  rw [ReaderT.run_bind, StateT.run_bind]
  cases h : (x.run site).run s with
  | error e =>
    rw [h] at hrun
    exact hrun
  | ok r =>
    rw [h] at hrun
    exact hk r.1 hrun.2 site r.2 hrun.1

lemma settles_modify {h : Session → Session}
    (hh : ∀ t s, Offers E t ids g v s → Offers E t ids g' v' (h s)) :
    Settles E ids g v g' v' ⊤ (modify h) := fun _ s hs => ⟨hh _ s hs, trivial⟩

lemma settles_emit (op : Opcode) (os : List Operand) (comment : String) :
    Settles E ids g v g v ⊤ (emit op os comment) := fun site =>
  settles_modify (h := (·.push { op, operands := os, comment, origin := site.origin }))
    (fun _ _ hs => { hs with }) site

lemma settles_lift_bind {x : Except Failure α} (hx : Fails E x)
    (hk : ∀ a, x = .ok a → Settles E ids g v g' v' Q (k a)) :
    Settles E ids g v g' v' Q (liftM x >>= k) := by
  intro site s hs
  cases x with
  | error e => exact hx e rfl
  | ok a => exact hk a rfl site s hs

end Compose

section Temporaries

variable {cls : RegClass} (hg : g' + (if cls = .gpr then 1 else 0) = g)
  (hv : v' + (if cls = .xmm then 1 else 0) = v)

include hg hv

lemma fails_issue_of_offers (hs : Offers E t ids g v s) :
    Fails E (s.temps.issue t cls) := by
  rcases s.temps.issue_cases t cls with ⟨hlimit, hissue⟩ | ⟨-, hroom, hissue⟩ | ⟨-, -, id, τ, hissue⟩
  · rw [hissue]
    refine fails_fail (hs.numbers.resolve_right ?_) _ _
    cases cls <;> simp at hg hv <;> omega
  · rw [hissue]
    refine fails_fail ((hs.registers.resolve_right ?_) cls) _ _
    cases cls <;> simp at hg hv <;> omega
  · rw [hissue]
    exact fails_ok _

lemma Offers.issue {c : Convention} (hs : Offers E c.target ids g v s) {r : Nat × Temps}
    (h : s.temps.issue c.target cls = .ok r) :
    Offers E c.target ids g' v' { s with temps := r.2 } := by
  obtain ⟨hroom, hcount⟩ := Temps.room_issue h
  have hgpr := hroom .gpr
  have hxmm := hroom .xmm
  refine ⟨hs.defined, hs.numbers.imp_right fun hn => ?_, hs.registers.imp_right fun hr => ?_⟩
  · cases cls <;> simp at hg hv <;> dsimp only <;> omega
  · cases cls <;> simp at hg hv hgpr hxmm <;> dsimp only <;> omega

lemma settles_newTemp : Settles E ids g v g' v' (fun r => r.cls = cls) (newTemp cls) := by
  refine settles_of fun site s hs => ⟨?_, fun a s' hyields => ?_⟩
  · rw [run_newTemp]
    exact fails_bind (fails_issue_of_offers hg hv hs) fun _ _ => fails_ok _
  · obtain ⟨r, hissue, rfl, rfl⟩ := yields_newTemp.mp hyields
    exact ⟨Offers.issue hg hv hs hissue, rfl⟩

end Temporaries

/-! ### The steps of code selection -/

/-- An operand that reads nothing but results from `ids`. -/
def ReadsOf (ids : List Nat) (o : Ir.Operand) : Prop := ∀ id, o = .value id → id ∈ ids

/-- What is given when the results `ids` are offered. -/
def Setting.offering (E : Cause → Prop) (ids : List Nat) : Setting where
  allowed := E
  operand := ReadsOf ids
  session s := ∀ id ∈ ids, E (.usedBeforeDefined id) ∨ (s.values.lookup id).isSome = true

variable [Lenient E]

lemma Setting.fits_offering : (Setting.offering E ids).Fits where
  allows _ h := Lenient.mem (E := E) h
  value {s id} hs ho := by
    rw [Session.value]
    cases hlookup : s.values.lookup id with
    | some r => exact fails_ok r
    | none =>
      refine fails_fail ((hs id (ho id rfl)).resolve_right ?_) _ _
      rw [hlookup]
      exact Bool.false_ne_true
  param {s index} _ _ := (s.raises_param index).fails fun _ => Lenient.mem (E := E)
  current {s} _ := s.raises_current.fails fun _ => Lenient.mem (E := E)
  returns _ _ hshaped := hshaped.elim

lemma settles_allocate (bytes : Nat) : Settles E ids g v g v ⊤ (allocate bytes) := by
  refine settles_of fun site s hs => ⟨?_, fun d s' h => ?_⟩
  · rw [run_allocate]
    exact (s.raises_allocate bytes).fails_of_lenient
  · obtain ⟨frame, -, rfl⟩ := yields_allocate.mp h
    exact ⟨{ hs with }, trivial⟩

lemma settles_callee (name : String) {Q : String → Prop} (hQ : ∀ asm, Q asm) :
    Settles E ids g v g v Q (callee name) := by
  refine settles_of fun site s hs => ⟨?_, fun asm s' h => ?_⟩
  · rw [run_callee]
    exact fails_bind (s.symbols.raises_callee name).fails_of_lenient fun _ _ => fails_ok _
  · simp only [callee, yields_get_bind, yields_lift_bind, yields_set_bind, yields_pure] at h
    obtain ⟨_, -, -, rfl⟩ := h
    exact ⟨{ hs with }, hQ asm⟩

/-- The steps of code selection take what is counted for them. -/
theorem compositional_settles :
    Compositional (.offering E ids) fun _ g v g' v' Q x => Settles E ids g v g' v' Q x where
  toFits := Setting.fits_offering
  holds_pure := settles_pure
  holds_bind := settles_bind
  holds_mono := Settles.mono
  holds_get_bind _ hk site s hs := hk s hs.defined site s hs
  holds_read_bind _ hk site := hk site site
  holds_lift_bind hx := settles_lift_bind fun e he => (hx e he).1
  holds_data_bind hk site s hs :=
    settles_lift_bind (s.symbols.raises_data _).fails_of_lenient
      (fun _ he => hk _ (known_of_data (s := s) hs.defined he)) site s hs
  holds_newGpr := settles_newTemp rfl rfl
  holds_newXmm := settles_newTemp rfl rfl
  holds_allocate := settles_allocate
  holds_modify hk := settles_modify fun _ _ hs => by
    cases hk with
    | define id r => exact hs.setValue id r
    | flags | returns | called => exact { hs with }
  holds_callee _ := settles_callee _ fun _ _ _ hs => hs
  holds_emit _ _ := settles_emit _ _ _
  holds_emitCall _ := settles_emit _ _ _
  holds_trap := settles_emit _ _ _
  holds_stop _ hc _ _ _ := hc
  holds_stopHere _ hc _ _ _ := hc

lemma fails_branch_of_pending {site : Site} {cond : Cond} (hpending : s.pending = some cond)
    (hs : Offers E site.target [] 0 0 s) (value : Option Ir.Operand) (onTrue onFalse : Nat)
    (next : Option Nat) : Fails E (((branch value onTrue onFalse next).run site).run s) := by
  have hclear : Settles E [] 0 0 0 0 ⊤ (modify fun s => { s with pending := none }) :=
    compositional_settles.holds_modify (.flags none)
  rw [branch.eq_def]
  split_ifs
  · have hjump : Settles E [] 0 0 0 0 ⊤ (jumpTo onTrue next) :=
      compositional_settles.holds_jumpTo _ _
    exact (settles_bind hclear fun _ _ => hjump).fails hs
  · cases value with
    | none => exact fails_of_lenient rfl _ _
    | some x =>
      have hjump : Settles E [] 0 0 0 0 ⊤ (jumpOn cond onTrue onFalse next) :=
        compositional_settles.holds_jumpOn _ _ _ _
      rw [run_bind_of_yields (rfl : Yields get site s s s), hpending]
      exact (settles_bind hclear fun _ _ => hjump).fails hs

/-- An instruction whose operands are found gets along with as many temporaries as it can take. -/
theorem settles_instrCode (i : Ir.Instr) :
    Settles E (i.operands.filterMap Ir.Operand.valueId?) (gprDemand i) 2 0 0 ⊤ (instrCode i) :=
  compositional_settles.holds_instrCode (fun _ _ _ _ _ hs _ => ⟨hs, fun _ _ hs => hs⟩)
    (fun x hx id hid => List.mem_filterMap.mpr ⟨x, hx, by rw [hid]; rfl⟩) False.elim

theorem settles_leave (term : Ir.Terminator) (next : Option Nat) :
    Settles E (term.value.bind Ir.Operand.valueId?).toList 1 0 0 0 ⊤ (leave term next) := by
  refine compositional_settles.holds_leave (fun x hx id hid => ?_) False.elim next
  rw [hx, hid, Option.mem_toList]
  rfl

end NativeCode.Selection
