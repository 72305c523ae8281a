import NativeCode.Proofs.Abi.Conventions
import NativeCode.Proofs.Machine.Registers
import NativeCode.Proofs.Selection.Constructs
import NativeCode.Proofs.Temps

/-!
# Temporaries of selected code

While the code of a construct is selected, temporaries are issued one after the other, and each one
holds a register of its own. Selected code names temporaries that have been issued for the same
construct, settles them before it needs them, and names no register that a temporary could have been
given.
-/

namespace NativeCode.Abi

open Machine

/-- A register that is never given to a temporary. -/
def Target.Fixed (t : Target) (q : PhysReg) : Prop := q ∉ t.pool .gpr ∧ q ∉ t.pool .xmm

instance (t : Target) (q : PhysReg) : Decidable (t.Fixed q) := inferInstanceAs (Decidable (_ ∧ _))

def taskRegs : List PhysReg :=
  [.gpr .rax, .gpr .rcx, .gpr .rdx, .gpr .rsp, .gpr .rbp, .xmm ⟨0, Nat.succ_pos _⟩]

lemma fixed_of_task {c : Convention} {q : PhysReg} (h : q ∈ taskRegs) : c.target.Fixed q := by
  have hall : ∀ q ∈ taskRegs, c.target.Fixed q := by cases c <;> decide
  exact hall q h

lemma fixed_of_args {c : Convention} {cls : RegClass} {q : PhysReg} (h : q ∈ c.target.args cls) :
    c.target.Fixed q := by
  have hall : ∀ q ∈ c.target.args cls, c.target.Fixed q := by cases c <;> cases cls <;> decide
  exact hall q h

end NativeCode.Abi

namespace NativeCode.Temps

open Abi Machine

variable {t : Target} {τ τ' : Temps} {n : Nat}

/-- Temporaries have been issued one after the other. -/
def Issues (t : Target) : Temps → Temps → Prop :=
  Relation.ReflTransGen fun τ τ' => ∃ cls id, τ.issue t cls = .ok (id, τ')

lemma Issues.grows (h : Issues t τ τ') : τ.Grows τ' := by
  induction h with
  | refl => exact .refl _
  | tail _ hstep ih =>
    obtain ⟨cls, id, hissue⟩ := hstep
    obtain ⟨q, -, -, -, hr⟩ := issue_eq_ok hissue
    cases hr
    exact ih.trans (grows_push _ _ _)

/-- The temporaries from number `n` on are live, and in different registers. -/
structure Window (n : Nat) (τ : Temps) : Prop where
  live : ∀ id, n ≤ id → id < τ.regs.size → id ∈ τ.live
  distinct : ∀ id id' q, n ≤ id → n ≤ id' → τ.regs[id]? = some q → τ.regs[id']? = some q → id = id'

lemma window_size (τ : Temps) : Window τ.regs.size τ := by
  refine ⟨fun id hle hlt => absurd hlt (not_lt.mpr hle), fun id id' q hle _ hq => ?_⟩
  have := (Array.getElem?_eq_some_iff.mp hq).1
  omega

lemma Window.ne_of_holds (h : Window n τ) {q : PhysReg} (hq : τ.holds q = false) {id : Nat}
    (hid : n ≤ id) : τ.regs[id]? ≠ some q := by
  intro hget
  have hlive := h.live id hid (Array.getElem?_eq_some_iff.mp hget).1
  rw [holds, List.any_eq_false] at hq
  exact hq id hlive (by simp [hget])

/-- Issuing temporaries keeps them in different registers. -/
theorem Window.issues (h : Window n τ) (hτ : Issues t τ τ') : Window n τ' := by
  induction hτ with
  | refl => exact h
  | @tail τ₁ τ₂ _ hstep ih =>
    obtain ⟨cls, id, hissue⟩ := hstep
    obtain ⟨q, -, hfree, -, hr⟩ := issue_eq_ok hissue
    cases hr
    refine ⟨fun k hle hlt => ?_, fun k k' q' hk hk' hq hq' => ?_⟩
    · rw [Array.size_push] at hlt
      rw [List.mem_append, List.mem_singleton]
      by_cases hnew : k = τ₁.regs.size
      · exact Or.inr hnew
      · exact Or.inl (ih.live k hle (by omega))
    · rw [Array.getElem?_push] at hq hq'
      split_ifs at hq hq' with h₁ h₂ h₂
      · rw [h₁, h₂]
      · exact absurd (hq ▸ hq') (ih.ne_of_holds hfree hk')
      · exact absurd (hq' ▸ hq) (ih.ne_of_holds hfree hk)
      · exact ih.distinct k k' q' hk hk' hq hq'

end NativeCode.Temps

namespace NativeCode.Selection

open Ir (Ty BinaryOp)
open Abi Machine

variable {u : Reg × Nat}

/-- A register that the code of a construct can name: a fixed one, or a temporary that was issued
since number `n`, in a register of its class. -/
def Regular (t : Target) (n : Nat) (τ : Temps) : Reg → Prop
  | .phys q => t.Fixed q
  | .temp id cls => n ≤ id ∧ ∃ q ∈ t.pool cls, τ.regs[id]? = some q

/-- A fixed register, or a temporary with enough bytes settled. -/
def Supplied (t : Target) (k : List (Reg × Nat)) : Reg × Nat → Prop
  | (.phys q, _) => t.Fixed q
  | (.temp id cls, n) => ∃ m, n ≤ m ∧ (.temp id cls, m) ∈ k

def Usable (t : Target) (k : List (Reg × Nat)) (o : Operand) : Prop :=
  ∀ u ∈ o.needs, Supplied t k u

/-- Between two sessions temporaries have been issued and code has been emitted. If the bytes `k`
were settled before, then the code is prepared, and the bytes `k'` are settled after it. A temporary
that has only been issued is settled for no bytes. -/
structure Advances (t : Target) (n : Nat) (s : Session) (k : List (Reg × Nat)) (s' : Session)
    (k' : List (Reg × Nat)) : Prop where
  temps : Temps.Issues t s.temps s'.temps
  code : n ≤ s.temps.regs.size → (∀ u ∈ k, Regular t n s.temps u.1) →
    (∀ u ∈ k', Regular t n s'.temps u.1) ∧
      ∃ is, s'.code.toList = s.code.toList ++ is ∧ Prepared k is ∧
        (∀ u ∈ k', 0 < u.2 → u ∈ settledAfter k is) ∧ ∀ i ∈ is, ∀ r ∈ i.regs, Regular t n s'.temps r

variable {t : Target} {n : Nat} {s s' s'' : Session} {k k' k'' : List (Reg × Nat)} {r : Reg}

lemma Regular.mono {τ τ' : Temps} (h : Regular t n τ r) (hτ : τ.Grows τ') : Regular t n τ' r := by
  cases r with
  | phys q => exact h
  | temp id cls =>
    obtain ⟨hle, q, hq, hget⟩ := h
    exact ⟨hle, q, hq, hτ.getElem? hget⟩

lemma Supplied.mono (h : Supplied t k u) (hk : k ⊆ k') : Supplied t k' u := by
  obtain ⟨r, m⟩ := u
  cases r with
  | phys q => exact h
  | temp id cls =>
    obtain ⟨m', hm, hmem⟩ := h
    exact ⟨m', hm, hk hmem⟩

lemma Supplied.covers (h : Supplied t k u) : Covers k u := by
  intro id cls hu
  obtain ⟨r, m⟩ := u
  cases hu
  exact h

lemma Supplied.regular (h : Supplied t k u) {τ : Temps} (hk : ∀ u ∈ k, Regular t n τ u.1) :
    Regular t n τ u.1 := by
  obtain ⟨r, m⟩ := u
  cases r with
  | phys q => exact h
  | temp id cls =>
    obtain ⟨m', -, hmem⟩ := h
    exact hk (.temp id cls, m') hmem

lemma Supplied.of_le {m m' : Nat} (h : Supplied t k (r, m')) (hm : m ≤ m') :
    Supplied t k (r, m) := by
  cases r with
  | phys q => exact h
  | temp id cls =>
    obtain ⟨m₀, hle, hmem⟩ := h
    exact ⟨m₀, hm.trans hle, hmem⟩

lemma Usable.mono {o : Operand} (h : Usable t k o) (hk : k ⊆ k') : Usable t k' o :=
  fun u hu => (h u hu).mono hk

namespace Advances

lemma of_eq (htemps : s'.temps = s.temps) (hcode : s'.code = s.code) : Advances t n s k s' k where
  temps := by rw [htemps]; exact .refl
  code _ hregular := ⟨by rw [htemps]; exact hregular, [], by rw [hcode, List.append_nil], trivial,
    fun u hu _ => hu, by simp⟩

lemma refl : Advances t n s k s k := of_eq rfl rfl

lemma trans (h : Advances t n s k s' k') (h' : Advances t n s' k' s'' k'') :
    Advances t n s k s'' k'' where
  temps := h.temps.trans h'.temps
  code hn hregular := by
    obtain ⟨hmid, is, hcode, hprepared, hsettled, hregs⟩ := h.code hn hregular
    obtain ⟨hlast, js, hcode', hprepared', hsettled', hregs'⟩ :=
      h'.code (hn.trans h.temps.grows.size_le) hmid
    refine ⟨hlast, is ++ js, by rw [hcode', hcode, List.append_assoc],
      prepared_append.mpr ⟨hprepared, hprepared'.mono hsettled⟩, fun u hu hpos => ?_,
      fun i hi q hq => ?_⟩
    · rw [settledAfter_append]
      exact settledAfter_mono hsettled u (hsettled' u hu hpos) hpos
    · rcases List.mem_append.mp hi with hi | hi
      · exact (hregs i hi q hq).mono h'.temps.grows
      · exact hregs' i hi q hq

lemma issue {cls : RegClass} {p : Nat × Temps} (h : s.temps.issue t cls = .ok p) :
    Advances t n s k { s with temps := p.2 } ((.temp p.1 cls, 0) :: k) where
  temps := .single ⟨cls, p.1, h⟩
  code hn hregular := by
    obtain ⟨q, hq, -, -, rfl⟩ := Temps.issue_eq_ok h
    refine ⟨List.forall_mem_cons.mpr ⟨⟨hn, q, hq, by simp⟩, fun u hu =>
      (hregular u hu).mono (Temps.grows_push _ _ _)⟩, [], by simp, trivial, ?_, by simp⟩
    exact List.forall_mem_cons.mpr ⟨fun hpos => absurd hpos (lt_irrefl 0), fun u hu _ => hu⟩

lemma push {i : Instr} (hneeds : ∀ u ∈ i.needs, Supplied t k u)
    (hsettles : ∀ u ∈ i.settles, Supplied t k (u.1, 0)) :
    Advances t n s k (s.push i) (i.settled k) where
  temps := .refl
  code _ hregular := by
    have hwritten : ∀ u ∈ i.settles, Regular t n s.temps u.1 :=
      fun u hu => (hsettles u hu).regular hregular
    refine ⟨fun u hu => ?_, [i], by simp [Session.push],
      ⟨fun u hu => (hneeds u hu).covers, trivial⟩, fun u hu _ => hu, fun j hj q hq => ?_⟩
    · rcases List.mem_append.mp hu with hu | hu
      · exact hwritten u hu
      · split_ifs at hu
        · cases hu
        · exact hregular u hu
    · rw [List.mem_singleton.mp hj] at hq
      rcases Instr.mem_regs hq with ⟨m, hm⟩ | ⟨m, hm⟩
      · exact (hneeds _ hm).regular hregular
      · exact hwritten _ hm

end Advances

/-- Selected code keeps what was settled, and leaves settled bytes with a property. -/
def Brings (t : Target) (n : Nat) (s : Session) (k : List (Reg × Nat)) (s' : Session)
    (P : List (Reg × Nat) → Prop) : Prop := ∃ k', Advances t n s k s' k' ∧ k ⊆ k' ∧ P k'

attribute [local simp] Site.instr Instr.dst?

namespace Brings

variable {P Q : List (Reg × Nat) → Prop} {site : Site} {src dst : Operand}

lemma of_eq (htemps : s'.temps = s.temps) (hcode : s'.code = s.code) (h : P k) :
    Brings t n s k s' P := ⟨k, .of_eq htemps hcode, List.Subset.refl _, h⟩

lemma pure (h : P k) : Brings t n s k s P := of_eq rfl rfl h

lemma bind (h : Brings t n s k s' P)
    (h' : ∀ k', k ⊆ k' → P k' → Brings t n s' k' s'' Q) : Brings t n s k s'' Q := by
  obtain ⟨k₁, e₁, hk₁, hP⟩ := h
  obtain ⟨k₂, e₂, hk₂, hQ⟩ := h' k₁ hk₁ hP
  exact ⟨k₂, e₁.trans e₂, List.Subset.trans hk₁ hk₂, hQ⟩

lemma imp (h : Brings t n s k s' P) (hPQ : ∀ k', k ⊆ k' → P k' → Q k') : Brings t n s k s' Q :=
  h.bind fun k' hk hP => .pure (hPQ k' hk hP)

/-- Temporaries and code have been added. -/
lemma grown (h : Brings t s.temps.regs.size s [] s' P) :
    s.temps.Grows s'.temps ∧ s.code.toList <+: s'.code.toList := by
  obtain ⟨_, e, -⟩ := h
  obtain ⟨-, is, hcode, -⟩ := e.code le_rfl (List.forall_mem_nil _)
  exact ⟨e.temps.grows, is, hcode.symm⟩

lemma issue {cls : RegClass} {p : Nat × Temps} (h : s.temps.issue t cls = .ok p) :
    Brings t n s k { s with temps := p.2 } (Supplied t · (.temp p.1 cls, 0)) :=
  ⟨_, .issue h, List.subset_cons_self _ _, 0, le_rfl, List.mem_cons_self⟩

lemma push {i : Instr} {m : Nat} (hcall : i.op ≠ .call) (hsettles : i.settles = [(r, m)])
    (hneeds : ∀ u ∈ i.needs, Supplied t k u) (hr : Supplied t k (r, 0)) :
    Brings t n s k (s.push i) (Supplied t · (r, m)) := by
  have hsettled : i.settled k = (r, m) :: k := by rw [Instr.settled, hsettles, if_neg hcall]; rfl
  refine ⟨_, .push hneeds (by simpa [hsettles] using hr), ?_, ?_⟩
  · rw [hsettled]
    exact List.subset_cons_self _ _
  · rw [hsettled]
    cases r with
    | phys q => exact hr
    | temp id cls => exact ⟨m, le_rfl, List.mem_cons_self⟩

lemma pushNone {i : Instr} (hcall : i.op ≠ .call) (hsettles : i.settles = [])
    (hneeds : ∀ u ∈ i.needs, Supplied t k u) (h : P k) : Brings t n s k (s.push i) P := by
  have hsettled : i.settled k = k := by rw [Instr.settled, hsettles, if_neg hcall, List.nil_append]
  refine ⟨_, .push hneeds (by simp [hsettles]), ?_, ?_⟩
  · rw [hsettled]
    exact List.Subset.refl _
  · rwa [hsettled]

lemma ne_call {op : Opcode} (h : op.writesLast = true) : op ≠ .call := by
  rintro rfl
  cases h

lemma move (op : Opcode) (w : Width) (hop : op.overwrites = true) (hsrc : Usable site.target k src)
    (hr : Supplied site.target k (r, 0)) :
    Brings site.target n s k (s.push (site.instr op [src, .part r w]))
      (Supplied site.target · (r, w.settled)) := by
  refine push (ne_call (Opcode.writesLast_of_overwrites hop)) ?_ (fun u hu => hsrc u ?_) hr
  · simp [Instr.settles, Opcode.writesLast_of_overwrites hop]
  · simpa [Instr.needs, hop, Operand.addressNeeds, Operand.address] using hu

lemma update (op : Opcode) (w : Width) (hop : op.overwrites = false)
    (hwrites : op.writesLast = true) (hsrc : Usable site.target k src)
    (hr : Supplied site.target k (r, w.bytes)) :
    Brings site.target n s k (s.push (site.instr op [src, .part r w]))
      (Supplied site.target · (r, w.settled)) := by
  refine push (ne_call hwrites) ?_ (fun u hu => ?_) (hr.of_le (Nat.zero_le _))
  · simp [Instr.settles, hwrites]
  · simp only [Instr.needs, Site.instr, hop, Bool.false_eq_true, if_false, List.dropLast_cons_cons,
      List.dropLast_singleton, List.flatMap_cons, List.flatMap_nil, List.append_nil,
      List.getLast?_cons_cons, List.getLast?_singleton, Option.toList_some, List.mem_append] at hu
    refine hu.elim (hsrc u) fun hu => ?_
    rw [List.mem_singleton.mp hu]
    exact hr

lemma set (c : Cond) (hr : Supplied site.target k (r, 0)) :
    Brings site.target n s k (s.push (site.instr (.set c) [.part r .byte]))
      (Supplied site.target · (r, 1)) := by
  refine push (ne_call rfl) rfl (fun u hu => ?_) hr
  simp [Instr.needs, Opcode.overwrites, Operand.addressNeeds, Operand.address] at hu

lemma store (op : Opcode) (hop : op.overwrites = true) (hsrc : Usable site.target k src)
    (hdst : Usable site.target k dst) (hmem : ∀ q, dst ≠ .reg q) :
    Brings site.target n s k (s.push (site.instr op [src, dst])) fun _ => True := by
  have hneeds : dst.addressNeeds = dst.needs := by
    cases dst with
    | reg q => exact absurd rfl (hmem q)
    | _ => rfl
  refine pushNone (ne_call (Opcode.writesLast_of_overwrites hop)) ?_ (fun u hu => ?_) trivial
  · cases dst with
    | reg q => exact absurd rfl (hmem q)
    | _ => simp [Instr.settles, Opcode.writesLast_of_overwrites hop]
  · simp only [Instr.needs, Site.instr, hop, if_true, List.dropLast_cons_cons,
      List.dropLast_singleton, List.flatMap_cons, List.flatMap_nil, List.append_nil,
      List.getLast?_cons_cons, List.getLast?_singleton, Option.toList_some, hneeds,
      List.mem_append] at hu
    exact hu.elim (hsrc u) (hdst u)

lemma look (i : Instr) (hop : i.op.writesLast = false) (hcall : i.op ≠ .call)
    (hos : ∀ o ∈ i.operands, Usable t k o) : Brings t n s k (s.push i) fun _ => True := by
  have hover : i.op.overwrites = false := by
    by_contra h
    rw [Opcode.writesLast_of_overwrites (by simpa using h)] at hop
    cases hop
  refine pushNone hcall (by simp [Instr.settles, hop]) (fun u hu => ?_) trivial
  simp only [Instr.needs, hover, Bool.false_eq_true, if_false, List.mem_append, List.mem_flatMap,
    Option.mem_toList] at hu
  rcases hu with ⟨o, ho, hu⟩ | ⟨o, ho, hu⟩
  · exact hos o (List.mem_of_mem_dropLast ho) u hu
  · exact hos o (List.mem_of_getLast? ho) u hu

end Brings

/-! ### Code for operands -/

section Operands

variable {site : Site} {o : Ir.Operand} {src dst : Operand} {q : RegOperand} {u : Unit}

lemma usable_slot (d : Int) : Usable site.target k (.slot d) := by
  intro u hu
  rw [List.mem_singleton.mp hu]
  exact fixed_of_task (c := site.options.convention) (by decide)

lemma usable_offset (d : Int) (h : Supplied t k (r, 8)) : Usable t k (.offset r d) := by
  intro u hu
  rw [List.mem_singleton.mp hu]
  exact h

lemma usable_part {w : Width} (h : Supplied t k (r, w.bytes)) : Usable t k (.part r w) := by
  intro u hu
  rw [List.mem_singleton.mp hu]
  exact h

lemma usable_full (h : Supplied t k (r, 8)) : Usable t k (.full r) := usable_part h

lemma usable_imm (v : Word) : Usable t k (.imm v) := by
  intro u hu
  cases hu

lemma usable_of_needs (h : dst.needs = []) : Usable t k dst := by
  intro u hu
  rw [h] at hu
  cases hu

lemma supplied_task {p : PhysReg} (h : p ∈ taskRegs) (m : Nat) :
    Supplied site.target k (.phys p, m) := fixed_of_task (c := site.options.convention) h

lemma overwrites_floatMove (ty : Ty) : (floatMove ty).overwrites = true := by
  unfold floatMove
  split <;> rfl

lemma brings_load (v : Source) (hq : Supplied site.target k (q.reg, 0)) :
    Brings site.target n s k (s.push (v.load site q))
      (Supplied site.target · (q.reg, q.width.settled)) := by
  cases v with
  | symbol asm => exact .move _ _ rfl (usable_of_needs rfl) hq
  | residence res =>
    unfold Source.load
    dsimp only
    split
    · exact .move _ _ rfl (usable_slot _) hq
    · exact .move _ _ rfl (usable_slot _) hq
    · exact .move _ _ (by split_ifs <;> rfl) (usable_of_needs rfl) hq

lemma brings_loadGprInto (h : Yields (loadGprInto o q) site s u s')
    (hq : Supplied site.target k (q.reg, 0)) :
    Brings site.target n s k s'
      (Supplied site.target · (q.reg, q.width.settled)) := by
  obtain ⟨v, -, rfl⟩ := yields_loadGprInto.mp h
  exact brings_load v hq

lemma brings_newTemp {cls : RegClass} (h : Yields (newTemp cls) site s r s') :
    Brings site.target n s k s' (Supplied site.target · (r, 0)) := by
  obtain ⟨p, hp, rfl, rfl⟩ := yields_newTemp.mp h
  exact .issue hp

lemma brings_loadGpr (h : Yields (loadGpr o) site s r s') :
    Brings site.target n s k s' (Supplied site.target · (r, 8)) := by
  obtain ⟨p, v, hp, -, rfl, rfl⟩ := yields_loadGpr.mp h
  exact (Brings.issue hp).bind fun k₁ _ hr => brings_load v hr

lemma brings_gprSource (h : Yields (gprSource o) site s src s') :
    Brings site.target n s k s' (Usable site.target · src) := by
  obtain ⟨v, -, ⟨hv, rfl⟩ | ⟨r, hr, rfl⟩⟩ := gprSource_cases h
  · refine .pure ?_
    cases v with
    | symbol asm => cases hv
    | residence res =>
      unfold Source.direct? at hv
      dsimp only at hv
      split at hv
      · cases hv
        exact usable_slot _
      · cases hv
      · split_ifs at hv
        cases hv
        exact usable_of_needs rfl
  · exact (brings_loadGpr hr).imp fun k₁ _ hr => usable_full hr

lemma brings_loadXmmInto (h : Yields (loadXmmInto o q) site s u s')
    (hq : Supplied site.target k (q.reg, 0)) :
    Brings site.target n s k s'
      (Supplied site.target · (q.reg, q.width.settled)) := by
  obtain ⟨-, -, -, ⟨res, -, -, rfl⟩ | ⟨r, s₁, hr, rfl⟩⟩ := loadXmmInto_cases h
  · exact .move _ _ (overwrites_floatMove _) (usable_slot _) hq
  · exact (brings_loadGpr hr).bind fun k₁ hk₁ hr => .move _ _ rfl (usable_full hr) (hq.mono hk₁)

lemma brings_loadXmm (h : Yields (loadXmm o) site s r s') :
    Brings site.target n s k s' (Supplied site.target · (r, 8)) := by
  obtain ⟨p, hp, rfl, h⟩ := yields_loadXmm.mp h
  exact (Brings.issue hp).bind fun k₁ _ hr => brings_loadXmmInto h hr

lemma brings_xmmSource (h : Yields (xmmSource o) site s src s') :
    Brings site.target n s k s' (Usable site.target · src) := by
  obtain ⟨res, -, -, rfl, rfl⟩ | ⟨r, hr, rfl⟩ := xmmSource_cases h
  · exact .pure (usable_slot _)
  · exact (brings_loadXmm hr).imp fun k₁ _ hr => usable_full hr

lemma brings_addressOf (h : Yields (addressOf o) site s dst s') :
    Brings site.target n s k s'
      (fun k' => Usable site.target k' dst ∧ ∀ q, dst ≠ .reg q) := by
  obtain ⟨-, -, -, ⟨asm, -, rfl, rfl⟩ | ⟨res, -, -, rfl, rfl⟩ | ⟨r, res, -, -, hr, rfl⟩⟩ :=
    addressOf_cases h
  · exact .pure ⟨usable_of_needs rfl, by simp⟩
  · exact .pure ⟨usable_slot _, by simp⟩
  · exact (brings_loadGpr hr).imp fun k₁ _ hr => ⟨usable_offset _ hr, by simp⟩

lemma brings_storeSource {w : Width} (h : Yields (storeSource o w) site s src s') :
    Brings site.target n s k s' (Usable site.target · src) := by
  obtain ⟨-, -, ⟨bits, -, rfl, rfl⟩ | ⟨r, hr, rfl⟩⟩ := storeSource_cases h
  · exact .pure (usable_of_needs rfl)
  · exact (brings_loadGpr hr).imp fun k₁ _ hr => usable_part (hr.of_le (by cases w <;> decide))

end Operands

/-! ### Code for results -/

section Results

variable {site : Site} {i : Ir.Instr} {ty : Ty} {u : Unit}

lemma brings_extension (ty : Ty) (hr : Supplied site.target k (r, if ty = .bool then 1 else 8)) :
    Brings site.target n s k (s.pushAll (site.extension r ty))
      (Supplied site.target · (r, 8)) := by
  have hr0 : Supplied site.target k (r, 0) := hr.of_le (Nat.zero_le _)
  rw [Site.extension]
  cases he : extendInPlace { reg := r } ty with
  | none =>
    rw [Option.toList_none, List.map_nil, Session.pushAll_nil]
    refine .pure ?_
    rwa [if_neg (by rintro rfl; cases he)] at hr
  | some e =>
    rw [Option.toList_some, List.map_singleton, Session.pushAll_singleton]
    have hpart (w : Width) (hw : w.bytes ≤ if ty = .bool then 1 else 8) :
        Usable site.target k (.part r w) := usable_part (hr.of_le hw)
    unfold extendInPlace at he
    split at he <;> cases he
    · exact .move _ _ rfl (hpart .byte (by decide)) hr0
    · exact .move _ _ rfl (hpart .word (by decide)) hr0
    · exact .move _ _ rfl (hpart .long (by decide)) hr0
    · exact .move _ _ rfl (hpart .byte (by decide)) hr0
    · exact .move _ _ rfl (hpart .byte (by decide)) hr0
    · exact .move _ _ rfl (hpart .word (by decide)) hr0
    · exact .move _ _ rfl (hpart .long (by decide)) hr0

lemma brings_storeGpr (h : Yields (storeGpr i r ty) site s u s')
    (hr : Supplied site.target k (r, if ty = .bool then 1 else 8)) :
    Brings site.target n s k s' fun _ => True := by
  obtain ⟨id, d, frame, -, -, rfl⟩ := yields_storeGpr.mp h
  refine (brings_extension ty hr).bind fun k₁ _ hr => ?_
  have hstore : Brings site.target n (s.pushAll (site.extension r ty)) k₁
      ((s.pushAll (site.extension r ty)).push (site.instr (.mov .quad) [.full r, .slot d]))
      fun _ => True := .store _ rfl (usable_full hr) (usable_slot d) (by simp)
  exact hstore.bind fun k₂ _ _ => .of_eq rfl (by simp [Session.push, Session.pushAll]) trivial

lemma brings_storeXmm (h : Yields (storeXmm i r ty) site s u s')
    (hr : Supplied site.target k (r, 8)) : Brings site.target n s k s' fun _ => True := by
  obtain ⟨id, d, frame, -, -, rfl⟩ := yields_storeXmm.mp h
  have hstore : Brings site.target n s k
      (s.push (site.instr (floatMove ty) [.full r, .slot d])) fun _ => True :=
    .store _ (overwrites_floatMove ty) (usable_full hr) (usable_slot d) (by simp)
  exact hstore.bind fun k₁ _ _ => .of_eq rfl rfl trivial

lemma le_of_ne_bool (ty : Ty) : (if ty = .bool then 1 else 8) ≤ 8 := by split_ifs <;> decide

end Results

/-! ### Code of constructs -/

section Constructs

variable {site : Site} {i : Ir.Instr} {a b : Ir.Operand} {u : Unit} {op : BinaryOp}
  {args : List (Ir.Operand × Placement)}

lemma brings_arith {op : AluOp} (h : Yields (arith i op a b) site s u s') :
    Brings site.target n s k s' fun _ => True := by
  obtain ⟨acc, s₁, rhs, s₂, hacc, hrhs, h⟩ := arith_cases h
  refine (brings_loadGpr hacc).bind fun k₁ _ hacc => ?_
  refine (brings_gprSource hrhs).bind fun k₂ hk₂ hrhs => ?_
  refine (Brings.update (.alu op) .quad rfl rfl hrhs (hacc.mono hk₂)).bind fun k₃ _ hacc => ?_
  exact brings_storeGpr h (hacc.of_le (le_of_ne_bool _))

lemma brings_divisor {d : Operand} (h : Yields (divisor b) site s d s') :
    Brings site.target n s k s' (Usable site.target · d) := by
  obtain ⟨src, s₁, hsrc, ⟨-, rfl, rfl⟩ | ⟨v, r, s₂, -, hr, rfl, rfl⟩⟩ := divisor_cases h
  · exact brings_gprSource hsrc
  · refine (brings_gprSource hsrc).bind fun k₁ _ _ => ?_
    refine (brings_newTemp hr).bind fun k₂ _ hr => ?_
    refine (Brings.move (.mov .quad) .quad rfl (usable_imm v) hr).imp fun k₃ _ hr => ?_
    exact usable_full hr

lemma brings_divide (h : Yields (divide i a b) site s u s') :
    Brings site.target n s k s' fun _ => True := by
  obtain ⟨s₁, d, s₂, ha, hd, h⟩ := divide_cases h
  refine (brings_loadGprInto ha (supplied_task (by decide) 0)).bind fun k₁ _ _ => ?_
  have hupper : Brings site.target n s₁ k₁ (s₁.push (site.upperHalf i.ty.isSigned))
      fun _ => True := by
    unfold Site.upperHalf
    split_ifs
    · exact .look _ rfl (by simp) (by simp)
    · have hrdx (m : Nat) : Supplied site.target k₁ (.ofGpr .rdx, m) :=
        supplied_task (by decide) m
      exact (Brings.update .xorl .long rfl rfl (usable_part (hrdx _)) (hrdx _)).imp
        fun _ _ _ => trivial
  refine hupper.bind fun k₂ _ _ => ?_
  refine (brings_divisor hd).bind fun k₃ _ hd => ?_
  refine (Brings.look (site.instr (.div i.ty.isSigned) [d]) rfl (by simp)
    (by simpa using hd)).bind fun k₄ _ _ => ?_
  exact brings_storeGpr h (supplied_task (by decide) _)

lemma brings_shift {toRight : Bool} (h : Yields (shift i toRight a b) site s u s') :
    Brings site.target n s k s' fun _ => True := by
  obtain ⟨value, s₁, reach, s₂, hvalue, -, hcount, h⟩ := shift_cases h
  refine (brings_loadGpr hvalue).bind fun k₁ _ hvalue => ?_
  have hshift : Brings site.target n s₁ k₁ s₂ (Supplied site.target · (value, 8)) := by
    obtain ⟨count, -, rfl⟩ | ⟨s₃, -, hload, rfl⟩ := hcount
    · exact .update _ _ rfl rfl (usable_of_needs rfl) hvalue
    · refine (brings_loadGprInto hload (supplied_task (by decide) 0)).bind fun k₂ hk₂ _ => ?_
      exact .update _ _ rfl rfl (usable_part (supplied_task (by decide) _)) (hvalue.mono hk₂)
  exact hshift.bind fun k₂ _ hvalue => brings_storeGpr h (hvalue.of_le (le_of_ne_bool _))

lemma brings_compare (h : Yields (compare i op a b) site s u s') :
    Brings site.target n s k s' fun _ => True := by
  obtain ⟨lhs, s₁, rhs, s₂, s₃, hlhs, hrhs, rfl, hresult⟩ := yields_compare.mp h
  refine (brings_loadGpr hlhs).bind fun k₁ _ hlhs => ?_
  refine (brings_gprSource hrhs).bind fun k₂ hk₂ hrhs => ?_
  refine (Brings.look (site.instr .cmp [rhs, .full lhs]) rfl (by simp)
    (by simpa using ⟨hrhs, usable_full (hlhs.mono hk₂)⟩)).bind fun k₃ hk₃ _ => ?_
  obtain ⟨-, rfl⟩ | ⟨-, h⟩ := hresult
  · exact .of_eq rfl rfl trivial
  · have hlhs := ((hlhs.mono hk₂).mono hk₃).of_le (Nat.zero_le 8)
    exact (Brings.set _ hlhs).bind fun k₄ _ hlhs => brings_storeGpr h hlhs

lemma brings_floatArith {op : FloatOp} (h : Yields (floatArith i op a b) site s u s') :
    Brings site.target n s k s' fun _ => True := by
  obtain ⟨acc, s₁, rhs, s₂, hacc, hrhs, h⟩ := floatArith_cases h
  refine (brings_loadXmm hacc).bind fun k₁ _ hacc => ?_
  refine (brings_xmmSource hrhs).bind fun k₂ hk₂ hrhs => ?_
  refine (Brings.update (.float op (precision i.ty)) .quad rfl rfl hrhs (hacc.mono hk₂)).bind
    fun k₃ _ hacc => ?_
  exact brings_storeXmm h hacc

lemma brings_floatFlags (h : Yields (floatFlags op r) site s u s')
    (hr : Supplied site.target k (r, 0)) :
    Brings site.target n s k s' (Supplied site.target · (r, 1)) := by
  obtain ⟨c, rfl⟩ | ⟨r', s₁, c, c', combine, hcombine, hr', rfl⟩ := floatFlags_cases h
  · exact .set _ hr
  · refine (brings_newTemp hr').bind fun k₁ hk₁ hr' => ?_
    refine (Brings.set c (hr.mono hk₁)).bind fun k₂ hk₂ hr => ?_
    refine (Brings.set c' (hr'.mono hk₂)).bind fun k₃ hk₃ hr' => ?_
    have hops : combine.overwrites = false ∧ combine.writesLast = true := by
      rcases hcombine with rfl | rfl <;> decide
    exact .update _ _ hops.1 hops.2 (usable_part hr') (hr.mono hk₃)

lemma brings_floatCompare (h : Yields (floatCompare i op a b) site s u s') :
    Brings site.target n s k s' fun _ => True := by
  obtain ⟨first, second, lhs, s₁, rhs, s₂, result, s₃, s₄, -, hlhs, hrhs, hresult, hflags, h⟩ :=
    floatCompare_cases h
  refine (brings_loadXmm hlhs).bind fun k₁ _ hlhs => ?_
  refine (brings_xmmSource hrhs).bind fun k₂ hk₂ hrhs => ?_
  refine (Brings.look (site.instr (.ucomi (precision i.ty)) [rhs, .full lhs]) rfl
    (by simp)
    (by simpa using ⟨hrhs, usable_full (hlhs.mono hk₂)⟩)).bind fun k₃ _ _ => ?_
  refine (brings_newTemp hresult).bind fun k₄ _ hresult => ?_
  refine (brings_floatFlags hflags hresult).bind fun k₅ _ hresult => ?_
  exact brings_storeGpr h hresult

lemma brings_binary (h : Yields (binary i op) site s u s') :
    Brings site.target n s k s' fun _ => True := by
  obtain ⟨form, a, b, -, -, -, -, -, -, -, -, h⟩ := yields_binary.mp h
  cases form with
  | arith op => exact brings_arith h
  | divide => exact brings_divide h
  | shift toRight => exact brings_shift h
  | compare => exact brings_compare h
  | floatArith op => exact brings_floatArith h
  | floatCompare => exact brings_floatCompare h

lemma brings_loadInstr (h : Yields (load i) site s u s') :
    Brings site.target n s k s' fun _ => True := by
  obtain ⟨pointer, src, s₁, value, s₂, -, -, hsrc, hvalue, hresult⟩ := load_cases h
  refine (brings_addressOf hsrc).bind fun k₁ _ hsrc => ?_
  refine (brings_newTemp hvalue).bind fun k₂ hk₂ hvalue => ?_
  have hsrc := hsrc.1.mono hk₂
  obtain ⟨-, h⟩ | ⟨home, s₃, -, hhome, rfl⟩ := hresult
  · exact (Brings.move _ .quad (overwrites_floatMove i.ty) hsrc hvalue).bind fun k₃ _ hvalue =>
      brings_storeXmm h hvalue
  · obtain ⟨id, d, frame, -, -, rfl, rfl⟩ := yields_defineHome.mp hhome
    have hload : Brings site.target n s₂ k₂
        (s₂.push (site.instr (extendingLoad src { reg := value } i.ty).op
          (extendingLoad src { reg := value } i.ty).operands))
        (Supplied site.target · (value, 8)) := by
      unfold extendingLoad
      split <;> exact .move _ _ rfl hsrc hvalue
    refine hload.bind fun k₃ _ hvalue => ?_
    refine (Brings.store (.mov .quad) rfl (usable_full hvalue) (usable_slot d) (by simp)).bind
      fun k₄ _ _ => ?_
    exact .of_eq rfl rfl trivial

lemma brings_store (h : Yields (store i) site s u s') :
    Brings site.target n s k s' fun _ => True := by
  obtain ⟨value, pointer, -, src, s₁, dst, s₂, -, -, -, -, hdst, hvalue⟩ := store_cases h
  obtain ⟨-, r, hr, rfl, rfl⟩ | ⟨-, hsrc, rfl⟩ := hvalue
  · refine (brings_loadXmm hr).bind fun k₁ _ hr => ?_
    refine (brings_addressOf hdst).bind fun k₂ hk₂ hdst => ?_
    exact .store _ (overwrites_floatMove _) (usable_full (hr.mono hk₂)) hdst.1 hdst.2
  · refine (brings_storeSource hsrc).bind fun k₁ _ hsrc => ?_
    refine (brings_addressOf hdst).bind fun k₂ hk₂ hdst => ?_
    exact .store _ rfl (hsrc.mono hk₂) hdst.1 hdst.2

lemma brings_stackArguments
    (h : Yields (stackArguments args) site s u s') : Brings site.target n s k s' fun _ => True := by
  induction args generalizing s k with
  | nil =>
    obtain ⟨-, rfl⟩ := yields_pure.mp h
    exact .pure trivial
  | cons arg args ih =>
    obtain ⟨s₁, hrest, ⟨r, -, rfl⟩ | ⟨offset, r, s₂, -, hr, rfl⟩⟩ := stackArguments_cons_cases h
    · exact ih hrest
    · refine (brings_loadGpr hr).bind fun k₁ _ hr => ?_
      have hrsp : Supplied site.target k₁ (.ofGpr .rsp, 8) := supplied_task (by decide) 8
      refine (Brings.store (.mov .quad) rfl (usable_full hr) (usable_offset offset hrsp)
        (by simp)).bind fun k₂ _ _ => ?_
      exact ih hrest

lemma brings_registerArguments
    (hargs : ∀ arg ∈ args, ∀ q, arg.2.place = .register q → q ∈ site.target.args arg.2.cls)
    (h : Yields (registerArguments args) site s u s') :
    Brings site.target n s k s' fun _ => True := by
  induction args generalizing s k with
  | nil =>
    obtain ⟨-, rfl⟩ := yields_pure.mp h
    exact .pure trivial
  | cons arg args ih =>
    obtain ⟨hq, hargs⟩ := List.forall_mem_cons.mp hargs
    have hfixed := fun q hplace => fixed_of_args (c := site.options.convention) (hq q hplace)
    obtain ⟨s₁, hrest, ⟨offset, -, rfl⟩ | ⟨q, hplace, -, hload⟩ | ⟨q, hplace, -, hload⟩⟩ :=
      registerArguments_cons_cases h
    · exact ih hargs hrest
    · exact (brings_loadGprInto hload (hfixed q hplace)).bind fun k₁ _ _ => ih hargs hrest
    · exact (brings_loadXmmInto hload (hfixed q hplace)).bind fun k₁ _ _ => ih hargs hrest

lemma supplied_intResult (m : Nat) : Supplied site.target k (.phys site.target.intResult, m) := by
  have hint : site.target.intResult = .gpr .rax := (results site.options.convention).1
  rw [hint]
  exact supplied_task (by decide) m

lemma supplied_floatResult (m : Nat) :
    Supplied site.target k (.phys site.target.floatResult, m) := by
  have hfloat : site.target.floatResult = .xmm 0 := (results site.options.convention).2
  rw [hfloat]
  exact supplied_task (by decide) m

lemma exists_advances_call {name : String} (h : Yields (call i name) site s u s') :
    ∃ k', Advances site.target n s k s' k' := by
  obtain ⟨e, symbols, tys, ps, s₁, s₂, s₃, -, -, hplace, hstack, hregs, rfl, hend⟩ := call_cases h
  obtain ⟨-, hfits⟩ := place_eq_ok hplace
  have hargs : ∀ arg ∈ i.operands.zip ps, ∀ q, arg.2.place = .register q →
      q ∈ site.target.args arg.2.cls := by
    intro arg harg q hq
    obtain ⟨ty, hfit⟩ := exists_fits hfits (List.of_mem_zip harg).2
    exact hfit.register q hq
  obtain ⟨k₁, e₁, -⟩ := brings_stackArguments (n := n) (k := k) hstack
  obtain ⟨k₂, e₂, -⟩ := brings_registerArguments (n := n) (k := k₁) hargs hregs
  have e₀ : Advances site.target n s k { s with symbols } k := .of_eq rfl rfl
  have e₃ : Advances site.target n s₂ k₂ (s₂.push (site.instr .call [.symbol e.asm]))
      ((site.instr .call [.symbol e.asm]).settled k₂) :=
    .push (fun u hu => by cases hu) fun u hu => by cases hu
  have e₄ : Advances site.target n s k
      { s₂.push (site.instr .call [.symbol e.asm]) with
        frame := s₂.frame.noteCall (site.target.outgoingBytes ps) }
      ((site.instr .call [.symbol e.asm]).settled k₂) :=
    e₀.trans (e₁.trans (e₂.trans (e₃.trans (.of_eq rfl rfl))))
  obtain ⟨-, rfl⟩ | ⟨-, hresult⟩ := hend
  · exact ⟨_, e₄⟩
  · obtain ⟨-, ⟨-, hstore⟩ | ⟨-, hstore⟩⟩ := callResult_cases hresult
    · obtain ⟨k₅, e₅, -⟩ := brings_storeXmm (n := n) hstore (supplied_floatResult 8)
      exact ⟨k₅, e₄.trans e₅⟩
    · obtain ⟨k₅, e₅, -⟩ := brings_storeGpr (n := n) hstore (supplied_intResult _)
      exact ⟨k₅, e₄.trans e₅⟩

lemma brings_returnValue {value : Option Ir.Operand} {text : String}
    (h : Yields (returnValue value text) site s u s') :
    Brings site.target n s k s' fun _ => True := by
  have hreturns : Brings site.target n s k { s with returns := true } fun _ => True :=
    .of_eq rfl rfl trivial
  obtain ⟨f, -, ⟨-, -, rfl⟩ | ⟨v, -, -, -, ⟨-, hload⟩ | ⟨-, hload⟩⟩⟩ := returnValue_cases h
  · exact hreturns
  · exact hreturns.bind fun k₁ _ _ =>
      (brings_loadXmmInto hload (supplied_floatResult 0)).imp fun _ _ _ => trivial
  · exact hreturns.bind fun k₁ _ _ =>
      (brings_loadGprInto hload (supplied_intResult 0)).imp fun _ _ _ => trivial

lemma advances_leaps {is : List Instr}
    (h : ∀ i ∈ is, i.op.writesLast = false ∧ i.op ≠ .call ∧ i.needs = []) :
    Advances site.target n s k (s.pushAll is) k := by
  induction is generalizing s with
  | nil =>
    rw [Session.pushAll_nil]
    exact .refl
  | cons i is ih =>
    obtain ⟨⟨hop, hcall, hneeds⟩, his⟩ := List.forall_mem_cons.mp h
    have hsettles : i.settles = [] := by simp [Instr.settles, hop]
    have hsettled : i.settled k = k := by
      rw [Instr.settled, hsettles, if_neg hcall, List.nil_append]
    have hpush : Advances site.target n s k (s.push i) (i.settled k) :=
      .push (by simp [hneeds]) (by simp [hsettles])
    rw [hsettled] at hpush
    rw [Session.pushAll_cons]
    exact hpush.trans (ih his)

theorem exists_advances_instrCode (h : Yields (instrCode i) site s u s') :
    ∃ k', Advances site.target n s k s' k' := by
  unfold instrCode at h
  split at h
  case h_1 op _ =>
    obtain ⟨k', e, -⟩ := brings_binary (n := n) (k := k) h
    exact ⟨k', e⟩
  case h_2 =>
    obtain ⟨k', e, -⟩ := brings_loadInstr (n := n) (k := k) h
    exact ⟨k', e⟩
  case h_3 =>
    obtain ⟨k', e, -⟩ := brings_store (n := n) (k := k) h
    exact ⟨k', e⟩
  case h_4 name _ => exact exists_advances_call h
  case h_5 =>
    obtain ⟨s₁, -, hvalue, rfl⟩ := earlyReturn_cases h
    obtain ⟨k', e, -⟩ := brings_returnValue (n := n) (k := k) hvalue
    refine ⟨k', e.trans ?_⟩
    rw [← Session.pushAll_singleton]
    exact advances_leaps (List.forall_mem_singleton.mpr ⟨rfl, by simp [Site.exit], rfl⟩)
  case h_6 =>
    obtain ⟨id, d, frame, -, -, rfl⟩ := alloca_cases h
    exact ⟨k, .of_eq rfl rfl⟩
  case h_7 =>
    obtain ⟨literal, id, -, bits, -, -, -, -, rfl⟩ := constant_cases h
    exact ⟨k, .of_eq rfl rfl⟩

lemma advances_goto {s₁ : Session} (target : Nat) (next : Option Nat) :
    Advances site.target n s k (s.pushAll (site.goto s₁ target next)) k := by
  refine advances_leaps fun i hi => ?_
  unfold Site.goto at hi
  split_ifs at hi
  · cases hi
  · rw [List.mem_singleton.mp hi]
    exact ⟨rfl, by simp, rfl⟩

lemma advances_fork {s₁ : Session} (cond : Cond) (onTrue onFalse : Nat) (next : Option Nat) :
    Advances site.target n s k (s.pushAll (site.fork s₁ cond onTrue onFalse next)) k := by
  have hjcc (c : Cond) (l : String) :
      Advances site.target n s k (s.push (site.instr (.jcc c) [.label l])) k := by
    rw [← Session.pushAll_singleton]
    exact advances_leaps (List.forall_mem_singleton.mpr ⟨rfl, by simp, rfl⟩)
  unfold Site.fork
  split_ifs
  · rw [Session.pushAll_singleton]
    exact hjcc _ _
  · rw [Session.pushAll_cons]
    exact (hjcc _ _).trans (advances_goto onFalse next)

lemma exists_advances_branch {value : Option Ir.Operand} {onTrue onFalse : Nat} {next : Option Nat}
    (h : Yields (branch value onTrue onFalse next) site s u s') :
    ∃ k', Advances site.target n s k s' k' := by
  have hpending : Advances site.target n s k { s with pending := none } k :=
    .of_eq rfl rfl
  obtain ⟨-, rfl⟩ | ⟨condition, -, -, ⟨cond, -, rfl⟩ | ⟨reach, -, -, -, hvalue⟩⟩ := branch_cases h
  · exact ⟨k, hpending.trans (advances_goto onTrue next)⟩
  · exact ⟨k, hpending.trans (advances_fork cond onTrue onFalse next)⟩
  · obtain ⟨bits, -, rfl⟩ | ⟨src, s₁, -, hsrc, rfl⟩ := hvalue
    · exact ⟨k, advances_goto _ next⟩
    · obtain ⟨k₁, e₁, -, hsrc⟩ := brings_gprSource (n := n) (k := k) hsrc
      obtain ⟨k₂, e₂, -⟩ := Brings.look (n := n) (s := s₁) (site.instr .cmp [.imm 0, src]) rfl
        (by simp) (by simpa using ⟨usable_imm 0, hsrc⟩)
      exact ⟨k₂, e₁.trans (e₂.trans (advances_fork .ne onTrue onFalse next))⟩

theorem exists_advances_leave {e : Ir.Terminator} {next : Option Nat}
    (h : Yields (leave e next) site s u s') : ∃ k', Advances site.target n s k s' k' := by
  obtain ⟨s₁, -, hvalue, rfl⟩ | ⟨target, -, rfl⟩ | ⟨onTrue, onFalse, -, h⟩ | ⟨-, rfl⟩ :=
    leave_cases h
  · obtain ⟨k₁, e₁, -⟩ := brings_returnValue (n := n) (k := k) hvalue
    refine ⟨k₁, e₁.trans (advances_leaps fun i hi => ?_)⟩
    split_ifs at hi
    · rw [List.mem_singleton.mp hi]
      exact ⟨rfl, by simp [Site.exit], rfl⟩
    · cases hi
  · exact ⟨k, advances_goto target next⟩
  · exact exists_advances_branch h
  · refine ⟨k, advances_leaps fun i hi => ?_⟩
    split_ifs at hi
    · rw [List.mem_singleton.mp hi]
      exact ⟨rfl, by simp [Site.trap], rfl⟩
    · cases hi

end Constructs

end NativeCode.Selection
