import Mathlib.Algebra.Group.Nat.Even
import NativeCode.Proofs.Frame.Regions
import NativeCode.Proofs.Machine.Encoding

/-!
# Frames at the limits

Slots are handed out as long as their displacements have 32 bits, and the stack pointer moves by
immediates of 32 bits. The two limits agree but for one kind of frame: when the locals take all the
displacements that slots can have, and the pushed registers do not make up for the alignment, the
locals are padded to a size that is no immediate.
-/

namespace NativeCode.Frame

open Abi Machine

variable {c : Convention} {n : Needs} {saved : List PhysReg} {limit : Int} {l : Layout}

/-! ### Bounds on what is asked for -/

/-- A call whose arguments take little enough space for it to be rounded up. -/
def Request.Small : Request → Prop
  | .slot _ => True
  | .call bytes => bytes < 2147483632

namespace Ledger

variable {g : Ledger} {rs : List Request}

/-- Bounds on what has been asked of a frame. The locals end with the lowest slot. -/
structure Limited (g : Ledger) : Prop where
  locals : 0 ≤ g.needs.locals ∧ g.needs.locals ≤ 2147483640
  aligned : (8 : Int) ∣ g.needs.locals
  outgoing : 0 ≤ g.needs.outgoing ∧ g.needs.outgoing < 2147483632
  quiet : g.needs.hasCalls = false → g.needs.outgoing = 0
  slots : ∀ a ∈ g.slots, -g.needs.locals ≤ a.disp
  lowest : g.needs.locals = 0 ∨ ∃ a ∈ g.slots, a.disp = -g.needs.locals

lemma limited_empty : Limited {} :=
  ⟨by decide, ⟨0, rfl⟩, by decide, fun _ => rfl, by simp, Or.inl rfl⟩

lemma Limited.slot (h : g.Limited) {bytes : Nat} {d : Int} {n : Needs}
    (hn : g.needs.allocate bytes = .ok (d, n)) :
    Limited { needs := n, slots := ⟨d, bytes⟩ :: g.slots } := by
  obtain ⟨rfl, hslot, -, hlimit, hfields⟩ := Needs.allocate_eq_ok hn
  obtain ⟨hlow, -⟩ := h.locals
  have haligned : (8 : Int) ∣ n.locals := by
    rw [Needs.locals_of_allocate hn]
    exact dvd_add h.aligned (dvd_roundUp (by omega))
  refine ⟨by dsimp only; omega, haligned, ?_, ?_, ?_, Or.inr ⟨_, List.mem_cons_self, rfl⟩⟩
  · rw [hfields]
    exact h.outgoing
  · rw [hfields]
    exact h.quiet
  · refine List.forall_mem_cons.mpr ⟨le_rfl, fun a ha => ?_⟩
    have := h.slots a ha
    dsimp only
    omega

lemma Limited.call (h : g.Limited) {bytes : Int} (hbytes : bytes < 2147483632) :
    Limited { g with needs := g.needs.noteCall bytes } where
  __ := h
  outgoing := ⟨h.outgoing.1.trans (le_max_left _ _), max_lt h.outgoing.2 hbytes⟩
  quiet hcalls := by cases hcalls

lemma limited_after (hrs : ∀ r ∈ rs, r.Small) : (after rs).Limited :=
  after_induction limited_empty (fun h hn => h.slot hn) (fun h hbytes => h.call hbytes) hrs

end Ledger

/-! ### The size of the adjustments -/

/-- The adjustment for the locals is an immediate unless the locals take all displacements and their
padding comes on top. -/
theorem Layout.Sound.adjust_le_iff (h : l.Sound n saved)
    (hlocals : 0 ≤ n.locals ∧ n.locals ≤ 2147483640) (haligned : (8 : Int) ∣ n.locals) :
    l.adjust ≤ 2147483647 ↔ ¬ (n.locals = 2147483640 ∧ Even saved.length) := by
  have hle := h.adjust_le
  have hdvd := h.aligned
  have hge := h.locals
  rw [Nat.even_iff]
  constructor
  · rintro hadjust ⟨hfull, heven⟩
    omega
  · intro hpadded
    by_contra hadjust
    exact hpadded ⟨by omega, by omega⟩

lemma Needs.size_of_layout (h : n.layout c.target saved limit = .ok l) :
    l.size = (if l.usesRedZone then n.locals else l.adjust) + 8 * l.saved.length + l.outgoing ∧
      ∀ limit', n.layout c.target saved limit' = .ok l ↔ l.size ≤ limit' := by
  unfold layout slotBytes at h ⊢
  dsimp only at h ⊢
  rw [ite_fail_eq_ok] at h
  obtain ⟨-, h⟩ := h
  cases h
  refine ⟨by dsimp only; ring, fun limit' => ?_⟩
  rw [ite_fail_eq_ok, not_lt]
  exact and_iff_left rfl

namespace Layout

/-- The numbers of bytes below the frame pointer that are enough for the frame of a ledger: the
stack pointer does not go further down, and neither does a slot. -/
def reach (l : Layout) (g : Ledger) : Set Int :=
  {bytes | l.drop ≤ bytes ∧ ∀ a ∈ g.slots, -bytes ≤ a.disp}

end Layout

/-- The size of a frame is what it uses below the frame pointer. -/
theorem Ledger.Limited.isLeast_size {g : Ledger} (hg : g.Limited)
    (h : g.needs.layout c.target saved limit = .ok l) : IsLeast (l.reach g) l.size := by
  obtain ⟨hsize, -⟩ := Needs.size_of_layout h
  obtain ⟨-, hsaved, hred, hfull⟩ := Needs.redZone_of_layout h
  have hsound := Needs.layout_eq_ok hg.locals.1 hg.outgoing.1 h
  have hout := hsound.outgoing_ge
  have hout₀ := hg.outgoing.1
  have hlocals := hg.locals.1
  have hslots : ∀ bytes, g.needs.locals ≤ bytes ↔ 0 ≤ bytes ∧ ∀ a ∈ g.slots, -bytes ≤ a.disp := by
    intro bytes
    constructor
    · exact fun hle => ⟨hlocals.trans hle, fun a ha => (neg_le_neg hle).trans (hg.slots a ha)⟩
    · rintro ⟨hnonneg, hall⟩
      obtain hzero | ⟨a, ha, hdisp⟩ := hg.lowest
      · omega
      · have := hall a ha
        omega
  cases hzone : l.usesRedZone with
  | false =>
    -- The stack pointer goes below all slots.
    rw [hzone, if_neg (by decide)] at hsize
    have hbelow := hfull hzone
    refine ⟨⟨hsize.ge, ((hslots _).mp ?_).2⟩, fun bytes hbytes => hsize.le.trans hbytes.1⟩
    omega
  | true =>
    -- The stack pointer does not move, and the slots are all there is.
    rw [hzone, if_pos rfl] at hsize
    obtain ⟨hcalls, -, hnil, hadjust, houtgoing⟩ := hred hzone
    have hzero := houtgoing (hg.quiet hcalls)
    have hempty : l.saved.length = 0 := by rw [hsaved, hnil]; rfl
    have hdrop : l.drop = 0 := by
      unfold Layout.drop
      omega
    have hsize : l.size = g.needs.locals := by omega
    refine ⟨⟨by omega, ((hslots _).mp hsize.ge).2⟩, fun bytes hbytes => ?_⟩
    rw [hsize]
    exact (hslots bytes).mpr ⟨hdrop.ge.trans hbytes.1, hbytes.2⟩

/-! ### The code -/

lemma Layout.accepts_moveStack {op : AluOp} (hop : op = .sub ∨ op = .add) {bytes : Int}
    (hbytes : 0 ≤ bytes ∧ bytes < 9223372036854775808) (text : String) :
    (moveStack op bytes text).op.accepts (moveStack op bytes text).operands = true ↔
      bytes ≤ 2147483647 := by
  have hv : (BitVec.ofInt 64 bytes).toInt = bytes := by
    rw [BitVec.toInt_ofInt]
    exact Int.bmod_eq_of_le (by omega) (by omega)
  have himm : (moveStack op bytes text).op.accepts (moveStack op bytes text).operands =
      (Operand.imm (BitVec.ofInt 64 bytes)).isImm .quad := by
    rcases hop with rfl | rfl <;>
      simp [moveStack, Opcode.accepts, Opcode.acceptsTwo, Operand.arePair, Operand.isPlace,
        Operand.isGpr, Operand.isMemory, Operand.gpr, Operand.full, Reg.cls, Reg.ofGpr, PhysReg.cls]
  rw [himm, Operand.isImm, hv, immBound, Bool.and_eq_true, decide_eq_true_eq, decide_eq_true_eq]
  omega

/-- The code of a frame that pushes general-purpose registers can be encoded if and only if its two
adjustments are immediates. -/
lemma Layout.accepts_code_iff (hadjust : 0 ≤ l.adjust ∧ l.adjust < 9223372036854775808)
    (houtgoing : 0 ≤ l.outgoing ∧ l.outgoing < 9223372036854775808)
    (hpushes : ∀ r ∈ l.saved, r.cls = .gpr) :
    (∀ i ∈ l.prologue ++ l.epilogue, i.op.accepts i.operands = true) ↔
      l.adjust ≤ 2147483647 ∧ l.outgoing ≤ 2147483647 := by
  have hlocals := accepts_moveStack (Or.inl rfl) hadjust "locals"
  have hsub := accepts_moveStack (Or.inl rfl) houtgoing l.outgoingComment
  have hplace : ∀ r ∈ PhysReg.gpr .rbp :: l.saved,
      (Operand.full (.phys r)).isPlace .quad = true := fun r hr => by
    have hcls : r.cls = .gpr := by
      rcases List.mem_cons.mp hr with rfl | hr
      · rfl
      · exact hpushes r hr
    simp [Operand.full, Operand.isPlace, Operand.isGpr, Reg.cls, hcls]
  constructor
  · intro h
    rw [List.forall_mem_append, prologue_eq] at h
    have hlocals' (hpos : 0 < l.adjust) := hlocals.mp (h.1 _ (by simp [hpos]))
    have hsub' (hpos : 0 < l.outgoing) := hsub.mp (h.1 _ (by simp [hpos]))
    omega
  · rintro ⟨hle, hle'⟩ i hi
    cases Layout.line_of_mem hi with
    | push hr | pop hr => exact hplace _ hr
    | copy | ret => rfl
    | locals => exact hlocals.mpr hle
    | outgoing hop => exact (accepts_moveStack hop houtgoing l.outgoingComment).mpr hle'

lemma exists_execAll_pushes {p : Platform} (gs : List Gpr) (σ : State) :
    ∃ σ', execAll p (gs.map fun g => pushInstr (.gpr g)) σ = .ok σ' ∧
      σ'.gpr .rsp = addr (σ.gpr .rsp) (-(8 * gs.length)) ∧
      ∀ g, g ≠ .rsp → σ'.gpr g = σ.gpr g := by
  induction gs generalizing σ with
  | nil => exact ⟨σ, rfl, by simp, fun _ _ => rfl⟩
  | cons g gs ih =>
    obtain ⟨σ', hall, hrsp, hgpr⟩ := ih (σ.pushWord (σ.gpr g))
    refine ⟨σ', ?_, ?_, fun q hq => (hgpr q hq).trans (σ.pushWord_gpr_of_ne _ hq)⟩
    · rw [List.map_cons, execAll_cons_ok (exec_push σ g)]
      exact hall
    · rw [hrsp, State.pushWord_rsp, addr_addr, List.length_cons]
      congr 1
      push_cast
      ring

/-- The prologue leaves the frame pointer below the return address, and the stack pointer below the
frame pointer by what the frame drops it. -/
lemma Layout.exists_execAll_prologue {p : Platform} (hadjust : 0 ≤ l.adjust)
    (houtgoing : 0 ≤ l.outgoing) (hpushes : ∀ r ∈ l.saved, r.cls = .gpr) (σ : State) :
    ∃ σ', execAll p l.prologue σ = .ok σ' ∧ σ'.gpr .rbp = addr (σ.gpr .rsp) (-8) ∧
      σ'.gpr .rsp = addr (σ'.gpr .rbp) (-l.drop) := by
  obtain ⟨gs, hgs⟩ : l.saved ∈ Set.range (List.map PhysReg.gpr) := by
    rw [Set.range_list_map]
    intro r hr
    cases r with
    | gpr g => exact ⟨g, rfl⟩
    | xmm x => cases hpushes _ hr
  let σ₁ := (σ.pushWord (σ.gpr .rbp)).setGpr .rbp (addr (σ.gpr .rsp) (-8))
  have h₁ := execAll_enter (p := p) σ
  have hrsp₁ : σ₁.gpr .rsp = addr (σ.gpr .rsp) (-8) := by
    rw [State.setGpr_gpr_of_ne _ _ (by decide), State.pushWord_rsp]
  obtain ⟨σ₂, h₂, hrsp₂, hgpr₂, -⟩ :=
    exists_execAll_moveStack (p := p) hadjust (Or.inl ⟨rfl, rfl⟩) "locals" σ₁
  obtain ⟨σ₃, h₃, hrsp₃, hgpr₃⟩ := exists_execAll_pushes (p := p) gs σ₂
  obtain ⟨σ₄, h₄, hrsp₄, hgpr₄, -⟩ :=
    exists_execAll_moveStack (p := p) houtgoing (Or.inl ⟨rfl, rfl⟩) l.outgoingComment σ₃
  have hrbp : σ₄.gpr .rbp = addr (σ.gpr .rsp) (-8) := by
    rw [hgpr₄ _ (by decide), hgpr₃ _ (by decide), hgpr₂ _ (by decide), State.setGpr_gpr]
  refine ⟨σ₄, ?_, hrbp, ?_⟩
  · have hpush : l.saved.map pushInstr = gs.map fun g => pushInstr (.gpr g) := by
      rw [← hgs, List.map_map]
      rfl
    rw [prologue_eq, hpush, execAll_append_ok h₁, execAll_append_ok h₂, execAll_append_ok h₃, h₄]
  · rw [hrsp₄, hrsp₃, hrsp₂, hrsp₁, hrbp, addr_addr, addr_addr, addr_addr, addr_addr, drop, ← hgs,
      List.length_map]
    congr 1
    ring

/-! ### Main result -/

/-- Whatever is asked of a frame, if calls keep to their limit, the adjustments of its layout are
immediates, but for one kind of frame: the locals take all displacements of slots, and an even number
of registers is pushed. The adjustment for the locals is then padded to one more than the greatest
immediate. Without a red zone the stack pointer is aligned below the pushed registers. The size of
the frame is what it uses below the frame pointer, and a frame is laid out under every limit that is
not below its size. -/
theorem adjustments_of_layout {rs : List Request} (hrs : ∀ r ∈ rs, r.Small)
    (h : (Ledger.after rs).needs.layout c.target saved limit = .ok l) :
    (0 ≤ l.adjust ∧ 0 ≤ l.outgoing ∧ l.outgoing ≤ 2147483647) ∧
      (l.adjust ≤ 2147483647 ↔
        ¬ ((Ledger.after rs).needs.locals = 2147483640 ∧ Even saved.length)) ∧
      (l.usesRedZone = false → (16 : Int) ∣ l.adjust + 8 * saved.length) ∧
      IsLeast (l.reach (Ledger.after rs)) l.size ∧ l.size ≤ limit ∧
      (∀ limit', (Ledger.after rs).needs.layout c.target saved limit' = .ok l ↔ l.size ≤ limit') ∧
      ((∀ r ∈ saved, r.cls = .gpr) →
        ((∀ i ∈ l.prologue ++ l.epilogue, i.op.accepts i.operands = true) ↔
          l.adjust ≤ 2147483647) ∧
        ∀ (p : Platform) (σ : State), ∃ σ', execAll p l.prologue σ = .ok σ' ∧
          σ'.gpr .rbp = addr (σ.gpr .rsp) (-8) ∧ σ'.gpr .rsp = addr (σ'.gpr .rbp) (-l.drop)) := by
  have hlimited := Ledger.limited_after hrs
  have hsound := Needs.layout_eq_ok hlimited.locals.1 hlimited.outgoing.1 h
  obtain ⟨-, hlimit⟩ := Needs.size_of_layout h
  have hadjust := hsound.adjust_nonneg
  have hadjust' := hsound.adjust_le
  have hlocals := hlimited.locals
  have houtgoing := hsound.outgoing_ge
  have houtgoing' := hsound.outgoing_le
  have hcalls := hlimited.outgoing
  refine ⟨⟨hadjust, by omega, by omega⟩, hsound.adjust_le_iff hlocals hlimited.aligned,
    fun _ => hsound.aligned, hlimited.isLeast_size h, (hlimit limit).mp h, hlimit,
    fun hpushes => ⟨?_, fun p σ => ?_⟩⟩
  · rw [← hsound.pushes] at hpushes
    rw [Layout.accepts_code_iff (by omega) (by omega) hpushes]
    exact and_iff_left (by omega)
  · rw [← hsound.pushes] at hpushes
    exact Layout.exists_execAll_prologue hadjust (by omega) hpushes σ

/-- A frame whose slots end eight bytes above the limit: with one register pushed its adjustment is
an immediate. -/
theorem adjustments_of_layout_full :
    ∃ l, (Ledger.after [.slot 2147483600, .call (-8), .slot 33]).needs.layout Convention.win64.target
        [.gpr .rbx] 4294967296 = .ok l ∧
      l.locals = 2147483640 ∧ l.adjust ≤ 2147483647 ∧ l.size = 2147483680 ∧
      IsLeast (l.reach (Ledger.after [.slot 2147483600, .call (-8), .slot 33])) l.size ∧
      ∀ i ∈ l.prologue ++ l.epilogue, i.op.accepts i.operands = true := by
  refine ⟨_, rfl, ?_⟩
  obtain ⟨-, hadjust, -, hleast, -, -, hcode⟩ := adjustments_of_layout (by simp [Request.Small])
    (rfl : (Ledger.after [.slot 2147483600, .call (-8), .slot 33]).needs.layout
      Convention.win64.target [.gpr .rbx] 4294967296 = .ok _)
  exact ⟨rfl, hadjust.mpr (by decide), rfl, hleast, (hcode (by decide)).1.mpr (by decide)⟩

/-- The greatest frame that slots can ask for is laid out with an adjustment that is no immediate,
so that its prologue cannot be encoded. -/
theorem exists_adjust_not_encodable :
    ∃ l, (Ledger.after [.slot 2147483640]).needs.layout Convention.sysv.target [] 4294967296 =
        .ok l ∧
      l.adjust = 2147483648 ∧
      ¬ ∀ i ∈ l.prologue, i.op.accepts i.operands = true := by
  refine ⟨_, rfl, rfl, ?_⟩
  decide

end NativeCode.Frame
