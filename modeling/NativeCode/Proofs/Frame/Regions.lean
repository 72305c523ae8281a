import NativeCode.Proofs.Frame.Setup

/-!
# The regions of a stack frame

A ledger keeps what a frame has to hold together with the slots that have been handed out. Whatever
has been asked for, in whatever order, the slots do not overlap, and in the final frame neither do
the locals, the pushed registers and the outgoing arguments. Displacements are taken from the frame
pointer.
-/

namespace NativeCode.Frame

open Abi Machine

/-! ### Requests -/

/-- What code asks of a frame. -/
inductive Request where
  /-- A slot of some bytes. -/
  | slot (bytes : Nat)
  /-- Space for the arguments of a call. -/
  | call (bytes : Int)
  deriving DecidableEq

/-- A slot that has been handed out, with the bytes that were asked for. -/
structure Slot where
  disp : Int
  bytes : Nat
  deriving DecidableEq

/-- The displacements of the bytes of a slot. -/
def Slot.range (a : Slot) : Set Int := Set.Ico a.disp (a.disp + a.bytes)

/-- What a frame has to hold, and the slots that have been handed out, the latest first. -/
structure Ledger where
  needs : Needs := {}
  slots : List Slot := []
  deriving DecidableEq

namespace Ledger

/-- Serves a request. A slot that is refused changes nothing. -/
def serve (g : Ledger) : Request → Ledger
  | .slot bytes =>
    match g.needs.allocate bytes with
    | .ok (disp, needs) => { needs, slots := ⟨disp, bytes⟩ :: g.slots }
    | .error _ => g
  | .call bytes => { g with needs := g.needs.noteCall bytes }

def serveAll (g : Ledger) (rs : List Request) : Ledger := rs.foldl serve g

/-- The ledger of a fresh frame after some requests. -/
def after (rs : List Request) : Ledger := serveAll {} rs

/-- The slots of a ledger are aligned, lie among the locals, and do not overlap. -/
structure Separate (g : Ledger) : Prop where
  aligned : ∀ a ∈ g.slots, (8 : Int) ∣ a.disp
  inside : ∀ a ∈ g.slots, a.range ⊆ Set.Ico (-g.needs.locals) 0
  apart : g.slots.Pairwise fun a b => Disjoint a.range b.range

end Ledger

/-- Requests for the arguments of a call are not negative. -/
def Request.Valid : Request → Prop
  | .slot _ => True
  | .call bytes => 0 ≤ bytes

lemma Needs.locals_of_allocate {n n' : Needs} {bytes : Nat} {d : Int}
    (h : n.allocate bytes = .ok (d, n')) : n'.locals = n.locals + roundUp (max bytes 8) 8 := by
  unfold allocate slotBytes at h
  dsimp only at h
  rw [ite_fail_eq_ok] at h
  cases h.2
  rfl

/-- A slot is refused exactly when the locals would no longer have displacements of 32 bits. -/
theorem Needs.allocate_eq_error_iff {n : Needs} {bytes : Nat} :
    (∃ e, n.allocate bytes = .error e) ↔
      2147483647 < n.locals + roundUp (max bytes 8) 8 := by
  unfold allocate slotBytes
  dsimp only
  split_ifs with h
  · exact iff_of_true ⟨_, rfl⟩ h
  · refine iff_of_false ?_ h
    rintro ⟨e, he⟩
    cases he

/-! ### Slots -/

namespace Ledger

variable {g : Ledger} {rs : List Request}

/-- What holds of a fresh frame, and is kept when a slot is handed out and when a call is recorded, holds
after any requests. -/
theorem after_induction {P : Ledger → Prop} {Q : Request → Prop} (hfresh : P {})
    (hslot : ∀ {g : Ledger} {bytes d n}, P g → g.needs.allocate bytes = .ok (d, n) →
      P { needs := n, slots := ⟨d, bytes⟩ :: g.slots })
    (hcall : ∀ {g : Ledger} {bytes}, P g → Q (.call bytes) →
      P { g with needs := g.needs.noteCall bytes })
    (hrs : ∀ r ∈ rs, Q r) : P (after rs) := by
  have hserve {g : Ledger} {r : Request} (hg : P g) (hr : Q r) : P (g.serve r) := by
    cases r with
    | slot bytes =>
      unfold Ledger.serve
      dsimp only
      split
      · exact hslot hg ‹_›
      · exact hg
    | call bytes => exact hcall hg hr
  have hall : ∀ g : Ledger, P g → P (g.serveAll rs) := by
    induction rs with
    | nil => exact fun g hg => hg
    | cons r rs ih =>
      obtain ⟨hr, hrs⟩ := List.forall_mem_cons.mp hrs
      exact fun g hg => ih hrs (g.serve r) (hserve hg hr)
  exact hall {} hfresh

/-- What holds whatever has been asked for: a later slot lies below an earlier one, and there is no
space for arguments before the first call. -/
structure Inv (g : Ledger) : Prop where
  locals : 0 ≤ g.needs.locals
  aligned : (8 : Int) ∣ g.needs.locals
  outgoing : 0 ≤ g.needs.outgoing
  quiet : g.needs.hasCalls = false → g.needs.outgoing = 0
  slots : ∀ a ∈ g.slots, (8 : Int) ∣ a.disp ∧ -g.needs.locals ≤ a.disp ∧ a.disp + a.bytes ≤ 0
  below : g.slots.Pairwise fun a b => a.disp + (a.bytes : Int) ≤ b.disp

lemma inv_empty : Inv {} :=
  ⟨le_rfl, ⟨0, rfl⟩, le_rfl, fun _ => rfl, by simp, List.Pairwise.nil⟩

lemma Inv.slot (h : g.Inv) {bytes : Nat} {d : Int} {n : Needs}
    (hn : g.needs.allocate bytes = .ok (d, n)) :
    Inv { needs := n, slots := ⟨d, bytes⟩ :: g.slots } := by
  obtain ⟨rfl, hslot, hbytes, -, hfields⟩ := Needs.allocate_eq_ok hn
  have hlocals := h.locals
  have haligned : (8 : Int) ∣ n.locals := by
    rw [Needs.locals_of_allocate hn]
    exact dvd_add h.aligned (dvd_roundUp (by omega))
  refine ⟨by dsimp only; omega, haligned, ?_, ?_, List.forall_mem_cons.mpr ⟨?_, fun a ha => ?_⟩,
    List.pairwise_cons.mpr ⟨fun b hb => ?_, h.below⟩⟩
  · rw [hfields]
    exact h.outgoing
  · rw [hfields]
    exact h.quiet
  · exact ⟨(dvd_neg).mpr haligned, le_rfl, by dsimp only; omega⟩
  · obtain ⟨ha₁, ha₂, ha₃⟩ := h.slots a ha
    exact ⟨ha₁, by dsimp only; omega, ha₃⟩
  · obtain ⟨-, hb, -⟩ := h.slots b hb
    dsimp only
    omega

lemma Inv.call (h : g.Inv) {bytes : Int} (hbytes : 0 ≤ bytes) :
    Inv { g with needs := g.needs.noteCall bytes } where
  __ := h
  outgoing := hbytes.trans (le_max_right _ _)
  quiet hcalls := by cases hcalls

lemma inv_after (hrs : ∀ r ∈ rs, r.Valid) : (after rs).Inv :=
  after_induction inv_empty (fun h hn => h.slot hn) (fun h hbytes => h.call hbytes) hrs

/-- Slots are aligned, lie among the locals, and do not overlap. -/
theorem separate_after (hrs : ∀ r ∈ rs, r.Valid) : (after rs).Separate := by
  have hinv := inv_after hrs
  refine ⟨fun a ha => (hinv.slots a ha).1, fun a ha => ?_, hinv.below.imp fun {a b} h => ?_⟩
  · obtain ⟨-, hlow, hhigh⟩ := hinv.slots a ha
    exact Set.Ico_subset_Ico hlow hhigh
  · exact Set.Ico_disjoint_Ico.mpr (by simp; omega)

lemma le_outgoing_serveAll (g : Ledger) (rs : List Request) :
    g.needs.outgoing ≤ (g.serveAll rs).needs.outgoing := by
  induction rs generalizing g with
  | nil => exact le_rfl
  | cons r rs ih =>
    refine le_trans ?_ (ih (g.serve r))
    cases r with
    | slot bytes =>
      unfold serve
      dsimp only
      split
      case h_1 disp n hn =>
        obtain ⟨-, -, -, -, hfields⟩ := Needs.allocate_eq_ok hn
        rw [hfields]
      case h_2 => exact le_rfl
    | call bytes => exact le_max_left _ _

lemma call_le_outgoing {bytes : Int} (h : .call bytes ∈ rs) :
    bytes ≤ (after rs).needs.outgoing := by
  obtain ⟨front, back, rfl⟩ := List.append_of_mem h
  unfold after serveAll
  rw [List.foldl_append, List.foldl_cons]
  exact (le_max_right _ _).trans (le_outgoing_serveAll _ back)

end Ledger

/-! ### Regions -/

namespace Layout

/-- How far the stack pointer is below the frame pointer. -/
def drop (l : Layout) : Int := l.adjust + 8 * l.saved.length + l.outgoing

def localsArea (l : Layout) : Set Int := Set.Ico (-l.locals) 0

def pushedArea (l : Layout) : Set Int := Set.Ico (-(l.adjust + 8 * l.saved.length)) (-l.adjust)

/-- The displacements of the outgoing arguments, which start at the stack pointer. -/
def outgoingArea (l : Layout) : Set Int := Set.Ico (-l.drop) (-l.drop + l.outgoing)

/-- The regions of the frame of a ledger do not overlap. In the red zone the stack pointer is at the
frame pointer, nothing is pushed below it, and there are no calls. -/
structure Apart (l : Layout) (g : Ledger) : Prop where
  slots : ∀ a ∈ g.slots, a.range ⊆ l.localsArea
  regions : [l.localsArea, l.pushedArea, l.outgoingArea].Pairwise Disjoint
  redZone : l.usesRedZone = true → g.needs.hasCalls = false ∧ l.drop = 0 ∧
    l.prologue = [pushInstr (.gpr .rbp), copyInstr .rsp .rbp] ∧
    ∀ a ∈ g.slots, a.range ⊆ Set.Ico (-128) 0

end Layout

lemma Needs.redZone_of_layout {c : Convention} {n : Needs} {saved : List PhysReg}
    {limit : Int} {l : Layout} (h : n.layout c.target saved limit = .ok l) :
    l.locals = n.locals ∧ l.saved = saved ∧
      (l.usesRedZone = true → n.hasCalls = false ∧ n.locals ≤ 128 ∧ saved = [] ∧ l.adjust = 0 ∧
        (n.outgoing = 0 → l.outgoing = 0)) ∧
      (l.usesRedZone = false → n.locals ≤ l.adjust) := by
  unfold layout at h
  dsimp only at h
  rw [ite_fail_eq_ok] at h
  obtain ⟨-, h⟩ := h
  cases h
  refine ⟨rfl, rfl, fun hred => ?_, fun hred => ?_⟩
  · cases c with
    | win64 => cases hred
    | sysv =>
      have hzone : n.hasCalls = false ∧ saved = [] ∧ n.locals ≤ 128 := by
        simpa [fitsRedZone, Convention.target, sysv, and_assoc] using hred
      refine ⟨hzone.1, hzone.2.2, hzone.2.1, if_pos hred, fun hout => ?_⟩
      rw [hout]
      rfl
  · have hle := le_roundUp (v := n.locals + saved.length * slotBytes) (a := c.target.alignment)
      (by cases c <;> decide)
    dsimp only at hred ⊢
    rw [if_neg (by rw [hred]; decide)]
    omega

/-- The regions of a frame do not overlap, whatever has been asked of it. -/
theorem Ledger.apart_of_layout {c : Convention} {rs : List Request} {saved : List PhysReg}
    {limit : Int} {l : Layout} (hrs : ∀ r ∈ rs, r.Valid)
    (h : (after rs).needs.layout c.target saved limit = .ok l) : l.Apart (after rs) := by
  have hinv := inv_after hrs
  have hseparate := separate_after hrs
  have hsound := Needs.layout_eq_ok hinv.locals hinv.outgoing h
  obtain ⟨hlocals, hsaved, hred, hfull⟩ := Needs.redZone_of_layout h
  have hnonneg := hinv.locals
  have hout := hsound.outgoing_ge
  have hout₀ := hinv.outgoing
  refine ⟨fun a ha => ?_, ?_, fun hzone => ?_⟩
  · rw [Layout.localsArea, hlocals]
    exact hseparate.inside a ha
  · have hbelow : l.adjust + 8 * l.saved.length ≤ l.drop := by
      unfold Layout.drop
      omega
    simp only [List.pairwise_cons, List.mem_cons, List.not_mem_nil, or_false, forall_eq_or_imp,
      forall_eq, IsEmpty.forall_iff, implies_true, List.Pairwise.nil, and_true, Layout.localsArea,
      Layout.pushedArea, Layout.outgoingArea, Set.Ico_disjoint_Ico]
    unfold Layout.drop
    cases hzone : l.usesRedZone with
    | false =>
      have := hfull hzone
      have := hsound.adjust_nonneg
      omega
    | true =>
      obtain ⟨hcalls, -, hnil, hadjust, houtgoing⟩ := hred hzone
      have := houtgoing (hinv.quiet hcalls)
      have hempty : l.saved.length = 0 := by rw [hsaved, hnil]; rfl
      omega
  · obtain ⟨hcalls, hsmall, hnil, hadjust, houtgoing⟩ := hred hzone
    have hzero := houtgoing (hinv.quiet hcalls)
    have hempty : l.saved = [] := hsaved.trans hnil
    refine ⟨hcalls, ?_, ?_, fun a ha => (hseparate.inside a ha).trans ?_⟩
    · simp [Layout.drop, hadjust, hzero, hempty]
    · simp [Layout.prologue_eq, hadjust, hzero, hempty]
    · exact Set.Ico_subset_Ico (by omega) le_rfl

end NativeCode.Frame
