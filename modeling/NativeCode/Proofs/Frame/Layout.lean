import NativeCode.Frame
import NativeCode.Proofs.Abi.Conventions

/-!
# The shape of stack frames

Slots are handed out downwards without overlap, and the final layout keeps the stack pointer aligned
and the locals apart from the pushed registers and the outgoing arguments.
-/

namespace NativeCode.Frame

open Abi Machine

lemma le_roundUp {v a : Int} (ha : 0 < a) : v ≤ roundUp v a := by
  have hr := Int.tmod_lt_of_pos v ha
  unfold roundUp
  dsimp only
  split_ifs <;> omega

lemma roundUp_lt {v a : Int} (hv : 0 ≤ v) (ha : 0 < a) : roundUp v a < v + a := by
  have hr := Int.tmod_nonneg a hv
  unfold roundUp
  dsimp only
  split_ifs <;> omega

lemma dvd_roundUp {v a : Int} (hv : 0 ≤ v) : a ∣ roundUp v a := by
  have hr : v.tmod a = v % a := Int.tmod_eq_emod_of_nonneg hv
  have hv : v = a * (v / a) + v % a := (Int.mul_ediv_add_emod v a).symm
  unfold roundUp
  dsimp only
  rw [hr]
  split_ifs with h
  · exact Int.dvd_of_emod_eq_zero h
  · exact ⟨v / a + 1, by rw [mul_add, mul_one]; omega⟩

/-- A new slot lies below all earlier ones, and what else a frame has to hold stays. -/
theorem Needs.allocate_eq_ok {n n' : Needs} {bytes : Nat} {d : Int}
    (h : n.allocate bytes = .ok (d, n')) :
    d = -n'.locals ∧ n.locals + 8 ≤ n'.locals ∧ n.locals + bytes ≤ n'.locals ∧
      n'.locals ≤ 2147483647 ∧ n' = { n with locals := n'.locals } := by
  have hle : max (bytes : Int) 8 ≤ roundUp (max (bytes : Int) 8) 8 :=
    le_roundUp (by omega)
  unfold allocate slotBytes at h
  dsimp only at h
  rw [ite_fail_eq_ok] at h
  obtain ⟨hlimit, h⟩ := h
  cases h
  refine ⟨rfl, ?_, ?_, not_lt.mp hlimit, rfl⟩
  · change n.locals + 8 ≤ n.locals + _
    omega
  · change n.locals + bytes ≤ n.locals + _
    omega

/-- The parts of a frame. Without a red zone the locals fit above the pushed registers; in the red
zone nothing lies below them. -/
structure Layout.Sound (l : Layout) (n : Needs) (saved : List PhysReg) : Prop where
  pushes : l.saved = saved
  adjust_nonneg : 0 ≤ l.adjust
  adjust_le : l.adjust ≤ n.locals + 15
  aligned : (16 : Int) ∣ l.adjust + 8 * saved.length
  outgoing_aligned : (16 : Int) ∣ l.outgoing
  outgoing_ge : n.outgoing ≤ l.outgoing
  outgoing_le : l.outgoing ≤ max n.outgoing 32 + 15
  locals : n.locals ≤ l.adjust ∨ saved = [] ∧ n.hasCalls = false ∧ l.adjust = 0 ∧ n.locals ≤ 128

theorem Needs.layout_eq_ok {c : Convention} {n : Needs} {saved : List PhysReg} {limit : Int}
    {l : Layout} (hlocals : 0 ≤ n.locals) (houtgoing : 0 ≤ n.outgoing)
    (h : n.layout c.target saved limit = .ok l) : l.Sound n saved := by
  have halign : c.target.alignment = 16 := by cases c <;> rfl
  have hshadow : 0 ≤ c.target.shadowSpace ∧ c.target.shadowSpace ≤ 32 := by cases c <;> decide
  unfold layout slotBytes at h
  dsimp only at h
  rw [ite_fail_eq_ok, halign] at h
  obtain ⟨-, h⟩ := h
  cases h
  have hout : 0 ≤ max n.outgoing c.target.shadowSpace := by omega
  have ho := le_roundUp (v := max n.outgoing c.target.shadowSpace) (show (0 : Int) < 16 by decide)
  have ho' := roundUp_lt hout (show (0 : Int) < 16 by decide)
  have hv : 0 ≤ n.locals + (saved.length : Int) * 8 := by omega
  have hl := le_roundUp (v := n.locals + (saved.length : Int) * 8) (show (0 : Int) < 16 by decide)
  have hl' := roundUp_lt hv (show (0 : Int) < 16 by decide)
  have hdvd := dvd_roundUp (a := 16) hv
  by_cases hred : n.fitsRedZone c.target saved = true
  · have hzone : n.hasCalls = false ∧ saved = [] ∧ n.locals ≤ 128 := by
      cases c with
      | sysv => simpa [fitsRedZone, Convention.target, sysv, and_assoc] using hred
      | win64 => cases hred
    obtain ⟨hcalls, rfl, h128⟩ := hzone
    refine ⟨rfl, ?_, ?_, ?_, dvd_roundUp hout, ?_, ?_, Or.inr ⟨rfl, hcalls, ?_, h128⟩⟩
    all_goals simp only [hred, if_true]
    all_goals first | omega | exact ⟨0, rfl⟩
  · refine ⟨rfl, ?_, ?_, ?_, dvd_roundUp hout, ?_, ?_, Or.inl ?_⟩
    all_goals simp only [hred, Bool.false_eq_true, if_false]
    all_goals omega

end NativeCode.Frame
