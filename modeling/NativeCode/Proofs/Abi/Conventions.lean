import NativeCode.Options
import NativeCode.Abi.Placement
import NativeCode.Proofs.Except

/-!
# What the calling conventions guarantee

The registers of temporaries, of parameters and of results do not get in each other's way under
either convention, and a checked placement gives every parameter a place of its own kind.
-/

namespace NativeCode

lemma ite_fail_eq_ok {α : Type} {c : Prop} [Decidable c] {cause : Cause} {text : String}
    {x : Except Failure α} {a : α} :
    (if c then fail cause text else x) = .ok a ↔ ¬ c ∧ x = .ok a := by
  by_cases hc : c <;> simp [hc, fail]

end NativeCode

namespace NativeCode.Abi

open Ir (Ty)
open Machine

namespace Target

/-- A register that a function can change without saving it. -/
def Scratch (t : Target) (r : PhysReg) : Prop := t.keeps r = false ∧ r ≠ .gpr .rsp

instance (t : Target) (r : PhysReg) : Decidable (t.Scratch r) := inferInstanceAs (Decidable (_ ∧ _))

end Target

variable {c : Convention} {r : PhysReg} {t : Target} {tys : List Ty} {ps : List Placement}
  {p : Placement} {index : Nat}

/-- General-purpose temporaries are in none of the registers with a task of their own. -/
theorem pool_gpr (h : r ∈ c.target.pool .gpr) :
    ∃ g, r = .gpr g ∧ g ∉ [Gpr.rax, .rcx, .rdx, .rsp, .rbp] ∧ r ∉ c.target.intArgs := by
  have hall : ∀ q ∈ c.target.pool .gpr, q.cls = .gpr ∧ q ∉ c.target.intArgs ∧
      q ∉ [PhysReg.gpr .rax, .gpr .rcx, .gpr .rdx, .gpr .rsp, .gpr .rbp] := by
    cases c <;> decide
  obtain ⟨hcls, hargs, htask⟩ := hall r h
  cases r with
  | gpr g => exact ⟨g, rfl, by simpa using htask, hargs⟩
  | xmm x => cases hcls

/-- Vector temporaries need not be saved, and are in no parameter register. -/
theorem pool_xmm (h : r ∈ c.target.pool .xmm) :
    ∃ x, r = .xmm x ∧ c.target.keeps r = false ∧ r ∉ c.target.floatArgs := by
  have hall : ∀ q ∈ c.target.pool .xmm,
      q.cls = .xmm ∧ c.target.keeps q = false ∧ q ∉ c.target.floatArgs := by
    cases c <;> decide
  obtain ⟨hcls, hkeeps, hargs⟩ := hall r h
  cases r with
  | gpr g => cases hcls
  | xmm x => exact ⟨x, rfl, hkeeps, hargs⟩

theorem args_scratch {cls : RegClass} (h : r ∈ c.target.args cls) :
    r.cls = cls ∧ c.target.Scratch r ∧ r ≠ .gpr .rax ∧ r ≠ .gpr .rbp := by
  have hall : ∀ q ∈ c.target.args cls,
      q.cls = cls ∧ c.target.Scratch q ∧ q ≠ .gpr .rax ∧ q ≠ .gpr .rbp := by
    cases c <;> cases cls <;> decide
  exact hall r h

lemma scratch_of_mem (h : r ∈ [PhysReg.gpr .rax, .gpr .rcx, .gpr .rdx, .xmm 0]) :
    c.target.Scratch r := by
  have hall : ∀ q ∈ [PhysReg.gpr .rax, .gpr .rcx, .gpr .rdx, .xmm 0], c.target.Scratch q := by
    cases c <;> decide
  exact hall r h

lemma keeps_rbp (c : Convention) : c.target.keeps (.gpr .rbp) = true := by cases c <;> decide

lemma keeps_rsp (c : Convention) : c.target.keeps (.gpr .rsp) = false := by cases c <;> decide

lemma results (c : Convention) :
    c.target.intResult = .gpr .rax ∧ c.target.floatResult = .xmm 0 := by
  cases c <;> exact ⟨rfl, rfl⟩

/-! ### Placements -/

def Place.isStack : Place → Bool
  | .stack _ => true
  | .register _ => false

/-- A placement that a convention accepts for a parameter of a type. -/
structure Placement.Fits (t : Target) (ty : Ty) (p : Placement) : Prop where
  scalar : ty.isVoid = false ∧ ty.isAggregate = false
  cls : p.cls = ty.regClass
  register : ∀ r, p.place = .register r → r ∈ t.args p.cls
  stack : ∀ offset, p.place = .stack offset → 0 ≤ offset

lemma checkPassable_eq_ok (h : t.checkPassable index tys = .ok ()) :
    ∀ ty ∈ tys, ty.isVoid = false ∧ ty.isAggregate = false := by
  induction tys generalizing index with
  | nil => simp
  | cons ty tys ih =>
    rw [Target.checkPassable, ite_fail_eq_ok] at h
    intro ty' hmem
    rcases List.mem_cons.mp hmem with rfl | hmem
    · simpa using h.1
    · exact ih h.2 ty' hmem

lemma checkPlacement_eq_ok {ty : Ty} (hty : ty.isVoid = false ∧ ty.isAggregate = false)
    (h : t.checkPlacement index ty p = .ok ()) : p.Fits t ty := by
  rw [Target.checkPlacement, ite_fail_eq_ok] at h
  obtain ⟨hcls, h⟩ := h
  refine ⟨hty, not_not.mp hcls, fun r hr => ?_, fun o ho => ?_⟩
  · rw [hr] at h
    by_contra hmem
    simp [hmem, fail] at h
  · rw [ho] at h
    simp only [ite_fail_eq_ok] at h
    omega

lemma checkEach_eq_ok (hlen : ps.length = tys.length)
    (hty : ∀ ty ∈ tys, ty.isVoid = false ∧ ty.isAggregate = false)
    (h : t.checkEach index tys ps = .ok ()) : List.Forall₂ (fun ty p => p.Fits t ty) tys ps := by
  induction tys generalizing index ps with
  | nil =>
    obtain rfl := List.length_eq_zero_iff.mp hlen
    exact .nil
  | cons ty tys ih =>
    cases ps with
    | nil => simp at hlen
    | cons p ps =>
      obtain ⟨⟨⟩, hp, h⟩ := exists_ok_of_bind h
      exact .cons (checkPlacement_eq_ok (hty ty List.mem_cons_self) hp)
        (ih (by simpa using hlen) (fun ty' h' => hty ty' (List.mem_cons_of_mem _ h')) h)

/-- A successful placement is the one the convention assigns, and fits every parameter. -/
theorem place_eq_ok (h : t.place tys = .ok ps) :
    ps = t.assign tys ∧ List.Forall₂ (fun ty p => p.Fits t ty) tys ps := by
  obtain ⟨⟨⟩, hpass, h⟩ := exists_ok_of_bind h
  by_cases hlen : (t.assign tys).length = tys.length
  · rw [if_neg (not_not.mpr hlen)] at h
    obtain ⟨⟨⟩, heach, h⟩ := exists_ok_of_bind h
    cases h
    exact ⟨rfl, checkEach_eq_ok hlen (checkPassable_eq_ok hpass) heach⟩
  · simp [hlen, bind, Except.bind, fail] at h

lemma exists_fits (h : List.Forall₂ (fun ty p => p.Fits t ty) tys ps) (hp : p ∈ ps) :
    ∃ ty, p.Fits t ty := by
  induction h with
  | nil => cases hp
  | @cons ty q _ _ hq _ ih =>
    rcases List.mem_cons.mp hp with rfl | hp
    · exact ⟨ty, hq⟩
    · exact ih hp

end NativeCode.Abi
