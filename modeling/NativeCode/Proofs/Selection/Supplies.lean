import NativeCode.Proofs.Frame.Regions
import NativeCode.Proofs.Selection.Residences
import NativeCode.Proofs.Selection.Resources

/-!
# Code that can be selected

Code for a construct is selected without failure when its operands are found with types that fit,
and when there are registers and numbers for its temporaries. How many of these are enough is added
up along a computation, for the two classes of registers together.
-/

namespace NativeCode.Selection

open Ir (Ty BinaryOp)
open Abi Machine

variable {α β : Type} {site : Site} {s s' : Session} {t : Target} {g v m n : Nat}

/-- The operand `x` is found, and its type has the property `P`. -/
structure Session.Has (s : Session) (x : Ir.Operand) (P : Ty → Prop) : Prop where
  source : ∃ q, s.source? x = some q
  reach : ∃ r, s.reach? x = some r ∧ P r.ty

lemma Session.Has.mono {x : Ir.Operand} {P Q : Ty → Prop} (h : s.Has x P)
    (hPQ : ∀ ty, P ty → Q ty) : s.Has x Q := by
  obtain ⟨hsource, r, hr, hty⟩ := h
  exact ⟨hsource, r, hr, hPQ _ hty⟩

lemma Session.Alike.has {x : Ir.Operand} {P : Ty → Prop} (h : s.Alike s') (hx : s.Has x P) :
    s'.Has x P := by
  refine ⟨?_, ?_⟩
  · rw [h.source?]
    exact hx.source
  · rw [h.reach?]
    exact hx.reach

/-- There are registers for `g` general-purpose and `v` vector temporaries, and numbers for both. -/
structure Session.Supplies (s : Session) (t : Target) (g v : Nat) : Prop where
  gpr : g ≤ s.temps.room t .gpr
  xmm : v ≤ s.temps.room t .xmm
  numbers : s.temps.count + (g + v) ≤ Temps.limit

lemma Session.Supplies.mono (h : s.Supplies t g v) (hg : m ≤ g) (hv : n ≤ v) :
    s.Supplies t m n where
  gpr := hg.trans h.gpr
  xmm := hv.trans h.xmm
  numbers := by
    have := h.numbers
    omega

lemma Session.Supplies.congr (h : s.Supplies t g v) (htemps : s'.temps = s.temps) :
    s'.Supplies t g v := ⟨htemps ▸ h.gpr, htemps ▸ h.xmm, htemps ▸ h.numbers⟩

/-- The computation gets to its end with `g` general-purpose and `v` vector temporaries, and takes
no more. -/
def Ends (g v : Nat) (x : Emit α) (site : Site) (s : Session) : Prop :=
  ∀ m n, s.Supplies site.options.target (g + m) (v + n) →
    ∃ a s', Yields x site s a s' ∧ s'.Supplies site.options.target m n

/-! ### Composition -/

section Compose

variable {x : Emit α} {k : α → Emit β} {a : α}

lemma Ends.exists_yields (h : Ends g v x site s) (hs : s.Supplies site.options.target g v) :
    ∃ a s', Yields x site s a s' := by
  obtain ⟨a, s', hyields, -⟩ := h 0 0 hs
  exact ⟨a, s', hyields⟩

lemma Ends.mono (h : Ends g v x site s) (hg : g ≤ m) (hv : v ≤ n) : Ends m n x site s := by
  intro k l hs
  obtain ⟨a, s', hyields, hs'⟩ := h (m - g + k) (n - v + l) (hs.mono (by omega) (by omega))
  exact ⟨a, s', hyields, hs'.mono (by omega) (by omega)⟩

lemma ends_of_yields (h : Yields x site s a s') (htemps : s'.temps = s.temps) :
    Ends 0 0 x site s := fun _ _ hs =>
  ⟨a, s', h, (hs.mono (Nat.le_add_left _ _) (Nat.le_add_left _ _)).congr htemps⟩

lemma ends_pure (a : α) : Ends 0 0 (pure a) site s :=
  ends_of_yields (yields_pure.mpr ⟨rfl, rfl⟩) rfl

theorem ends_bind (hx : Ends g v x site s)
    (hk : ∀ a s', Yields x site s a s' → Ends m n (k a) site s') :
    Ends (g + m) (v + n) (x >>= k) site s := by
  intro c d hs
  obtain ⟨a, s₁, hyields, hs₁⟩ := hx (m + c) (n + d) (hs.mono (by omega) (by omega))
  obtain ⟨b, s₂, hyields', hs₂⟩ := hk a s₁ hyields c d hs₁
  exact ⟨b, s₂, yields_bind.mpr ⟨a, s₁, hyields, hyields'⟩, hs₂⟩

lemma ends_bind_of_yields (hx : Yields x site s a s) (hk : Ends g v (k a) site s) :
    Ends g v (x >>= k) site s := by
  intro m n hs
  obtain ⟨b, s', hyields, hs'⟩ := hk m n hs
  exact ⟨b, s', yields_bind.mpr ⟨a, s, hx, hyields⟩, hs'⟩

lemma ends_emit (op : Opcode) (os : List Operand) : Ends 0 0 (emit op os) site s :=
  ends_of_yields (a := ()) (yields_emit.mpr rfl) rfl

lemma ends_emit_bind {op : Opcode} {os : List Operand} {k : Unit → Emit β}
    (hk : Ends g v (k ()) site (s.push (site.instr op os))) :
    Ends g v (emit op os >>= k) site s := by
  intro m n hs
  obtain ⟨b, s', hyields, hs'⟩ := hk m n (hs.congr rfl)
  exact ⟨b, s', yields_emit_bind.mpr hyields, hs'⟩

end Compose

/-! ### Temporaries -/

lemma ends_newTemp (cls : RegClass) :
    Ends (if cls = .gpr then 1 else 0) (if cls = .xmm then 1 else 0) (newTemp cls) site s := by
  intro m n hs
  obtain ⟨hgpr, hxmm, hnumbers⟩ := hs
  have hfree : 0 < s.temps.room site.options.target cls ∧ s.temps.count < Temps.limit := by
    cases cls <;> simp only [if_true, reduceCtorEq, if_false] at hgpr hxmm hnumbers <;> omega
  rcases s.temps.issue_cases site.options.target cls with
    ⟨hlimit, -⟩ | ⟨-, hnone, -⟩ | ⟨-, -, id, τ, hissue⟩
  · omega
  · omega
  · obtain ⟨hroom, hcount⟩ := Temps.room_issue (c := site.options.convention) hissue
    have hroom : ∀ cls', τ.room site.options.target cls' + (if cls' = cls then 1 else 0) =
        s.temps.room site.options.target cls' := hroom
    have hleft := hroom .gpr
    have hleft' := hroom .xmm
    refine ⟨_, _, yields_newTemp.mpr ⟨_, hissue, rfl, rfl⟩, ?_⟩
    cases cls <;>
      simp only [if_true, reduceCtorEq, if_false] at hgpr hxmm hnumbers hleft hleft' <;>
      exact ⟨by dsimp only; omega, by dsimp only; omega, by dsimp only; omega⟩

lemma ends_newGpr : Ends 1 0 (newTemp .gpr) site s := ends_newTemp .gpr

lemma ends_newXmm : Ends 0 1 (newTemp .xmm) site s := ends_newTemp .xmm

/-! ### Operands -/

section Operands

variable {x : Ir.Operand} {r : Reach} {P : Ty → Prop}

lemma yields_reach (hr : s.reach? x = some r) : Yields (reach x) site s r s := by
  rw [← bind_pure (reach x), yields_reach_bind]
  exact ⟨r, hr, yields_pure.mpr ⟨rfl, rfl⟩⟩

lemma yields_typeOf (hr : s.reach? x = some r) : Yields (typeOf x) site s r.ty s := by
  rw [← bind_pure (typeOf x), yields_typeOf_bind]
  exact ⟨r, hr, yields_pure.mpr ⟨rfl, rfl⟩⟩

theorem ends_loadGpr (hx : s.Has x P) : Ends 1 0 (loadGpr x) site s := by
  refine ends_bind (m := 0) (n := 0) ends_newGpr fun r s₁ hr => ?_
  obtain ⟨q, hq⟩ := ((alike_newTemp hr).has hx).source
  refine ends_bind (g := 0) (v := 0) (m := 0) (n := 0) ?_ fun _ _ _ => ends_pure _
  exact ends_of_yields (a := ()) (yields_loadGprInto.mpr ⟨q, hq, rfl⟩) rfl

theorem ends_addressOf (hx : s.Has x (· = .ptr)) : Ends 1 0 (addressOf x) site s := by
  have hload : Ends 1 0 (do return Operand.offset (← loadGpr x) 0 : Emit Operand) site s :=
    ends_bind (m := 0) (n := 0) (ends_loadGpr hx) fun _ _ _ => ends_pure _
  obtain ⟨⟨q, hq⟩, r, hr, hty⟩ := hx
  rw [addressOf]
  refine ends_bind_of_yields (yields_typeOf hr) ?_
  dsimp only
  rw [if_pos hty]
  refine ends_bind_of_yields (yields_reach hr) ?_
  split
  case h_1 name =>
    rw [Session.source?, hr] at hq
    cases he : s.symbols.data name with
    | error e => simp [he, Except.toOption] at hq
    | ok e =>
      refine (ends_of_yields (a := .rip e.asm) ?_ rfl).mono (Nat.zero_le _) (Nat.zero_le _)
      simp only [yields_get_bind, yields_lift_bind, yields_pure]
      exact ⟨e, he, rfl, trivial⟩
  case h_2 => exact (ends_pure _).mono (Nat.zero_le _) (Nat.zero_le _)
  case h_3 => exact hload

lemma ends_storeSource (hx : s.Has x P) (w : Width) : Ends 1 0 (storeSource x w) site s := by
  have hload : Ends 1 0 (do return Operand.part (← loadGpr x) w : Emit Operand) site s :=
    ends_bind (m := 0) (n := 0) (ends_loadGpr hx) fun _ _ _ => ends_pure _
  obtain ⟨-, r, hr, -⟩ := hx
  have hknown : Yields (constantValue x) site s r.known? s := by
    rw [← bind_pure (constantValue x), yields_constantValue_bind]
    exact ⟨r, hr, yields_pure.mpr ⟨rfl, rfl⟩⟩
  rw [storeSource]
  refine ends_bind_of_yields hknown ?_
  cases r.known? with
  | none => exact hload
  | some bits =>
    dsimp only
    split_ifs
    · exact (ends_pure _).mono (Nat.zero_le _) (Nat.zero_le _)
    · exact hload

lemma ends_loadXmmInto (hx : s.Has x (·.isFloat = true)) (dst : RegOperand) :
    Ends 1 0 (loadXmmInto x dst) site s := by
  obtain ⟨r, hr, hfloat⟩ := hx.reach
  rw [loadXmmInto]
  refine ends_bind_of_yields (yields_typeOf hr) ?_
  dsimp only
  rw [if_pos hfloat]
  refine ends_bind_of_yields (yields_reach hr) ?_
  split
  case h_1 => exact (ends_emit _ _).mono (Nat.zero_le _) (Nat.zero_le _)
  case h_2 =>
    exact ends_bind (m := 0) (n := 0) (ends_loadGpr hx) fun _ _ _ => ends_emit _ _

theorem ends_loadXmm (hx : s.Has x (·.isFloat = true)) : Ends 1 1 (loadXmm x) site s := by
  refine ends_bind (m := 1) (n := 0) ends_newXmm fun t s₁ ht => ?_
  refine ends_bind (m := 0) (n := 0) ?_ fun _ _ _ => ends_pure _
  exact ends_loadXmmInto ((alike_newTemp ht).has hx) _

theorem ends_xmmSource (hx : s.Has x (·.isFloat = true)) : Ends 1 1 (xmmSource x) site s := by
  obtain ⟨r, hr, -⟩ := hx.reach
  rw [xmmSource]
  refine ends_bind_of_yields (yields_reach hr) ?_
  split
  case h_1 => exact (ends_pure _).mono (Nat.zero_le _) (Nat.zero_le _)
  case h_2 => exact ends_bind (m := 0) (n := 0) (ends_loadXmm hx) fun _ _ _ => ends_pure _

end Operands

/-! ### Results -/

section Results

variable {i : Ir.Instr} {id : Nat} {ty : Ty}

lemma exists_allocate {n : Frame.Needs} (h : n.locals + 8 ≤ 2147483647) :
    ∃ d n', n.allocate 8 = .ok (d, n') := by
  cases hn : n.allocate 8 with
  | ok r => exact ⟨r.1, r.2, rfl⟩
  | error e =>
    have hlimit := Frame.Needs.allocate_eq_error_iff.mp ⟨e, hn⟩
    rw [show Frame.roundUp (max ((8 : Nat) : Int) 8) 8 = 8 by decide] at hlimit
    omega

theorem ends_defineHome (hid : i.result = some id) (hframe : s.frame.locals + 8 ≤ 2147483647) :
    Ends 0 0 (defineHome i ty) site s := by
  obtain ⟨d, frame, hd⟩ := exists_allocate hframe
  exact ends_of_yields (yields_defineHome.mpr ⟨id, d, frame, hid, hd, rfl, rfl⟩) rfl

theorem ends_storeGpr (hid : i.result = some id) (hframe : s.frame.locals + 8 ≤ 2147483647)
    (r : Reg) : Ends 0 0 (storeGpr i r ty) site s := by
  obtain ⟨d, frame, hd⟩ := exists_allocate hframe
  exact ends_of_yields (a := ()) (yields_storeGpr.mpr ⟨id, d, frame, hid, hd, rfl⟩) rfl

end Results

end NativeCode.Selection
