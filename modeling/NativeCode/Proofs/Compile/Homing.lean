import NativeCode.Proofs.Compile.Program
import NativeCode.Proofs.Selection.Arguments

/-!
# Parameters at home

When a function is entered the words of its arguments are in registers and above the return address.
The prologue sets the frame up without touching them, and the code after it brings them home one by
one: what is stored for one parameter is neither the place of a later one nor the home of an earlier
one.
-/

namespace NativeCode.Ir

variable {ty : Ty}

lemma Ty.regClass_eq_gpr : ty.regClass = .gpr ↔ ty.isFloat = false := by
  cases h : ty.isFloat <;> simp [regClass, h]

lemma Ty.regClass_eq_xmm : ty.regClass = .xmm ↔ ty.isFloat = true := by
  cases h : ty.isFloat <;> simp [regClass, h]

lemma Ty.extend_of_size (h : 8 ≤ ty.size) (v : Word) : ty.extend v = v := by
  cases ty with
  | int signed w =>
    cases w with
    | byte | word | long => exact absurd h (by simp [size, Width.bytes])
    | quad => cases signed <;> simp [extend]
  | bool => exact absurd h (by decide)
  | float | ptr | void | array | struct => rfl

end NativeCode.Ir

namespace NativeCode.Selection

open Ir (Ty)
open Abi Machine

lemma size_of_isFloat {ty : Ty} (h : ty.isFloat = true) :
    ty.size = (precision ty).width.bytes := by
  cases ty with
  | float q => cases q <;> rfl
  | int | bool | ptr | void | array | struct => cases h

/-- A home holds the value of the word `w`: an integer extended to 64 bits by its type, a float in
the bits that its type has. -/
def Residence.Holds (σ : State) (r : Residence) (w : Word) : Prop :=
  if r.ty.isFloat then
    σ.mem.load (addr (σ.gpr .rbp) r.disp) r.ty.size = (precision r.ty).width.zeroExtend w
  else σ.mem.load (addr (σ.gpr .rbp) r.disp) 8 = r.ty.extend w

lemma Residence.Holds.congr {σ σ' : State} {r : Residence} {w : Word} (h : r.Holds σ w)
    (hrbp : σ'.gpr .rbp = σ.gpr .rbp)
    (hmem : ∀ e, r.disp ≤ e → e < r.disp + 8 →
      σ'.mem (addr (σ.gpr .rbp) e) = σ.mem (addr (σ.gpr .rbp) e)) : r.Holds σ' w := by
  unfold Holds at h ⊢
  rw [hrbp]
  split_ifs at h ⊢ with hfloat
  · have hsize : r.ty.size ≤ 8 := by
      rw [size_of_isFloat hfloat]
      exact Width.bytes_le _
    rw [← h]
    exact Memory.load_addr_congr fun e he he' => hmem e he (by omega)
  · rw [← h]
    exact Memory.load_addr_congr fun e he he' => hmem e he he'

lemma Arrives.congr {base : Word} {σ σ' : State} {ty : Ty} {w : Word} {place : Place}
    (h : Arrives base σ ty w place)
    (hgpr : ∀ g, place = .register (.gpr g) → σ'.gpr g = σ.gpr g) (hxmm : σ'.xmm = σ.xmm)
    (hmem : ∀ offset, place = .stack offset →
      ∀ e, offset ≤ e → e < offset + 8 → σ'.mem (addr base e) = σ.mem (addr base e)) :
    Arrives base σ' ty w place := by
  cases place with
  | register r =>
    cases r with
    | gpr g => exact (hgpr g rfl).trans h
    | xmm x =>
      rw [Arrives, hxmm]
      exact h
  | stack offset => exact (Memory.load_addr_congr (hmem offset rfl)).trans h

end NativeCode.Selection

namespace NativeCode.Compile

open Ir (Ty)
open Abi NativeCode.Frame Machine Selection
open Selection (Session)

variable {o : Options} {f : Ir.Function} {s s' start : Session} {c : Machine.Function}
  {p : Platform} {τ : Temps} {σ σ' : State} {a : Ir.Param} {placement : Placement} {d : Int}
  {w : Word} {index : Nat} {ps : List (Ir.Param × Placement)} {t : Target} {cv : Convention}
  {code : List Instr}

/-! ### One parameter -/

/-- Where the stack parameters of a function start, seen from its body. -/
def incoming (σ : State) : Word := addr (σ.gpr .rbp) incomingBase

lemma holds_of_stays (hfits : placement.Fits cv.target a.ty) (hd : stays? a placement = some d)
    (harrives : Arrives (incoming σ) σ a.ty w placement.place) :
    Residence.Holds σ { access := .home, ty := a.ty, disp := d } w := by
  unfold stays? at hd
  split at hd
  case h_2 => cases hd
  case h_1 offset hplace =>
    split_ifs at hd with hnarrow
    cases hd
    rw [hplace, Arrives, incoming, addr_addr] at harrives
    unfold Residence.Holds
    dsimp only
    split_ifs with hfloat
    · rw [size_of_isFloat hfloat, Memory.load_of_le _ _ _ (Width.bytes_le _), harrives]
    · have hclass : placement.cls = .gpr :=
        hfits.cls.trans (Ty.regClass_eq_gpr.mpr (by simpa using hfloat))
      have hwide : ¬ a.ty.size < 8 := fun h => hnarrow ⟨hclass, h⟩
      rw [harrives, Ty.extend_of_size (not_lt.mp hwide)]

/-- The stack pointer, the frame pointer, kept registers, vector registers and memory outside of a
range of slots are as before. -/
structure Housed (t : Target) (low high : Int) (σ σ' : State) : Prop where
  rsp : σ'.gpr .rsp = σ.gpr .rsp
  rbp : σ'.gpr .rbp = σ.gpr .rbp
  gpr : ∀ g, t.keeps (.gpr g) = true → σ'.gpr g = σ.gpr g
  xmm : σ'.xmm = σ.xmm
  mem : ∀ e, -8589934592 ≤ e → e ≤ 8589934592 → e < low ∨ high ≤ e →
    σ'.mem (addr (σ.gpr .rbp) e) = σ.mem (addr (σ.gpr .rbp) e)

lemma Housed.trans {low mid high : Int} {σ'' : State} (h : Housed t mid high σ σ')
    (h' : Housed t low mid σ' σ'') (hlow : low ≤ mid) (hhigh : mid ≤ high) :
    Housed t low high σ σ'' where
  rsp := h'.rsp.trans h.rsp
  rbp := h'.rbp.trans h.rbp
  gpr g hg := (h'.gpr g hg).trans (h.gpr g hg)
  xmm := h'.xmm.trans h.xmm
  mem e he he' hout := by
    have hmem := h'.mem e he he' (by omega)
    rw [h.rbp] at hmem
    exact hmem.trans (h.mem e he he' (by omega))

lemma exists_housed_homeStore {g : Gpr} (hg : cv.target.Scratch (.gpr g))
    (hbase : g ≠ .rbp) (hfloat : a.ty.isFloat = false) (hlow : -4294967296 ≤ d) (hhigh : d ≤ -8)
    (text : String) :
    ∃ σ', execAll p [τ.boundInstr (homeStore (.mov .quad) (.gpr g) d text)]
        (σ.setGpr g (a.ty.extend w)) = .ok σ' ∧
      Housed cv.target d (d + 8) σ σ' ∧
      Residence.Holds σ' { access := .home, ty := a.ty, disp := d } w ∧
      ∀ q, q ≠ g → σ'.gpr q = σ.gpr q := by
  let v := a.ty.extend w
  have hrbp : (σ.setGpr g v).gpr .rbp = σ.gpr .rbp := σ.setGpr_gpr_of_ne _ hbase.symm
  have hread : (σ.setGpr g v).read p .quad (.full (.phys (.gpr g))) = .ok v :=
    State.read_gpr.trans (by rw [Width.zeroExtend_quad, State.setGpr_gpr])
  have hplace : (σ.setGpr g v).place p (.slot d) = .ok (addr (σ.gpr .rbp) d) := by
    rw [← hrbp]
    exact State.place_offset
  have hexec : exec p (τ.boundInstr (homeStore (.mov .quad) (.gpr g) d text)) (σ.setGpr g v) =
      .ok { σ.setGpr g v with mem := σ.mem.store (addr (σ.gpr .rbp) d) 8 v } :=
    exec_mov_mem rfl rfl hread hplace
  refine ⟨_, (execAll_cons_ok hexec).trans (execAll_nil _ _), ⟨?_, hrbp, ?_, rfl, ?_⟩, ?_,
    fun q hq => σ.setGpr_gpr_of_ne _ hq⟩
  · exact σ.setGpr_gpr_of_ne _ fun e => hg.2 (by rw [e])
  · intro q hq
    refine σ.setGpr_gpr_of_ne _ fun e => ?_
    rw [e, hg.1] at hq
    cases hq
  · intro e he he' hout
    refine Memory.store_apart _ _ _ ?_
    rcases hout with hout | hout
    · exact Or.inr ⟨by omega, by omega⟩
    · exact Or.inl ⟨by omega, by omega⟩
  · rw [Residence.Holds, if_neg (by simp [hfloat])]
    dsimp only
    rw [hrbp]
    exact (Memory.load_store_self _ _ .quad v).trans (Width.zeroExtend_quad v)

lemma exists_housed_floatStore (cv : Convention) {x : Fin 16}
    (hx : (precision a.ty).low (σ.xmm x) = (precision a.ty).width.zeroExtend w)
    (hfloat : a.ty.isFloat = true) (hlow : -4294967296 ≤ d) (hhigh : d ≤ -8) (text : String) :
    ∃ σ', execAll p [τ.boundInstr (homeStore (floatMove a.ty) (.xmm x) d text)] σ = .ok σ' ∧
      Housed cv.target d (d + 8) σ σ' ∧
      Residence.Holds σ' { access := .home, ty := a.ty, disp := d } w ∧ σ'.gpr = σ.gpr := by
  have hbytes : (precision a.ty).bytes ≤ 8 := by cases precision a.ty <;> decide
  have hexec : exec p (τ.boundInstr (homeStore (floatMove a.ty) (.xmm x) d text)) σ =
      .ok { σ with mem := σ.mem.store (addr (σ.gpr .rbp) d) (precision a.ty).bytes
                    ((precision a.ty).width.zeroExtend w) } := by
    rw [floatMove_eq, ← hx]
    exact exec_movs_mem (u := .quad) rfl rfl
  refine ⟨_, (execAll_cons_ok hexec).trans (execAll_nil _ _),
    ⟨rfl, rfl, fun _ _ => rfl, rfl, fun e he he' hout => ?_⟩, ?_, rfl⟩
  · refine Memory.store_apart _ _ _ ?_
    rcases hout with hout | hout
    · exact Or.inr ⟨by omega, by omega⟩
    · exact Or.inl ⟨by omega, by omega⟩
  · rw [Residence.Holds, if_pos hfloat]
    dsimp only
    rw [size_of_isFloat hfloat, ← Precision.bytes_width, Memory.load_store_self,
      Width.zeroExtend_zeroExtend]

/-- Bringing a parameter home changes its slot, the register it came in, and `%rax`. -/
theorem exists_housed_homeCode (hfits : placement.Fits cv.target a.ty)
    (hd : stays? a placement = none) (hlow : -4294967296 ≤ d) (hhigh : d ≤ -8)
    (harrives : Arrives (incoming σ) σ a.ty w placement.place) :
    ∃ σ', execAll p ((homeCode a placement d).map τ.boundInstr) σ = .ok σ' ∧
      Housed cv.target d (d + 8) σ σ' ∧
      Residence.Holds σ' { access := .home, ty := a.ty, disp := d } w ∧
      ∀ g, g ≠ .rax → placement.place ≠ .register (.gpr g) → σ'.gpr g = σ.gpr g := by
  unfold homeCode
  cases hplace : placement.place with
  | stack offset =>
    have hnarrow : placement.cls = .gpr ∧ a.ty.size < 8 := by
      by_contra h
      simp only [stays?, hplace, if_neg h] at hd
      cases hd
    have hfloat : a.ty.isFloat = false := Ty.regClass_eq_gpr.mp (hfits.cls.symm.trans hnarrow.1)
    rw [hplace, Arrives, incoming, addr_addr] at harrives
    have hload : exec p (τ.boundInstr
        (extendingLoad (.slot (incomingBase + offset)) { reg := .ofGpr .rax } a.ty)) σ =
          .ok (σ.setGpr .rax (a.ty.extend w)) := by
      refine exec_extendingLoad (τ := τ) (g := .rax) rfl rfl rfl ?_
      rw [show τ.boundOperand (.slot (incomingBase + offset)) =
        .offset (.ofGpr .rbp) (incomingBase + offset) from rfl, State.read_offset,
        Memory.load_of_le _ _ _ (Width.bytes_le _), harrives]
    obtain ⟨σ', hexec, hhoused, hholds, hgpr⟩ := exists_housed_homeStore (p := p) (τ := τ) (σ := σ)
      (w := w) (g := .rax) (scratch_of_mem (c := cv) (by simp)) (by decide) hfloat hlow hhigh
      ("%" ++ a.name)
    exact ⟨σ', (execAll_cons_ok hload).trans hexec, hhoused, hholds, fun g hg _ => hgpr g hg⟩
  | register r =>
    rw [hplace] at harrives
    obtain ⟨hcls, hscratch, -, hbase⟩ := args_scratch (hfits.register r hplace)
    cases r with
    | gpr g =>
      have hclass : placement.cls = .gpr := hcls.symm
      have hfloat : a.ty.isFloat = false := Ty.regClass_eq_gpr.mp (hfits.cls.symm.trans hclass)
      have hword : σ.gpr g = w := harrives
      obtain ⟨σ', hexec, hhoused, hholds, hgpr⟩ := exists_housed_homeStore (p := p) (τ := τ)
        (σ := σ) (w := w) hscratch (fun e => hbase (by rw [e])) hfloat hlow hhigh ("%" ++ a.name)
      have hextend : execAll p ((extendInPlace { reg := .phys (.gpr g) } a.ty).toList.map
          τ.boundInstr) σ = .ok (σ.setGpr g (a.ty.extend w)) := by
        cases he : extendInPlace { reg := .phys (.gpr g) } a.ty with
        | some e =>
          have hexec : exec p (τ.boundInstr e) σ = .ok (σ.setGpr g (a.ty.extend (σ.gpr g))) :=
            exec_extend he rfl rfl rfl
          rw [hword] at hexec
          rw [Option.toList_some, List.map_singleton, execAll_cons_ok hexec, execAll_nil]
        | none =>
          rw [extend_eq_self he, ← hword, State.setGpr_self]
          rfl
      refine ⟨σ', ?_, hhoused, hholds, fun q _ hq => hgpr q fun e => hq (by rw [e])⟩
      rw [hclass, List.map_append, execAll_append_ok hextend]
      exact hexec
    | xmm x =>
      have hclass : placement.cls = .xmm := hcls.symm
      obtain ⟨σ', hexec, hhoused, hholds, hgpr⟩ := exists_housed_floatStore (p := p) (τ := τ)
        cv harrives (Ty.regClass_eq_xmm.mp (hfits.cls.symm.trans hclass)) hlow hhigh
        ("%" ++ a.name)
      rw [hclass]
      exact ⟨σ', hexec, hhoused, hholds, fun g _ _ => by rw [hgpr]⟩

/-! ### Parameters one after the other -/

/-- The parameters in front of a position have homes in the frame or not far above it. -/
structure Nearby (index : Nat) (s : Session) : Prop where
  locals : 0 ≤ s.frame.locals
  homes : ∀ k < index, ∀ r, s.params[k]? = some r → -s.frame.locals ≤ r.disp ∧ r.disp ≤ 4294967312

lemma forall_params_set {P : Nat → Residence → Prop} {rs : List Residence} {r : Residence}
    (h : ∀ k < index, ∀ q, rs[k]? = some q → P k q) (hlt : index < rs.length) (hr : P index r) :
    ∀ k < index + 1, ∀ q, (rs.set index r)[k]? = some q → P k q := by
  intro k hk q hq
  by_cases hki : index = k
  · subst hki
    rw [List.getElem?_set_self hlt] at hq
    cases hq
    exact hr
  · rw [List.getElem?_set_ne hki] at hq
    exact h k (by omega) q hq

lemma Nearby.set {frame : Frame.Needs} {r : Residence} (h : Nearby index s)
    (hlt : index < s.params.length) (hframe : s.frame.locals ≤ frame.locals)
    (hr : -frame.locals ≤ r.disp ∧ r.disp ≤ 4294967312) :
    Nearby (index + 1) { s with frame, params := s.params.set index r } := by
  refine ⟨h.locals.trans hframe, forall_params_set (fun k hk q hq => ?_) hlt hr⟩
  obtain ⟨hlow, hhigh⟩ := h.homes k hk q hq
  exact ⟨by dsimp only; omega, hhigh⟩

/-- Parameters that can be placed: they fit their places, all of which are apart and not too far
up. -/
structure Placed (t : Target) (ps : List (Ir.Param × Placement)) : Prop where
  fits : ∀ q ∈ ps, q.2.Fits t q.1.ty
  apart : ps.Pairwise fun q q' => q.2.place.Apart q'.2.place
  small : ∀ q ∈ ps, ∀ offset, q.2.place = .stack offset → offset ≤ 4294967296

lemma Placed.tail {q : Ir.Param × Placement} (h : Placed t (q :: ps)) : Placed t ps where
  fits q' hq := h.fits q' (List.mem_cons_of_mem _ hq)
  apart := h.apart.of_cons
  small q' hq := h.small q' (List.mem_cons_of_mem _ hq)

lemma disp_of_stays (hps : Placed t ((a, placement) :: ps))
    (hd : stays? a placement = some d) : 16 ≤ d ∧ d ≤ 4294967312 := by
  unfold stays? incomingBase at hd
  split at hd
  case h_2 => cases hd
  case h_1 offset hplace =>
    have hlow := (hps.fits _ List.mem_cons_self).stack offset hplace
    have hhigh := hps.small _ List.mem_cons_self offset hplace
    split_ifs at hd
    cases hd
    omega

lemma Nearby.stays (h : Nearby index s) (hps : Placed t ((a, placement) :: ps))
    (hd : stays? a placement = some d) (hlt : index < s.params.length) :
    Nearby (index + 1)
      { s with params := s.params.set index { access := .home, ty := a.ty, disp := d } } := by
  have hnonneg := h.locals
  have hdisp := disp_of_stays hps hd
  have hset : Nearby (index + 1)
      { s with
        frame := s.frame
        params := s.params.set index { access := .home, ty := a.ty, disp := d } } :=
    h.set hlt le_rfl ⟨by dsimp only; omega, hdisp.2⟩
  exact hset

lemma Nearby.home {frame : Frame.Needs} (h : Nearby index s)
    (hframe : s.frame.allocate 8 = .ok (d, frame)) (hlt : index < s.params.length) :
    Nearby (index + 1) { s with
      frame
      params := s.params.set index { access := .home, ty := a.ty, disp := d } } := by
  obtain ⟨hdisp, hlocals, -, -, -⟩ := Needs.allocate_eq_ok hframe
  have hnonneg := h.locals
  exact h.set hlt (by omega) ⟨by dsimp only; omega, by dsimp only; omega⟩

lemma Homes.length_params (h : Homes index ps s code s') : s'.params.length = s.params.length := by
  induction h with
  | nil => rfl
  | stays _ _ _ ih | home _ _ _ _ ih => exact ih.trans (List.length_set ..)

lemma Homes.nearby (h : Homes index ps s code s') (hps : Placed t ps) (hs : Nearby index s) :
    Nearby (index + ps.length) s' := by
  induction h with
  | nil => exact hs
  | @stays index a placement d rest s s' code hd hindex hrest ih =>
    rw [List.length_cons, Nat.add_comm rest.length, ← Nat.add_assoc]
    exact ih hps.tail (hs.stays hps hd hindex)
  | @home index a placement d frame rest s s' code hd hframe hindex hrest ih =>
    rw [List.length_cons, Nat.add_comm rest.length, ← Nat.add_assoc]
    exact ih hps.tail (hs.home hframe hindex)

/-- The parameters in front of a position are at home. -/
def Held (words : Nat → Word) (index : Nat) (s : Session) (σ : State) : Prop :=
  ∀ k < index, ∀ r, s.params[k]? = some r → r.Holds σ (words k)

/-- The code that stores parameters brings all of them home. -/
theorem Homes.exists_housed {words : Nat → Word} (h : Homes index ps s code s')
    (hps : Placed cv.target ps) (hs : Nearby index s) (hlimit : s'.frame.locals ≤ 2147483647)
    (harrives : ∀ k q, ps[k]? = some q →
      Arrives (incoming σ) σ q.1.ty (words (index + k)) q.2.place) (hheld : Held words index s σ) :
    ∃ σ', execAll p (code.map τ.boundInstr) σ = .ok σ' ∧
      Housed cv.target (-s'.frame.locals) (-s.frame.locals) σ σ' ∧
      Held words (index + ps.length) s' σ' := by
  -- the word of the next parameter but one is that of the next one after the first
  have hshift {index : Nat} {q : Ir.Param × Placement} {ps : List (Ir.Param × Placement)}
      {σ : State} (h : ∀ k q', (q :: ps)[k]? = some q' →
        Arrives (incoming σ) σ q'.1.ty (words (index + k)) q'.2.place) :
      ∀ k q', ps[k]? = some q' →
        Arrives (incoming σ) σ q'.1.ty (words (index + 1 + k)) q'.2.place := by
    intro k q' hq
    have h := h (k + 1) q' hq
    rwa [show index + (k + 1) = index + 1 + k by omega] at h
  induction h generalizing σ with
  | nil =>
    exact ⟨σ, rfl, ⟨rfl, rfl, fun _ _ => rfl, rfl, fun _ _ _ _ => rfl⟩, hheld⟩
  | @stays index a placement d rest s s' code hd hindex hrest ih =>
    have hholds := holds_of_stays (hps.fits (a, placement) List.mem_cons_self) hd
      (harrives 0 (a, placement) rfl)
    rw [List.length_cons, Nat.add_comm rest.length, ← Nat.add_assoc]
    exact ih hps.tail (hs.stays hps hd hindex) hlimit (hshift harrives)
      (forall_params_set hheld hindex hholds)
  | @home index a placement d frame rest s s' code hd hframe hindex hrest ih =>
    obtain ⟨hdisp, hlt, -, -, -⟩ := Needs.allocate_eq_ok hframe
    have hle : frame.locals ≤ s'.frame.locals := hrest.locals_le
    have hnonneg := hs.locals
    obtain ⟨σ₁, hexec₁, hhoused₁, hholds, hgpr⟩ := exists_housed_homeCode (p := p) (τ := τ)
      (d := d) (hps.fits (a, placement) List.mem_cons_self) hd (by omega) (by omega)
      (harrives 0 (a, placement) rfl)
    have hbase : incoming σ₁ = incoming σ := by rw [incoming, incoming, hhoused₁.rbp]
    -- later parameters are still in their places, earlier ones at home
    have harrives₁ : ∀ k q, rest[k]? = some q →
        Arrives (incoming σ₁) σ₁ q.1.ty (words (index + 1 + k)) q.2.place := by
      intro k q hq
      have hmem := List.mem_of_getElem? hq
      have hfits := hps.fits q (List.mem_cons_of_mem _ hmem)
      rw [hbase]
      refine (hshift harrives k q hq).congr (fun g hg => hgpr g (fun e => ?_) fun e => ?_)
        hhoused₁.xmm fun offset hoffset e he he' => ?_
      · exact (args_scratch (hfits.register _ hg)).2.2.1 (by rw [e])
      · have hapart := (List.pairwise_cons.mp hps.apart).1 q hmem
        rw [e, hg] at hapart
        exact hapart rfl
      · have hlow := hfits.stack offset hoffset
        have hhigh := hps.small q (List.mem_cons_of_mem _ hmem) offset hoffset
        rw [incoming, incomingBase, addr_addr]
        exact hhoused₁.mem _ (by omega) (by omega) (Or.inr (by omega))
    have hheld₁ : Held words index s σ₁ := fun k hk r hr => by
      obtain ⟨hlow, hhigh⟩ := hs.homes k hk r hr
      exact (hheld k hk r hr).congr hhoused₁.rbp fun e he he' =>
        hhoused₁.mem e (by omega) (by omega) (Or.inr (by omega))
    obtain ⟨σ', hexec, hhoused, hheld'⟩ := ih hps.tail (hs.home hframe hindex) hlimit harrives₁
      (forall_params_set hheld₁ hindex hholds)
    refine ⟨σ', by rw [List.map_append, execAll_append_ok hexec₁]; exact hexec, ?_, ?_⟩
    · have hslot : Housed cv.target (-frame.locals) (-s.frame.locals) σ σ₁ :=
        { hhoused₁ with mem := fun e he he' hout => hhoused₁.mem e he he' (by omega) }
      exact hslot.trans hhoused (by omega) (by omega)
    · rw [List.length_cons, Nat.add_comm rest.length, ← Nat.add_assoc]
      exact hheld'

/-! ### Functions -/

lemma zip_placed {α : Type} {xs : List α} {tys : List Ty} {placements : List Placement}
    (hlen : xs.length = tys.length) (hplace : o.target.place tys = .ok placements) :
    placements.length = xs.length ∧
      (∀ a ∈ xs.zip placements, ∃ ty, a.2.Fits o.target ty) ∧
      ((xs.zip placements).Pairwise fun a b => a.2.place.Apart b.2.place) ∧
      ∀ a ∈ xs.zip placements, ∀ offset, a.2.place = .stack offset →
        offset + 8 ≤ o.target.outgoingBytes placements ∧
        o.target.outgoingBytes placements ≤ 8 * (4 + stackCount placements) := by
  obtain ⟨hassign, hfits⟩ := place_eq_ok hplace
  have hlen' : placements.length = xs.length := by rw [← hfits.length_eq, hlen]
  have hbytes := outgoingBytes_le o.convention tys
  rw [show o.convention.target.assign tys = placements from hassign.symm] at hbytes
  refine ⟨hlen', fun a ha => exists_fits hfits (List.of_mem_zip ha).2, ?_, fun a ha offset ho =>
    ⟨stack_le_outgoingBytes o.target (List.of_mem_zip ha).2 ho, hbytes⟩⟩
  have hapart := pairwise_apart o.convention tys
  have hsnd : (xs.zip placements).map Prod.snd = placements := List.map_snd_zip hlen'.le
  rw [show o.convention.target.assign tys = placements from hassign.symm, ← hsnd,
    List.pairwise_map] at hapart
  exact hapart

namespace Parts

variable (parts : Parts o f start c)

lemma exists_placed (hcount : f.params.length < 268435456) :
    ∃ placements, o.target.place (f.params.map (·.ty)) = .ok placements ∧
      placements.length = f.params.length ∧ Placed o.target (f.params.zip placements) ∧
      Homes 0 (f.params.zip placements) (start.enter f (asmName o start.symbols f)) parts.homing
        parts.homed := by
  obtain ⟨placements, hplace, hfits, hhomes⟩ := parts.exists_homes
  obtain ⟨hlen, -, hapart, hbytes⟩ := zip_placed (List.length_map _).symm hplace
  refine ⟨placements, hplace, hlen, ⟨fun q hq => ?_, hapart, fun q hq offset hoffset => ?_⟩, hhomes⟩
  · rw [List.forall₂_map_left_iff, List.forall₂_iff_zip] at hfits
    exact hfits.2 hq
  · obtain ⟨hle, hle'⟩ := hbytes q hq offset hoffset
    have hstack : stackCount placements ≤ placements.length := List.countP_le_length
    omega

lemma nearby_enter (symbol : String) : Nearby 0 (start.enter f symbol) :=
  ⟨le_rfl, fun k hk => absurd hk (Nat.not_lt_zero k)⟩

lemma nearby (hcount : f.params.length < 268435456) {k : Nat} {r : Residence}
    (hr : parts.homed.params[k]? = some r) :
    -parts.homed.frame.locals ≤ r.disp ∧ r.disp ≤ 4294967312 := by
  obtain ⟨placements, -, hlen, hplaced, hhomes⟩ := parts.exists_placed hcount
  have hnear := hhomes.nearby hplaced (nearby_enter _)
  have hlt : k < parts.homed.params.length := (List.getElem?_eq_some_iff.mp hr).1
  have hparams : parts.homed.params.length = f.params.length :=
    hhomes.length_params.trans (List.length_map _)
  refine hnear.homes k ?_ r hr
  rw [List.length_zip]
  omega

lemma inFrame_of_housed {low high : Int} {σ₀ : State} (h : InFrame o.target parts.frame σ₀ σ)
    (hhoused : Housed o.target low high σ σ') (hlow : -parts.last.frame.locals ≤ low)
    (hhigh : high ≤ 0) : InFrame o.target parts.frame σ₀ σ' := by
  have hlocals := parts.inv.locals
  have hmoderate := parts.moderate
  refine h.keep hhoused.rbp hhoused.rsp (fun d hd => Memory.load_addr_congr fun e he he' => ?_)
    (fun g hg _ _ => hhoused.gpr g hg) fun x _ => by rw [hhoused.xmm]
  -- seen from the frame pointer, the saved words lie at or above it, or below the locals
  have hplace : addr (σ₀.gpr .rsp) e = addr (σ.gpr .rbp) (e + 8) := by
    rw [h.rbp, addr_addr]
    congr 1
    omega
  rw [hplace]
  simp only [Layout.savedSlots, List.mem_cons, List.mem_map, List.mem_range] at hd
  rcases hd with rfl | rfl | ⟨k, hk, rfl⟩
  · exact hhoused.mem _ (by omega) (by omega) (Or.inr (by omega))
  · exact hhoused.mem _ (by omega) (by omega) (Or.inr (by omega))
  · obtain ⟨gs, hgs, -, -, -, hlen⟩ := hmoderate.pushes
    have hadjust := hmoderate.adjust
    have hroom : parts.last.frame.locals ≤ parts.frame.adjust := by
      rcases parts.sound.locals with h | ⟨hnil, -⟩
      · exact h
      · rw [parts.sound.pushes, hnil] at hk
        cases hk
    have hcount : parts.frame.saved.length ≤ 16 := by rw [hgs, List.length_map]; exact hlen
    unfold Layout.pushSlot at he he'
    exact hhoused.mem _ (by omega) (by omega) (Or.inl (by omega))

/-- The prologue of a function sets the frame up and brings the parameters home. -/
theorem exists_inFrame_held (hcount : f.params.length < 268435456) {placements : List Placement}
    (hplace : o.target.place (f.params.map (·.ty)) = .ok placements) {words : Nat → Word}
    {σ₀ : State} (harrives : ∀ k a placement, f.params[k]? = some a →
      placements[k]? = some placement →
        Arrives (addr (σ₀.gpr .rsp) 8) σ₀ a.ty (words k) placement.place) :
    ∃ σ, execAll p c.prologue σ₀ = .ok σ ∧ InFrame o.target parts.frame σ₀ σ ∧
      Held words f.params.length parts.homed σ := by
  obtain ⟨placements', hplace', hlen, hplaced, hhomes⟩ := parts.exists_placed hcount
  obtain rfl := Except.ok.inj (hplace.symm.trans hplace')
  obtain ⟨σ₁, hexec₁, hframe, hgpr, hxmm, hmem⟩ :=
    exists_inFrame_of_prologue (p := p) (c := o.convention) parts.moderate σ₀
  have hbase : incoming σ₁ = addr (σ₀.gpr .rsp) 8 := by
    rw [incoming, hframe.rbp, addr_addr]
    rfl
  have harrives₁ : ∀ k q, (f.params.zip placements)[k]? = some q →
      Arrives (incoming σ₁) σ₁ q.1.ty (words (0 + k)) q.2.place := by
    intro k q hq
    have hmem' := List.mem_of_getElem? hq
    obtain ⟨ha, hp⟩ := List.getElem?_zip_eq_some.mp hq
    rw [hbase, Nat.zero_add]
    refine (harrives k q.1 q.2 ha hp).congr (fun g hg => ?_) hxmm fun offset hoffset e he he' => ?_
    · obtain ⟨-, hscratch, -, hrbp⟩ :=
        args_scratch (c := o.convention) ((hplaced.fits q hmem').register _ hg)
      exact hgpr g (fun e => hscratch.2 (by rw [e])) fun e => hrbp (by rw [e])
    · have hlow := (hplaced.fits q hmem').stack offset hoffset
      have hhigh := hplaced.small q hmem' offset hoffset
      rw [addr_addr]
      exact hmem _ (by omega) (by omega)
  have hlater := parts.grown.later.locals
  have hlast := parts.inv.locals.2
  obtain ⟨σ, hexec, hhoused, hheld⟩ := hhomes.exists_housed (p := p) (τ := parts.last.temps)
    (σ := σ₁) hplaced (nearby_enter _) (hlater.trans hlast) harrives₁
    fun k hk => absurd hk (Nat.not_lt_zero k)
  refine ⟨σ, ?_, ?_, ?_⟩
  · rw [parts.prologue_eq, execAll_append_ok hexec₁]
    exact hexec
  · exact parts.inFrame_of_housed hframe hhoused (neg_le_neg hlater) le_rfl
  · rwa [List.length_zip, hlen, Nat.min_self, Nat.zero_add] at hheld

end Parts

end NativeCode.Compile
