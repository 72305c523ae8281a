import NativeCode.Proofs.Compile.Labels

/-!
# What the lines of a function can do

Every line between prologue and epilogue is a label, straight code that only writes what it may, a
jump to a label of the function, or a trap. The prologue is followed by code that stores parameters,
which only writes what it may as well.
-/

namespace NativeCode.Compile

open Abi Machine Selection

inductive BodyLine (t : Target) (s : Session) : Item → Prop
  | label (l : Local) : BodyLine t s (.label (localLabel s.symbol l))
  | tame {i : Instr} (h : Tame t s i) : BodyLine t s (.instr i)
  | jump {i : Instr} (l : Local) (h : Jumps i (localLabel s.symbol l)) : BodyLine t s (.instr i)
  | trap {i : Instr} (h : i.op = .ud2) : BodyLine t s (.instr i)

/-- The lines `items` between the sessions `s` and `s'`. -/
structure Grown (t : Target) (s s' : Session) (items : List Item) : Prop where
  later : s.Later s'
  inv : s.Inv t → s'.Inv t
  lines : s.Inv t → ∀ item ∈ items, BodyLine t s' item

variable {t : Target} {s s' s'' : Session} {items rest : List Item}

lemma BodyLine.mono {item : Item} (h : BodyLine t s item) (hs : s.Later s') :
    BodyLine t s' item := by
  cases h with
  | label l => rw [← hs.symbol]; exact .label l
  | tame h => exact .tame (h.mono hs)
  | jump l h => exact .jump l (by rw [hs.symbol]; exact h)
  | trap h => exact .trap h

namespace Grown

lemma refl (t : Target) (s : Session) : Grown t s s [] := ⟨.refl s, fun h => h, by simp⟩

lemma trans (h : Grown t s s' items) (h' : Grown t s' s'' rest) :
    Grown t s s'' (items ++ rest) where
  later := h.later.trans h'.later
  inv hi := h'.inv (h.inv hi)
  lines hi item hitem := by
    rcases List.mem_append.mp hitem with hitem | hitem
    · exact (h.lines hi item hitem).mono h'.later
    · exact h'.lines (h.inv hi) item hitem

lemma of_emits {site : Site} {is : List Instr} (h : Emits site s s' is) :
    Grown site.target s s' (is.map .instr) where
  later := h.later
  inv := h.inv
  lines hi item hitem := by
    obtain ⟨i, hmem, rfl⟩ := List.mem_map.mp hitem
    exact .tame (h.tame hi i hmem)

lemma of_exits {site : Site} {e : Ir.Terminator} {is : List Instr} (h : Exits site e s s' is) :
    Grown site.target s s' (is.map .instr) := by
  refine ⟨h.later, h.inv, fun hi item hitem => ?_⟩
  obtain ⟨i, hmem, rfl⟩ := List.mem_map.mp hitem
  rcases h.tame hi i hmem with hi | ⟨id, -, hi⟩ | ⟨-, hi⟩ | ⟨-, hi⟩
  · exact .tame hi
  · rw [blockLabel_eq, ← h.later.symbol] at hi
    exact .jump _ hi
  · rw [epilogueLabel_eq, ← h.later.symbol] at hi
    exact .jump _ hi
  · exact .trap hi

end Grown

variable {index : Nat} {ps : List (Ir.Param × Placement)} {code : List Instr}

lemma later_release (s : Session) : s.Later s.release := { Session.Later.refl s with }

lemma later_cut (s : Session) : s.Later s.cut := { Session.Later.refl s with }

lemma later_resume (s : Session) : s.Later s.resume := { Session.Later.refl s with }

theorem Lowers.grown {o : Options} {e : Ir.Terminator} {is : List Ir.Instr}
    (h : Lowers o e is s items s') : Grown o.target s s' items := by
  induction h with
  | nil s => exact .refl _ s
  | @step i is s s₁ s' code items hkind h he hrest ih =>
    have hrelease : Grown o.target s₁ s₁.release [] :=
      ⟨later_release s₁, fun hi => { hi with }, by simp⟩
    exact (Grown.of_emits he).trans (hrelease.trans ih)
  | @ret i is s s₁ s' code items hkind hi h he hrest ih =>
    have hreturns : Grown o.target s { s with returns := true } [] :=
      ⟨{ Session.Later.refl s with }, fun hi => { hi with }, by simp⟩
    have hresume : Grown o.target s₁ s₁.resume
        [.instr ((instrSite o i false).exit s₁), .label s₁.contLabel] := by
      refine ⟨later_resume s₁, fun hi => { hi with }, fun _ item hitem => ?_⟩
      simp only [List.mem_cons, List.not_mem_nil, or_false] at hitem
      rcases hitem with rfl | rfl
      · refine .jump .epilogue ⟨Or.inl rfl, ?_⟩
        rw [Site.exit, Site.instr, epilogueLabel_eq]
        rfl
      · rw [contLabel_eq]
        exact .label _
    exact hreturns.trans ((Grown.of_emits he).trans (hresume.trans ih))

theorem LowersBlock.grown {o : Options} {b : Ir.Block} {next : Option Nat}
    (h : LowersBlock o b next s items s') : Grown o.target s s' items := by
  obtain ⟨s₁, s₂, body, code, hbody, -, hexits, rfl, rfl⟩ := h.lowers
  have hlabel : Grown o.target s s [.label (s.blockLabel b.id)] := by
    refine ⟨.refl s, fun hi => hi, fun _ item hitem => ?_⟩
    rw [List.mem_singleton.mp hitem, blockLabel_eq]
    exact .label _
  have hcode : Grown o.target s₁ s₂ (code.map .instr) := .of_exits hexits
  have hcut : Grown o.target s₂ s₂.cut [] :=
    ⟨later_cut s₂, fun hi => { hi with }, by simp⟩
  have hall := hlabel.trans (hbody.grown.trans (hcode.trans hcut))
  rw [List.append_nil] at hall
  exact hall

theorem LowersBlocks.grown {o : Options} {bs : List Ir.Block}
    (h : LowersBlocks o bs s items s') : Grown o.target s s' items := by
  induction h with
  | nil s => exact .refl _ s
  | cons hb _ ih => exact hb.grown.trans ih

/-! ### Homes of parameters -/

/-- The parameters in front of a position have homes, above the caller's return address or in the
frame. -/
structure Homed (index : Nat) (s : Session) : Prop where
  locals : 0 ≤ s.frame.locals ∧ s.frame.locals ≤ 2147483647
  homes : ∀ k < index, ∀ r, s.params[k]? = some r → r.access = .home ∧
    (16 ≤ r.disp ∨ -s.frame.locals ≤ r.disp ∧ r.disp ≤ -8)

lemma Homed.set (h : Homed index s) (frame : Frame.Needs) (r : Residence)
    (hlt : index < s.params.length) (hlocals : s.frame.locals ≤ frame.locals)
    (hlimit : frame.locals ≤ 2147483647) (hhome : r.access = .home)
    (hr : 16 ≤ r.disp ∨ -frame.locals ≤ r.disp ∧ r.disp ≤ -8) :
    Homed (index + 1) { s with frame, params := s.params.set index r } := by
  have hnonneg := h.locals.1
  refine ⟨⟨hnonneg.trans hlocals, hlimit⟩, fun k hk q hq => ?_⟩
  change (s.params.set index r)[k]? = some q at hq
  change q.access = .home ∧ (16 ≤ q.disp ∨ -frame.locals ≤ q.disp ∧ q.disp ≤ -8)
  by_cases hki : index = k
  · subst hki
    rw [List.getElem?_set_self hlt] at hq
    cases hq
    exact ⟨hhome, hr⟩
  · rw [List.getElem?_set_ne hki] at hq
    obtain ⟨hq', hdisp⟩ := h.homes k (by omega) q hq
    exact ⟨hq', by omega⟩

lemma stays?_ge {p : Ir.Param} {placement : Placement} {d : Int}
    (hstack : ∀ offset, placement.place = .stack offset → 0 ≤ offset)
    (h : stays? p placement = some d) : 16 ≤ d := by
  unfold stays? incomingBase at h
  split at h
  case h_1 offset hp =>
    have := hstack offset hp
    split_ifs at h
    cases h
    omega
  case h_2 => cases h

lemma Homes.locals_le (h : Homes index ps s code s') : s.frame.locals ≤ s'.frame.locals := by
  induction h with
  | nil => exact le_rfl
  | stays _ _ _ ih => exact ih
  | home _ hframe _ _ ih =>
    obtain ⟨-, hlt, -, -, -⟩ := Frame.Needs.allocate_eq_ok hframe
    refine le_trans ?_ ih
    dsimp only
    omega

lemma Homes.homed (hps : ∀ q ∈ ps, ∀ offset, q.2.place = .stack offset → 0 ≤ offset)
    (h : Homes index ps s code s') (hs : Homed index s) :
    Homed (index + ps.length) s' ∧ s'.params.length = s.params.length ∧
      s'.frame.outgoing = s.frame.outgoing := by
  induction h with
  | nil => exact ⟨hs, rfl, rfl⟩
  | @stays index p placement d rest s s' code hd hindex hrest ih =>
    have hge := stays?_ge (hps _ List.mem_cons_self) hd
    have hset := hs.set s.frame { access := .home, ty := p.ty, disp := d } hindex
      le_rfl hs.locals.2 rfl (Or.inl hge)
    obtain ⟨h₁, h₂, h₃⟩ := ih (fun q hq => hps q (List.mem_cons_of_mem _ hq)) hset
    rw [List.length_set] at h₂
    exact ⟨by rw [List.length_cons, Nat.add_comm rest.length, ← Nat.add_assoc]; exact h₁, h₂, h₃⟩
  | @home index p placement d frame rest s s' code hd hframe hindex hrest ih =>
    obtain ⟨hdisp, hlt, -, hlimit, heq⟩ := Frame.Needs.allocate_eq_ok hframe
    have hnonneg := hs.locals.1
    have hset := hs.set frame { access := .home, ty := p.ty, disp := d } hindex
      (by omega) hlimit rfl (Or.inr ⟨by dsimp only; omega, by dsimp only; omega⟩)
    obtain ⟨h₁, h₂, h₃⟩ := ih (fun q hq => hps q (List.mem_cons_of_mem _ hq)) hset
    rw [List.length_set] at h₂
    refine ⟨by rw [List.length_cons, Nat.add_comm rest.length, ← Nat.add_assoc]; exact h₁, h₂, ?_⟩
    rw [h₃]
    change frame.outgoing = s.frame.outgoing
    rw [heq]

/-- The lines that fill a home: a parameter is loaded or extended, and stored. -/
inductive HomeLine (p : Ir.Param) (placement : Placement) (d : Int) : Instr → Prop
  | load (src : Int) :
      HomeLine p placement d (extendingLoad (.slot src) { reg := .ofGpr .rax } p.ty)
  | extend {r : PhysReg} {i : Instr} (hr : placement.place = .register r)
      (hcls : placement.cls = .gpr) (h : extendInPlace { reg := .phys r } p.ty = some i) :
      HomeLine p placement d i
  | store {r : PhysReg}
      (h : r = .gpr .rax ∨ placement.place = .register r ∧ placement.cls = .gpr) :
      HomeLine p placement d (homeStore (.mov .quad) r d ("%" ++ p.name))
  | storeFloat {r : PhysReg} (hr : placement.place = .register r) (hcls : placement.cls = .xmm) :
      HomeLine p placement d (homeStore (floatMove p.ty) r d ("%" ++ p.name))

lemma homeLine_of_mem {p : Ir.Param} {placement : Placement} {d : Int} {i : Instr}
    (h : i ∈ homeCode p placement d) : HomeLine p placement d i := by
  unfold homeCode at h
  split at h
  case h_1 =>
    rcases List.mem_pair.mp h with rfl | rfl
    · exact .load _
    · exact .store (Or.inl rfl)
  case h_2 r hr =>
    split at h
    case h_1 hcls =>
      rw [List.mem_singleton.mp h]
      exact .storeFloat hr hcls
    case h_2 hcls =>
      rcases List.mem_append.mp h with h | h
      · exact .extend hr hcls (Option.mem_toList.mp h)
      · rw [List.mem_singleton.mp h]
        exact .store (Or.inr ⟨hr, hcls⟩)

lemma Homes.exists_homeLine (h : Homes index ps s code s') {i : Instr} (hi : i ∈ code) :
    ∃ q ∈ ps, ∃ d, HomeLine q.1 q.2 d i ∧
      (0 ≤ s.frame.locals → -s'.frame.locals ≤ d ∧ d ≤ -8) := by
  induction h with
  | nil => cases hi
  | stays _ _ _ ih =>
    obtain ⟨q, hq, d, hline, hd⟩ := ih hi
    exact ⟨q, List.mem_cons_of_mem _ hq, d, hline, hd⟩
  | @home index p placement d frame rest s s' code hd hframe hindex hrest ih =>
    obtain ⟨hdisp, hlt, -, -, -⟩ := Frame.Needs.allocate_eq_ok hframe
    have hle : frame.locals ≤ s'.frame.locals := hrest.locals_le
    rcases List.mem_append.mp hi with hi | hi
    · exact ⟨_, List.mem_cons_self, d, homeLine_of_mem hi, fun hs => by omega⟩
    · obtain ⟨q, hq, d', hline, hd'⟩ := ih hi
      refine ⟨q, List.mem_cons_of_mem _ hq, d', hline, fun hs => hd' ?_⟩
      change 0 ≤ frame.locals
      omega

/-- The code that fills homes writes the homes, the registers that the parameters arrive in, and
`%rax`. -/
lemma Homes.tame {c : Convention} {later : Session}
    (hps : ∀ q ∈ ps, ∀ r, q.2.place = .register r → r ∈ c.target.args q.2.cls)
    (h : Homes index ps s code s') (hs : 0 ≤ s.frame.locals)
    (hlater : s'.frame.locals ≤ later.frame.locals) : ∀ i ∈ code, Tame c.target later i := by
  have htame {i : Instr} {o : Operand} (hop : i.op.isPlain = true)
      (hlast : i.operands.getLast? = some o) (ho : MayWrite c.target later o) :
      Tame c.target later i := by
    refine .plain hop fun o' ho' => ?_
    unfold Instr.dst? at ho'
    split_ifs at ho'
    obtain rfl := Option.some.inj (hlast.symm.trans ho')
    exact ho
  intro i hi
  obtain ⟨q, hq, d, hline, hd⟩ := h.exists_homeLine hi
  obtain ⟨hlow, hhigh⟩ := hd hs
  have hslot : MayWrite c.target later (.slot d) := .slot (by omega) hhigh
  cases hline with
  | load src =>
    have hrax : Writable c.target later.temps.regs.size (.ofGpr .rax) :=
      scratch_of_mem (r := .gpr .rax) (by simp)
    unfold extendingLoad
    split <;> exact htame rfl rfl (.reg hrax)
  | @extend r i hr _ hextend =>
    have hscratch : Writable c.target later.temps.regs.size (.phys r) :=
      (args_scratch (hps q hq r hr)).2.1
    unfold extendInPlace at hextend
    split at hextend
    case h_8 => cases hextend
    all_goals
      cases hextend
      exact htame rfl rfl (.reg hscratch)
  | store => exact htame rfl rfl hslot
  | storeFloat => exact htame (by unfold homeStore floatMove; split <;> rfl) rfl hslot

/-! ### Functions -/

namespace Parts

variable {o : Options} {f : Ir.Function} {start : Session} {c : Machine.Function}
  (parts : Parts o f start c)

lemma exists_homes :
    ∃ placements, o.target.place (f.params.map (·.ty)) = .ok placements ∧
      List.Forall₂ (fun ty p => p.Fits o.target ty) (f.params.map (·.ty)) placements ∧
      Homes 0 (f.params.zip placements) (start.enter f (asmName o start.symbols f)) parts.homing
        parts.homed := by
  obtain ⟨placements, hplace, hhomes⟩ := homes_of_homeParams parts.homes
  exact ⟨placements, hplace, (place_eq_ok hplace).2, hhomes⟩

lemma fits_of_mem_zip {ps : List Ir.Param} {placements : List Placement}
    {q : Ir.Param × Placement}
    (h : List.Forall₂ (fun ty p => p.Fits o.target ty) (ps.map (·.ty)) placements)
    (hq : q ∈ ps.zip placements) : ∃ ty, q.2.Fits o.target ty :=
  exists_fits h (List.of_mem_zip hq).2

lemma inv_homed : parts.homed.Inv o.target := by
  obtain ⟨placements, -, hfits, hhomes⟩ := parts.exists_homes
  have hstack : ∀ q ∈ f.params.zip placements, ∀ offset, q.2.place = .stack offset → 0 ≤ offset := by
    intro q hq offset hoffset
    obtain ⟨ty, hfit⟩ := fits_of_mem_zip hfits hq
    exact hfit.stack offset hoffset
  have hlen : (f.params.zip placements).length = f.params.length := by
    rw [List.length_zip, ← hfits.length_eq, List.length_map, Nat.min_self]
  have hstart : Homed 0 (start.enter f (asmName o start.symbols f)) :=
    ⟨⟨le_rfl, show (0 : Int) ≤ 2147483647 by decide⟩, fun k hk => absurd hk (Nat.not_lt_zero k)⟩
  obtain ⟨hhomed, hparams, hout⟩ := hhomes.homed hstack hstart
  have heq := hhomes.eq
  have htemps : parts.homed.temps.regs = #[] := by rw [heq]; rfl
  have hvalues : parts.homed.values = [] := by rw [heq]; rfl
  have hcount : parts.homed.params.length = f.params.length := by
    rw [hparams]
    exact List.length_map _
  refine ⟨by simp [htemps], by simp [htemps], hhomed.locals, ?_, by simp [hvalues],
    by simp [hvalues], fun r hr => ?_, by simp [hvalues]⟩
  · rw [hout]
    exact ⟨le_rfl, show (0 : Int) ≤ 8 * (4 + Temps.limit) by decide⟩
  · obtain ⟨k, hk, rfl⟩ := List.getElem_of_mem hr
    exact hhomed.homes k (by omega) _ (List.getElem?_eq_getElem hk)

theorem grown : Grown o.target { parts.homed with reads := f.reads } parts.last
    (parts.blocks.flatMap blockItems) := parts.lowers.grown

theorem inv : parts.last.Inv o.target :=
  parts.grown.inv { parts.inv_homed with }

lemma bodyLine : ∀ item ∈ parts.blocks.flatMap blockItems, BodyLine o.target parts.last item :=
  parts.grown.lines { parts.inv_homed with }

lemma tame_homing : ∀ i ∈ parts.homing, Tame o.target parts.last i := by
  obtain ⟨placements, -, hfits, hhomes⟩ := parts.exists_homes
  have hregs : ∀ q ∈ f.params.zip placements, ∀ r, q.2.place = .register r →
      r ∈ o.target.args q.2.cls := by
    intro q hq r hr
    obtain ⟨ty, hfit⟩ := fits_of_mem_zip hfits hq
    exact hfit.register r hr
  exact hhomes.tame (c := o.convention) hregs le_rfl parts.grown.later.locals

end Parts

end NativeCode.Compile
