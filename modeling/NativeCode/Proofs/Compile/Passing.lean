import NativeCode.Proofs.Compile.Homing
import NativeCode.Proofs.Compile.Typing
import NativeCode.Proofs.Frame.Regions

/-!
# Passing arguments

A caller puts the words of its operands where its callee looks for its parameters, because both place
the same list of types. The operands of a caller do not lie in its space for arguments, so that
storing arguments there changes none of them; the return address and the frame of the callee lie
below this space.
-/

namespace NativeCode.Compile

open Ir (Ty)
open Abi NativeCode.Frame Machine Selection
open Selection (Session)

variable {o : Options} {f g : Ir.Function} {s s' start start' : Session} {c c' : Machine.Function}
  {p : Platform} {t : Ir.Terminator} {is : List Ir.Instr} {i : Ir.Instr} {b : Ir.Block}
  {bs : List Ir.Block} {items : List Item}

/-! ### Lines of an instruction -/

/-- The code of the instruction `i`, selected between two sessions, stands in some lines. -/
structure Stands (site : Site) (i : Ir.Instr) (s s' : Session) (code : List Instr)
    (items : List Item) : Prop where
  yields : Yields (instrCode i) site s () s'
  appended : s'.code.toList = s.code.toList ++ code
  lines : code.map .instr <:+: items

lemma Stands.mono {site : Site} {code : List Instr} {items' : List Item}
    (h : Stands site i s s' code items) (hitems : items <:+: items') :
    Stands site i s s' code items' :=
  ⟨h.yields, h.appended, h.lines.trans hitems⟩

/-- The lines of an instruction among those of its block. Only a comparison that is fused into the
branch leaves nothing but flags. -/
theorem Lowers.exists_stands (h : Lowers o t is s items s') (hi : i ∈ is) (hkind : i.kind ≠ .ret) :
    ∃ site s₁ s₂ code, Stands site i s₁ s₂ code items ∧ site.options = o ∧
      (site.flagsOnly = true → is.getLast? = some i ∧ fuses s₁ i t = true) ∧
      s.Later s₁ ∧ s₂.Later s' := by
  induction h with
  | nil => cases hi
  | @step j js s s₁ s' code items _ hj he hrest ih =>
    have hlater : s.Later s₁.release := he.later.trans (later_release s₁)
    rcases List.mem_cons.mp hi with rfl | hi
    · refine ⟨_, s, s₁, code, ⟨hj, he.code, (List.prefix_append _ _).isInfix⟩, rfl, fun hfused => ?_,
        .refl s, (later_release s₁).trans hrest.grown.later⟩
      obtain ⟨hempty, hfuses⟩ := Bool.and_eq_true_iff.mp hfused
      rw [List.isEmpty_iff.mp hempty]
      exact ⟨rfl, hfuses⟩
    · obtain ⟨site, s₂, s₃, code', hstands, hsite, hfused, hbefore, hafter⟩ := ih hi
      refine ⟨site, s₂, s₃, code', hstands.mono (List.suffix_append _ _).isInfix, hsite, fun h => ?_,
        hlater.trans hbefore, hafter⟩
      rw [List.getLast?_cons, (hfused h).1]
      exact ⟨rfl, (hfused h).2⟩
  | @ret j js s s₁ s' code items hret hj _ he hrest ih =>
    rcases List.mem_cons.mp hi with rfl | hi
    · exact absurd hret hkind
    · obtain ⟨site, s₂, s₃, code', hstands, hsite, hfused, hbefore, hafter⟩ := ih hi
      have hl := he.later
      have hlater : s.Later s₁.resume := { hl with }
      refine ⟨site, s₂, s₃, code', hstands.mono ?_, hsite, fun h => ?_, hlater.trans hbefore, hafter⟩
      · exact ((List.suffix_append [_, _] items).trans
          (List.suffix_append (code.map .instr) _)).isInfix
      · rw [List.getLast?_cons, (hfused h).1]
        exact ⟨rfl, (hfused h).2⟩

/-- The lines of an instruction among those of all blocks. -/
theorem LowersBlocks.exists_stands (h : LowersBlocks o bs s items s') (hb : b ∈ bs)
    (hi : i ∈ b.instrs) (hkind : i.kind ≠ .ret) :
    ∃ site s₁ s₂ code, Stands site i s₁ s₂ code items ∧ site.options = o ∧
      (site.flagsOnly = true → b.instrs.getLast? = some i ∧ fuses s₁ i b.term = true) ∧
      s.Later s₁ ∧ s₂.Later s' := by
  induction h with
  | nil => cases hb
  | @cons b' bs s s₁ s' lines rest hblock hrest ih =>
    rcases List.mem_cons.mp hb with rfl | hb
    · obtain ⟨s₂, s₃, body, code, hbody, -, hexits, rfl, rfl⟩ := hblock.lowers
      obtain ⟨site, s₄, s₅, code', hstands, hsite, hfused, hbefore, hafter⟩ :=
        hbody.exists_stands hi hkind
      refine ⟨site, s₄, s₅, code', hstands.mono ?_, hsite, hfused, hbefore,
        hafter.trans (hexits.later.trans ((later_cut s₃).trans hrest.grown.later))⟩
      exact ⟨[.label (s.blockLabel b.id)], code.map .instr ++ rest, by simp⟩
    · obtain ⟨site, s₂, s₃, code', hstands, hsite, hfused, hbefore, hafter⟩ := ih hb
      exact ⟨site, s₂, s₃, code', hstands.mono (List.suffix_append _ _).isInfix, hsite, hfused,
        hblock.grown.later.trans hbefore, hafter⟩

lemma Typed.of_later (h : Typed f s') (hs : s.Later s') : Typed f s where
  function := hs.function ▸ h.function
  params := hs.params ▸ h.params
  values e he := h.values e (hs.values.subset he)

/-- The code `args` puts the words of operands into their places, in every state in which the stack
pointer is where the frame `l` has it. The session `s` says where the operands are. -/
def Passes (s : Session) (l : Layout) (os : List Ir.Operand) (tys : List Ty)
    (placements : List Placement) (args : List Instr) : Prop :=
  ∀ (p : Platform) (σ : State), σ.gpr .rsp = addr (σ.gpr .rbp) (-l.drop) →
    ∃ σ', execAll p args σ = .ok σ' ∧ σ'.gpr .rsp = σ.gpr .rsp ∧
      ∀ (k : Nat) x ty placement, os[k]? = some x → tys[k]? = some ty →
        placements[k]? = some placement →
          ∃ v, s.source? x = some v ∧ Arrives (σ.gpr .rsp) σ' ty (v.word p σ) placement.place

namespace Parts

variable (parts : Parts o f start c)

/-- The lines of an instruction among those of its function. -/
theorem exists_stands (hb : b ∈ parts.order) (hi : i ∈ b.instrs) (hkind : i.kind ≠ .ret) :
    ∃ site s s' code, Stands site i s s' code (parts.blocks.flatMap blockItems) ∧
      site.options = o ∧
      (site.flagsOnly = true → b.instrs.getLast? = some i ∧ fuses parts.last i b.term = true) ∧
      (∀ name e, start.symbols.find? name = some e → s.symbols.find? name = some e) ∧
      s.Later s' ∧ s'.Later parts.last := by
  obtain ⟨site, s, s', code, hstands, hsite, hfused, hbefore, hafter⟩ :=
    parts.lowers.exists_stands hb hi hkind
  have hsymbols : parts.homed.symbols = start.symbols := by rw [parts.homed_eq]; rfl
  obtain ⟨is, he⟩ := emits_instrCode hkind hstands.yields
  refine ⟨site, s, s', code, hstands, hsite, fun h => ?_, fun name e hfind => ?_, he.later, hafter⟩
  · rw [fuses_congr (he.later.trans hafter).reads]
    exact hfused h
  · refine hbefore.symbols name e ?_
    change parts.homed.symbols.find? name = some e
    rw [hsymbols]
    exact hfind

lemma infix_of_blocks {code : List Instr}
    (h : code.map .instr <:+: parts.blocks.flatMap blockItems) :
    (code.map parts.last.temps.boundInstr).map .instr <:+: Listing.functionItems c := by
  obtain ⟨before, after, hlines⟩ := h
  have hbody : (code.map parts.last.temps.boundInstr).map .instr <:+: parts.body := by
    refine ⟨(parts.homing.map Item.instr ++ before).map parts.last.temps.boundItem,
      after.map parts.last.temps.boundItem, ?_⟩
    have hmap : (code.map parts.last.temps.boundInstr).map Item.instr =
        (code.map Item.instr).map parts.last.temps.boundItem := by
      rw [List.map_map, List.map_map]
      rfl
    rw [body, ← hlines, hmap]
    simp only [List.map_append, List.append_assoc]
  rw [parts.functionItems_eq]
  exact hbody.trans ((List.prefix_append _ _).isInfix.trans
    ((List.suffix_append _ _).trans (List.suffix_append _ _)).isInfix)

lemma disp_bounds (hcount : f.params.length < 268435456) {x : Ir.Operand} {r : Residence}
    (hr : parts.last.reach? x = some (.residence r)) (hplace : r.access ≠ .constant) :
    -parts.last.frame.locals ≤ r.disp ∧ r.disp ≤ 4294967312 := by
  obtain ⟨id, -, hmem⟩ | ⟨k, -, hget⟩ | ⟨ty, bits, -, rfl⟩ := Session.residence_cases hr
  · have hslot := parts.inv.slots (id, r) hmem hplace
    exact ⟨hslot.1, hslot.2.trans (by decide)⟩
  · have hparams : parts.last.params = parts.homed.params := parts.grown.later.params
    have hnear := parts.nearby hcount (hparams ▸ hget)
    have hle := parts.grown.later.locals
    exact ⟨(neg_le_neg hle).trans hnear.1, hnear.2⟩
  · exact absurd rfl hplace

lemma clear_of_source? (hcount : f.params.length < 268435456)
    (hcalls : parts.last.frame.hasCalls = true) {x : Ir.Operand} {v : Source}
    (hv : parts.last.source? x = some v) : v.Clear parts.frame.drop parts.frame.outgoing := by
  have hlocals : parts.last.frame.locals ≤ parts.frame.adjust := by
    rcases parts.sound.locals with h | ⟨-, hnone, -⟩
    · exact h
    · rw [hcalls] at hnone
      cases hnone
  have hadjust := parts.moderate.adjust
  have houtgoing := parts.moderate.outgoing
  obtain ⟨gs, hgs, -, -, -, hlen⟩ := parts.moderate.pushes
  have hsaved : parts.frame.saved.length ≤ 16 := by rw [hgs, List.length_map]; exact hlen
  rintro r rfl hhome
  have hdisp := parts.disp_bounds hcount (Session.residence_of_source? hv) (by rw [hhome]; decide)
  unfold Layout.drop
  omega

/-- The space for arguments holds the slots of a call, and none of the operands. -/
lemma spaced (hcount : f.params.length < 268435456) (hcalls : parts.last.frame.hasCalls = true)
    {xs : List Ir.Operand} {tys : List Ty} (hlen : xs.length = tys.length)
    {placements : List Placement} (hplace : o.target.place tys = .ok placements)
    (hspace : o.target.outgoingBytes placements ≤ parts.frame.outgoing)
    (hsource : ∀ {x v}, s.source? x = some v → parts.last.source? x = some v) :
    Spaced s parts.frame.drop parts.frame.outgoing (xs.zip placements) := by
  obtain ⟨-, hfits, hapart, hbytes⟩ := zip_placed hlen hplace
  refine ⟨fun a ha offset hoffset => ?_, fun a ha v hv => ?_, hapart, ?_⟩
  · obtain ⟨ty, hfit⟩ := hfits a ha
    exact ⟨hfit.stack offset hoffset, (hbytes a ha offset hoffset).1.trans hspace⟩
  · exact parts.clear_of_source? hcount hcalls (hsource hv)
  · exact parts.moderate.outgoing.2.trans (by decide)

theorem exists_passes (hf : WellFormed.Sound f) (hcount : f.params.length < 268435456)
    (hb : f.Reached b) (hi : i ∈ b.instrs) {name : String} (hkind : i.kind = .call name)
    {tys : List Ty} (htys : List.Forall₂ (fun x ty => f.typeOf? x = some ty) i.operands tys)
    {placements : List Placement} (hplace : o.target.place tys = .ok placements) :
    ∃ args call e, (args ++ [call]).map .instr <:+: Listing.functionItems c ∧ call.op = .call ∧
      call.operands = [.symbol (Symbol.asm e)] ∧
      (∀ e', start.symbols.find? name = some e' → e' = e) ∧
      Passes parts.last parts.frame i.operands tys placements args := by
  have hret : i.kind ≠ .ret := by simp [hkind]
  obtain ⟨site, s, s', code, hstands, hsite, -, hsymbols, hlater, hafter⟩ :=
    parts.exists_stands (parts.mem_order hf hb) hi hret
  have hyields := hstands.yields
  rw [instrCode, hkind] at hyields
  obtain ⟨e, symbols, tys', placements', s₁, s₂, s₃, hcallee, htys', hplace', hstack, hregs, hs₃,
    hend⟩ := call_cases hyields
  rw [hsite] at hplace'
  -- the types that the code finds are those of the operands, and so are the places
  have htyped := (parts.typed hf).of_later (hlater.trans hafter)
  have htypes : tys' = tys := by
    refine List.right_unique_forall₂' (fun x ty ty' h h' => Option.some.inj (h.symm.trans h'))
      (htys'.imp fun x ty hx => ?_) htys
    obtain ⟨r, hr, rfl⟩ := hx
    exact htyped.typeOf?_of_reach hr
  subst htypes
  obtain rfl := Except.ok.inj (hplace.symm.trans hplace')
  obtain ⟨-, hfits, -⟩ := zip_placed htys.length_eq hplace
  -- what follows the call only adds to the session
  obtain ⟨rest, hrest, hlast⟩ : ∃ rest, s'.code.toList = s₃.code.toList ++ rest ∧ s₃.Later s' := by
    obtain ⟨-, rfl⟩ | ⟨-, hresult⟩ := hend
    · exact ⟨[], by simp, .refl _⟩
    · obtain ⟨is, he⟩ := emits_callResult hresult
      exact ⟨is, he.code, he.later⟩
  have hlast := hlast.trans hafter
  subst hs₃
  have hsource {x : Ir.Operand} {v : Source} (hv : Session.source? { s with symbols } x = some v) :
      parts.last.source? x = some v := by
    refine source?_of_later hlast (parts.nodup_values hf) ?_
    have halike := (alike_stackArguments hstack).trans (alike_registerArguments hregs)
    rw [← hv, ← halike.source? x]
    cases x <;> rfl
  have hcalls : parts.last.frame.hasCalls = true := hlast.hasCalls rfl
  have hspace : site.options.target.outgoingBytes placements ≤ parts.frame.outgoing :=
    (le_max_right _ _).trans (hlast.outgoing.trans parts.sound.outgoing_ge)
  rw [hsite] at hspace
  have hspaced : Spaced { s with symbols } parts.frame.drop parts.frame.outgoing
      (i.operands.zip placements) :=
    parts.spaced hcount hcalls htys.length_eq hplace hspace hsource
  have hregisters : ∀ a ∈ i.operands.zip placements, ∀ r, a.2.place = .register r →
      r ∈ site.options.target.args a.2.cls := by
    intro a ha r hr
    obtain ⟨ty, hfit⟩ := hfits a ha
    rw [hsite]
    exact hfit.register r hr
  obtain ⟨args, hargs⟩ := (brings_stackArguments hstack).grown.2.trans
    (brings_registerArguments hregisters hregs).grown.2
  have hcode : code = args ++ site.instr .call [.symbol e.asm] :: rest := by
    have h := hstands.appended
    rw [hrest] at h
    simp only [Session.push, Array.toList_push, ← hargs, List.append_assoc] at h
    exact (List.append_cancel_left h).symm
  refine ⟨args.map parts.last.temps.boundInstr,
    parts.last.temps.boundInstr (site.instr .call [.symbol e.asm]), e, ?_, rfl, rfl, ?_, ?_⟩
  · have hinfix : (args ++ [site.instr .call [.symbol e.asm]]).map .instr <:+:
        parts.blocks.flatMap blockItems := by
      refine List.IsInfix.trans ⟨[], rest.map .instr, ?_⟩ hstands.lines
      rw [hcode]
      simp
    have hlines := parts.infix_of_blocks hinfix
    rwa [List.map_append, List.map_singleton] at hlines
  · intro e' he'
    have hfind := hsymbols name e' he'
    rcases Symbols.callee_cases hcallee with ⟨hfind', -, -⟩ | ⟨hnone, -, -⟩
    · exact Option.some.inj (hfind.symm.trans hfind')
    · cases hnone.symm.trans hfind
  · intro p σ hσ
    obtain ⟨σ', hruns, hrsp, -, harrives⟩ := exists_runs_arguments (p := p) (τ := parts.last.temps)
      hstack hregs hlast.temps hspaced hregisters hσ
    refine ⟨σ', hruns.execAll_eq hargs.symm, hrsp, fun k x ty placement hx hty hp => ?_⟩
    have hmem : (x, placement) ∈ i.operands.zip placements :=
      List.mem_of_getElem? (List.getElem?_zip_eq_some.mpr ⟨hx, hp⟩)
    obtain ⟨v, hv, harrived⟩ := harrives (x, placement) hmem
    refine ⟨v, hsource hv, harrived ty ?_⟩
    obtain ⟨hk, hkx⟩ := List.getElem?_eq_some_iff.mp hx
    obtain ⟨hk', hkty⟩ := List.getElem?_eq_some_iff.mp hty
    obtain ⟨r, hr, hrty⟩ := htys'.get hk hk'
    rw [List.get_eq_getElem, hkx] at hr
    rw [List.get_eq_getElem, hkty] at hrty
    change (s.reach? x).map (·.ty) = some ty
    rw [hr, Option.map_some, hrty]

end Parts

/-! ### Caller and callee -/

/-- Pushing the return address leaves the arguments in their places, which the callee counts from the
slot above the address. -/
lemma arrives_pushWord {t : Target} {σ : State} {ty ty' : Ty} {w : Word} {placement : Placement}
    (h : Arrives (σ.gpr .rsp) σ ty w placement.place) (hfits : placement.Fits t ty')
    (hrsp : .gpr .rsp ∉ t.args placement.cls)
    (hsmall : ∀ offset, placement.place = .stack offset → offset ≤ 4294967296) (ra : Word) :
    Arrives (addr ((σ.pushWord ra).gpr .rsp) 8) (σ.pushWord ra) ty w placement.place := by
  have hbase : addr ((σ.pushWord ra).gpr .rsp) 8 = σ.gpr .rsp := by
    rw [State.pushWord_rsp, addr_addr]
    exact addr_zero _
  rw [hbase]
  refine h.congr (fun r hr => σ.pushWord_gpr_of_ne ra ?_) rfl fun offset hoffset e he he' => ?_
  · rintro rfl
    exact hrsp (hfits.register _ hr)
  · have hlow := hfits.stack offset hoffset
    have hhigh := hsmall offset hoffset
    rw [State.pushWord_mem]
    exact Memory.store_apart _ _ _ (Or.inl ⟨by omega, by omega⟩)

namespace Parts

lemma name_of_find? (parts : Parts o f start c) {e : Symbol}
    (h : start.symbols.find? f.name = some e) : c.name = e.asm := by
  rw [parts.name_eq, parts.symbol_last, asmName, h]

lemma exists_param (parts : Parts o f start c) {k : Nat} {a : Ir.Param}
    (ha : f.params[k]? = some a) :
    ∃ r, parts.last.params[k]? = some r ∧ parts.homed.params[k]? = some r ∧ r.access = .home ∧
      r.ty = a.ty := by
  have hlast : parts.last.params = parts.homed.params := parts.grown.later.params
  have hlen : parts.homed.params.length = f.params.length := by
    obtain ⟨placements, -, -, hhomes⟩ := parts.exists_homes
    exact hhomes.length_params.trans (List.length_map _)
  have hlt : k < parts.homed.params.length := by
    rw [hlen]
    exact (List.getElem?_eq_some_iff.mp ha).1
  obtain ⟨r, hr⟩ : ∃ r, parts.homed.params[k]? = some r := ⟨_, List.getElem?_eq_getElem hlt⟩
  have hty : f.typeOf? (.param k) = some r.ty := (typed_of_homeParams parts.homes).params k r hr
  have hr' : parts.last.params[k]? = some r := by rw [hlast, hr]
  refine ⟨r, hr', hr, (parts.inv.params r (List.mem_of_getElem? hr')).1, ?_⟩
  simp only [Ir.Function.typeOf?, ha, Option.map_some, Option.some.injEq] at hty
  exact hty.symm

end Parts

/-- A caller and its callee agree on arguments. In the lines of the caller stands code in front of the
call that puts the word of every operand into its place, and after the return address has been pushed
the prologue of the callee leaves every parameter at home with the word of its operand. Offsets of
parameters have 32 bits, so that both have less than `2 ^ 28` parameters. -/
theorem arguments_agree {cg cf : Compiled} {sg sf : Session}
    (hg : (compileFunction o g).run start = .ok (cg, sg))
    (hf : (compileFunction o f).run start' = .ok (cf, sf)) (hsound : WellFormed.Sound g)
    (hcount : g.params.length < 268435456) (hcount' : f.params.length < 268435456)
    (hb : g.Reached b) (hi : i ∈ b.instrs) (hkind : i.kind = .call f.name)
    (htys : List.Forall₂ (fun x a => g.typeOf? x = some a.ty) i.operands f.params) :
    ∃ (l : Layout) (placements : List Placement) (args : List Instr) (call : Instr),
      sg.frame.layout o.target (sg.temps.saved o.target) o.maxFrame = .ok l ∧
      o.target.place (f.params.map (·.ty)) = .ok placements ∧
      (args ++ [call]).map .instr <:+: Listing.functionItems cg.code ∧ call.op = .call ∧
      (∀ e, start.symbols.find? f.name = some e → start'.symbols.find? f.name = some e →
        call.operands = [.symbol cf.code.name]) ∧
      ∀ (p : Platform) (σ : State) (ra : Word), σ.gpr .rsp = addr (σ.gpr .rbp) (-l.drop) →
        ∃ σ₁ σ₂, execAll p args σ = .ok σ₁ ∧ execAll p cf.code.prologue (σ₁.pushWord ra) = .ok σ₂ ∧
          ∀ (k : Nat) x a placement, i.operands[k]? = some x → f.params[k]? = some a →
            placements[k]? = some placement →
              ∃ v r, sg.source? x = some v ∧ sf.params[k]? = some r ∧ r.access = .home ∧ r.ty = a.ty ∧
                Arrives (σ₁.gpr .rsp) σ₁ a.ty (v.word p σ) placement.place ∧
                r.Holds σ₂ (v.word p σ) := by
  obtain ⟨parts, rfl⟩ := exists_parts hg
  obtain ⟨parts', rfl⟩ := exists_parts hf
  obtain ⟨placements, hplace, hlen, hplaced, hhomes⟩ := parts'.exists_placed hcount'
  obtain ⟨args, call, e, hlines, hop, hoperands, hcallee, hpasses⟩ :=
    parts.exists_passes hsound hcount hb hi hkind ((List.forall₂_map_right_iff).mpr htys) hplace
  refine ⟨parts.frame, placements, args, call, parts.layout, hplace, hlines, hop, fun e' he he' => ?_,
    fun p σ ra hσ => ?_⟩
  · rw [hoperands, parts'.name_of_find? he', hcallee e' he]
  obtain ⟨σ₁, hargs, hrsp, harrives⟩ := hpasses p σ hσ
  have harrives : ∀ (k : Nat) x a placement, i.operands[k]? = some x → f.params[k]? = some a →
      placements[k]? = some placement →
        ∃ v, parts.last.source? x = some v ∧
          Arrives (σ₁.gpr .rsp) σ₁ a.ty (v.word p σ) placement.place := by
    intro k x a placement hx ha hp
    rw [hrsp]
    exact harrives k x a.ty placement hx (by simp [ha]) hp
  -- the word of the operand at a position
  let words (k : Nat) : Word :=
    ((i.operands[k]?.bind parts.last.source?).map (·.word p σ)).getD 0
  have hwords {k : Nat} {x : Ir.Operand} {v : Source} (hx : i.operands[k]? = some x)
      (hv : parts.last.source? x = some v) : words k = v.word p σ := by
    simp only [words, hx, Option.bind_some, hv, Option.map_some, Option.getD_some]
  have hentered : ∀ k a placement, f.params[k]? = some a → placements[k]? = some placement →
      Arrives (addr ((σ₁.pushWord ra).gpr .rsp) 8) (σ₁.pushWord ra) a.ty (words k)
        placement.place := by
    intro k a placement ha hp
    have hlt : k < i.operands.length := by
      rw [htys.length_eq]
      exact (List.getElem?_eq_some_iff.mp ha).1
    obtain ⟨v, hv, harrived⟩ := harrives k _ a placement (List.getElem?_eq_getElem hlt) ha hp
    have hmem : (a, placement) ∈ f.params.zip placements :=
      List.mem_of_getElem? (List.getElem?_zip_eq_some.mpr ⟨ha, hp⟩)
    rw [hwords (List.getElem?_eq_getElem hlt) hv]
    exact arrives_pushWord harrived (hplaced.fits _ hmem)
      (fun h => (args_scratch (c := o.convention) h).2.1.2 rfl) (hplaced.small _ hmem) ra
  obtain ⟨σ₂, hprologue, -, hheld⟩ := parts'.exists_inFrame_held (p := p) hcount' hplace hentered
  refine ⟨σ₁, σ₂, hargs, hprologue, fun k x a placement hx ha hp => ?_⟩
  obtain ⟨v, hv, harrived⟩ := harrives k x a placement hx ha hp
  obtain ⟨r, hr, hr', haccess, hty⟩ := parts'.exists_param ha
  have hholds := hheld k (List.getElem?_eq_some_iff.mp ha).1 r hr'
  rw [hwords hx hv] at hholds
  exact ⟨v, r, hv, hr, haccess, hty, harrived, hholds⟩

/-- A call with an argument of every form, one of them on the stack. -/
def passesEach : Ir.Instr where
  kind := .call "takesEight"
  ty := .void
  operands :=
    [.param 0, .const .i64 1000000000000, .const (.float .double) 4607182418800017408, .value 0,
      .const (.int false .byte) 7, .const (.int true .word) 8, .const .i64 9,
      .const (.int false .byte) 200]

def callsTakesEight : Ir.Function where
  name := "callsTakesEight"
  params := [⟨"x", .int true .long⟩]
  blocks :=
    [{ instrs := [{ kind := .alloca, result := some 0 }, passesEach], term := { exit := .ret } }]

def takesEight : Ir.Function where
  name := "takesEight"
  params :=
    [⟨"a", .int true .long⟩, ⟨"b", .i64⟩, ⟨"c", .float .double⟩, ⟨"d", .ptr⟩,
      ⟨"e", .int false .byte⟩, ⟨"f", .int true .word⟩, ⟨"g", .i64⟩, ⟨"h", .int false .byte⟩]
  blocks := [{ term := { exit := .ret } }]

lemma exists_run_of_isOk (h : ((compileFunction o f).run start).isOk = true) :
    ∃ c s, (compileFunction o f).run start = .ok (c, s) := by
  cases hrun : (compileFunction o f).run start with
  | error e =>
    rw [hrun] at h
    cases h
  | ok r => exact ⟨r.1, r.2, rfl⟩

lemma isOk_callsTakesEight :
    ((compileFunction {} callsTakesEight).run {}).isOk = true := by
  decide +kernel

lemma isOk_takesEight : ((compileFunction {} takesEight).run {}).isOk = true := by
  decide +kernel

/-- The last argument is on top of the stack when the function is called, and in the home of the last
parameter after the prologue. -/
theorem arguments_agree_takesEight :
    ∃ cg sg cf sf l, (compileFunction {} callsTakesEight).run {} = .ok (cg, sg) ∧
      (compileFunction {} takesEight).run {} = .ok (cf, sf) ∧
      sg.frame.layout sysv (sg.temps.saved sysv) 1048576 = .ok l ∧
      ∃ args call, (args ++ [call]).map .instr <:+: Listing.functionItems cg.code ∧
        ∀ (p : Platform) (σ : State) (ra : Word), σ.gpr .rsp = addr (σ.gpr .rbp) (-l.drop) →
          ∃ σ₁ σ₂ r, execAll p args σ = .ok σ₁ ∧
            execAll p cf.code.prologue (σ₁.pushWord ra) = .ok σ₂ ∧
            σ₁.mem.load (σ₁.gpr .rsp) 8 = 200 ∧ sf.params[7]? = some r ∧ r.Holds σ₂ 200 := by
  obtain ⟨cg, sg, hg⟩ := exists_run_of_isOk isOk_callsTakesEight
  obtain ⟨cf, sf, hf⟩ := exists_run_of_isOk isOk_takesEight
  have hsound : WellFormed.Sound callsTakesEight :=
    sound_of_checkModule (m := { functions := [callsTakesEight] }) (by decide) List.mem_cons_self
  obtain ⟨l, placements, args, call, hl, hplace, hlines, -, -, hrun⟩ :=
    arguments_agree (i := passesEach) hg hf hsound (by decide) (by decide) (.entry rfl) (by decide) rfl
      (by repeat constructor)
  refine ⟨cg, sg, cf, sf, l, hg, hf, hl, args, call, hlines, fun p σ ra hσ => ?_⟩
  obtain ⟨σ₁, σ₂, hargs, hprologue, hagree⟩ := hrun p σ ra hσ
  cases hplace
  obtain ⟨v, r, hv, hr, -, -, harrives, hholds⟩ := hagree 7 _ _ _ rfl rfl rfl
  cases hv
  refine ⟨σ₁, σ₂, r, hargs, hprologue, ?_, hr, hholds⟩
  rw [← addr_zero (σ₁.gpr .rsp)]
  exact harrives

end NativeCode.Compile
