import NativeCode.Proofs.Compile.Typing
import NativeCode.Proofs.Ir.Literals
import NativeCode.Proofs.Selection.Words

/-!
# Known constants are normalised

While a function that was read from a text is compiled, a known value is in the range of its type:
literals are checked when they are read, and a constant that is named after a literal keeps it. A
constant can also be named after another constant, whose value it takes over as it is. This is in
range as long as the types do not get narrower on the way.
-/

namespace NativeCode

lemma Width.zeroExtend_of_lt {w : Width} {v : Word} (hlow : 0 ≤ v.toInt)
    (hhigh : v.toInt < 2 ^ w.bits) : w.zeroExtend v = v := by
  have hnat : v.toInt = v.toNat := by
    rw [BitVec.toInt_eq_toNat_cond] at hlow ⊢
    split_ifs at hlow ⊢ with h
    · rfl
    · have := v.isLt
      omega
  have hlt : v.toNat < 2 ^ w.bits := by
    rw [hnat] at hhigh
    exact_mod_cast hhigh
  refine BitVec.eq_of_toNat_eq ?_
  rw [Width.zeroExtend, BitVec.toNat_setWidth, BitVec.toNat_setWidth, Nat.mod_eq_of_lt hlt,
    Nat.mod_eq_of_lt v.isLt]

lemma Width.signExtend_of_lt {w : Width} {v : Word}
    (hlow : -2 ^ (w.bits - 1) ≤ v.toInt) (hhigh : v.toInt < 2 ^ (w.bits - 1)) :
    w.signExtend v = v := by
  have hw : w.bits ≤ 64 := by cases w <;> decide
  have hmod : (v.toNat : Int).bmod (2 ^ w.bits) = v.toInt.bmod (2 ^ w.bits) := by
    rw [BitVec.toInt_eq_toNat_bmod]
    exact (Int.bmod_bmod_of_dvd (pow_dvd_pow 2 hw)).symm
  refine BitVec.eq_of_toInt_eq ?_
  rw [Width.signExtend, BitVec.toInt_signExtend_of_le hw, BitVec.toInt_setWidth, hmod]
  refine Int.bmod_eq_of_le ?_ ?_
  · cases w <;> simpa [Width.bits, Width.bytes] using hlow
  · cases w <;> simpa [Width.bits, Width.bytes] using hhigh

namespace Ir

/-- A value in the range of its type is extended already. -/
theorem Ty.extend_of_holds {ty : Ty} {v : Word} (h : ty.holds v = true) : ty.extend v = v := by
  cases ty with
  | int signed w =>
    by_cases hw : w = .quad
    · cases signed <;> simp [Ty.extend, hw]
    · cases signed with
      | true =>
        have hrange : -2 ^ (w.bits - 1) ≤ v.toInt ∧ v.toInt < 2 ^ (w.bits - 1) := by
          cases w <;> simp [Ty.holds, Width.bits, Width.bytes] at h hw ⊢ <;> omega
        exact Width.signExtend_of_lt hrange.1 hrange.2
      | false =>
        have hrange : 0 ≤ v.toInt ∧ v.toInt < 2 ^ w.bits := by
          cases w <;> simp [Ty.holds, Width.bits, Width.bytes] at h hw ⊢ <;> omega
        exact Width.zeroExtend_of_lt hrange.1 hrange.2
  | bool =>
    have hrange : 0 ≤ v.toInt ∧ v.toInt < 2 ^ Width.byte.bits := by
      simp [Ty.holds, Width.bits, Width.bytes] at h ⊢
      omega
    exact Width.zeroExtend_of_lt hrange.1 hrange.2
  | _ => rfl

/-- The operands of the instructions and ends of a block. -/
def Block.Uses (b : Block) (x : Operand) : Prop :=
  (∃ i ∈ b.instrs, x ∈ i.operands) ∨ b.term.value = some x

/-- Operands that are literals, or constants that are not narrowed: the range of a constant that is
named after another constant includes that of the other one. -/
inductive Plain (f : Function) : Operand → Prop
  | literal {b : Block} {ty : Ty} {bits : Word} (hb : b ∈ f.blocks)
      (hx : b.Uses (.const ty bits)) : Plain f (.const ty bits)
  | named {b : Block} {i : Instr} {id : Nat} {ty : Ty} {bits : Word} (hb : b ∈ f.blocks)
      (hi : i ∈ b.instrs) (hkind : i.kind = .const) (hid : i.result = some id)
      (hops : i.operands = [.const ty bits]) : Plain f (.value id)
  | renamed {b : Block} {i : Instr} {id id' : Nat} {ty : Ty} (hb : b ∈ f.blocks)
      (hi : i ∈ b.instrs) (hkind : i.kind = .const) (hid : i.result = some id)
      (hops : i.operands = [.value id']) (hplain : Plain f (.value id'))
      (hty : f.typeOf? (.value id') = some ty)
      (hwide : ∀ v, ty.holds v = true → i.ty.holds v = true) : Plain f (.value id)

lemma Function.InRange.of_uses {f : Function} (hf : f.InRange) {b : Block} (hb : b ∈ f.blocks)
    {x : Operand} (hx : b.Uses x) : x.InRange := by
  rcases hx with ⟨i, hi, hx⟩ | hx
  · exact ((hf b hb).instrs i hi).operands x hx
  · exact (hf b hb).term x hx

end Ir

end NativeCode

namespace NativeCode.Compile

open Ir (Plain)
open Machine Selection
open Selection (Session)

variable {o : Options} {f : Ir.Function} {s s' start : Session} {c : Machine.Function}

/-- The sessions between the constructs of a function, as far as the compilation gets. -/
def Visits (o : Options) (f : Ir.Function) (s : Session) : Prop :=
  ∃ (start : Session) (homing : List Instr) (homed : Session) (order : List Ir.Block)
    (xs : List Stretch),
    Makes (homeParams o.target f) (start.enter f (asmName o start.symbols f)) homing homed ∧
      ControlFlow.order f = .ok order ∧ xs.map (·.construct) <+: constructs order ∧
      Stretches o { homed with reads := f.reads } xs s

lemma visits_of_compileFunction {c : Compiled} (hf : WellFormed.Sound f)
    (h : Makes (compileFunction o f) start c s) : Visits o f s := by
  obtain ⟨parts, rfl⟩ := exists_parts h
  obtain ⟨xs, hxs, hconstructs, -⟩ := parts.exists_stretches hf
  exact ⟨start, parts.homing, parts.homed, parts.order, xs, parts.homes, parts.ordered,
    hconstructs ▸ List.prefix_rfl, hxs⟩

/-- The known values of a session: parameters have none, and the ones of plain results are in
range. -/
structure Normalized (f : Ir.Function) (s : Session) : Prop where
  params : ∀ r ∈ s.params, r.access = .home
  values : ∀ e ∈ s.values, e.2.access = .constant → Plain f (.value e.1) →
    e.2.ty.holds e.2.bits = true

namespace Normalized

lemma holds (h : Normalized f s) (hf : f.InRange) {x : Ir.Operand} (hx : Plain f x)
    {r : Residence} (hr : s.reach? x = some (.residence r)) (hconst : r.access = .constant) :
    r.ty.holds r.bits = true := by
  obtain ⟨id, rfl, hmem⟩ | ⟨k, -, hget⟩ | ⟨ty, bits, rfl, rfl⟩ := Session.residence_cases hr
  · exact h.values (id, r) hmem hconst hx
  · have hhome := h.params r (List.mem_of_getElem? hget)
    rw [hconst] at hhome
    cases hhome
  · cases hx with
    | literal hb hx => exact hf.of_uses hb hx

lemma constant (h : Normalized f s) (htyped : Typed f s) (hf : WellFormed.Sound f)
    (hrange : f.InRange) {b : Ir.Block} (hb : b ∈ f.blocks) {i : Ir.Instr} (hi : i ∈ b.instrs)
    (hkind : i.kind = .const) {site : Site} {u : Unit}
    (hcode : Yields (Selection.constant i) site s u s') : Normalized f s' := by
  obtain ⟨literal, id, r, bits, hops, hid, hr, hknown, rfl⟩ := constant_cases hcode
  refine ⟨h.params, List.forall_mem_cons.mpr ⟨fun _ hplain => ?_, h.values⟩⟩
  dsimp only at hplain ⊢
  -- the instruction that makes the result is this one
  have hfind := Ir.Function.find?_result hf hb hi hid
  have hunique {b' : Ir.Block} {i' : Ir.Instr} (hb' : b' ∈ f.blocks) (hi' : i' ∈ b'.instrs)
      (hid' : i'.result = some id) : i' = i :=
    Option.some.inj ((Ir.Function.find?_result hf hb' hi' hid').symm.trans hfind)
  cases hplain with
  | named hb' hi' hkind' hid' hops' =>
    cases hunique hb' hi' hid'
    rw [hops'] at hops
    cases hops
    cases hr
    cases hknown
    exact ((hrange b hb).instrs _ hi).literal hkind _ _ (by rw [hops']; exact List.mem_singleton_self _)
  | renamed hb' hi' hkind' hid' hops' hplain hty hwide =>
    cases hunique hb' hi' hid'
    rw [hops'] at hops
    cases hops
    have hrty := htyped.typeOf?_of_reach hr
    obtain rfl := Option.some.inj (hty.symm.trans hrty)
    refine hwide bits ?_
    cases r with
    | symbol name => cases hknown
    | residence r =>
      rw [Reach.known?] at hknown
      split_ifs at hknown with hconst
      cases hknown
      exact h.holds hrange hplain hr hconst

lemma instr (h : Normalized f s) (htyped : Typed f s) (hf : WellFormed.Sound f)
    (hrange : f.InRange) {b : Ir.Block} (hb : b ∈ f.blocks) {i : Ir.Instr} (hi : i ∈ b.instrs)
    (hlater : s.Later s') {site : Site} {u : Unit} (hcode : Yields (instrCode i) site s u s') :
    Normalized f s' := by
  by_cases hkind : i.kind = .const
  · rw [instrCode, hkind] at hcode
    exact h.constant htyped hf hrange hb hi hkind hcode
  · obtain ⟨n, -, houtcome⟩ := exists_outcome hcode
    refine ⟨hlater.params ▸ h.params, ?_⟩
    generalize s'.values = vs at houtcome
    cases houtcome with
    | none => exact h.values
    | home | address => exact List.forall_mem_cons.mpr ⟨by simp, h.values⟩
    | constant hconst => exact absurd hconst hkind

end Normalized

lemma Homes.access {index : Nat} {ps : List (Ir.Param × Abi.Placement)} {code : List Instr}
    (h : Homes index ps s code s') (hs : ∀ r ∈ s.params, r.access = .home) :
    ∀ r ∈ s'.params, r.access = .home := by
  have hset {params : List Residence} {index : Nat} {r : Residence}
      (hparams : ∀ r ∈ params, r.access = .home) (hr : r.access = .home) :
      ∀ r' ∈ params.set index r, r'.access = .home := by
    intro r' hr'
    rcases List.mem_or_eq_of_mem_set hr' with hr' | rfl
    · exact hparams r' hr'
    · exact hr
  induction h with
  | nil => exact hs
  | stays _ _ _ ih => exact ih (hset hs rfl)
  | home _ _ _ _ ih => exact ih (hset hs rfl)

lemma Visits.normalized (h : Visits o f s) (hf : WellFormed.Sound f) (hrange : f.InRange) :
    Normalized f s := by
  obtain ⟨start, homing, homed, order, xs, hhomes, horder, hbegins, hxs⟩ := h
  have hmem : ∀ i, .instr i ∈ xs.map (·.construct) → ∃ b ∈ f.blocks, i ∈ b.instrs := by
    intro i hi
    obtain ⟨b, hb, hib⟩ := mem_constructs_instr (hbegins.subset hi)
    exact ⟨b, (ControlFlow.ordered_of_order horder).mem b hb, hib⟩
  have htyped := (hxs.typed hf hmem (typed_of_homeParams hhomes)).2
  obtain ⟨placements, -, hplaced⟩ := homes_of_homeParams hhomes
  have hvalues : homed.values = [] := by rw [hplaced.eq]; rfl
  have hstart : Normalized f { homed with reads := f.reads } := by
    refine ⟨hplaced.access fun r hr => ?_, by simp [hvalues]⟩
    obtain ⟨-, -, rfl⟩ := List.mem_map.mp hr
    rfl
  refine (hxs.invariant hstart (fun x hx hselected hbefore => ?_) fun s s' hresumes h => ?_).1
  · have hlater := hselected.later
    have hyields := hselected.yields
    have hconstruct := List.mem_map_of_mem (f := (·.construct)) hx
    cases hcase : x.construct with
    | instr i =>
      rw [hcase] at hyields hconstruct
      obtain ⟨b, hb, hi⟩ := hmem i hconstruct
      exact hbefore.instr (htyped x hx).1 hf hrange hb hi hlater hyields
    | term t next =>
      rw [hcase] at hyields
      exact ⟨hlater.params ▸ hbefore.params, (alike_leave hyields).values ▸ hbefore.values⟩
  · obtain ⟨code, labels, rfl⟩ := hresumes
    exact { h with }

/-- While a module that was read from a text is compiled, the known values of plain operands are in
the range of their types. They are the words that homes of these types would hold. -/
theorem constant_holds_of_visits {file : Nat} {text : String} {m : Ir.Module}
    (hread : Ir.Reader.readModule file text = .ok m) (hcheck : WellFormed.checkModule m = .ok ())
    (hf : f ∈ m.functions) (hs : Visits o f s) {x : Ir.Operand} (hx : Plain f x) {r : Residence}
    (hr : s.reach? x = some (.residence r)) (hconst : r.access = .constant) :
    r.ty.holds r.bits = true ∧ r.ty.extend r.bits = r.bits := by
  have hrange := Ir.Reader.inRange_of_readModule hread f hf
  have hholds := (hs.normalized (sound_of_checkModule hcheck hf) hrange).holds hrange hx
    hr hconst
  exact ⟨hholds, Ir.Ty.extend_of_holds hholds⟩

/-! ### Constants that are named after constants -/

/-- A function that names a constant of type `ty`, names it again at type `ty'`, and returns it. -/
def renames (ty ty' : Ir.Ty) (bits : Word) : Ir.Function where
  name := "f"
  ret := ty'
  blocks := [
    { instrs := [
        { result := some 0, kind := .const, ty := ty, operands := [.const ty bits], loc := ⟨1, 3, 3⟩ },
        { id := 1, result := some 1, kind := .const, ty := ty', operands := [.value 0]
          loc := ⟨1, 4, 3⟩ }]
      term := { exit := .ret, value := some (.value 1), loc := ⟨1, 5, 3⟩ } }]

/-- A text whose second constant has a wider range than the first. -/
def widens : String :=
  "func f() -> i32 \x7b\nbb0:\n  %0 = const u8 200\n  %1 = const i32 %0\n  ret %1\n\x7d\n"

/-- A text whose second constant has a narrower range than the first. -/
def narrows : String :=
  "func f() -> u8 \x7b\nbb0:\n  %0 = const i64 300\n  %1 = const u8 %0\n  ret %1\n\x7d\n"

lemma exists_visits_renames {ty ty' : Ir.Ty} {bits : Word} (vs : List (Nat × Residence))
    (hcheck : WellFormed.checkModule { functions := [renames ty ty' bits] } = .ok ())
    (h : ((compileFunction {} (renames ty ty' bits)).run {}).toOption.map (·.2.values) = some vs) :
    ∃ s, Visits {} (renames ty ty' bits) s ∧ s.values = vs := by
  cases hrun : (compileFunction {} (renames ty ty' bits)).run {} with
  | error e => rw [hrun] at h; cases h
  | ok r =>
    rw [hrun] at h
    have hsound := sound_of_checkModule hcheck List.mem_cons_self
    exact ⟨r.2, visits_of_compileFunction (c := r.1) hsound hrun, Option.some.inj h⟩

/-- The second constant of a text that widens the first. -/
theorem constant_holds_widens :
    ∃ m f s r, Ir.Reader.readModule 1 widens = .ok m ∧ WellFormed.checkModule m = .ok () ∧
      f ∈ m.functions ∧ Visits {} f s ∧ Plain f (.value 1) ∧
      s.reach? (.value 1) = some (.residence r) ∧ r.access = .constant ∧
      r.ty.holds r.bits = true ∧ r.ty.extend r.bits = r.bits := by
  have hcheck : WellFormed.checkModule
      { functions := [renames (.int false .byte) (.int true .long) 200] } = .ok () := by
    decide +kernel
  have hread : Ir.Reader.readModule 1 widens =
      .ok { functions := [renames (.int false .byte) (.int true .long) 200] } := by decide +kernel
  obtain ⟨s, hs, hvalues⟩ := exists_visits_renames [
    (1, { access := .constant, ty := .int true .long, bits := 200 }),
    (0, { access := .constant, ty := .int false .byte, bits := 200 })] hcheck (by decide +kernel)
  have hplain : Plain (renames (.int false .byte) (.int true .long) 200) (.value 1) := by
    refine .renamed List.mem_cons_self (List.mem_cons_of_mem _ List.mem_cons_self) rfl rfl rfl
      (.named List.mem_cons_self List.mem_cons_self rfl rfl rfl) rfl fun v hv => ?_
    change (Ir.Ty.int false .byte).holds v = true at hv
    simp only [Ir.Ty.holds, Bool.and_eq_true, decide_eq_true_eq] at hv ⊢
    omega
  have hreach : s.reach? (.value 1) =
      some (.residence { access := .constant, ty := .int true .long, bits := 200 }) := by
    rw [Session.reach?, hvalues]
    rfl
  exact ⟨_, _, s, _, hread, hcheck, List.mem_cons_self, hs, hplain, hreach, rfl,
    constant_holds_of_visits hread hcheck List.mem_cons_self hs hplain hreach rfl⟩

/-- The value of a constant that is narrowed may be out of range. -/
theorem exists_narrowed_of_visits :
    ∃ m f s r, Ir.Reader.readModule 1 narrows = .ok m ∧ WellFormed.checkModule m = .ok () ∧
      f ∈ m.functions ∧ Visits {} f s ∧ s.reach? (.value 1) = some (.residence r) ∧
      r.access = .constant ∧ r.ty.holds r.bits = false ∧ r.ty.extend r.bits ≠ r.bits := by
  have hcheck : WellFormed.checkModule { functions := [renames .i64 (.int false .byte) 300] } =
      .ok () := by decide +kernel
  obtain ⟨s, hs, hvalues⟩ := exists_visits_renames [
    (1, { access := .constant, ty := .int false .byte, bits := 300 }),
    (0, { access := .constant, ty := .i64, bits := 300 })] hcheck (by decide +kernel)
  refine ⟨_, _, s, { access := .constant, ty := .int false .byte, bits := 300 }, by decide +kernel,
    hcheck, List.mem_cons_self, hs, ?_, rfl, by decide, by decide⟩
  rw [Session.reach?, hvalues]
  rfl

end NativeCode.Compile
