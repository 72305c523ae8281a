import NativeCode.Compile.Module
import NativeCode.Proofs.Compile.Program
import NativeCode.Proofs.Compile.Stretches

/-!
# Types of operands

The type of an operand can be read off its function: a result has the type of the instruction that
makes it, a parameter and a literal have their own, and a global is a pointer. These are the types
that residences have while the function is compiled, because no result is made twice.
-/

namespace NativeCode.Ir

namespace Function

variable {i : Instr} {id : Nat}

def typeOf? (f : Function) : Operand → Option Ty
  | .value id =>
    ((f.blocks.flatMap (·.instrs)).find? (·.result == some id)).map Instr.resultTy
  | .param index => f.params[index]?.map (·.ty)
  | .global _ => some .ptr
  | .const ty _ => some ty

/-- Blocks that can be reached from the entry. -/
inductive Reached (f : Function) : Block → Prop
  | entry {b : Block} (h : f.blocks.head? = some b) : Reached f b
  | step {b b' : Block} (hb : Reached f b) (hmem : b' ∈ f.blocks)
      (h : b'.id ∈ b.term.successors) : Reached f b'

lemma find?_of_nodup {is : List Instr} (hnodup : (is.filterMap (·.result)).Nodup)
    (hi : i ∈ is) (hid : i.result = some id) : is.find? (·.result == some id) = some i := by
  induction is with
  | nil => cases hi
  | cons j js ih =>
    rcases List.mem_cons.mp hi with rfl | hi
    · rw [List.find?_cons_of_pos (by simp [hid])]
    · cases hj : j.result with
      | none =>
        rw [List.filterMap_cons_none hj] at hnodup
        rw [List.find?_cons_of_neg (by simp [hj]), ih hnodup hi]
      | some k =>
        rw [List.filterMap_cons_some hj] at hnodup
        have hmem : id ∈ js.filterMap (·.result) := List.mem_filterMap.mpr ⟨i, hi, hid⟩
        have hne : k ≠ id := fun h => (List.nodup_cons.mp hnodup).1 (h ▸ hmem)
        rw [List.find?_cons_of_neg (by simpa [hj] using hne), ih (List.nodup_cons.mp hnodup).2 hi]

lemma find?_result {f : Function} (hf : WellFormed.Sound f) {b : Block} (hb : b ∈ f.blocks)
    (hi : i ∈ b.instrs) (hid : i.result = some id) :
    (f.blocks.flatMap (·.instrs)).find? (·.result == some id) = some i := by
  have hnodup : ((f.blocks.flatMap (·.instrs)).filterMap (·.result)).Nodup := by
    rw [List.filterMap_flatMap]
    exact hf.results
  exact find?_of_nodup hnodup (List.mem_flatMap.mpr ⟨b, hb, hi⟩) hid

lemma typeOf?_value {f : Function} (hf : WellFormed.Sound f) {b : Block} (hb : b ∈ f.blocks)
    (hi : i ∈ b.instrs) (hid : i.result = some id) : f.typeOf? (.value id) = some i.resultTy := by
  rw [typeOf?, find?_result hf hb hi hid, Option.map_some]

end Function

end NativeCode.Ir

namespace NativeCode.Compile

open Abi Machine Selection
open Selection (Session)

variable {o : Options} {f : Ir.Function} {s s' start : Session} {c : Machine.Function}

/-- The residences of a session have the types of their operands. -/
structure Typed (f : Ir.Function) (s : Session) : Prop where
  function : s.function = some f
  params : ∀ index r, s.params[index]? = some r → f.typeOf? (.param index) = some r.ty
  values : ∀ e ∈ s.values, f.typeOf? (.value e.1) = some e.2.ty

namespace Typed

lemma typeOf?_of_reach (h : Typed f s) {x : Ir.Operand} {r : Reach} (hr : s.reach? x = some r) :
    f.typeOf? x = some r.ty := by
  cases x with
  | value id =>
    obtain ⟨res, hlookup, rfl⟩ := Option.map_eq_some_iff.mp hr
    obtain ⟨l₁, l₂, hl, -⟩ := List.lookup_eq_some_iff.mp hlookup
    exact h.values (id, res) (by rw [hl]; simp)
  | param index =>
    obtain ⟨res, hget, rfl⟩ := Option.map_eq_some_iff.mp hr
    exact h.params index res hget
  | global name =>
    cases hr
    rfl
  | const ty bits =>
    cases hr
    rfl

lemma congr (h : Typed f s) (hfunction : s'.function = s.function) (hparams : s'.params = s.params)
    (hvalues : s'.values = s.values) : Typed f s' :=
  ⟨hfunction.trans h.function, hparams ▸ h.params, hvalues ▸ h.values⟩

lemma instr (h : Typed f s) (hf : WellFormed.Sound f) {b : Ir.Block} (hb : b ∈ f.blocks)
    {i : Ir.Instr} (hi : i ∈ b.instrs) (hlater : s.Later s') {site : Site} {u : Unit}
    (hcode : Yields (instrCode i) site s u s') : Typed f s' := by
  obtain ⟨n, -, houtcome⟩ := exists_outcome hcode
  refine ⟨hlater.function.trans h.function, hlater.params ▸ h.params, ?_⟩
  generalize s'.values = vs at houtcome
  have hnew {id : Nat} {r : Residence} (hid : i.result = some id) (hr : r.ty = i.resultTy) :
      ∀ e ∈ (id, r) :: s.values, f.typeOf? (.value e.1) = some e.2.ty := by
    refine List.forall_mem_cons.mpr ⟨?_, h.values⟩
    rw [hr]
    exact Ir.Function.typeOf?_value hf hb hi hid
  cases houtcome with
  | none => exact h.values
  | home hid | address _ hid | constant _ hid => exact hnew hid rfl

end Typed

/-! ### Stretches of a function -/

lemma Homes.types {index : Nat} {ps : List (Ir.Param × Placement)} {code : List Instr}
    (h : Homes index ps s code s')
    (hps : ∀ k q, ps[k]? = some q → f.typeOf? (.param (index + k)) = some q.1.ty)
    (hs : ∀ k < index, ∀ r, s.params[k]? = some r → f.typeOf? (.param k) = some r.ty) :
    ∀ k < index + ps.length, ∀ r, s'.params[k]? = some r → f.typeOf? (.param k) = some r.ty := by
  -- a parameter that gets its home is the one at the index
  have hset {index k : Nat} {ps : List Residence} {p : Ir.Param} {d : Int} {r : Residence}
      (hindex : index < ps.length) (hty : f.typeOf? (.param index) = some p.ty)
      (hs : ∀ k < index, ∀ r, ps[k]? = some r → f.typeOf? (.param k) = some r.ty)
      (hk : k < index + 1)
      (hr : (ps.set index { access := .home, ty := p.ty, disp := d })[k]? = some r) :
      f.typeOf? (.param k) = some r.ty := by
    by_cases hki : index = k
    · subst hki
      rw [List.getElem?_set_self hindex] at hr
      cases hr
      exact hty
    · rw [List.getElem?_set_ne hki] at hr
      exact hs k (by omega) r hr
  have hshift {index : Nat} {q : Ir.Param × Placement} {ps : List (Ir.Param × Placement)}
      (hps : ∀ k p, (q :: ps)[k]? = some p → f.typeOf? (.param (index + k)) = some p.1.ty) :
      ∀ k p, ps[k]? = some p → f.typeOf? (.param (index + 1 + k)) = some p.1.ty := by
    intro k p hp
    have h := hps (k + 1) p hp
    rwa [show index + (k + 1) = index + 1 + k by omega] at h
  have hlen (index : Nat) (q : Ir.Param × Placement) (ps : List (Ir.Param × Placement)) :
      index + (q :: ps).length = index + 1 + ps.length := by
    rw [List.length_cons]
    omega
  induction h with
  | nil => simpa using hs
  | @stays index p placement d rest s s' code hd hindex hrest ih =>
    rw [hlen]
    exact ih (hshift hps) fun k hk r hr => hset hindex (hps 0 (p, placement) rfl) hs hk hr
  | @home index p placement d frame rest s s' code hd hframe hindex hrest ih =>
    rw [hlen]
    exact ih (hshift hps) fun k hk r hr => hset hindex (hps 0 (p, placement) rfl) hs hk hr

lemma typed_of_homeParams {symbol : String} {homing : List Instr}
    (h : Makes (homeParams o.target f) (start.enter f symbol) homing s) :
    Typed f { s with reads := f.reads } := by
  obtain ⟨placements, hplace, hhomes⟩ := homes_of_homeParams h
  have hfits := (place_eq_ok hplace).2
  have heq := hhomes.eq
  have hlen : (f.params.zip placements).length = f.params.length := by
    rw [List.length_zip, ← hfits.length_eq, List.length_map, Nat.min_self]
  have hcount : s.params.length = f.params.length := by
    have hstack : ∀ q ∈ f.params.zip placements, ∀ offset, q.2.place = .stack offset →
        0 ≤ offset := by
      intro q hq offset hoffset
      obtain ⟨ty, hfit⟩ := exists_fits hfits (List.of_mem_zip hq).2
      exact hfit.stack offset hoffset
    have hstart : Homed 0 (start.enter f symbol) :=
      ⟨⟨le_rfl, show (0 : Int) ≤ 2147483647 by decide⟩, fun k hk => absurd hk (Nat.not_lt_zero k)⟩
    rw [(hhomes.homed hstack hstart).2.1]
    exact List.length_map _
  have htypes := hhomes.types (f := f) (fun k q hq => ?_) (fun k hk => absurd hk (Nat.not_lt_zero k))
  · refine ⟨by rw [heq]; rfl, fun index r hr => htypes index ?_ r hr, by rw [heq]; simp [Session.enter]⟩
    have hlt : index < s.params.length := (List.getElem?_eq_some_iff.mp hr).1
    omega
  · have hparam : f.params[k]? = some q.1 := by
      rw [List.getElem?_zip_eq_some] at hq
      exact hq.1
    simp [Ir.Function.typeOf?, hparam]

lemma Stretches.typed {xs : List Stretch} (hf : WellFormed.Sound f)
    (hmem : ∀ i, .instr i ∈ xs.map (·.construct) → ∃ b ∈ f.blocks, i ∈ b.instrs)
    (h : Stretches o s xs s') (hs : Typed f s) :
    Typed f s' ∧ ∀ x ∈ xs, Typed f x.before ∧ Typed f x.after := by
  refine h.invariant hs (fun x hx hselected hbefore => ?_) fun s s' hresumes hbefore => ?_
  · have hlater := hselected.later
    have hyields := hselected.yields
    have hconstruct := List.mem_map_of_mem (f := (·.construct)) hx
    cases hx : x.construct with
    | instr i =>
      rw [hx] at hyields hconstruct
      obtain ⟨b, hb, hi⟩ := hmem i hconstruct
      exact hbefore.instr hf hb hi hlater hyields
    | term t next =>
      rw [hx] at hyields
      exact hbefore.congr hlater.function hlater.params (alike_leave hyields).values
  · obtain ⟨code, labels, rfl⟩ := hresumes
    exact hbefore.congr rfl rfl rfl

namespace Parts

variable (parts : Parts o f start c)

/-- The code of a function is made of stretches between typed sessions. -/
theorem exists_stretches (hf : WellFormed.Sound f) :
    ∃ xs, Stretches o { parts.homed with reads := f.reads } xs parts.last ∧
      xs.map (·.construct) = constructs parts.order ∧
      parts.blocks.flatMap (·.code) = xs.flatMap (·.code) ∧
      Typed f parts.last ∧ ∀ x ∈ xs, Typed f x.before ∧ Typed f x.after := by
  obtain ⟨xs, hxs, hconstructs, hcode⟩ := parts.exists_selected
  refine ⟨xs, hxs, hconstructs, hcode, ?_⟩
  refine hxs.typed hf (fun i hi => ?_) (typed_of_homeParams parts.homes)
  rw [hconstructs] at hi
  obtain ⟨b, hb, hib⟩ := mem_constructs_instr hi
  exact ⟨b, parts.ordered_order.mem b hb, hib⟩

lemma typed (hf : WellFormed.Sound f) : Typed f parts.last := by
  obtain ⟨-, -, -, -, htyped, -⟩ := parts.exists_stretches hf
  exact htyped

theorem mem_order (hf : WellFormed.Sound f) {b : Ir.Block} (h : f.Reached b) : b ∈ parts.order := by
  have hordered := parts.ordered_order
  induction h with
  | entry h =>
    rw [← hordered.head] at h
    exact List.mem_of_head? h
  | @step b b' _ hmem hsucc ih =>
    obtain ⟨b'', hb'', hid⟩ := List.mem_map.mp (hordered.closed b ih b'.id hsucc)
    have heq : b'' = b' := List.inj_on_of_nodup_map hf.ids (hordered.mem b'' hb'') hmem hid
    rwa [← heq]

end Parts

/-! ### Functions of a module -/

lemma exists_makes_of_compileFunctions {fs : List Ir.Function} {cs : List Compiled}
    (h : Makes (compileFunctions o fs) s cs s') (hf : f ∈ fs) :
    ∃ s₁ c s₂, Makes (compileFunction o f) s₁ c s₂ := by
  induction fs generalizing s cs s' with
  | nil => cases hf
  | cons g gs ih =>
    obtain ⟨c, s₁, hg, h⟩ := makes_bind.mp h
    obtain ⟨cs', s₂, hrest, -⟩ := makes_bind.mp h
    rcases List.mem_cons.mp hf with rfl | hf
    · exact ⟨s, c, s₁, hg⟩
    · exact ih hrest hf

lemma sound_of_checkModule {m : Ir.Module} (h : WellFormed.checkModule m = .ok ())
    (hf : f ∈ m.functions) : WellFormed.Sound f :=
  (WellFormed.checkModule_eq_ok_iff.mp h).2 f hf

/-- The functions of a compiled module are sound, and each of them has been compiled. -/
theorem exists_makes_of_compileModule {m : Ir.Module} {out : Output}
    (h : compileModule o m = .ok out) (hf : f ∈ m.functions) :
    WellFormed.Sound f ∧ ∃ s c s', Makes (compileFunction o f) s c s' := by
  obtain ⟨⟨listing, trace⟩, hlist, -⟩ := exists_ok_of_bind h
  obtain ⟨⟨⟩, hcheck, hlist⟩ := exists_ok_of_bind hlist
  obtain ⟨⟨symbols, listing'⟩, -, hlist⟩ := exists_ok_of_bind hlist
  obtain ⟨symbols', -, hlist⟩ := exists_ok_of_bind hlist
  obtain ⟨⟨cs, s'⟩, hcompiled, -⟩ := exists_ok_of_bind hlist
  exact ⟨sound_of_checkModule hcheck hf, exists_makes_of_compileFunctions hcompiled hf⟩

end NativeCode.Compile
