import NativeCode.Proofs.Selection.Compositional

/-!
# Selected code can be encoded

Whatever operands an instruction or a block end has, and wherever they reside, the code that is
selected for it has an encoding, and is marked with its place in the source. The judgement `Codes`
says this of a computation.
-/

namespace NativeCode.Selection

open Machine

variable {α β : Type} {P : α → Prop} {Q : β → Prop} {site : Site} {s s' s'' : Session}

/-- The code of a session grows by instructions that can be encoded and are marked with the place of
the site. -/
def Session.Gains (site : Site) (s s' : Session) : Prop :=
  ∃ is, s'.code.toList = s.code.toList ++ is ∧
    ∀ i ∈ is, i.op.accepts i.operands = true ∧ i.origin = site.origin

/-- All code that a computation emits can be encoded, and its result has property `Q`. -/
def Codes (Q : β → Prop) (x : Emit β) : Prop :=
  ∀ ⦃site s b s'⦄, Yields x site s b s' → s.Gains site s' ∧ Q b

namespace Session.Gains

lemma of_code_eq (h : s'.code = s.code) : s.Gains site s' := ⟨[], by simp [h], by simp⟩

lemma trans (h : s.Gains site s') (h' : s'.Gains site s'') : s.Gains site s'' := by
  obtain ⟨is, hcode, his⟩ := h
  obtain ⟨js, hcode', hjs⟩ := h'
  exact ⟨is ++ js, by rw [hcode', hcode, List.append_assoc], List.forall_mem_append.mpr ⟨his, hjs⟩⟩

lemma pushAll {is : List Instr}
    (h : ∀ i ∈ is, i.op.accepts i.operands = true ∧ i.origin = site.origin) :
    s.Gains site (s.pushAll is) := ⟨is, by simp [Session.pushAll], h⟩

lemma push {i : Instr} (h : i.op.accepts i.operands = true) (horigin : i.origin = site.origin) :
    s.Gains site (s.push i) := by
  rw [← Session.pushAll_singleton]
  exact pushAll (List.forall_mem_singleton.mpr ⟨h, horigin⟩)

end Session.Gains

/-! ### The steps of code selection -/

lemma codes_of_code_eq {x : Emit β}
    (h : ∀ site s b s', Yields x site s b s' → s'.code = s.code ∧ Q b) : Codes Q x := by
  intro site s b s' hrun
  obtain ⟨hcode, hb⟩ := h site s b s' hrun
  exact ⟨.of_code_eq hcode, hb⟩

lemma codes_bind {x : Emit α} {g : α → Emit β} (hx : Codes P x)
    (hg : ∀ a, P a → Codes Q (g a)) : Codes Q (x >>= g) := by
  intro site s b s'' hrun
  obtain ⟨a, s', ha, hb⟩ := yields_bind.mp hrun
  obtain ⟨hgains, hP⟩ := hx ha
  obtain ⟨hgains', hQ⟩ := hg a hP hb
  exact ⟨hgains.trans hgains', hQ⟩

lemma codes_emit {op : Opcode} {os : List Operand} (h : op.accepts os = true)
    (comment : String) : Codes ⊤ (emit op os comment) := by
  intro site s u s' hrun
  cases hrun
  exact ⟨.push h rfl, trivial⟩

lemma codes_newTemp (cls : RegClass) : Codes (fun r => r.cls = cls) (newTemp cls) :=
  codes_of_code_eq fun site s t s' hrun => by
    obtain ⟨r, -, rfl, rfl⟩ := yields_newTemp.mp hrun
    exact ⟨rfl, rfl⟩

lemma compositional_codes : Compositional {} fun _ _ _ _ _ Q x => Codes Q x where
  toFits := Setting.fits_default
  holds_pure hQ := codes_of_code_eq fun _ _ _ _ hrun => by
    obtain ⟨rfl, rfl⟩ := yields_pure.mp hrun
    exact ⟨rfl, hQ⟩
  holds_bind := codes_bind
  holds_mono hx _ _ := hx
  holds_get_bind _ hk _ s _ _ hrun := hk s trivial hrun
  holds_read_bind _ hk site _ _ _ hrun := hk site hrun
  holds_lift_bind _ hk _ _ _ _ hrun := by
    obtain ⟨a, ha, hrun⟩ := yields_lift_bind.mp hrun
    exact hk a ha hrun
  holds_data_bind hk _ _ _ _ hrun := by
    simp only [yields_get_bind, yields_lift_bind] at hrun
    obtain ⟨e, he, hrun⟩ := hrun
    exact hk _ (known_of_data trivial he) hrun
  holds_newGpr hrun := codes_newTemp .gpr hrun
  holds_newXmm hrun := codes_newTemp .xmm hrun
  holds_allocate _ := codes_of_code_eq fun _ _ _ _ hrun => by
    obtain ⟨frame, -, rfl⟩ := yields_allocate.mp hrun
    exact ⟨rfl, trivial⟩
  holds_modify hk := codes_of_code_eq fun _ _ _ _ hrun => by
    obtain rfl := yields_modify.mp hrun
    cases hk <;> exact ⟨rfl, trivial⟩
  holds_callee _ := codes_of_code_eq fun _ _ _ _ hrun => by
    simp only [callee, yields_get_bind, yields_lift_bind, yields_set_bind, yields_pure] at hrun
    obtain ⟨_, -, -, rfl⟩ := hrun
    exact ⟨rfl, fun _ _ _ => trivial⟩
  holds_emit h _ := codes_emit h _
  holds_emitCall _ := codes_emit rfl _
  holds_trap hrun := codes_emit rfl _ hrun
  holds_stop _ _ _ _ _ _ hrun := absurd hrun not_yields_stop
  holds_stopHere _ _ _ _ _ _ hrun := absurd hrun not_yields_stopHere

/-- The code of an instruction can be encoded, and is marked with its place. -/
theorem codes_instrCode (i : Ir.Instr) : Codes ⊤ (instrCode i) :=
  compositional_codes.holds_instrCode (fun _ _ _ _ _ _ _ => ⟨trivial, fun _ _ _ => trivial⟩)
    (fun _ _ => trivial) False.elim

/-- The code of a block end can be encoded, and is marked with its place. -/
theorem codes_leave (t : Ir.Terminator) (next : Option Nat) : Codes ⊤ (leave t next) :=
  compositional_codes.holds_leave (fun _ _ => trivial) False.elim next

end NativeCode.Selection
