import NativeCode.Proofs.Abi.Placements
import NativeCode.Selection.Session

/-!
# Why single steps fail

The steps that code selection is composed of fail for causes of four groups. Some blame the structure
of the module, some the shape of a construct, some what is left of results and temporaries. All others
are plain: they can be met in every module and at every time. None of the steps knows a function or a
place, so that these are left to whoever calls it.
-/

namespace NativeCode

/-- The causes that blame the shape of a construct: a wrong number of operands, a result that is
missing or should not be there, a parameter that does not exist, a function without blocks. -/
def Cause.isShape : Cause → Bool
  | .functionWithoutBlocks | .functionWithoutEntry _ | .resultUnnamed | .allocaUnnamed
  | .constUnnamed | .binaryArity .. | .arity .. | .voidCallNamed _ | .retArity | .valueFromVoid
  | .conditionMissing | .paramOutOfRange _ | .paramUnknown .. => true
  | _ => false

/-- The causes that blame what is left of results, registers and numbers of temporaries. -/
def Cause.isShortage : Cause → Bool
  | .usedBeforeDefined _ | .temporariesExhausted | .noFreeRegister _ | .temporaryUnknown _ => true
  | _ => false

/-- A failure after the checks of a module does not blame its structure, and it blames the shape of a
construct only if the construct is not `shaped`. -/
def Allows (shaped : Prop) (c : Cause) : Prop :=
  c.kind ≠ .unsupportedConstruct ∧ (shaped → c.isShape = false)

/-- The causes that blame neither structure nor shape, and that are no shortages. -/
def Cause.isPlain (c : Cause) : Bool :=
  decide (c.kind ≠ .unsupportedConstruct) && !c.isShape && !c.isShortage

lemma Cause.isPlain_iff {c : Cause} :
    c.isPlain = true ↔ (∀ W, Allows W c) ∧ c.isShortage = false := by
  simp only [isPlain, Allows, Bool.and_eq_true, decide_eq_true_eq, Bool.not_eq_true']
  exact and_congr_left fun _ =>
    ⟨fun ⟨hkind, hshape⟩ _ => ⟨hkind, fun _ => hshape⟩, fun h => ⟨(h True).1, (h True).2 trivial⟩⟩

/-- A computation fails only with causes from `A`. -/
def Fails {α : Type} (A : Cause → Prop) (x : Except Failure α) : Prop :=
  ∀ e, x = .error e → A e.cause

/-- A computation fails only with causes from `A`, and names neither a function nor a place. -/
def Raises {α : Type} (A : Cause → Prop) (x : Except Failure α) : Prop :=
  ∀ e, x = .error e → A e.cause ∧ e.function = "" ∧ e.loc = {}

variable {α β : Type} {A B : Cause → Prop} {W : Prop}

section Fails

lemma fails_ok (a : α) : Fails A (.ok a : Except Failure α) := by
  rintro e ⟨⟩

lemma fails_fail {c : Cause} (h : A c) (construct : String) (loc : Source.Loc) :
    Fails A (fail c construct loc : Except Failure α) := by
  rintro e ⟨⟩
  exact h

lemma fails_bind {x : Except Failure α} {g : α → Except Failure β} (hx : Fails A x)
    (hg : ∀ a, x = .ok a → Fails A (g a)) : Fails A (x >>= g) := by
  intro e h
  cases x with
  | error e' =>
    cases h
    exact hx e rfl
  | ok a => exact hg a rfl e h

lemma fails_ite {p : Prop} [Decidable p] {c : Cause} (h : A c) (construct : String)
    (loc : Source.Loc) (a : α) : Fails A (if p then fail c construct loc else .ok a) := by
  split_ifs
  · exact fails_fail h construct loc
  · exact fails_ok a

lemma allows_of {c : Cause} (hkind : decide (c.kind = .unsupportedConstruct) = false)
    (hshape : W → c.isShape = false) : Allows W c := ⟨of_decide_eq_false hkind, hshape⟩

end Fails

section Raises

variable {x : Except Failure α}

lemma Raises.fails (hx : Raises A x) (h : ∀ c, A c → B c) : Fails B x :=
  fun e he => h _ (hx e he).1

lemma Raises.of_fails (hx : Raises A x) (h : Fails B x) : Raises B x :=
  fun e he => ⟨h e he, (hx e he).2⟩

lemma raises_ok (a : α) : Raises A (.ok a : Except Failure α) := by
  rintro e ⟨⟩

lemma raises_fail {c : Cause} (h : A c) (construct : String) :
    Raises A (fail c construct : Except Failure α) := by
  rintro e ⟨⟩
  exact ⟨h, rfl, rfl⟩

lemma raises_bind {g : α → Except Failure β} (hx : Raises A x) (hg : ∀ a, Raises A (g a)) :
    Raises A (x >>= g) := by
  intro e h
  cases x with
  | error e' =>
    cases h
    exact hx e rfl
  | ok a => exact hg a e h

end Raises

/-! ### The single steps -/

theorem Temps.raises_issue (τ : Temps) (t : Abi.Target) (cls : Machine.RegClass) :
    Raises (fun c => c = .temporariesExhausted ∨ c = .noFreeRegister cls) (τ.issue t cls) := by
  rw [issue]
  split_ifs
  · exact raises_fail (.inl rfl) _
  · cases τ.free? t cls with
    | none => exact raises_fail (.inr rfl) _
    | some r => exact raises_ok _

theorem Symbols.raises_data (s : Symbols) (name : String) :
    Raises (·.isPlain = true) (s.data name) := by
  rw [data]
  cases s.find? name with
  | none => exact raises_fail (by rfl) _
  | some e =>
    dsimp only
    split_ifs
    · exact raises_fail (by rfl) _
    · exact raises_ok _

theorem Symbols.raises_callee (s : Symbols) (name : String) :
    Raises (·.isPlain = true) (s.callee name) := by
  rw [callee]
  cases s.find? name with
  | none => exact raises_ok _
  | some e =>
    dsimp only
    split_ifs
    · exact raises_ok _
    · exact raises_fail (by rfl) _

theorem Abi.raises_place (c : Convention) (tys : List Ir.Ty) :
    Raises (·.isPlain = true) (c.target.place tys) := by
  intro e he
  obtain ⟨k, ty, -, rfl⟩ := (place_eq_error_iff c tys e).mp he
  exact ⟨rfl, rfl, rfl⟩

namespace Selection.Session

theorem raises_value (s : Session) (id : Nat) :
    Raises (· = .usedBeforeDefined id) (s.value id) := by
  rw [value]
  cases s.values.lookup id with
  | none => exact raises_fail (by rfl) _
  | some r => exact raises_ok _

lemma raises_current (s : Session) : Raises (·.isShortage = false) s.current := by
  rw [current]
  cases s.function with
  | none => exact raises_fail (by rfl) _
  | some f => exact raises_ok _

theorem raises_param (s : Session) (index : Nat) :
    Raises (·.isShortage = false) (s.param index) := by
  rw [param]
  cases s.params[index]? with
  | none => exact raises_bind s.raises_current fun _ => raises_fail (by rfl) _
  | some r => exact raises_ok _

theorem raises_allocate (s : Session) (bytes : Nat) :
    Raises (·.isPlain = true) (s.allocate bytes) := by
  refine raises_bind ?_ fun _ => raises_ok _
  rw [Frame.Needs.allocate]
  split_ifs
  · exact raises_fail (by rfl) _
  · exact raises_ok _

end Selection.Session

end NativeCode
