import NativeCode.Listing
import NativeCode.Proofs.Machine.Execution

/-!
# Runs of labelled code

A program is a list of lines: directives, labels and instructions. A configuration is the rest of
the program that is still to be run, with a state, or the end of the run: a return to an address, or
a fault. Labels and directives are passed over. A jump goes on at the first line that holds its
label.
-/

namespace NativeCode.Machine

/-- A point of a run. -/
inductive Config where
  /-- The lines that are still to be run, and the state. -/
  | at (rest : List Item) (σ : State)
  /-- A return to an address. -/
  | returned (address : Word) (σ : State)
  | faulted (e : Fault) (σ : State)

/-- The rest of a program from the first line on that holds a label. -/
def seek (l : String) : List Item → Option (List Item)
  | [] => none
  | .label m :: rest => if m = l then some (.label m :: rest) else seek l rest
  | _ :: rest => seek l rest

lemma seek_append (l : String) (items rest : List Item) :
    seek l (items ++ rest) = ((seek l items).map (· ++ rest)).or (seek l rest) := by
  induction items with
  | nil => rfl
  | cons item items ih =>
    cases item with
    | label m =>
      by_cases h : m = l
      · simp [seek, h]
      · simpa [seek, h] using ih
    | directive text => exact ih
    | instr i => exact ih

lemma seek_map_instr (l : String) (is : List Instr) : seek l (is.map .instr) = none := by
  induction is with
  | nil => rfl
  | cons i is ih => exact ih

lemma exists_of_seek {l : String} {items found : List Item} (h : seek l items = some found) :
    ∃ before after, found = .label l :: after ∧ items = before ++ found := by
  induction items with
  | nil => cases h
  | cons item items ih =>
    have hrest (hseek : seek l items = some found) :
        ∃ before after, found = .label l :: after ∧ item :: items = before ++ found := by
      obtain ⟨before, after, hfound, hitems⟩ := ih hseek
      exact ⟨item :: before, after, hfound, by rw [hitems, List.cons_append]⟩
    cases item with
    | label m =>
      by_cases hm : m = l
      · rw [seek, if_pos hm, Option.some.injEq] at h
        exact ⟨[], items, by rw [← h, hm], by rw [h, List.nil_append]⟩
      · rw [seek, if_neg hm] at h
        exact hrest h
    | directive text => exact hrest h
    | instr i => exact hrest h

def Instr.target? (i : Instr) : Option String :=
  match i.operands with
  | [.label l] => some l
  | _ => none

def jump (items : List Item) (i : Instr) (σ : State) : Option Config :=
  (i.target?.bind (seek · items)).map (.at · σ)

/-- The next configuration in a program. A call has none: it is up to the platform. -/
def next (p : Platform) (items : List Item) : Config → Option Config
  | .at (.instr i :: rest) σ =>
    match i.op with
    | .jmp => jump items i σ
    | .jcc c => if c.holds σ.flags then jump items i σ else some (.at rest σ)
    | .ret => some (.returned (σ.mem.load (σ.gpr .rsp) 8) (σ.setGpr .rsp (addr (σ.gpr .rsp) 8)))
    | .call => none
    | _ =>
      match exec p i σ with
      | .ok σ' => some (.at rest σ')
      | .error e => some (.faulted e σ)
  | .at (_ :: rest) σ => some (.at rest σ)
  | _ => none

/-- One step of a run. -/
inductive Step (p : Platform) (items : List Item) : Config → Config → Prop
  | next {c c' : Config} (h : next p items c = some c') : Step p items c c'
  | call {i : Instr} {f : String} {rest : List Item} {σ σ' : State} (hop : i.op = .call)
      (hargs : i.operands = [.symbol f]) (h : p.callee f σ σ') :
      Step p items (.at (.instr i :: rest) σ) (.at rest σ')

inductive Steps (p : Platform) (items : List Item) : Nat → Config → Config → Prop
  | refl (c : Config) : Steps p items 0 c c
  | head {n : Nat} {c d e : Config} (h : Step p items c d) (hs : Steps p items n d e) :
      Steps p items (n + 1) c e

/-- A run of any number of steps. -/
def Reaches (p : Platform) (items : List Item) (c d : Config) : Prop := ∃ n, Steps p items n c d

/-- A run whose every step has a property. -/
def RunsWith (p : Platform) (items : List Item) (R : Config → Config → Prop) :
    Config → Config → Prop :=
  Relation.ReflTransGen fun c d => Step p items c d ∧ R c d

variable {p : Platform} {items rest : List Item} {c d e : Config} {σ σ' : State} {i : Instr}
  {is : List Instr}

namespace Steps

lemma trans {m n : Nat} (h : Steps p items m c d) (h' : Steps p items n d e) :
    Steps p items (m + n) c e := by
  induction h with
  | refl => simpa using h'
  | @head m c d d' hstep _ ih =>
    rw [Nat.add_right_comm]
    exact head hstep (ih h')

lemma single (h : Step p items c d) : Steps p items 1 c d := head h (refl d)

end Steps

namespace Reaches

lemma refl (c : Config) : Reaches p items c c := ⟨0, .refl c⟩

lemma single (h : Step p items c d) : Reaches p items c d := ⟨1, .single h⟩

lemma trans (h : Reaches p items c d) (h' : Reaches p items d e) : Reaches p items c e := by
  obtain ⟨m, hm⟩ := h
  obtain ⟨n, hn⟩ := h'
  exact ⟨m + n, hm.trans hn⟩

lemma head (h : Step p items c d) (h' : Reaches p items d e) :
    Reaches p items c e := (single h).trans h'

end Reaches

/-- What holds at the start and is kept by every step holds wherever a run gets. -/
theorem Reaches.invariant {I : Config → Prop} (h : Reaches p items c d)
    (hstep : ∀ c d, I c → Step p items c d → I d) (hc : I c) : I d := by
  obtain ⟨n, hn⟩ := h
  induction hn with
  | refl => exact hc
  | head hs _ ih => exact ih (hstep _ _ hc hs)

/-- The instructions that can go elsewhere than to the next line. -/
def Opcode.isControl : Opcode → Bool
  | .jmp | .jcc _ | .call | .ret => true
  | _ => false

lemma next_of_not_isControl (h : i.op.isControl = false) :
    next p items (.at (.instr i :: rest) σ) =
      match exec p i σ with
      | .ok σ' => some (.at rest σ')
      | .error e => some (.faulted e σ) := by
  unfold next
  cases hop : i.op <;> simp_all [Opcode.isControl]

lemma isControl_of_exec (h : exec p i σ = .ok σ') : i.op.isControl = false := by
  cases hop : i.op <;> simp_all [exec, Opcode.isControl]

lemma next_of_exec (h : exec p i σ = .ok σ') :
    next p items (.at (.instr i :: rest) σ) = some (.at rest σ') := by
  rw [next_of_not_isControl (isControl_of_exec h), h]

theorem Steps.of_execAll (h : execAll p is σ = .ok σ') :
    Steps p items is.length (.at (is.map .instr ++ rest) σ) (.at rest σ') := by
  induction is generalizing σ with
  | nil =>
    obtain rfl : σ = σ' := by simpa using h
    exact .refl _
  | cons i is ih =>
    obtain ⟨σ₁, h₁, h₂⟩ := execAll_cons_eq_ok h
    exact .head (.next (next_of_exec h₁)) (ih h₂)

theorem Reaches.of_execAll (h : execAll p is σ = .ok σ') :
    Reaches p items (.at (is.map .instr ++ rest) σ) (.at rest σ') :=
  ⟨is.length, .of_execAll h⟩

lemma isControl_of_exec_error {e : Fault} (h : exec p i σ = .error e) (he : e ≠ .malformed) :
    i.op.isControl = false := by
  cases hop : i.op with
  | jmp | jcc | call | ret =>
    rw [exec, hop] at h
    exact absurd (Except.error.inj h).symm he
  | _ => rfl

theorem Reaches.of_execAll_error {e : Fault} (h : execAll p is σ = .error e) (he : e ≠ .malformed) :
    ∃ σ', Reaches p items (.at (is.map .instr ++ rest) σ) (.faulted e σ') := by
  induction is generalizing σ with
  | nil => cases h
  | cons i is ih =>
    cases hi : exec p i σ with
    | ok σ₁ =>
      rw [execAll_cons_ok hi] at h
      obtain ⟨σ', h'⟩ := ih h
      exact ⟨σ', .head (.next (next_of_exec hi)) h'⟩
    | error e' =>
      rw [execAll_cons_error hi] at h
      obtain rfl : e' = e := Except.error.inj h
      refine ⟨σ, .single (.next ?_)⟩
      rw [List.map_cons, List.cons_append, next_of_not_isControl (isControl_of_exec_error hi he), hi]

/-- The lines of a configuration are those of a program from some line on. -/
def Config.Within (items : List Item) : Config → Prop
  | .at rest _ => rest <:+ items
  | _ => True

lemma Config.Within.step (h : c.Within items) (hstep : Step p items c d) : d.Within items := by
  have htail {item : Item} {rest : List Item} (h : item :: rest <:+ items) : rest <:+ items :=
    (List.suffix_cons item rest).trans h
  have hjump {i : Instr} {σ : State} (h : jump items i σ = some d) : d.Within items := by
    obtain ⟨found, hfound, rfl⟩ := Option.map_eq_some_iff.mp h
    obtain ⟨l, -, hl⟩ := Option.bind_eq_some_iff.mp hfound
    obtain ⟨before, -, -, hitems⟩ := exists_of_seek hl
    exact ⟨before, hitems.symm⟩
  cases hstep with
  | call => exact htail h
  | next hnext =>
    unfold next at hnext
    split at hnext
    case h_1 i rest σ =>
      split at hnext
      case h_1 => exact hjump hnext
      case h_2 =>
        split_ifs at hnext
        · exact hjump hnext
        · cases hnext
          exact htail h
      case h_3 =>
        cases hnext
        trivial
      case h_4 => cases hnext
      case h_5 =>
        split at hnext
        · cases hnext
          exact htail h
        · cases hnext
          trivial
    case h_2 =>
      cases hnext
      exact htail h
    case h_3 => cases hnext

end NativeCode.Machine
