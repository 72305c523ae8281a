import NativeCode.Proofs.Selection.Emission

/-!
# What the end of a block emits

Block ends emit the only jumps of a function. A jump goes to a successor of the block, or to the
epilogue if the block returns.
-/

namespace NativeCode.Selection

open Abi Machine

namespace Session

/-- The label after a return in the middle of a block. -/
def contLabel (s : Session) : String := (s.freshLabel "cont").1

def cut (s : Session) : Session := { s.release with code := #[] }

/-- The session after a return in the middle of a block. -/
def resume (s : Session) : Session := { s.cut with labels := s.labels + 1 }

end Session

/-- An instruction that can jump to a label. -/
structure Jumps (i : Instr) (l : String) : Prop where
  op : i.op = .jmp ∨ ∃ c, i.op = .jcc c
  operands : i.operands = [.label l]

/-- What the end of a block emits beside straight code. -/
inductive Leap (s : Session) (t : Ir.Terminator) (i : Instr) : Prop
  | block (id : Nat) (hid : id ∈ t.successors) (h : Jumps i (s.blockLabel id))
  | epilogue (hret : t.exit = .ret) (h : Jumps i s.epilogueLabel)
  | trap (hexit : t.exit = .unreachable) (h : i.op = .ud2)

/-- The code `is` of a block end between the sessions `s` and `s'`. -/
structure Exits (site : Site) (t : Ir.Terminator) (s s' : Session) (is : List Instr) : Prop where
  later : s.Later s'
  code : s'.code.toList = s.code.toList ++ is
  labels : s'.labels = s.labels
  returns : s'.returns = (s.returns || t.exit = .ret)
  pending : s.pending = none ∨ (∃ a b, t.exit = .branch a b) → s'.pending = none
  inv : s.Inv site.options.target → s'.Inv site.options.target
  tame : s.Inv site.options.target → ∀ i ∈ is, Tame site.options.target s' i ∨ Leap s t i

variable {site : Site} {s s' : Session} {i : Ir.Instr} {t : Ir.Terminator} {u : Unit}
  {next : Option Nat}

/-- A return in the middle of a block puts the value into its register and jumps to the epilogue. -/
theorem emits_earlyReturn (h : Yields (earlyReturn i) site s u s') :
    ∃ s₁ is, Yields (returnValue i.operands.head? i.text) site s () s₁ ∧
      Emits site { s with returns := true } s₁ is ∧ s' = s₁.push (site.exit s₁) := by
  obtain ⟨s₁, -, hvalue, rfl⟩ := earlyReturn_cases h
  obtain ⟨is, e⟩ := emits_returnValue hvalue
  exact ⟨s₁, is, hvalue, e, rfl⟩

lemma exits_pushAll {s₁ : Session} {is js : List Instr} {r : Bool} {p : Option Cond}
    (e : Emits site { s with returns := r, pending := p } s₁ is)
    (hflags : site.flagsOnly = false) (hr : r = (s.returns || t.exit = .ret))
    (hp : s.pending = none ∨ (∃ a b, t.exit = .branch a b) → p = none)
    (hjs : ∀ i ∈ js, Leap s t i) : Exits site t s (s₁.pushAll js) (is ++ js) where
  later := { e.later with }
  code := by
    simp only [Session.pushAll, Array.toList_append]
    rw [e.code, List.append_assoc]
  labels := e.labels
  returns := e.returns.trans hr
  pending h := (e.pending hflags).trans (hp h)
  inv h := { e.inv { h with } with }
  tame h i hi := by
    rcases List.mem_append.mp hi with hi | hi
    · exact Or.inl ((e.tame { h with } i hi).mono
        { Session.Later.refl s₁ with })
    · exact Or.inr (hjs i hi)

lemma leap_goto {s₁ : Session} {target : Nat}
    (hs : s₁.symbol = s.symbol) (ht : target ∈ t.successors) :
    ∀ i ∈ site.goto s₁ target next, Leap s t i := by
  intro i hi
  unfold Site.goto at hi
  split_ifs at hi
  · cases hi
  · rw [List.mem_singleton.mp hi]
    refine .block target ht ⟨Or.inl rfl, ?_⟩
    rw [Site.instr, Session.blockLabel, Session.blockLabel, hs]

lemma leap_fork {s₁ : Session} {cond : Cond} {onTrue onFalse : Nat}
    (hs : s₁.symbol = s.symbol) (ht : onTrue ∈ t.successors) (hf : onFalse ∈ t.successors) :
    ∀ i ∈ site.fork s₁ cond onTrue onFalse next, Leap s t i := by
  have hlabel : ∀ id, s₁.blockLabel id = s.blockLabel id := fun id => by
    rw [Session.blockLabel, Session.blockLabel, hs]
  intro i hi
  unfold Site.fork at hi
  split_ifs at hi
  · rw [List.mem_singleton.mp hi]
    exact .block onFalse hf ⟨Or.inr ⟨_, rfl⟩, by rw [Site.instr, hlabel]⟩
  · rcases List.mem_cons.mp hi with rfl | hi
    · exact .block onTrue ht ⟨Or.inr ⟨_, rfl⟩, by rw [Site.instr, hlabel]⟩
    · exact leap_goto hs hf i hi

lemma exits_of_branch {onTrue onFalse : Nat}
    (hflags : site.flagsOnly = false) (hexit : t.exit = .branch onTrue onFalse)
    (h : Yields (branch t.value onTrue onFalse next) site s u s') :
    ∃ is, Exits site t s s' is := by
  have ht : onTrue ∈ t.successors := by simp [Ir.Terminator.successors, Ir.Exit.successors, hexit]
  have hf : onFalse ∈ t.successors := by simp [Ir.Terminator.successors, Ir.Exit.successors, hexit]
  have hr : s.returns = (s.returns || t.exit = .ret) := by simp [hexit]
  have hnone : s.pending = none ∨ (∃ a b, t.exit = .branch a b) → (none : Option Cond) = none :=
    fun _ => rfl
  rcases branch_cases h with ⟨-, rfl⟩ | ⟨condition, -, -, ⟨cond, -, rfl⟩ | ⟨r, hpending, -, -, hv⟩⟩
  · exact ⟨_, exits_pushAll (.refl site _) hflags hr hnone (leap_goto rfl ht)⟩
  · exact ⟨_, exits_pushAll (.refl site _) hflags hr hnone (leap_fork rfl ht hf)⟩
  · rcases hv with ⟨bits, -, rfl⟩ | ⟨src, s₁, -, hsrc, rfl⟩
    · have hgoto : (if bits ≠ 0 then onTrue else onFalse) ∈ t.successors := by
        split_ifs
        · exact ht
        · exact hf
      exact ⟨_, exits_pushAll (.refl site s) hflags hr (fun _ => hpending) (leap_goto rfl hgoto)⟩
    · obtain ⟨is, e⟩ := emits_gprSource hsrc
      exact ⟨_, exits_pushAll (e.trans (.pushFlags rfl rfl)) hflags hr (fun _ => hpending)
        (leap_fork e.later.symbol ht hf)⟩

/-- The code of a block end goes to the successors of the block or to the epilogue. -/
theorem exits_of_leave (hflags : site.flagsOnly = false)
    (h : Yields (leave t next) site s u s') : ∃ is, Exits site t s s' is := by
  have keep {x : Ir.Exit} (hexit : t.exit = x) (hx : ∀ a b, x ≠ .branch a b) :
      s.pending = none ∨ (∃ a b, t.exit = .branch a b) → s.pending = none := by
    rintro (hp | ⟨a, b, hb⟩)
    · exact hp
    · exact absurd (hexit.symm.trans hb) (hx a b)
  obtain ⟨s₁, hexit, hvalue, rfl⟩ | ⟨target, hexit, rfl⟩ | ⟨onTrue, onFalse, hexit, h⟩ |
    ⟨hexit, rfl⟩ := leave_cases h
  · obtain ⟨is, e⟩ := emits_returnValue hvalue
    refine ⟨_, exits_pushAll e hflags (by simp [hexit]) (keep hexit (by simp)) fun i hi => ?_⟩
    split_ifs at hi
    · rw [List.mem_singleton.mp hi]
      refine .epilogue hexit ⟨Or.inl rfl, ?_⟩
      rw [Site.exit, Site.instr, Session.epilogueLabel, Session.epilogueLabel, e.later.symbol]
    · cases hi
  · have ht : target ∈ t.successors := by simp [Ir.Terminator.successors, Ir.Exit.successors, hexit]
    exact ⟨_, exits_pushAll (.refl site s) hflags (by simp [hexit]) (keep hexit (by simp))
      (leap_goto rfl ht)⟩
  · exact exits_of_branch hflags hexit h
  · refine ⟨_, exits_pushAll (.refl site s) hflags (by simp [hexit]) (keep hexit (by simp))
      fun i hi => ?_⟩
    split_ifs at hi
    · rw [List.mem_singleton.mp hi]
      exact .trap hexit rfl
    · cases hi

end NativeCode.Selection
