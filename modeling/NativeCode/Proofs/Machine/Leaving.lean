import NativeCode.Proofs.Machine.Run

/-!
# Leaving a stretch of lines

A stretch of lines is run from its start, line by line, until a jump is taken or the stretch ends.
Where the run arrives is the rest of the program from there on.
-/

namespace NativeCode.Machine

variable {l : String}

def label? : Item → Option String
  | .label l => some l
  | _ => none

lemma filterMap_label?_label (l : String) (items : List Item) :
    (Item.label l :: items).filterMap label? = l :: items.filterMap label? := rfl

lemma filterMap_label?_instr (is : List Instr) : (is.map Item.instr).filterMap label? = [] := by
  induction is with
  | nil => rfl
  | cons i is ih => exact ih

lemma seek_eq_none {items : List Item} (h : l ∉ items.filterMap label?) :
    seek l items = none := by
  induction items with
  | nil => rfl
  | cons item items ih =>
    cases item with
    | label m =>
      rw [filterMap_label?_label, List.mem_cons, not_or] at h
      rw [seek, if_neg (Ne.symm h.1), ih h.2]
    | directive text => exact ih h
    | instr i => exact ih h

/-- What follows a label is found, if no two lines hold the same label. -/
theorem seek_of_nodup {before rest : List Item}
    (h : ((before ++ .label l :: rest).filterMap label?).Nodup) :
    seek l (before ++ .label l :: rest) = some (.label l :: rest) := by
  rw [List.filterMap_append, filterMap_label?_label] at h
  have hbefore : l ∉ before.filterMap label? := fun hl =>
    List.disjoint_of_nodup_append h hl List.mem_cons_self
  rw [seek_append, seek_eq_none hbefore, seek, if_pos rfl]
  rfl

/-- A run of the stretch `lines`, which `after` follows, leaves it and arrives at `arrived`. -/
inductive Leaves (p : Platform) (items after : List Item) :
    List Item → State → List Item → State → Prop
  | fall (σ : State) : Leaves p items after [] σ after σ
  | onward {line : Item} {lines arrived : List Item} {σ σ₁ σ' : State}
      (h : Step p items (.at (line :: (lines ++ after)) σ) (.at (lines ++ after) σ₁))
      (hs : Leaves p items after lines σ₁ arrived σ') :
      Leaves p items after (line :: lines) σ arrived σ'
  | jump {line : Item} {lines arrived : List Item} {σ σ' : State}
      (h : Step p items (.at (line :: (lines ++ after)) σ) (.at arrived σ'))
      (hne : arrived ≠ lines ++ after) : Leaves p items after (line :: lines) σ arrived σ'

variable {p : Platform} {items after lines arrived : List Item} {i : Instr} {σ σ₁ σ' : State}

/-- A run that leaves a stretch of lines reaches where it arrives. -/
theorem Leaves.reaches (h : Leaves p items after lines σ arrived σ') :
    Reaches p items (.at (lines ++ after) σ) (.at arrived σ') := by
  induction h with
  | fall => exact .refl _
  | onward hstep _ ih => exact .head hstep ih
  | jump hstep _ => exact .single hstep

lemma leaves_nil_iff : Leaves p items after [] σ arrived σ' ↔ arrived = after ∧ σ' = σ := by
  constructor
  · intro h
    cases h
    exact ⟨rfl, rfl⟩
  · rintro ⟨rfl, rfl⟩
    exact .fall _

lemma leaves_cons_iff {line : Item}
    (h : ∀ d, Step p items (.at (line :: (lines ++ after)) σ) d ↔ d = .at (lines ++ after) σ₁) :
    Leaves p items after (line :: lines) σ arrived σ' ↔
      Leaves p items after lines σ₁ arrived σ' := by
  constructor
  · intro hl
    cases hl with
    | onward hstep hs =>
      cases (h _).mp hstep
      exact hs
    | jump hstep hne =>
      cases (h _).mp hstep
      exact absurd rfl hne
  · exact .onward ((h _).mpr rfl)

lemma leaves_cons_iff_seek {line : Item}
    (h : ∀ d, Step p items (.at (line :: (lines ++ after)) σ) d ↔
      (seek l items).map (.at · σ) = some d) (hl : lines.head? ≠ some (.label l)) :
    Leaves p items after (line :: lines) σ arrived σ' ↔ seek l items = some arrived ∧ σ' = σ := by
  have hstep : ∀ found τ, Step p items (.at (line :: (lines ++ after)) σ) (.at found τ) ↔
      seek l items = some found ∧ τ = σ := by
    intro found τ
    rw [h]
    constructor
    · intro hs
      obtain ⟨found', hfound, heq⟩ := Option.map_eq_some_iff.mp hs
      cases heq
      exact ⟨hfound, rfl⟩
    · rintro ⟨hfound, rfl⟩
      rw [hfound, Option.map_some]
  -- the label can only be in the next line when the stretch ends here
  have hend : ∀ found, seek l items = some found → found = lines ++ after → lines = [] := by
    intro found hfound heq
    obtain ⟨-, rest, rfl, -⟩ := exists_of_seek hfound
    cases lines with
    | nil => rfl
    | cons line lines =>
      rw [List.cons_append, List.cons.injEq] at heq
      rw [List.head?_cons, ← heq.1] at hl
      exact absurd rfl hl
  constructor
  · intro hl
    cases hl with
    | onward hs hleaves =>
      obtain ⟨hfound, rfl⟩ := (hstep _ _).mp hs
      cases hend _ hfound rfl
      obtain ⟨rfl, rfl⟩ := leaves_nil_iff.mp hleaves
      exact ⟨hfound, rfl⟩
    | jump hs hne => exact (hstep _ _).mp hs
  · rintro ⟨hfound, rfl⟩
    by_cases heq : arrived = lines ++ after
    · cases hend _ hfound heq
      subst heq
      exact .onward ((hstep _ _).mpr ⟨hfound, rfl⟩) (.fall _)
    · exact .jump ((hstep _ _).mpr ⟨hfound, rfl⟩) heq

lemma step_iff_next {d : Config} {rest : List Item} (hop : i.op ≠ .call) :
    Step p items (.at (.instr i :: rest) σ) d ↔
      next p items (.at (.instr i :: rest) σ) = some d := by
  constructor
  · intro h
    cases h with
    | next h => exact h
    | call hcall => exact absurd hcall hop
  · exact .next

lemma leaves_exec_iff (h : exec p i σ = .ok σ₁) :
    Leaves p items after (.instr i :: lines) σ arrived σ' ↔
      Leaves p items after lines σ₁ arrived σ' := by
  have hcontrol := isControl_of_exec h
  have hop : i.op ≠ .call := by
    intro hop
    rw [hop] at hcontrol
    cases hcontrol
  refine leaves_cons_iff fun d => ?_
  rw [step_iff_next hop, next_of_exec h, Option.some.injEq, eq_comm]

theorem leaves_execAll_iff {is : List Instr} (h : execAll p is σ = .ok σ₁) :
    Leaves p items after (is.map .instr ++ lines) σ arrived σ' ↔
      Leaves p items after lines σ₁ arrived σ' := by
  induction is generalizing σ with
  | nil =>
    obtain rfl : σ = σ₁ := by simpa using h
    rfl
  | cons i is ih =>
    obtain ⟨σ₂, h₁, h₂⟩ := execAll_cons_eq_ok h
    rw [List.map_cons, List.cons_append, leaves_exec_iff h₁, ih h₂]

lemma jump_of_operands (hl : i.operands = [.label l]) :
    jump items i σ = (seek l items).map (.at · σ) := by
  simp [jump, Instr.target?, hl]

theorem leaves_jmp_iff (hop : i.op = .jmp) (hl : i.operands = [.label l])
    (hlines : lines.head? ≠ some (.label l)) :
    Leaves p items after (.instr i :: lines) σ arrived σ' ↔
      seek l items = some arrived ∧ σ' = σ := by
  refine leaves_cons_iff_seek (fun d => ?_) hlines
  rw [step_iff_next (by simp [hop]), ← jump_of_operands hl]
  simp only [next, hop]

/-- A jump on a condition arrives at its label, or is passed. -/
theorem leaves_jcc_iff {c : Cond} (hop : i.op = .jcc c) (hl : i.operands = [.label l])
    (hlines : lines.head? ≠ some (.label l)) :
    Leaves p items after (.instr i :: lines) σ arrived σ' ↔
      if c.holds σ.flags then seek l items = some arrived ∧ σ' = σ
      else Leaves p items after lines σ arrived σ' := by
  have hcall : i.op ≠ .call := by simp [hop]
  by_cases hc : c.holds σ.flags = true
  · rw [if_pos hc]
    refine leaves_cons_iff_seek (fun d => ?_) hlines
    rw [step_iff_next hcall, ← jump_of_operands hl]
    simp only [next, hop, hc, if_true]
  · rw [if_neg hc]
    refine leaves_cons_iff fun d => ?_
    rw [step_iff_next hcall]
    simp [next, hop, hc, eq_comm]

lemma not_leaves_trap (hop : i.op = .ud2) :
    ¬ Leaves p items after (.instr i :: lines) σ arrived σ' := by
  have hstep : ∀ rest found τ, ¬ Step p items (.at (.instr i :: rest) σ) (.at found τ) := by
    intro rest found τ h
    rw [step_iff_next (by simp [hop]), next_of_not_isControl (by rw [hop]; rfl)] at h
    simp [exec, hop] at h
  intro h
  cases h with
  | onward h _ => exact hstep _ _ _ h
  | jump h _ => exact hstep _ _ _ h

end NativeCode.Machine
