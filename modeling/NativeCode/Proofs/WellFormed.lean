import NativeCode.Proofs.Except
import NativeCode.WellFormed

/-!
# What the checks of a module ensure

The checks pass exactly the modules that define no name twice and whose functions are sound: they have
blocks with different numbers, results with different numbers in all blocks together, and block ends
that lead to blocks of the function.
-/

namespace NativeCode.Ir

def Block.results (b : Block) : List Nat := b.instrs.filterMap (·.result)

end NativeCode.Ir

namespace NativeCode.WellFormed

open Ir

variable {name : String} {seen : List Nat} {bs : List Block}

/-- Numbers are not used twice, and targets exist. -/
structure Sound (f : Function) : Prop where
  nonempty : f.blocks ≠ []
  ids : (f.blocks.map (·.id)).Nodup
  results : (f.blocks.flatMap Block.results).Nodup
  targets : ∀ b ∈ f.blocks, ∀ target ∈ b.term.successors, target ∈ f.blocks.map (·.id)

lemma check_bind_eq_ok_iff {β : Type} {x : Except Failure Unit}
    {g : Unit → Except Failure β} {b : β} : x >>= g = .ok b ↔ x = .ok () ∧ g () = .ok b := by
  rw [bind_eq_ok_iff]
  exact ⟨fun ⟨_, h⟩ => h, fun h => ⟨(), h⟩⟩

/-- Names or numbers are not used twice, and none of them is among those that were `seen`. -/
private def Fresh {α : Type} (seen ids : List α) : Prop := ids.Nodup ∧ ids.Disjoint seen

lemma fresh_nil {α : Type} (seen : List α) : Fresh seen [] :=
  ⟨List.nodup_nil, List.disjoint_nil_left seen⟩

lemma fresh_empty_iff {α : Type} {ids : List α} : Fresh [] ids ↔ ids.Nodup :=
  and_iff_left (List.disjoint_nil_right ids)

lemma fresh_append_iff {α : Type} {seen ids ids' : List α} :
    Fresh seen (ids ++ ids') ↔ Fresh seen ids ∧ Fresh (ids.reverse ++ seen) ids' := by
  have hcomm : ids'.Disjoint ids ↔ ids.Disjoint ids' := List.disjoint_comm
  simp only [Fresh, List.nodup_append', List.disjoint_append_left, List.disjoint_append_right,
    List.disjoint_reverse_right, hcomm]
  tauto

lemma fresh_cons_iff {α : Type} {seen ids : List α} {id : α} :
    Fresh seen (id :: ids) ↔ id ∉ seen ∧ Fresh (id :: seen) ids := by
  simp only [Fresh, List.nodup_cons, List.disjoint_cons_left, List.disjoint_cons_right]
  tauto

lemma checkBlockIds_eq_ok_iff :
    checkBlockIds name seen bs = .ok () ↔ Fresh seen (bs.map (·.id)) := by
  induction bs generalizing seen with
  | nil => exact iff_of_true rfl (fresh_nil seen)
  | cons b bs ih =>
    rw [checkBlockIds, List.map_cons, fresh_cons_iff]
    split_ifs with hseen
    · simp_all [reject]
    · simp_all

lemma checkResults_eq_ok_iff {seen' : List Nat} {is : List Instr} :
    checkResults name seen is = .ok seen' ↔
      seen' = (is.filterMap (·.result)).reverse ++ seen ∧ Fresh seen (is.filterMap (·.result)) := by
  induction is generalizing seen with
  | nil => simp [checkResults, fresh_nil, eq_comm]
  | cons i is ih =>
    rw [checkResults]
    cases hi : i.result with
    | none => simp only [List.filterMap_cons_none hi, ih]
    | some id =>
      rw [List.filterMap_cons_some hi, fresh_cons_iff]
      dsimp only
      split_ifs with hseen
      · simp_all [reject]
      · rw [ih]
        simp_all

lemma checkTargets_eq_ok_iff {ids targets : List Nat} {t : Terminator} :
    checkTargets name ids t targets = .ok () ↔ ∀ target ∈ targets, target ∈ ids := by
  induction targets with
  | nil => simp [checkTargets]
  | cons target rest ih =>
    rw [checkTargets]
    split_ifs with hin <;> simp_all [reject]

lemma checkBlocks_eq_ok_iff {ids : List Nat} :
    checkBlocks name ids seen bs = .ok () ↔
      Fresh seen (bs.flatMap Block.results) ∧
        ∀ b ∈ bs, ∀ target ∈ b.term.successors, target ∈ ids := by
  induction bs generalizing seen with
  | nil => simp [checkBlocks, fresh_nil]
  | cons b bs ih =>
    rw [checkBlocks, List.flatMap_cons, fresh_append_iff, List.forall_mem_cons]
    rw [bind_eq_ok_iff]
    simp only [checkResults_eq_ok_iff, check_bind_eq_ok_iff, checkTargets_eq_ok_iff, ih]
    constructor
    · rintro ⟨seen', ⟨rfl, hresults⟩, htargets, hrest, hall⟩
      exact ⟨⟨hresults, hrest⟩, htargets, hall⟩
    · rintro ⟨⟨hresults, hrest⟩, htargets, hall⟩
      exact ⟨_, ⟨rfl, hresults⟩, htargets, hrest, hall⟩

/-- A function passes the checks if and only if it is sound. -/
theorem checkFunction_eq_ok_iff {f : Function} : checkFunction f = .ok () ↔ Sound f := by
  rw [checkFunction]
  by_cases hempty : f.blocks = []
  · refine iff_of_false (fun h => ?_) fun h => h.nonempty hempty
    rw [hempty] at h
    cases h
  · rw [if_neg (by simpa using hempty), check_bind_eq_ok_iff, checkBlockIds_eq_ok_iff,
      checkBlocks_eq_ok_iff, fresh_empty_iff, fresh_empty_iff]
    exact ⟨fun ⟨hids, hresults, htargets⟩ => ⟨hempty, hids, hresults, htargets⟩,
      fun h => ⟨h.ids, h.results, h.targets⟩⟩

lemma checkGlobals_eq_ok_iff {seen seen' : List String} {gs : List Global} :
    checkGlobals seen gs = .ok seen' ↔
      seen' = (gs.map (·.name)).reverse ++ seen ∧ Fresh seen (gs.map (·.name)) := by
  induction gs generalizing seen with
  | nil => simp [checkGlobals, fresh_nil, eq_comm]
  | cons g gs ih =>
    rw [checkGlobals, List.map_cons, fresh_cons_iff]
    split_ifs with hseen
    · simp_all [reject]
    · rw [ih]
      simp_all

lemma checkNames_eq_ok_iff {seen : List String} {fs : List Function} :
    checkNames seen fs = .ok () ↔ Fresh seen (fs.map (·.name)) := by
  induction fs generalizing seen with
  | nil => exact iff_of_true rfl (fresh_nil seen)
  | cons f fs ih =>
    rw [checkNames, List.map_cons, fresh_cons_iff]
    split_ifs with hseen
    · simp_all [reject]
    · simp_all

lemma forM_checkFunction_eq_ok_iff {fs : List Function} :
    fs.forM checkFunction = .ok () ↔ ∀ f ∈ fs, Sound f := by
  induction fs with
  | nil => exact iff_of_true rfl (by simp)
  | cons f fs ih =>
    change (checkFunction f >>= fun _ => fs.forM checkFunction) = .ok () ↔ _
    rw [check_bind_eq_ok_iff, checkFunction_eq_ok_iff, ih, List.forall_mem_cons]

/-- The names that a module defines: those of its globals and of its functions. -/
def definedNames (m : Module) : List String :=
  m.globals.map (·.name) ++ m.functions.map (·.name)

/-- A module passes the checks if and only if it defines no name twice and its functions are sound. -/
theorem checkModule_eq_ok_iff {m : Module} :
    checkModule m = .ok () ↔ (definedNames m).Nodup ∧ ∀ f ∈ m.functions, Sound f := by
  rw [checkModule, bind_eq_ok_iff, definedNames, ← fresh_empty_iff, fresh_append_iff]
  simp only [checkGlobals_eq_ok_iff, check_bind_eq_ok_iff, checkNames_eq_ok_iff,
    forM_checkFunction_eq_ok_iff]
  constructor
  · rintro ⟨seen, ⟨rfl, hglobals⟩, hnames, hsound⟩
    exact ⟨⟨hglobals, hnames⟩, hsound⟩
  · rintro ⟨⟨hglobals, hnames⟩, hsound⟩
    exact ⟨_, ⟨rfl, hglobals⟩, hnames, hsound⟩

lemma Sound.results_of_subset {f : Function} (h : Sound f) (hmem : ∀ b ∈ bs, b ∈ f.blocks)
    (hnodup : bs.Nodup) : (bs.flatMap Block.results).Nodup := by
  obtain ⟨heach, hdisjoint⟩ := List.nodup_flatMap.mp h.results
  refine List.nodup_flatMap.mpr ⟨fun b hb => heach b (hmem b hb), ?_⟩
  have : Std.Symm (Function.onFun List.Disjoint Block.results) := ⟨fun _ _ h => h.symm⟩
  exact hnodup.pairwise_of_forall_ne fun b hb b' hb' hne =>
    hdisjoint.forall (hmem b hb) (hmem b' hb') hne

end NativeCode.WellFormed
