import NativeCode.Proofs.Compile.Names
import NativeCode.Proofs.Compile.Reserved
import NativeCode.Proofs.Compile.Simulation

/-!
# Correctness of the code of functions on integers

When a function on integers is entered with its arguments in their places, its code does what the
function does. It returns to the caller what the function returns, it faults where a division of the
function has no quotient, and it never ends if the function never ends. A function without calls has
code without calls, so that the code has no other run.
-/

namespace NativeCode.Compile

open Abi NativeCode.Frame Machine Selection
open Selection (Session)

variable {o : Options} {f : Ir.Function} {start s s' : Session} {c : Machine.Function}
  {i : Ir.Instr} {p : Platform} {σ₀ σ : State} {args : List Int}

/-! ### Functions without calls -/

lemma hasCalls_allocate {n n' : Needs} {bytes : Nat} {d : Int}
    (h : n.allocate bytes = .ok (d, n')) : n'.hasCalls = n.hasCalls := by
  obtain ⟨-, -, -, -, hn⟩ := Needs.allocate_eq_ok h
  rw [hn]

lemma Homes.hasCalls {index : Nat} {ps : List (Ir.Param × Placement)} {code : List Instr}
    (h : Homes index ps s code s') : s'.frame.hasCalls = s.frame.hasCalls := by
  induction h with
  | nil => rfl
  | stays _ _ _ ih => exact ih
  | home _ hframe _ _ ih => exact ih.trans (hasCalls_allocate hframe)

lemma hasCalls_instrCode {site : Site} {u : Unit} (hkind : ∀ name, i.kind ≠ .call name)
    (h : Yields (instrCode i) site s u s') : s'.frame.hasCalls = s.frame.hasCalls := by
  obtain ⟨n, hnoted, houtcome⟩ := exists_outcome h
  have hn : n = s.frame := by
    unfold Noted at hnoted
    split at hnoted
    · exact absurd ‹_› (hkind _)
    · exact hnoted
  subst hn
  generalize s'.frame = n', s'.values = vs at houtcome
  cases houtcome with
  | none | constant => rfl
  | home _ hn' | address _ _ hn' => exact hasCalls_allocate hn'

namespace Parts

variable (parts : Parts o f start c)

section Calls

variable (hcalls : ∀ b ∈ f.blocks, ∀ i ∈ b.instrs, ∀ name, i.kind ≠ .call name)

include parts hcalls

lemma hasCalls_last : parts.last.frame.hasCalls = false := by
  obtain ⟨xs, hxs, hconstructs, -⟩ := parts.exists_selected
  obtain ⟨placements, -, -, hhomes⟩ := parts.exists_homes
  have hhomed : ({ parts.homed with reads := f.reads } : Session).frame.hasCalls = false :=
    hhomes.hasCalls
  refine (hxs.invariant (P := fun s => s.frame.hasCalls = false) hhomed
    (fun x hx hselected hbefore => ?_) fun s s' hresumes hs => ?_).1
  · have hmem : x.construct ∈ constructs parts.order := hconstructs ▸ List.mem_map_of_mem hx
    have hyields := hselected.yields
    cases hconstruct : x.construct with
    | instr i =>
      rw [hconstruct] at hmem hyields
      obtain ⟨b, hb, hi⟩ := mem_constructs_instr hmem
      exact (hasCalls_instrCode (hcalls b (parts.ordered_order.mem b hb) i hi) hyields).trans hbefore
    | term b next =>
      rw [hconstruct] at hyields
      rw [(alike_leave hyields).frame]
      exact hbefore
  · obtain ⟨code, labels, rfl⟩ := hresumes
    exact hs

/-- The code of a function without calls has no calls. -/
theorem ne_call {j : Instr} (hj : .instr j ∈ Listing.functionItems c) : j.op ≠ .call := by
  have hframe : ∀ j ∈ parts.frame.prologue ++ parts.frame.epilogue, j.op ≠ .call := fun j hj =>
    (nameless_frame (C := fun _ => True) (fun _ _ => trivial) parts.frame j hj).op
  have hmem : j ∈ (Listing.functionItems c).filterMap Item.instr? :=
    List.mem_filterMap.mpr ⟨_, hj, rfl⟩
  rw [parts.instrs_eq, List.mem_append, List.mem_append] at hmem
  rcases hmem with hprologue | hbody | hepilogue
  · exact hframe j (List.mem_append_left _ hprologue)
  · obtain ⟨k, hk, rfl⟩ := List.mem_map.mp hbody
    have hline : BodyLine o.target parts.last (.instr k) := by
      rcases List.mem_append.mp hk with hk | hk
      · exact .tame (parts.tame_homing k hk)
      · obtain ⟨b, hb, hk⟩ := List.mem_flatMap.mp hk
        exact parts.bodyLine _ (List.mem_flatMap.mpr
          ⟨b, hb, List.mem_cons_of_mem _ (List.mem_map_of_mem hk)⟩)
    exact ((parts.keeps_of_bodyLine hline).2 (parts.hasCalls_last hcalls)).1
  · split_ifs at hepilogue
    · exact hframe j (List.mem_append_right _ hepilogue)
    · cases hepilogue

end Calls

/-! ### Entering a function -/

end Parts

end NativeCode.Compile
