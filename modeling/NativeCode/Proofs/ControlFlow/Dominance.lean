import NativeCode.Proofs.ControlFlow.Order

/-!
# Dominators come first

A block is found by the search from a block that the search has not finished. So each block but the
entry has, among the blocks that come before it in the order of emission, one that goes to it, and
there is a path to it from the entry through blocks that all come before it. A block that is on every
path to it is on this one, so that it comes before it as well.
-/

namespace NativeCode.Ir.Function

/-- A path from the entry to a block, by the blocks that it leaves, the latest first. -/
inductive Path (f : Function) : List Block → Block → Prop
  | entry {b : Block} (h : f.blocks.head? = some b) : Path f [] b
  | step {bs : List Block} {b b' : Block} (h : Path f bs b) (hgoes : f.Goes b b') :
      Path f (b :: bs) b'

def Dominates (f : Function) (d b : Block) : Prop := ∀ bs, f.Path bs b → d ∈ bs

variable {f : Function} {b : Block} {path : List Block}

lemma Path.mem (h : f.Path path b) : b ∈ f.blocks := by
  cases h with
  | entry h => exact List.mem_of_head? h
  | step _ hgoes => exact hgoes.1

theorem dominates_of_head? {entry : Block} (hentry : f.blocks.head? = some entry) (hb : b ≠ entry) :
    f.Dominates entry b := by
  intro path h
  induction h with
  | entry h => exact absurd (Option.some.inj (h.symm.trans hentry)) hb
  | @step path p b hpath _ ih =>
    by_cases hp : p = entry
    · exact hp ▸ List.mem_cons_self
    · exact List.mem_cons_of_mem p (ih hp)

end NativeCode.Ir.Function

namespace NativeCode.ControlFlow

open Ir (Block Function)

variable {f : Function} {s s' : Search} {bs front back : List Block} {x : Block}

/-- Each block of a list comes after a block that goes to it, or has the property `P`. -/
private def Follows (f : Function) (P : Block → Prop) (bs : List Block) : Prop :=
  ∀ front x back, bs = front ++ x :: back → (∃ p ∈ front, f.Goes p x) ∨ P x

lemma Follows.append {P : Block → Prop} {bs' : List Block} (h : Follows f P bs)
    (h' : Follows f P bs') : Follows f P (bs ++ bs') := by
  intro front x back heq
  rcases List.append_eq_append_iff.mp heq with ⟨mid, hfront, hbs'⟩ | ⟨mid, hbs, hback⟩
  · rcases h' mid x back hbs' with ⟨p, hp, hgoes⟩ | hx
    · exact Or.inl ⟨p, hfront ▸ List.mem_append_right _ hp, hgoes⟩
    · exact Or.inr hx
  · cases mid with
    | nil =>
      rw [List.nil_append] at hback
      rcases h' [] x back hback.symm with ⟨p, hp, -⟩ | hx
      · cases hp
      · exact Or.inr hx
    | cons y mid =>
      cases hback
      exact h front x mid hbs

lemma Follows.cons {b : Block} (h : Follows f (f.Goes b) bs) :
    Follows f (· = b) (b :: bs) := by
  intro front x back heq
  cases front with
  | nil =>
    cases heq
    exact Or.inr rfl
  | cons y front =>
    cases heq
    rcases h front x back rfl with ⟨p, hp, hgoes⟩ | hgoes
    · exact Or.inl ⟨p, List.mem_cons_of_mem _ hp, hgoes⟩
    · exact Or.inl ⟨b, List.mem_cons_self, hgoes⟩

lemma follows_of_exploreEach {descend : Block → Search → Except Failure Search}
    (hdescend : ∀ b s s', descend b s = .ok s' →
      ∃ new, s'.finished = new ++ s.finished ∧ Follows f (· = b) new)
    {b : Block} {ids : List Nat} (hids : ∀ id ∈ ids, id ∈ b.term.successors)
    (h : exploreEach f descend b ids s = .ok s') :
    ∃ new, s'.finished = new ++ s.finished ∧ Follows f (f.Goes b) new := by
  induction ids generalizing s with
  | nil =>
    cases h
    exact ⟨[], rfl, fun front x back heq => absurd heq (by simp)⟩
  | cons id ids ih =>
    obtain ⟨hid, hids⟩ := List.forall_mem_cons.mp hids
    rcases exploreEach_cons_cases h with ⟨-, h⟩ | ⟨next, s₁, -, hmem, hnumber, hnext, h⟩
    · exact ih hids h
    · obtain ⟨new, hnew, hfollows⟩ := hdescend next s s₁ hnext
      obtain ⟨new', hnew', hfollows'⟩ := ih hids h
      refine ⟨new' ++ new, by rw [hnew', hnew, List.append_assoc], hfollows'.append ?_⟩
      intro front x back heq
      exact (hfollows front x back heq).imp_right fun hx : x = next =>
        hx ▸ ⟨hmem, hnumber ▸ hid⟩

lemma follows_of_explore {fuel : Nat} {b : Block} (h : explore f fuel b s = .ok s') :
    ∃ new, s'.finished = new ++ s.finished ∧ Follows f (· = b) new := by
  induction fuel generalizing b s s' with
  | zero =>
    cases h
    exact ⟨[], rfl, fun front x back heq => absurd heq (by simp)⟩
  | succ fuel ih =>
    obtain ⟨s₁, hrest, rfl⟩ := explore_succ_cases h
    obtain ⟨new, hnew, hfollows⟩ := follows_of_exploreEach (fun b s s' => ih)
      (fun id hid => List.mem_reverse.mp hid) hrest
    exact ⟨b :: new, congrArg (b :: ·) hnew, hfollows.cons⟩

/-- Each block in the order of emission is the entry, or comes after a block that goes to it. -/
theorem exists_pred_of_order (h : order f = .ok bs) (hbs : bs = front ++ x :: back) :
    (∃ p ∈ front, f.Goes p x) ∨ f.blocks.head? = some x := by
  obtain ⟨entry, s, hentry, hs, rfl⟩ := order_cases h
  obtain ⟨new, hnew, hfollows⟩ := follows_of_explore hs
  rw [List.append_nil] at hnew
  exact (hfollows front x back (hnew.symm.trans hbs)).imp_right fun hx : x = entry => hx ▸ hentry

/-- There is a path to each block through blocks that come before it. -/
theorem exists_path_of_order (h : order f = .ok bs) (hbs : bs = front ++ x :: back) :
    ∃ path, f.Path path x ∧ ∀ b ∈ path, b ∈ front := by
  -- the path to the block that goes to `x` runs through a shorter front
  induction hn : front.length using Nat.strong_induction_on generalizing front back x with
  | h n ih =>
    rcases exists_pred_of_order h hbs with ⟨p, hp, hgoes⟩ | hentry
    · obtain ⟨before, after, rfl⟩ := List.append_of_mem hp
      rw [List.append_assoc] at hbs
      obtain ⟨path, hpath, hfront⟩ :=
        ih before.length (by rw [← hn, List.length_append, List.length_cons]; omega) hbs rfl
      refine ⟨p :: path, .step hpath hgoes, List.forall_mem_cons.mpr ⟨hp, fun b hb => ?_⟩⟩
      exact List.mem_append_left _ (hfront b hb)
    · exact ⟨[], .entry hentry, by simp⟩

theorem mem_of_dominates (h : order f = .ok bs) {d : Block} (hbs : bs = front ++ x :: back)
    (hd : f.Dominates d x) : d ∈ front := by
  obtain ⟨path, hpath, hfront⟩ := exists_path_of_order h hbs
  exact hfront d (hd path hpath)

end NativeCode.ControlFlow
