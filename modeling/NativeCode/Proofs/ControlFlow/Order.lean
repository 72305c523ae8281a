import NativeCode.ControlFlow.Order
import NativeCode.Proofs.WellFormed

/-!
# The emitted blocks

The search finishes every block it sees, each once, and sees every successor of what it finishes. So
the blocks in the order of emission are different blocks of the function, the entry first, and every
block that one of them can go to is among them.

A block that is finished when another one is seen for the first time has no way to it in one step.
So a step that goes backward in the order of emission starts from a block that was found below its
target, and the target leads to it. Where no block leads back to itself, no step goes backward.
-/

namespace NativeCode.Ir.Function

def Goes (f : Function) (b b' : Block) : Prop := b' ∈ f.blocks ∧ b'.id ∈ b.term.successors

/-- There is a way from `b` to `b'` through ends of blocks. -/
def Leads (f : Function) : Block → Block → Prop := Relation.ReflTransGen f.Goes

end NativeCode.Ir.Function

namespace NativeCode.ControlFlow

open Ir (Block Function)

variable {f : Function} {s s' s'' : Search} {b : Block}
  {descend : Block → Search → Except Failure Search}

/-! ### Steps of the search -/

lemma exploreEach_cons_cases {id : Nat} {ids : List Nat}
    (h : exploreEach f descend b (id :: ids) s = .ok s') :
    (id ∈ s.seen ∧ exploreEach f descend b ids s = .ok s') ∨
      ∃ next s₁, id ∉ s.seen ∧ next ∈ f.blocks ∧ next.id = id ∧ descend next s = .ok s₁ ∧
        exploreEach f descend b ids s₁ = .ok s' := by
  rw [exploreEach] at h
  split_ifs at h with hseen
  · exact Or.inl ⟨List.contains_iff_mem.mp hseen, h⟩
  · split at h
    · cases h
    · rename_i next hblock
      obtain ⟨s₁, hnext, h⟩ := exists_ok_of_bind h
      exact Or.inr ⟨next, s₁, fun hid => hseen (List.contains_iff_mem.mpr hid),
        List.mem_of_find?_eq_some hblock, by simpa using List.find?_some hblock, hnext, h⟩

lemma explore_succ_cases {fuel : Nat} (h : explore f (fuel + 1) b s = .ok s') :
    ∃ s₁, exploreEach f (explore f fuel) b b.term.successors.reverse
        { s with seen := b.id :: s.seen } = .ok s₁ ∧
      s' = { s₁ with finished := b :: s₁.finished } := by
  obtain ⟨s₁, hrest, h⟩ := exists_ok_of_bind h
  exact ⟨s₁, hrest, (Except.ok.inj h).symm⟩

lemma order_cases {bs : List Block} (h : order f = .ok bs) : ∃ entry s,
    f.blocks.head? = some entry ∧ explore f f.blocks.length entry {} = .ok s ∧ bs = s.finished := by
  unfold order at h
  split at h
  · cases h
  · rename_i entry rest hblocks
    obtain ⟨s, hs, h⟩ := exists_ok_of_bind h
    exact ⟨entry, s, by rw [hblocks]; rfl, hs, (Except.ok.inj h).symm⟩

/-! ### What a search adds -/

/-- The numbers that a search has seen are different numbers of blocks. -/
structure Search.Valid (f : Function) (s : Search) : Prop where
  nodup : s.seen.Nodup
  subset : s.seen ⊆ f.blocks.map (·.id)

/-- The blocks `new` that were finished between two states of a search. -/
structure Explored (f : Function) (s s' : Search) (new : List Block) : Prop where
  finished : s'.finished = new ++ s.finished
  seen : s'.seen.Perm (new.map (·.id) ++ s.seen)
  valid : s'.Valid f
  mem : ∀ b ∈ new, b ∈ f.blocks
  closed : ∀ b ∈ new, ∀ target ∈ b.term.successors, target ∈ s'.seen
  backward : new.Pairwise fun b b' => f.Goes b' b → f.Leads b b'

namespace Explored

variable {new new' : List Block}

lemma refl (h : s.Valid f) : Explored f s s [] :=
  ⟨rfl, .refl _, h, by simp, by simp, .nil⟩

lemma seen_subset (h : Explored f s s' new) : s.seen ⊆ s'.seen := fun _ hid =>
  h.seen.mem_iff.mpr (List.mem_append_right _ hid)

lemma not_mem_seen (h : Explored f s s' new) (hb : b ∈ new) : b.id ∉ s.seen := by
  have hnodup := h.seen.nodup_iff.mp h.valid.nodup
  exact fun hseen => (List.nodup_append.mp hnodup).2.2 b.id (List.mem_map_of_mem hb) b.id hseen rfl

lemma trans (h : Explored f s s' new) (h' : Explored f s' s'' new') :
    Explored f s s'' (new' ++ new) where
  finished := by rw [h'.finished, h.finished, List.append_assoc]
  seen := by
    rw [List.map_append, List.append_assoc]
    exact h'.seen.trans (h.seen.append_left _)
  valid := h'.valid
  mem b hb := (List.mem_append.mp hb).elim (h'.mem b) (h.mem b)
  closed b hb target ht := by
    rcases List.mem_append.mp hb with hb | hb
    · exact h'.closed b hb target ht
    · exact h'.seen_subset (h.closed b hb target ht)
  backward := by
    -- what the earlier blocks can go to had been seen before the later ones were
    refine List.pairwise_append.mpr ⟨h'.backward, h.backward, fun b hb b' hb' hgoes => ?_⟩
    exact absurd (h.closed b' hb' b.id hgoes.2) (h'.not_mem_seen hb)

end Explored

lemma Search.Valid.mem_of_length_le (h : s.Valid f) (hlen : f.blocks.length ≤ s.seen.length)
    (hb : b ∈ f.blocks) : b.id ∈ s.seen := by
  by_contra hid
  have hnodup : (b.id :: s.seen).Nodup := List.nodup_cons.mpr ⟨hid, h.nodup⟩
  have hsubset : b.id :: s.seen ⊆ f.blocks.map (·.id) :=
    List.cons_subset.mpr ⟨List.mem_map_of_mem hb, h.subset⟩
  have hle := (List.subperm_of_subset hnodup hsubset).length_le
  rw [List.length_cons, List.length_map] at hle
  omega

/-- What is assumed of the search below one block. -/
private def Descends (f : Function) (n : Nat) (descend : Block → Search → Except Failure Search) :
    Prop :=
  ∀ b s s', b ∈ f.blocks → b.id ∉ s.seen → s.Valid f → n ≤ s.seen.length → descend b s = .ok s' →
    ∃ new, Explored f s s' (b :: new) ∧ ∀ b' ∈ new, f.Leads b b'

lemma explored_of_exploreEach {n : Nat} (hdescend : Descends f n descend) {ids : List Nat}
    (hs : s.Valid f) (hn : n ≤ s.seen.length) (h : exploreEach f descend b ids s = .ok s') :
    ∃ new, Explored f s s' new ∧ (∀ id ∈ ids, id ∈ s'.seen) ∧
      ∀ b' ∈ new, ∃ next ∈ f.blocks, next.id ∈ ids ∧ f.Leads next b' := by
  induction ids generalizing s with
  | nil =>
    cases h
    exact ⟨[], .refl hs, by simp, by simp⟩
  | cons id ids ih =>
    rcases exploreEach_cons_cases h with ⟨hseen, h⟩ | ⟨next, s₁, hseen, hmem, hid, hnext, h⟩
    · obtain ⟨new, hnew, hids, hleads⟩ := ih hs hn h
      have hid := hnew.seen_subset hseen
      refine ⟨new, hnew, List.forall_mem_cons.mpr ⟨hid, hids⟩, fun b' hb' => ?_⟩
      obtain ⟨next, hnext, hin, hlead⟩ := hleads b' hb'
      exact ⟨next, hnext, List.mem_cons_of_mem _ hin, hlead⟩
    · obtain ⟨new, hnew, hbelow⟩ := hdescend next s s₁ hmem (hid ▸ hseen) hs hn hnext
      have hlen : n ≤ s₁.seen.length := by
        rw [hnew.seen.length_eq, List.length_append]
        omega
      obtain ⟨new', hnew', hids, hleads⟩ := ih hnew.valid hlen h
      refine ⟨_, hnew.trans hnew', List.forall_mem_cons.mpr ⟨?_, hids⟩, fun b' hb' => ?_⟩
      · refine hnew'.seen_subset (hnew.seen.mem_iff.mpr (List.mem_append_left _ ?_))
        rw [← hid]
        exact List.mem_map_of_mem List.mem_cons_self
      · rcases List.mem_append.mp hb' with hb' | hb'
        · obtain ⟨next, hnext, hin, hlead⟩ := hleads b' hb'
          exact ⟨next, hnext, List.mem_cons_of_mem _ hin, hlead⟩
        · refine ⟨next, hmem, hid ▸ List.mem_cons_self, ?_⟩
          rcases List.mem_cons.mp hb' with rfl | hb'
          · exact .refl
          · exact hbelow b' hb'

/-- The search below a block finishes it last, and the block leads to all that is finished before.
What is left of the depth is enough for the blocks that have not been seen. -/
theorem explored_of_explore {fuel : Nat} (hb : b ∈ f.blocks) (hid : b.id ∉ s.seen) (hs : s.Valid f)
    (hfuel : f.blocks.length ≤ fuel + s.seen.length) (h : explore f fuel b s = .ok s') :
    ∃ new, Explored f s s' (b :: new) ∧ ∀ b' ∈ new, f.Leads b b' := by
  induction fuel generalizing b s s' with
  | zero => exact absurd (hs.mem_of_length_le (by omega) hb) hid
  | succ fuel ih =>
    have hs₁ : Search.Valid f { s with seen := b.id :: s.seen } :=
      ⟨List.nodup_cons.mpr ⟨hid, hs.nodup⟩,
        List.cons_subset.mpr ⟨List.mem_map_of_mem hb, hs.subset⟩⟩
    have hdescends : Descends f (s.seen.length + 1) (explore f fuel) := fun b s s' hb hid hs hn h =>
      ih hb hid hs (by omega) h
    obtain ⟨s₂, hrest, rfl⟩ := explore_succ_cases h
    obtain ⟨new, hnew, hids, hnext⟩ := explored_of_exploreEach hdescends hs₁ le_rfl hrest
    have hleads : ∀ b' ∈ new, f.Leads b b' := by
      intro b' hb'
      obtain ⟨next, hmem, hid, hlead⟩ := hnext b' hb'
      exact .head ⟨hmem, List.mem_reverse.mp hid⟩ hlead
    refine ⟨new, ⟨?_, ?_, ⟨hnew.valid.nodup, hnew.valid.subset⟩, ?_, ?_, ?_⟩, hleads⟩
    · exact congrArg (b :: ·) hnew.finished
    · exact hnew.seen.trans List.perm_middle
    · exact List.forall_mem_cons.mpr ⟨hb, hnew.mem⟩
    · refine List.forall_mem_cons.mpr ⟨fun target ht => hids target ?_, hnew.closed⟩
      exact List.mem_reverse.mpr ht
    · exact List.pairwise_cons.mpr ⟨fun b' hb' _ => hleads b' hb', hnew.backward⟩

/-! ### A function whose targets exist has an order -/

lemma exists_exploreEach (hdescend : ∀ b ∈ f.blocks, ∀ s, ∃ s', descend b s = .ok s')
    {ids : List Nat} (hids : ∀ id ∈ ids, id ∈ f.blocks.map (·.id)) (s : Search) :
    ∃ s', exploreEach f descend b ids s = .ok s' := by
  induction ids generalizing s with
  | nil => exact ⟨s, rfl⟩
  | cons id ids ih =>
    obtain ⟨hid, hids⟩ := List.forall_mem_cons.mp hids
    rw [exploreEach]
    split_ifs with hseen
    · exact ih hids s
    · cases hblock : f.block? id with
      | none =>
        obtain ⟨b', hb', rfl⟩ := List.mem_map.mp hid
        exact absurd (List.find?_eq_none.mp hblock b' hb') (by simp)
      | some next =>
        obtain ⟨s₁, hs₁⟩ := hdescend next (List.mem_of_find?_eq_some hblock) s
        obtain ⟨s', hs'⟩ := ih hids s₁
        refine ⟨s', ?_⟩
        simp only [hs₁]
        exact hs'

lemma exists_explore
    (htargets : ∀ b ∈ f.blocks, ∀ id ∈ b.term.successors, id ∈ f.blocks.map (·.id)) (fuel : Nat) :
    ∀ b ∈ f.blocks, ∀ s, ∃ s', explore f fuel b s = .ok s' := by
  induction fuel with
  | zero => exact fun b _ s => ⟨s, rfl⟩
  | succ fuel ih =>
    intro b hb s
    obtain ⟨s', hs'⟩ := exists_exploreEach (b := b) ih
      (fun id hid => htargets b hb id (List.mem_reverse.mp hid)) { s with seen := b.id :: s.seen }
    refine ⟨{ s' with finished := b :: s'.finished }, ?_⟩
    rw [explore, hs']
    rfl

/-- A function with blocks whose targets exist has an order of emission. -/
theorem exists_order (hblocks : f.blocks ≠ [])
    (htargets : ∀ b ∈ f.blocks, ∀ id ∈ b.term.successors, id ∈ f.blocks.map (·.id)) :
    ∃ bs, order f = .ok bs := by
  cases hf : f.blocks with
  | nil => exact absurd hf hblocks
  | cons entry rest =>
    obtain ⟨s, hs⟩ := exists_explore htargets f.blocks.length entry (by simp [hf]) {}
    rw [hf] at hs
    refine ⟨s.finished, ?_⟩
    rw [order, hf]
    simp only [hs]
    rfl

/-- Different blocks of a function from its entry on, with all that they can go to. A block that
another one goes back to leads to it. -/
structure Ordered (f : Function) (bs : List Block) : Prop where
  head : bs.head? = f.blocks.head?
  nodup : (bs.map (·.id)).Nodup
  mem : ∀ b ∈ bs, b ∈ f.blocks
  closed : ∀ b ∈ bs, ∀ target ∈ b.term.successors, target ∈ bs.map (·.id)
  reached : ∀ b ∈ bs, ∀ entry, f.blocks.head? = some entry → f.Leads entry b
  backward : bs.Pairwise fun b b' => f.Goes b' b → f.Leads b b'

/-- The order of emission starts with the entry and has all blocks that can be reached. -/
theorem ordered_of_order {bs : List Block} (h : order f = .ok bs) : Ordered f bs := by
  obtain ⟨entry, s, hentry, hs, rfl⟩ := order_cases h
  obtain ⟨new, hnew, hleads⟩ := explored_of_explore (s := {}) (List.mem_of_head? hentry)
    List.not_mem_nil ⟨List.nodup_nil, List.nil_subset _⟩ le_rfl hs
  have hfinished : s.finished = entry :: new := hnew.finished.trans (List.append_nil _)
  have hseen : s.seen.Perm (s.finished.map (·.id)) := by
    rw [hfinished]
    exact hnew.seen.trans (by rw [List.append_nil])
  refine ⟨by rw [hfinished, hentry]; rfl, hseen.nodup_iff.mp hnew.valid.nodup, ?_, ?_, ?_,
    hfinished ▸ hnew.backward⟩
  · rw [hfinished]
    exact hnew.mem
  · intro b hb target ht
    rw [hfinished] at hb
    exact hseen.mem_iff.mp (hnew.closed b hb target ht)
  · intro b hb b' hb'
    rw [hfinished] at hb
    cases hentry.symm.trans hb'
    rcases List.mem_cons.mp hb with rfl | hb
    · exact .refl
    · exact hleads b hb

/-! ### Steps between the emitted blocks -/

namespace Ordered

variable {bs : List Block} {b b' entry : Block}

lemma mem_iff (h : Ordered f bs) (hf : WellFormed.Sound f) (hentry : f.blocks.head? = some entry) :
    b ∈ bs ↔ f.Leads entry b := by
  refine ⟨fun hb => h.reached b hb entry hentry, fun hlead => ?_⟩
  induction hlead with
  | refl => exact List.mem_of_head? (h.head.trans hentry)
  | @tail b b' _ hgoes ih =>
    obtain ⟨b'', hb'', hid⟩ := List.mem_map.mp (h.closed b ih b'.id hgoes.2)
    rwa [← List.inj_on_of_nodup_map hf.ids (h.mem b'' hb'') hgoes.1 hid]

lemma forward_or_leads (h : Ordered f bs) (hb : b ∈ bs) (hb' : b' ∈ bs) (hgoes : f.Goes b b') :
    [b, b'].Sublist bs ∨ f.Leads b' b := by
  obtain ⟨before, after, rfl⟩ := List.append_of_mem hb
  rcases List.mem_append.mp hb' with hbefore | hafter
  · exact Or.inr ((List.pairwise_append.mp h.backward).2.2 b' hbefore b List.mem_cons_self hgoes)
  · rcases List.mem_cons.mp hafter with rfl | hafter
    · exact Or.inr .refl
    · refine Or.inl (List.sublist_append_of_sublist_right ?_)
      exact (List.singleton_sublist.mpr hafter).cons_cons b

end Ordered

/-- A function that passes the checks has an order of emission. It starts with the entry, it has each
block that can be reached once and no other block, and each step between its blocks goes forward
unless its target leads back to where it starts. So it is a topological order where no block leads
back to itself. -/
theorem exists_reversePostOrder (hf : WellFormed.checkFunction f = .ok ()) :
    ∃ entry bs, f.blocks.head? = some entry ∧ order f = .ok bs ∧ bs.head? = some entry ∧
      bs.Nodup ∧ (∀ b, b ∈ bs ↔ f.Leads entry b) ∧
      (∀ b ∈ bs, ∀ b' ∈ bs, f.Goes b b' → [b, b'].Sublist bs ∨ f.Leads b' b) ∧
      ((∀ b ∈ bs, ¬ Relation.TransGen f.Goes b b) →
        ∀ b ∈ bs, ∀ b' ∈ bs, f.Goes b b' → [b, b'].Sublist bs) := by
  have hsound := WellFormed.checkFunction_eq_ok_iff.mp hf
  obtain ⟨bs, horder⟩ := exists_order hsound.nonempty hsound.targets
  have hordered := ordered_of_order horder
  obtain ⟨entry, hentry⟩ := Option.isSome_iff_exists.mp (List.isSome_head?.mpr hsound.nonempty)
  refine ⟨entry, bs, hentry, horder, hordered.head.trans hentry, hordered.nodup.of_map _,
    fun b => hordered.mem_iff hsound hentry, fun b hb b' hb' => hordered.forward_or_leads hb hb',
    fun hacyclic b hb b' hb' hgoes => ?_⟩
  exact (hordered.forward_or_leads hb hb' hgoes).resolve_right fun hlead =>
    hacyclic b hb (.head' hgoes hlead)

/-- A loop with a way out, and a block that nothing goes to. -/
def loops : Function where
  name := "f"
  blocks := [
    { id := 4, term := { exit := .jump 7 } },
    { id := 9, term := { exit := .ret } },
    { id := 7, term := { exit := .branch 2 9, value := some (.const .bool 1) } },
    { id := 2, term := { exit := .jump 7 } },
    { id := 5, term := { exit := .jump 4 } }]

/-- The order of a loop. The step from the end of its body back to the test is the only one that does
not go forward. -/
theorem exists_reversePostOrder_loops :
    WellFormed.checkFunction loops = .ok () ∧ ∃ entry bs, loops.blocks.head? = some entry ∧
      order loops = .ok bs ∧ bs.map (·.id) = [4, 7, 2, 9] ∧
      (∀ b, b ∈ bs ↔ loops.Leads entry b) ∧
      ∀ b ∈ bs, ∀ b' ∈ bs, loops.Goes b b' → [b, b'].Sublist bs ∨ loops.Leads b' b := by
  have hcheck : WellFormed.checkFunction loops = .ok () := by decide
  obtain ⟨entry, bs, hentry, horder, -, -, hmem, hsteps, -⟩ := exists_reversePostOrder hcheck
  have hids : (order loops).toOption.map (List.map (·.id)) = some [4, 7, 2, 9] := by decide
  rw [horder] at hids
  exact ⟨hcheck, entry, bs, hentry, horder, Option.some.inj hids, hmem, hsteps⟩

end NativeCode.ControlFlow
