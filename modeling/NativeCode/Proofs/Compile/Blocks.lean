import NativeCode.Proofs.Compile.Lines
import NativeCode.Proofs.ControlFlow.Order
import NativeCode.Proofs.Machine.Leaving
import NativeCode.Proofs.Selection.Residences

/-!
# The blocks of a function one after the other

What compiling blocks leaves behind: residences for results of the blocks, each once, labels for the
blocks and for what follows returns in their middle, all different, and whether some path returns.
-/

namespace NativeCode.Ir

/-- Whether a block has a return, in its middle or at its end. -/
def Block.returns (b : Block) : Bool := b.instrs.any (·.kind.isRet) || b.term.exit = .ret

lemma InstrKind.isRet_iff (k : InstrKind) : k.isRet = true ↔ k = .ret := by
  cases k <;> simp [isRet]

end NativeCode.Ir

namespace NativeCode.Compile

open Abi Machine Selection
open Selection (Session)

variable {o : Options} {t : Ir.Terminator} {is : List Ir.Instr} {b : Ir.Block} {bs : List Ir.Block}
  {next : Option Nat} {s s' : Session} {items : List Item}

/-! ### Residences -/

lemma results_cons (i : Ir.Instr) (is : List Ir.Instr) :
    (i :: is).filterMap (·.result) = i.result.toList ++ is.filterMap (·.result) := by
  cases h : i.result <;> simp [h]

theorem Lowers.adds (h : Lowers o t is s items s') :
    Session.Adds (is.filterMap (·.result)) s s' := by
  induction h with
  | nil s => exact .of_eq _ rfl
  | step hkind hi _ _ ih =>
    rw [results_cons]
    exact (adds_of_instrCode hi).trans (ih.congr rfl rfl)
  | ret _ hi _ _ _ ih =>
    rw [results_cons]
    exact (adds_of_instrCode hi).trans (ih.congr rfl rfl)

theorem LowersBlock.adds (h : LowersBlock o b next s items s') : Session.Adds b.results s s' := by
  obtain ⟨s₁, s₂, body, code, hlowers, hleave, -, rfl, -⟩ := h.lowers
  have hvalues := (alike_leave hleave).values
  exact hlowers.adds.congr rfl hvalues

theorem LowersBlocks.adds (h : LowersBlocks o bs s items s') :
    Session.Adds (bs.flatMap Ir.Block.results) s s' := by
  induction h with
  | nil s => exact .of_eq _ rfl
  | cons hb _ ih =>
    rw [List.flatMap_cons]
    exact hb.adds.trans ih

/-! ### Labels -/

lemma Lowers.labels (h : Lowers o t is s items s') :
    ∃ n, s'.labels = s.labels + n ∧ s'.symbol = s.symbol ∧ items.filterMap label? =
      (List.range' s.labels n).map fun k => localLabel s.symbol (.cont k) := by
  induction h with
  | nil s => exact ⟨0, rfl, rfl, rfl⟩
  | @step i is s s₁ s' code items _ _ he _ ih =>
    obtain ⟨n, hn, hsymbol, hitems⟩ := ih
    have hlabels : s₁.release.labels = s.labels := he.labels
    have hs : s₁.release.symbol = s.symbol := he.later.symbol
    rw [hlabels] at hn hitems
    rw [hs] at hsymbol hitems
    refine ⟨n, hn, hsymbol, ?_⟩
    rw [List.filterMap_append, filterMap_label?_instr, List.nil_append, hitems]
  | @ret i is s s₁ s' code items _ _ _ he _ ih =>
    obtain ⟨n, hn, hsymbol, hitems⟩ := ih
    have hs : s₁.symbol = s.symbol := he.later.symbol
    have hlabels : s₁.labels = s.labels := he.labels
    have hresume : s₁.resume.labels = s.labels + 1 := congrArg (· + 1) hlabels
    have hs' : s₁.resume.symbol = s.symbol := hs
    rw [hresume] at hn hitems
    rw [hs'] at hsymbol hitems
    refine ⟨n + 1, by omega, hsymbol, ?_⟩
    rw [List.filterMap_append, filterMap_label?_instr, List.nil_append, List.filterMap_cons_none rfl,
      filterMap_label?_label, hitems, contLabel_eq, hlabels, hs]
    rfl

/-- The labels of the lines of blocks: those of the blocks, and new ones in their middle. -/
structure Labelled (bs : List Ir.Block) (s s' : Session) (ls : List Local) : Prop where
  symbol : s'.symbol = s.symbol
  labels : s.labels ≤ s'.labels
  block : ∀ id, .block id ∈ ls ↔ id ∈ bs.map (·.id)
  cont : ∀ n, .cont n ∈ ls → s.labels ≤ n ∧ n < s'.labels
  epilogue : .epilogue ∉ ls
  nodup : (bs.map (·.id)).Nodup → ls.Nodup

lemma LowersBlock.labels (h : LowersBlock o b next s items s') :
    ∃ n, s'.labels = s.labels + n ∧ s'.symbol = s.symbol ∧ items.filterMap label? =
      (.block b.id :: (List.range' s.labels n).map .cont).map (localLabel s.symbol) := by
  obtain ⟨s₁, s₂, body, code, hlowers, -, hexits, rfl, rfl⟩ := h.lowers
  obtain ⟨n, hn, hsymbol, hbody⟩ := hlowers.labels
  refine ⟨n, hexits.labels.trans hn, hexits.later.symbol.trans hsymbol, ?_⟩
  rw [List.cons_append, filterMap_label?_label, List.filterMap_append, hbody,
    filterMap_label?_instr, List.append_nil, blockLabel_eq, List.map_cons, List.map_map]
  rfl

theorem LowersBlocks.exists_labelled (h : LowersBlocks o bs s items s') :
    ∃ ls, Labelled bs s s' ls ∧ items.filterMap label? = ls.map (localLabel s.symbol) := by
  induction h with
  | nil s => exact ⟨[], ⟨rfl, le_rfl, by simp, by simp, by simp, by simp⟩, rfl⟩
  | @cons b bs s s₁ s' items rest hb _ ih =>
    obtain ⟨ls, hls, hrest⟩ := ih
    obtain ⟨n, hn, hsymbol, hitems⟩ := hb.labels
    refine ⟨.block b.id :: (List.range' s.labels n).map .cont ++ ls, ?_, ?_⟩
    · refine ⟨hls.symbol.trans hsymbol, le_trans (by omega) hls.labels, ?_, ?_, ?_, ?_⟩
      · intro id
        simp [hls.block]
      · intro k hk
        have := hls.labels
        simp only [List.mem_append, List.mem_cons, reduceCtorEq, List.mem_map, List.mem_range'_1,
          Local.cont.injEq, exists_eq_right, false_or] at hk
        rcases hk with hk | hk
        · omega
        · have := hls.cont k hk
          omega
      · simp [hls.epilogue]
      · intro hnodup
        rw [List.map_cons, List.nodup_cons] at hnodup
        rw [List.cons_append, List.nodup_cons]
        refine ⟨?_, List.Nodup.append ?_ (hls.nodup hnodup.2) ?_⟩
        · simpa [hls.block] using hnodup.1
        · exact List.Nodup.map (fun _ _ h => Local.cont.inj h) List.nodup_range'
        · intro l hl hl'
          obtain ⟨k, hk, rfl⟩ := List.mem_map.mp hl
          have := hls.cont k hl'
          rw [List.mem_range'_1] at hk
          omega
    · rw [List.filterMap_append, hitems, hrest, hsymbol, List.map_append]

/-! ### Returns -/

lemma Lowers.returns (h : Lowers o t is s items s') :
    s'.returns = (s.returns || is.any (·.kind.isRet)) := by
  induction h with
  | nil s => simp
  | @step i is s s₁ s' code items hkind _ he _ ih =>
    have hret : i.kind.isRet = false := by
      rw [← Bool.not_eq_true, Ir.InstrKind.isRet_iff]
      exact hkind
    have hs : s₁.release.returns = s.returns := he.returns
    rw [ih, hs, List.any_cons, hret, Bool.false_or]
  | @ret i is s s₁ s' code items hkind _ _ he _ ih =>
    have hret : i.kind.isRet = true := (Ir.InstrKind.isRet_iff _).mpr hkind
    have hs : s₁.resume.returns = true := he.returns
    rw [ih, hs, List.any_cons, hret, Bool.true_or, Bool.or_true]

theorem LowersBlock.returns (h : LowersBlock o b next s items s') :
    s'.returns = (s.returns || b.returns) := by
  obtain ⟨s₁, s₂, body, code, hlowers, -, hexits, rfl, -⟩ := h.lowers
  have hs : s₂.cut.returns = _ := hexits.returns
  rw [hs, hlowers.returns, Ir.Block.returns, Bool.or_assoc]

theorem LowersBlocks.returns (h : LowersBlocks o bs s items s') :
    s'.returns = (s.returns || bs.any (·.returns)) := by
  induction h with
  | nil s => simp
  | cons hb _ ih => rw [ih, hb.returns, List.any_cons, Bool.or_assoc]

/-! ### One block among all -/

/-- A fused instruction is an integer comparison whose result nothing reads but the branch after it,
which goes to two blocks. -/
lemma fuses_cases {i : Ir.Instr} (h : fuses s i t = true) :
    ∃ op id onTrue onFalse, i.kind = .binary op ∧ i.result = some id ∧
      t.exit = .branch onTrue onFalse ∧ t.value = some (.value id) ∧ op.isComparison = true ∧
      i.ty.isInteger = true ∧ onTrue ≠ onFalse ∧ s.useCount id = 1 := by
  unfold fuses at h
  split at h
  case h_1 op id onTrue onFalse v hkind hid hexit hvalue =>
    simp only [Bool.and_eq_true, beq_iff_eq, bne_iff_ne] at h
    obtain ⟨⟨⟨⟨hcmp, hint⟩, rfl⟩, hne⟩, hcount⟩ := h
    exact ⟨op, v, onTrue, onFalse, hkind, hid, hexit, hvalue, hcmp, hint, hne, hcount⟩
  case h_2 => cases h

lemma exit_of_fuses {i : Ir.Instr} (h : fuses s i t = true) : ∃ a b, t.exit = .branch a b := by
  obtain ⟨-, -, onTrue, onFalse, -, -, hexit, -⟩ := fuses_cases h
  exact ⟨onTrue, onFalse, hexit⟩

lemma fuses_congr (h : s'.reads = s.reads) (i : Ir.Instr) (t : Ir.Terminator) :
    fuses s' i t = fuses s i t := by
  simp only [fuses, Session.useCount, h]

lemma Lowers.pending (h : Lowers o t is s items s') (hs : s.pending = none) :
    s'.pending = none ∨ ∃ i ∈ is, fuses s' i t = true := by
  have hcons {i : Ir.Instr} {is : List Ir.Instr} {s : Session}
      (h : s.pending = none ∨ ∃ j ∈ is, fuses s j t = true) :
      s.pending = none ∨ ∃ j ∈ i :: is, fuses s j t = true :=
    h.imp_right fun ⟨j, hj, hfuses⟩ => ⟨j, List.mem_cons_of_mem _ hj, hfuses⟩
  induction h with
  | nil s => exact Or.inl hs
  | @step i is s s₁ s' code items _ _ he hrest ih =>
    cases hfused : (is.isEmpty && fuses s i t) with
    | true =>
      rw [Bool.and_eq_true] at hfused
      have hreads : s'.reads = s.reads := hrest.grown.later.reads.trans he.later.reads
      exact Or.inr ⟨i, List.mem_cons_self, (fuses_congr hreads i t).trans hfused.2⟩
    | false => exact hcons (ih ((he.pending hfused).trans hs))
  | ret _ _ _ he _ ih => exact hcons (ih ((he.pending rfl).trans hs))

lemma LowersBlock.pending (h : LowersBlock o b next s items s') (hs : s.pending = none) :
    s'.pending = none := by
  obtain ⟨s₁, s₂, body, code, hlowers, -, hexits, rfl, -⟩ := h.lowers
  exact hexits.pending ((hlowers.pending hs).imp_right fun ⟨_, _, hfuses⟩ => exit_of_fuses hfuses)

theorem LowersBlocks.exists_split {before after : List Ir.Block}
    (h : LowersBlocks o (before ++ b :: after) s items s') (hs : s.pending = none) :
    ∃ s₁ s₂ items₁ lines items₂, Grown o.target s s₁ items₁ ∧
      Session.Adds (before.flatMap Ir.Block.results) s s₁ ∧ s₁.pending = none ∧
      LowersBlock o b (after.head?.map (·.id)) s₁ lines s₂ ∧
      LowersBlocks o after s₂ items₂ s' ∧ items = items₁ ++ (lines ++ items₂) := by
  induction before generalizing s items with
  | nil =>
    cases h with
    | @cons _ _ _ s₁ _ lines rest hb hrest =>
      exact ⟨s, s₁, [], lines, rest, .refl _ s, .of_eq _ rfl, hs, hb, hrest, rfl⟩
  | cons b' before ih =>
    rw [List.cons_append] at h
    cases h with
    | @cons _ _ _ s₁ _ lines rest hb hrest =>
      obtain ⟨s₂, s₃, items₁, lines', items₂, hgrown, hadds, hpending, h₂, h₃, rfl⟩ :=
        ih hrest (hb.pending hs)
      refine ⟨s₂, s₃, lines ++ items₁, lines', items₂, hb.grown.trans hgrown, ?_, hpending, h₂, h₃,
        by rw [List.append_assoc]⟩
      rw [List.flatMap_cons]
      exact hb.adds.trans hadds

/-! ### Parts of a function -/

namespace Parts

variable {f : Ir.Function} {start : Session} {c : Machine.Function} (parts : Parts o f start c)

lemma ordered_order : ControlFlow.Ordered f parts.order :=
  ControlFlow.ordered_of_order parts.ordered

lemma nodup_order : parts.order.Nodup := List.Nodup.of_map _ parts.ordered_order.nodup

lemma homed_eq : parts.homed =
    { start.enter f (asmName o start.symbols f) with
      frame := parts.homed.frame
      params := parts.homed.params } := by
  obtain ⟨placements, -, -, hhomes⟩ := parts.exists_homes
  exact hhomes.eq

lemma pending_homed : parts.homed.pending = none := by rw [parts.homed_eq]; rfl

lemma symbol_last : parts.last.symbol = asmName o start.symbols f := by
  rw [parts.grown.later.symbol, parts.homed_eq]
  rfl

theorem nodup_values (hf : WellFormed.Sound f) : (parts.last.values.map Prod.fst).Nodup := by
  obtain ⟨new, hnew, hvalues⟩ := parts.lowers.adds
  have hstart : parts.homed.values = [] := by rw [parts.homed_eq]; rfl
  have hresults := hf.results_of_subset parts.ordered_order.mem parts.nodup_order
  rw [hvalues, show ({ parts.homed with reads := f.reads } : Session).values = [] from hstart,
    List.map_nil, List.append_nil, ← List.nodup_reverse]
  exact hresults.sublist hnew

theorem returns_iff : parts.last.returns = true ↔ ∃ b ∈ parts.order, b.returns = true := by
  have hstart : parts.homed.returns = false := by rw [parts.homed_eq]; rfl
  rw [parts.lowers.returns, show ({ parts.homed with reads := f.reads } : Session).returns = false
    from hstart, Bool.false_or, List.any_eq_true]

end Parts

end NativeCode.Compile
