import NativeCode.Proofs.Compile.Routing
import NativeCode.Proofs.Compile.Typing

/-!
# The control flow of a function

The machine blocks of a function belong to its blocks, in the order of emission. Those of one block
are its pieces: all but the last one lead to the epilogue, and the last one leads where the block
does. Jumps go to blocks that are emitted, or to an epilogue that is there.
-/

namespace NativeCode.Machine

def Opcode.isJump : Opcode → Bool
  | .jmp | .jcc _ => true
  | _ => false

end NativeCode.Machine

namespace NativeCode.Temps

open Machine

/-- A machine block with its temporaries replaced. -/
def boundBlock (τ : Temps) (b : Block) : Block := { b with code := b.code.map τ.boundInstr }

end NativeCode.Temps

namespace NativeCode.Compile

open Abi Machine Selection
open Selection (Session)

/-- The machine blocks `pieces` come from the block `b`, which is emitted before the block `next`. -/
structure Group (o : Options) (last : Session) (b : Ir.Block) (next : Option Nat)
    (pieces : List Machine.Block) : Prop where
  intro ::
  pieces : ∃ s s' early final code, pieces = early ++ [⟨final.label, final.code ++ code⟩] ∧
    (early ++ [final]).head?.map (·.label) = some (last.blockLabel b.id) ∧
    Pieces o b.term b.instrs s early final ∧
    Yields (leave b.term next) (termSite o b.term) s () s' ∧
    s'.code.toList = s.code.toList ++ code ∧ (∀ i ∈ code, Straight i ∨ Leap s b.term i) ∧
    s'.Later last

/-- Machine blocks come from blocks that are emitted one after the other. -/
inductive Groups (o : Options) (last : Session) :
    List Ir.Block → List (List Machine.Block) → Prop
  | nil : Groups o last [] []
  | cons {b : Ir.Block} {bs : List Ir.Block} {g : List Machine.Block}
      {gs : List (List Machine.Block)} (h : Group o last b (bs.head?.map (·.id)) g)
      (hrest : Groups o last bs gs) : Groups o last (b :: bs) (g :: gs)

variable {o : Options} {b : Ir.Block} {bs : List Ir.Block} {next : Option Nat}
  {s s' last : Session} {items after front : List Item} {g : List Machine.Block}
  {gs : List (List Machine.Block)} {c : Machine.Function}

lemma LowersBlock.exists_group (h : LowersBlock o b next s items s') (hinv : s.Inv o.target)
    (hpending : s.pending = none) (hlast : s'.Later last) :
    ∃ g, Group o last b next g ∧ items = g.flatMap blockItems := by
  have hsymbol : last.symbol = s.symbol := hlast.symbol.trans h.grown.later.symbol
  obtain ⟨s₁, s₂, body, code, hbody, hleave, hexits, rfl, rfl⟩ := h.lowers
  have hlast₂ : s₂.Later last := (later_cut s₂).trans hlast
  have hnil : ∀ i ∈ ([] : List Instr), Straight i := by simp
  obtain ⟨early, final, hpieces, hhead, hlines⟩ :=
    hbody.exists_pieces hinv hpending (s.blockLabel b.id) hnil
  refine ⟨_, ⟨s₁, s₂, early, final, code, rfl, ?_, hpieces, hleave, hexits.code, fun i hi => ?_,
    hlast₂⟩, ?_⟩
  · rw [hhead, Session.blockLabel, Session.blockLabel, hsymbol]
  · exact (hexits.tame (hbody.grown.inv hinv) i hi).imp_left straight_of_tame
  · rw [List.map_nil, List.nil_append] at hlines
    rw [List.cons_append, ← List.cons_append, hlines]
    simp [blockItems]

theorem LowersBlocks.exists_groups (h : LowersBlocks o bs s items s') (hinv : s.Inv o.target)
    (hpending : s.pending = none) (hlast : s'.Later last) :
    ∃ gs, Groups o last bs gs ∧ items = gs.flatten.flatMap blockItems := by
  induction h with
  | nil => exact ⟨[], .nil, rfl⟩
  | cons hb hrest ih =>
    obtain ⟨g, hg, rfl⟩ := hb.exists_group hinv hpending (hrest.grown.later.trans hlast)
    obtain ⟨gs, hgs, rfl⟩ := ih (hb.grown.inv hinv) (hb.pending hpending) hlast
    exact ⟨g :: gs, .cons hg hgs, by rw [List.flatten_cons, List.flatMap_append]⟩

lemma map_instr_append_inj {is js : List Instr} {r r' : List Item}
    (hr : ∀ i, r.head? ≠ some (.instr i)) (hr' : ∀ i, r'.head? ≠ some (.instr i))
    (h : is.map Item.instr ++ r = js.map Item.instr ++ r') : is = js ∧ r = r' := by
  induction is generalizing js with
  | nil =>
    cases js with
    | nil => exact ⟨rfl, h⟩
    | cons j js =>
      rw [List.map_nil, List.nil_append] at h
      exact absurd (congrArg List.head? h) (hr j)
  | cons i is ih =>
    cases js with
    | nil =>
      rw [List.map_nil, List.nil_append] at h
      exact absurd (congrArg List.head? h).symm (hr' i)
    | cons j js =>
      rw [List.map_cons, List.map_cons, List.cons_append, List.cons_append, List.cons.injEq,
        Item.instr.injEq] at h
      obtain ⟨rfl, hrest⟩ := ih h.2
      exact ⟨by rw [h.1], hrest⟩

lemma head?_flatMap_blockItems (mbs : List Machine.Block) (i : Instr) :
    (mbs.flatMap blockItems).head? ≠ some (.instr i) := by
  cases mbs with
  | nil => simp
  | cons mb mbs => simp [blockItems]

lemma flatMap_blockItems_injective :
    Function.Injective fun mbs : List Machine.Block => mbs.flatMap blockItems := by
  intro mbs mbs' h
  induction mbs generalizing mbs' with
  | nil =>
    cases mbs' with
    | nil => rfl
    | cons mb' mbs' => cases h
  | cons mb mbs ih =>
    cases mbs' with
    | nil => cases h
    | cons mb' mbs' =>
      obtain ⟨label, code⟩ := mb
      obtain ⟨label', code'⟩ := mb'
      simp only [List.flatMap_cons, blockItems, List.cons_append, List.cons.injEq,
        Item.label.injEq] at h
      obtain ⟨rfl, hlines⟩ := h
      obtain ⟨rfl, hrest⟩ := map_instr_append_inj (head?_flatMap_blockItems mbs)
        (head?_flatMap_blockItems mbs') hlines
      rw [ih hrest]

/-! ### Where machine blocks lead -/

def epilogueItems (c : Machine.Function) : List Item :=
  if c.epilogueLabel.isEmpty then [] else .label c.epilogueLabel :: c.epilogue.map .instr

/-- The machine blocks `pieces` of the block `b`, which `after` follows, lead where they should. Each
piece but the last one runs straight to a jump to the epilogue. The last one runs straight to its
`tail`, which leads where the block does from every state. Only a point that cannot be reached may
fall into what follows, unless it traps. -/
structure Routed (o : Options) (s : Session) (c : Machine.Function) (b : Ir.Block)
    (pieces : List Machine.Block) (after : List Item) : Prop where
  found : seek (s.blockLabel b.id) (Listing.functionItems c) =
    some (pieces.flatMap blockItems ++ after)
  length : pieces.length = b.instrs.countP (·.kind.isRet) + 1
  jumps : ∀ mb ∈ pieces, ∀ i ∈ mb.code, Straight i ∨
    (b.returns = true ∧ Jumps i s.epilogueLabel) ∨
      ∃ id ∈ b.term.successors, Jumps i (s.blockLabel id)
  early : ∀ mb ∈ pieces.dropLast, ∃ body e, mb.code = body ++ [e] ∧ (∀ i ∈ body, Straight i) ∧
    ∀ p rest σ arrived σ', Leaves p (Listing.functionItems c) rest [.instr e] σ arrived σ' ↔
      seek s.epilogueLabel (Listing.functionItems c) = some arrived ∧ σ' = σ
  final : ∃ mb body tail, pieces.getLast? = some mb ∧ mb.code = body ++ tail ∧
    (∀ i ∈ body, Straight i) ∧
    (b.term.exit ≠ .unreachable →
      ∀ p σ, Closes s p (Listing.functionItems c) after b (tail.map .instr) σ) ∧
    (b.term.exit = .unreachable →
      if o.unreachable = .trap then
        ∀ p σ arrived σ', ¬ Leaves p (Listing.functionItems c) after (tail.map .instr) σ arrived σ'
      else tail = [])

/-- The machine blocks of blocks that are emitted one after the other lead where they should. -/
inductive Routes (o : Options) (s : Session) (c : Machine.Function) :
    List Ir.Block → List (List Machine.Block) → Prop
  | nil : Routes o s c [] []
  | cons {b : Ir.Block} {bs : List Ir.Block} {g : List Machine.Block}
      {gs : List (List Machine.Block)}
      (h : Routed o s c b g (gs.flatten.flatMap blockItems ++ epilogueItems c))
      (hrest : Routes o s c bs gs) : Routes o s c (b :: bs) (g :: gs)

lemma jumps_boundInstr {i : Instr} {l : String} (τ : Temps) (h : Jumps i l) :
    Jumps (τ.boundInstr i) l :=
  ⟨h.op, by rw [Temps.boundInstr_operands, h.operands]; rfl⟩

lemma epilogueLabel_congr (h : s'.symbol = s.symbol) :
    s'.epilogueLabel = s.epilogueLabel := by
  rw [Session.epilogueLabel, Session.epilogueLabel, h]

lemma Group.jumps (h : Group o last b next g) :
    ∀ mb ∈ g, ∀ i ∈ mb.code, Straight i ∨ (b.returns = true ∧ Jumps i last.epilogueLabel) ∨
      ∃ id ∈ b.term.successors, Jumps i (last.blockLabel id) := by
  obtain ⟨s, s', early, final, code, rfl, -, hpieces, hleave, -, hcode, hlater⟩ := h.pieces
  obtain ⟨js, hexits⟩ := exits_of_leave rfl hleave
  have hsymbol : last.symbol = s.symbol := hlater.symbol.trans hexits.later.symbol
  obtain ⟨body, tail, hfinal, hbody, -⟩ := hpieces.final
  intro mb hmb i hi
  rcases List.mem_append.mp hmb with hmb | hmb
  · obtain ⟨body, e, hmbcode, hstraight, hop, hops⟩ := hpieces.early mb hmb
    rw [hmbcode, List.mem_append, List.mem_singleton] at hi
    rcases hi with hi | rfl
    · exact Or.inl (hstraight i hi)
    · refine Or.inr (Or.inl ⟨?_, Or.inl hop, by rw [hops, epilogueLabel_congr hsymbol]⟩)
      have hpos : 0 < b.instrs.countP (·.kind.isRet) := by
        rw [← hpieces.length]
        exact List.length_pos_of_mem hmb
      rw [Ir.Block.returns, Bool.or_eq_true, List.any_eq_true]
      exact Or.inl (List.countP_pos_iff.mp hpos)
  · rw [List.mem_singleton.mp hmb, List.mem_append] at hi
    rcases hi with hi | hi
    · exact Or.inl (hbody i (hfinal ▸ hi))
    · rcases hcode i hi with hi | ⟨id, hid, hjumps⟩ | ⟨hret, hjumps⟩ | ⟨-, hop⟩
      · exact Or.inl hi
      · refine Or.inr (Or.inr ⟨id, hid, ?_⟩)
        rwa [Session.blockLabel, hsymbol]
      · refine Or.inr (Or.inl ⟨by simp [Ir.Block.returns, hret], ?_⟩)
        rwa [epilogueLabel_congr hsymbol]
      · exact Or.inl ⟨by simp [hop], by simp [hop], by simp [hop]⟩

lemma code_of_unreachable {site : Site} {e : Ir.Terminator} {code : List Instr}
    (hexit : e.exit = .unreachable) (h : Yields (leave e next) site s () s')
    (hcode : s'.code.toList = s.code.toList ++ code) :
    code = if site.options.unreachable = .trap then [site.trap] else [] := by
  obtain ⟨s₁, hx, -⟩ | ⟨target, hx, -⟩ | ⟨onTrue, onFalse, hx, -⟩ | ⟨-, rfl⟩ := leave_cases h
  · rw [hexit] at hx
    cases hx
  · rw [hexit] at hx
    cases hx
  · rw [hexit] at hx
    cases hx
  · rw [Session.pushAll, Array.toList_append] at hcode
    exact (List.append_cancel_left hcode).symm

lemma Group.exists_lines (h : Group o last b next g) (τ : Temps) :
    ∃ rest, (g.map τ.boundBlock).flatMap blockItems = .label (last.blockLabel b.id) :: rest := by
  obtain ⟨s, s', early, final, code, rfl, hhead, -⟩ := h.pieces
  cases early with
  | nil =>
    have hlabel : final.label = last.blockLabel b.id := Option.some.inj hhead
    exact ⟨_, by rw [← hlabel]; rfl⟩
  | cons mb early =>
    have hlabel : mb.label = last.blockLabel b.id := Option.some.inj hhead
    exact ⟨_, by rw [← hlabel]; rfl⟩

lemma seek_of_eq_append {l : String} {found : List Item}
    (hitems : items = front ++ found) (hfound : ∃ rest, found = .label l :: rest)
    (hnodup : (items.filterMap label?).Nodup) : seek l items = some found := by
  obtain ⟨rest, rfl⟩ := hfound
  subst hitems
  exact seek_of_nodup hnodup

lemma Group.routed (h : Group o last b next g) (hvalues : (last.values.map Prod.fst).Nodup)
    (hitems : Listing.functionItems c =
      front ++ ((g.map last.temps.boundBlock).flatMap blockItems ++ after))
    (hnodup : ((Listing.functionItems c).filterMap label?).Nodup)
    (hnext : ∀ id, next = some id →
      seek (last.blockLabel id) (Listing.functionItems c) = some after)
    (hret : next = none → b.term.exit = .ret →
      seek last.epilogueLabel (Listing.functionItems c) = some after) :
    Routed o last c b (g.map last.temps.boundBlock) after := by
  have hjumps := h.jumps
  obtain ⟨rest, hrest⟩ := h.exists_lines last.temps
  obtain ⟨s, s', early, final, code, rfl, -, hpieces, hleave, hcode, -, hlater⟩ := h.pieces
  obtain ⟨js, hexits⟩ := exits_of_leave rfl hleave
  have hsymbol : last.symbol = s.symbol := hlater.symbol.trans hexits.later.symbol
  obtain ⟨body, tail, hfinal, hbody, hending⟩ := hpieces.final
  refine ⟨?_, by simp [hpieces.length], ?_, ?_, ?_⟩
  · exact seek_of_eq_append hitems ⟨_, by rw [hrest, List.cons_append]⟩ hnodup
  · intro mb hmb i hi
    obtain ⟨mb', hmb', rfl⟩ := List.mem_map.mp hmb
    obtain ⟨i', hi', rfl⟩ := List.mem_map.mp hi
    rcases hjumps mb' hmb' i' hi' with hi' | ⟨hreturns, hi'⟩ | ⟨id, hid, hi'⟩
    · exact Or.inl hi'
    · exact Or.inr (Or.inl ⟨hreturns, jumps_boundInstr _ hi'⟩)
    · exact Or.inr (Or.inr ⟨id, hid, jumps_boundInstr _ hi'⟩)
  · intro mb hmb
    rw [List.map_append, List.map_singleton, List.dropLast_concat] at hmb
    obtain ⟨mb', hmb', rfl⟩ := List.mem_map.mp hmb
    obtain ⟨body', e, hmbcode, hstraight, hop, hops⟩ := hpieces.early mb' hmb'
    refine ⟨body'.map last.temps.boundInstr, last.temps.boundInstr e, ?_, fun i hi => ?_, ?_⟩
    · rw [Temps.boundBlock, hmbcode, List.map_append, List.map_singleton]
    · obtain ⟨i', hi', rfl⟩ := List.mem_map.mp hi
      exact hstraight i' hi'
    · intro p rest σ arrived σ'
      refine leaves_jmp_iff hop ?_ (by simp)
      rw [Temps.boundInstr_operands, hops, epilogueLabel_congr hsymbol]
      rfl
  · refine ⟨_, body.map last.temps.boundInstr, (tail ++ code).map last.temps.boundInstr,
      by rw [List.map_append, List.map_singleton, List.getLast?_concat], ?_, fun i hi => ?_,
      fun hexit p σ => closes_of_leave hending hleave hcode hlater hvalues hexit hnext hret σ,
      fun hexit => ?_⟩
    · rw [Temps.boundBlock, hfinal, List.append_assoc, List.map_append]
    · obtain ⟨i', hi', rfl⟩ := List.mem_map.mp hi
      exact hbody i' (List.mem_append_left _ hi')
    · have htail : tail = [] := by
        cases hending with
        | plain => rfl
        | fused hlast =>
          obtain ⟨a, a', hbranch⟩ := exit_of_fuses (Option.filter_eq_some_iff.mp hlast).2
          rw [hexit] at hbranch
          cases hbranch
      rw [htail, List.nil_append, code_of_unreachable hexit hleave hcode,
        show (termSite o b.term).options = o from rfl]
      by_cases htrap : o.unreachable = .trap
      · rw [if_pos htrap, if_pos htrap]
        intro p σ arrived σ'
        exact not_leaves_trap rfl
      · rw [if_neg htrap, if_neg htrap]
        rfl

/-- The machine blocks of blocks, which the epilogue follows, lead where they should. -/
theorem Groups.routes (h : Groups o last bs gs) (hvalues : (last.values.map Prod.fst).Nodup)
    (hitems : Listing.functionItems c =
      front ++ ((gs.map (·.map last.temps.boundBlock)).flatten.flatMap blockItems ++
        epilogueItems c))
    (hnodup : ((Listing.functionItems c).filterMap label?).Nodup)
    (hepilogue : (∃ b ∈ bs, b.term.exit = .ret) → ∃ rest,
      epilogueItems c = .label last.epilogueLabel :: rest) :
    Routes o last c bs (gs.map (·.map last.temps.boundBlock)) := by
  -- The lines in front of the blocks grow by those of one block after the other.
  induction h generalizing front with
  | nil => exact .nil
  | @cons b bs g gs hg hgs ih =>
    rw [List.map_cons, List.flatten_cons, List.flatMap_append, List.append_assoc] at hitems
    have hrest : Listing.functionItems c =
        (front ++ (g.map last.temps.boundBlock).flatMap blockItems) ++
          ((gs.map (·.map last.temps.boundBlock)).flatten.flatMap blockItems ++
            epilogueItems c) := by
      rw [hitems, List.append_assoc]
    refine .cons (hg.routed hvalues hitems hnodup (fun id hid => ?_) fun hnone hret => ?_)
      (ih hrest fun ⟨b', hb', hret⟩ => hepilogue ⟨b', List.mem_cons_of_mem _ hb', hret⟩)
    · cases hgs with
      | nil => cases hid
      | @cons b' bs g' gs hg' hgs' =>
        cases hid
        obtain ⟨lines, hlines⟩ := hg'.exists_lines last.temps
        exact seek_of_eq_append hrest ⟨_, by rw [List.map_cons, List.flatten_cons,
          List.flatMap_append, hlines, List.cons_append, List.cons_append]⟩ hnodup
    · cases hgs with
      | nil =>
        exact seek_of_eq_append hrest (hepilogue ⟨b, List.mem_cons_self, hret⟩) hnodup
      | cons => cases hnone

/-! ### Functions -/

lemma isJump_of_straight {i : Instr} (h : Straight i) : i.op.isJump = false := by
  cases hop : i.op with
  | jmp => exact absurd hop h.1
  | jcc cond => exact absurd hop (h.2.1 cond)
  | _ => rfl

namespace Parts

variable {f : Ir.Function} {start : Session} (parts : Parts o f start c)

lemma epilogueLabel_eq_ite :
    c.epilogueLabel = if parts.last.returns then parts.last.epilogueLabel else "" :=
  congrArg Machine.Function.epilogueLabel (Temps.bind_eq_ok parts.bound)

theorem exists_groups : ∃ gs, Groups o parts.last parts.order gs ∧
    c.blocks = (gs.map (·.map parts.last.temps.boundBlock)).flatten := by
  obtain ⟨gs, hgs, hlines⟩ :=
    parts.lowers.exists_groups { parts.inv_homed with } parts.pending_homed (.refl _)
  refine ⟨gs, hgs, ?_⟩
  rw [parts.blocks_eq, flatMap_blockItems_injective hlines, List.map_flatten]
  rfl

lemma epilogueItems_eq : epilogueItems c =
    if parts.last.returns then .label parts.last.epilogueLabel :: c.epilogue.map .instr else [] := by
  rw [epilogueItems, parts.epilogueLabel_eq_ite]
  split_ifs with hreturns hempty hempty
  · rw [String.isEmpty_iff, epilogueLabel_eq] at hempty
    exact absurd hempty (localLabel_ne_empty _ _)
  · rfl
  · rfl
  · exact absurd rfl hempty

lemma filterMap_label?_blocks (mbs : List Machine.Block) :
    (mbs.flatMap blockItems).filterMap label? = mbs.map (·.label) := by
  induction mbs with
  | nil => rfl
  | cons mb mbs ih =>
    rw [List.flatMap_cons, List.filterMap_append, ih, blockItems, filterMap_label?_label,
      filterMap_label?_instr]
    rfl

lemma exists_labels : ∃ ls : List Local, ls.Nodup ∧ .epilogue ∉ ls ∧
    (∀ id, .block id ∈ ls ↔ id ∈ parts.order.map (·.id)) ∧
    c.blocks.map (·.label) = ls.map (localLabel parts.last.symbol) ∧
    (Listing.functionItems c).filterMap label? = parts.last.symbol ::
      (c.blocks.map (·.label) ++
        if parts.last.returns then [parts.last.epilogueLabel] else []) := by
  obtain ⟨ls, hls, hlabels⟩ := parts.lowers.exists_labelled
  refine ⟨ls, hls.nodup parts.ordered_order.nodup, hls.epilogue, hls.block, ?_, ?_⟩
  · rw [hls.symbol, ← hlabels, filterMap_label?_blocks, parts.blocks_eq, List.map_map]
    rfl
  · have hitems : Listing.functionItems c =
        [.directive (".globl " ++ c.name), .directive ".p2align 4", .label c.name] ++
          c.prologue.map .instr ++ c.blocks.flatMap blockItems ++ epilogueItems c := rfl
    rw [hitems, parts.epilogueItems_eq, List.filterMap_append, List.filterMap_append,
      List.filterMap_append, filterMap_label?_blocks, filterMap_label?_instr, parts.name_eq]
    split_ifs
    · rw [filterMap_label?_label, filterMap_label?_instr]
      rfl
    · rfl

lemma blockLabel_mem {id : Nat} (h : id ∈ parts.order.map (·.id)) :
    parts.last.blockLabel id ∈ c.blocks.map (·.label) := by
  obtain ⟨ls, -, -, hblock, hlabels, -⟩ := parts.exists_labels
  rw [hlabels, blockLabel_eq]
  exact List.mem_map_of_mem ((hblock id).mpr h)

lemma nodup_labels (parts : Parts o f start c) :
    ((Listing.functionItems c).filterMap label?).Nodup := by
  obtain ⟨ls, hnodup, hepilogue, -, hlabels, hitems⟩ := parts.exists_labels
  have hinj := localLabel_injective parts.last.symbol
  have hall : ((ls ++ if parts.last.returns then [Local.epilogue] else []).map
      (localLabel parts.last.symbol)).Nodup := by
    refine (List.Nodup.append hnodup (by split_ifs <;> simp) ?_).map hinj
    split_ifs
    · simpa using hepilogue
    · simp
  rw [hitems, hlabels, List.nodup_cons]
  have heq : ls.map (localLabel parts.last.symbol) ++
      (if parts.last.returns then [parts.last.epilogueLabel] else []) =
      (ls ++ if parts.last.returns then [Local.epilogue] else []).map
        (localLabel parts.last.symbol) := by
    rw [List.map_append, epilogueLabel_eq]
    split_ifs <;> rfl
  rw [heq]
  refine ⟨fun hmem => ?_, hall⟩
  obtain ⟨l, -, hl⟩ := List.mem_map.mp hmem
  exact localLabel_ne_symbol _ _ hl

lemma isJump_layout (l : Frame.Layout) :
    ∀ i ∈ l.prologue ++ l.epilogue, i.op.isJump = false := by
  intro i hi
  cases Frame.Layout.line_of_mem hi <;> rfl

lemma isJump_frame (parts : Parts o f start c) {i : Instr}
    (hi : i ∈ c.prologue ++ c.epilogue) : i.op.isJump = false := by
  have hlayout := isJump_layout parts.frame
  rcases List.mem_append.mp hi with hi | hi
  · rw [parts.prologue_eq, List.mem_append] at hi
    rcases hi with hi | hi
    · exact hlayout i (List.mem_append_left _ hi)
    · obtain ⟨j, hj, rfl⟩ := List.mem_map.mp hi
      have hstraight : Straight j := straight_of_tame (parts.tame_homing j hj)
      exact isJump_of_straight (i := parts.last.temps.boundInstr j) hstraight
  · rw [congrArg Machine.Function.epilogue (Temps.bind_eq_ok parts.bound)] at hi
    obtain ⟨j, hj, rfl⟩ := List.mem_map.mp hi
    dsimp only at hj
    split_ifs at hj
    · exact hlayout j (List.mem_append_right _ hj)
    · cases hj

lemma exists_routes (hf : WellFormed.Sound f) :
    ∃ groups, c.blocks = groups.flatten ∧ Routes o parts.last c parts.order groups := by
  obtain ⟨gs, hgs, hblocks⟩ := parts.exists_groups
  have hitems : Listing.functionItems c =
      ([.directive (".globl " ++ c.name), .directive ".p2align 4", .label c.name] ++
        c.prologue.map .instr) ++
        ((gs.map (·.map parts.last.temps.boundBlock)).flatten.flatMap blockItems ++
          epilogueItems c) := by
    rw [← hblocks, ← List.append_assoc]
    rfl
  refine ⟨_, hblocks, hgs.routes (parts.nodup_values hf) hitems parts.nodup_labels
    fun ⟨b, hb, hret⟩ => ?_⟩
  · have hreturns : parts.last.returns = true :=
      parts.returns_iff.mpr ⟨b, hb, by simp [Ir.Block.returns, hret]⟩
    rw [parts.epilogueItems_eq, if_pos hreturns]
    exact ⟨_, rfl⟩

end Parts

lemma Routes.exists_routed (h : Routes o s c bs gs) {mb : Machine.Block} (hmb : mb ∈ gs.flatten) :
    ∃ b ∈ bs, ∃ g after, mb ∈ g ∧ Routed o s c b g after := by
  induction h with
  | nil => cases hmb
  | @cons b bs g gs hg _ ih =>
    rw [List.flatten_cons, List.mem_append] at hmb
    rcases hmb with hmb | hmb
    · exact ⟨b, List.mem_cons_self, g, _, hmb, hg⟩
    · obtain ⟨b', hb', hrouted⟩ := ih hmb
      exact ⟨b', List.mem_cons_of_mem _ hb', hrouted⟩

/-- The control flow of a compiled function is that of its source. Every jump goes to a label that
only one line holds, that of an emitted block or of the epilogue. There is an epilogue exactly when
some emitted block returns. The machine blocks belong to the emitted blocks, in their order, and lead
where they should. -/
theorem control_flow_eq {m : Ir.Module} {f : Ir.Function} {start : Session} {c : Compiled}
    (hm : WellFormed.checkModule m = .ok ()) (hf : f ∈ m.functions)
    (h : (compileFunction o f).run start = .ok (c, s)) :
    ∃ order groups, ControlFlow.order f = .ok order ∧ c.code.blocks = groups.flatten ∧
      (∀ i ∈ c.code.prologue ++ (c.code.blocks.flatMap (·.code) ++ c.code.epilogue),
        i.op.isJump = true → ∃ l, i.operands = [.label l] ∧
          ((Listing.functionItems c.code).filterMap label?).count l = 1 ∧
          ((∃ b ∈ order, l = s.blockLabel b.id) ∧ l ∈ c.code.blocks.map (·.label) ∨
            l = s.epilogueLabel ∧ l = c.code.epilogueLabel)) ∧
      seek s.epilogueLabel (Listing.functionItems c.code) =
        (if order.any (·.returns) then
          some (.label s.epilogueLabel :: c.code.epilogue.map .instr) else none) ∧
      Routes o s c.code order groups := by
  obtain ⟨parts, rfl⟩ := exists_parts h
  obtain ⟨groups, hblocks, hroutes⟩ := parts.exists_routes (sound_of_checkModule hm hf)
  obtain ⟨ls, -, hepilogue, -, hlabels, hitems⟩ := parts.exists_labels
  have hreturns : parts.order.any (·.returns) = parts.last.returns := by
    rw [Bool.eq_iff_iff, List.any_eq_true, parts.returns_iff]
  refine ⟨parts.order, groups, parts.ordered, hblocks, fun i hi hjump => ?_, ?_, hroutes⟩
  · have hcount {l : String} (hl : l ∈ (Listing.functionItems c.code).filterMap label?) :
        ((Listing.functionItems c.code).filterMap label?).count l = 1 :=
      List.count_eq_one_of_mem parts.nodup_labels hl
    have hframe (hi : i ∈ c.code.prologue ++ c.code.epilogue) : False := by
      rw [parts.isJump_frame hi] at hjump
      cases hjump
    simp only [List.mem_append] at hi
    rcases hi with hi | hi | hi
    · exact (hframe (List.mem_append_left _ hi)).elim
    · obtain ⟨mb, hmb, hi⟩ := List.mem_flatMap.mp hi
      obtain ⟨b, hb, g, after, hg, hrouted⟩ := hroutes.exists_routed (hblocks ▸ hmb)
      rcases hrouted.jumps mb hg i hi with hstraight | ⟨hret, hj⟩ | ⟨id, hid, hj⟩
      · rw [isJump_of_straight hstraight] at hjump
        cases hjump
      · have hlast : parts.last.returns = true := parts.returns_iff.mpr ⟨b, hb, hret⟩
        refine ⟨_, hj.operands, hcount ?_, Or.inr ⟨rfl, ?_⟩⟩
        · rw [hitems, if_pos hlast]
          simp
        · rw [parts.epilogueLabel_eq_ite, if_pos hlast]
      · have horder := parts.ordered_order.closed b hb id hid
        have hmem := parts.blockLabel_mem horder
        obtain ⟨b', hb', rfl⟩ := List.mem_map.mp horder
        refine ⟨_, hj.operands, hcount ?_, Or.inl ⟨⟨b', hb', rfl⟩, hmem⟩⟩
        rw [hitems]
        exact List.mem_cons_of_mem _ (List.mem_append_left _ hmem)
    · exact (hframe (List.mem_append_right _ hi)).elim
  · have hfront : Listing.functionItems c.code =
        ([.directive (".globl " ++ c.code.name), .directive ".p2align 4", .label c.code.name] ++
          c.code.prologue.map .instr ++ c.code.blocks.flatMap blockItems) ++
          epilogueItems c.code := rfl
    rw [hreturns]
    split_ifs with hlast
    · have hlines := parts.epilogueItems_eq
      rw [if_pos hlast] at hlines
      rw [← hlines]
      exact seek_of_eq_append hfront ⟨_, hlines⟩ parts.nodup_labels
    · refine seek_eq_none fun hmem => ?_
      rw [hitems, if_neg hlast, List.append_nil, hlabels, epilogueLabel_eq, List.mem_cons,
        List.mem_map] at hmem
      rcases hmem with hmem | ⟨l, hl, hmem⟩
      · exact localLabel_ne_symbol _ _ hmem
      · exact hepilogue (localLabel_injective _ hmem ▸ hl)

/-- A function that compares, branches, and returns in the middle of a block. -/
def returnsEarly : Ir.Function where
  params := [⟨"n", .i64⟩]
  ret := .i64
  blocks := [
    { id := 0
      instrs := [{ result := some 0, kind := .binary .lt, operands := [.param 0, .const .i64 3] }]
      term := { exit := .branch 1 2, value := some (.value 0) } },
    { id := 1
      instrs := [{ kind := .ret, operands := [.param 0] }]
      term := { exit := .jump 2 } },
    { id := 2, term := { exit := .ret, value := some (.const .i64 0) } }]

lemma isOk_returnsEarly : ((compileFunction {} returnsEarly).run {}).isOk = true := by
  decide +kernel

/-- Its machine blocks are one for the branch, two for the block that returns in its middle, and one
for the last block, and lead where they should. -/
theorem control_flow_eq_returnsEarly :
    WellFormed.checkModule { functions := [returnsEarly] } = .ok () ∧
      ∃ c s groups, (compileFunction {} returnsEarly).run {} = .ok (c, s) ∧
        Routes {} s c.code returnsEarly.blocks groups ∧
        groups.map List.length = [1, 2, 1] ∧ c.code.blocks.length = 4 := by
  have hcheck : WellFormed.checkModule { functions := [returnsEarly] } = .ok () := by decide
  refine ⟨hcheck, ?_⟩
  cases hrun : (compileFunction {} returnsEarly).run {} with
  | error e =>
    have hok := isOk_returnsEarly
    rw [hrun] at hok
    cases hok
  | ok r =>
    obtain ⟨order, groups, horder, hblocks, -, -, hroutes⟩ :=
      control_flow_eq (c := r.1) (s := r.2) hcheck List.mem_cons_self hrun
    have hsame : ControlFlow.order returnsEarly = .ok returnsEarly.blocks := by decide
    obtain rfl : order = returnsEarly.blocks := Except.ok.inj (horder.symm.trans hsame)
    have hlengths : groups.map List.length = [1, 2, 1] := by
      cases hroutes with
      | cons h₀ hroutes =>
        cases hroutes with
        | cons h₁ hroutes =>
          cases hroutes with
          | cons h₂ hroutes =>
            cases hroutes
            rw [List.map_cons, List.map_cons, List.map_cons, h₀.length, h₁.length, h₂.length]
            rfl
    refine ⟨r.1, r.2, groups, rfl, hroutes, hlengths, ?_⟩
    rw [hblocks, List.length_flatten, hlengths]
    rfl

end NativeCode.Compile
