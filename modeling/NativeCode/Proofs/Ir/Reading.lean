import NativeCode.Ir.Reader.Module
import NativeCode.Proofs.Except

/-!
# Where the parts of a module come from

A module that has been read is made of what single lines were read as: its name, its globals, its
external functions, the headers of its functions, and the statements of their blocks. Statements get
numbers and places that increase along a function, and a return at the end of a block becomes the end
of the block without losing its place.
-/

namespace NativeCode.Ir.Reader

/-! ### Scans -/

section Scans

variable {α β : Type} {x : Scan α} {P : α → Prop} {Q : β → Prop}

def Reads (x : Scan α) (a : α) : Prop := ∃ c c', x.run c = .ok (a, c')

def Ensures (x : Scan α) (P : α → Prop) : Prop := ∀ c a c', x.run c = .ok (a, c') → P a

lemma Ensures.of_reads (h : Ensures x P) {a : α} (hr : Reads x a) : P a := by
  obtain ⟨c, c', hr⟩ := hr
  exact h c a c' hr

lemma ensures_reads (x : Scan α) : Ensures x (Reads x) := fun c _ c' h => ⟨c, c', h⟩

lemma Ensures.any (x : Scan α) : Ensures x fun _ => True := fun _ _ _ _ => trivial

lemma ensures_pure {a : α} (h : P a) : Ensures (pure a) P := by
  rintro c a' c' ⟨⟩
  exact h

lemma ensures_bind {f : α → Scan β} (hx : Ensures x P) (hf : ∀ a, P a → Ensures (f a) Q) :
    Ensures (x >>= f) Q := by
  intro c b c' h
  rw [StateT.run_bind] at h
  cases hr : x.run c with
  | error e => rw [hr] at h; cases h
  | ok r =>
    rw [hr] at h
    exact hf r.1 (hx c r.1 r.2 hr) r.2 b c' h

lemma ensures_bind_any {f : α → Scan β} (hf : ∀ a, Ensures (f a) Q) : Ensures (x >>= f) Q :=
  ensures_bind (Ensures.any x) fun a _ => hf a

lemma ensures_failAt (column : Nat) (fault : Fault) :
    Ensures (failAt column fault : Scan α) P := by
  rintro c a c' ⟨⟩

lemma ensures_failHere (fault : Fault) : Ensures (failHere fault : Scan α) P :=
  ensures_bind_any fun column => ensures_failAt column fault

lemma ensures_ite {b : Prop} [Decidable b] {y : Scan α} (hx : Ensures x P) (hy : Ensures y P) :
    Ensures (if b then x else y) P := by
  split_ifs
  · exact hx
  · exact hy

lemma ensures_check {b : Prop} [Decidable b] {y : Scan PUnit} {f : PUnit → Scan β}
    (hy : Ensures y fun _ => False) (hf : ¬ b → Ensures (f ⟨⟩) Q) :
    Ensures (if b then y >>= f else f ⟨⟩) Q := by
  split_ifs with hb
  · exact ensures_bind hy fun _ h => h.elim
  · exact hf hb

lemma ensures_separatedUpTo {item : Scan α} (fault : Fault) (h : Ensures item P) (fuel : Nat) :
    Ensures (separatedUpTo item fault fuel) fun xs => ∀ x ∈ xs, P x := by
  induction fuel with
  | zero => exact ensures_failHere fault
  | succ fuel ih =>
    refine ensures_bind h fun x hx => ensures_bind_any fun closed => ?_
    refine ensures_ite (ensures_pure (by simpa using hx)) (ensures_bind_any fun _ => ?_)
    exact ensures_bind ih fun xs hxs => ensures_pure (List.forall_mem_cons.mpr ⟨hx, hxs⟩)

lemma ensures_separated {item : Scan α} (fault : Fault) (h : Ensures item P) :
    Ensures (separated item fault) fun xs => ∀ x ∈ xs, P x := by
  refine ensures_bind_any fun closed => ?_
  refine ensures_ite (ensures_pure (by simp)) (ensures_bind_any fun c => ?_)
  exact ensures_separatedUpTo fault h _

end Scans

/-! ### Statements -/

/-- The operands that a word can be read as where a literal of type `expected` could stand: a literal
is in the range of its type, which is the expected one, except for the two boolean words. -/
inductive Denoted (params : List Param) (expected : Option Ty) : Operand → Prop
  | value (id : Nat) : Denoted params expected (.value id)
  | param {index : Nat} (h : index < params.length) : Denoted params expected (.param index)
  | global {name : String} (h : Text.isIdentifier name.toList = true) :
      Denoted params expected (.global name)
  | literal {ty : Ty} {bits : Word} (hholds : ty.holds bits = true)
      (hty : ∀ ty', expected = some ty' → ty' = ty ∨ ty = .bool) :
      Denoted params expected (.const ty bits)

variable {params : List Param} {expected : Option Ty} {w : List Char} {x : Operand}

lemma readInteger_eq_ok {ty : Ty} (h : readInteger ty w = .ok x) :
    ∃ bits, x = .const ty bits ∧ ty.isInteger = true ∧ ty.holds bits = true := by
  unfold readInteger at h
  split at h
  · cases h
  · split_ifs at h with hint hholds
    cases h
    exact ⟨_, rfl, by simpa using hint, by simpa using hholds⟩

lemma readFloat_eq_ok {p : Precision} (h : readFloat p w = .ok x) :
    ∃ bits, x = .const (.float p) bits := by
  unfold readFloat at h
  dsimp only at h
  split at h
  · cases h
    exact ⟨_, rfl⟩
  · cases h

/-- A word is read as an integer if it has no character of a reference, of a boolean word or of a
float. Letters of exponents are digits in a hexadecimal numeral. -/
lemma readOperand_eq_readInteger (hne : w ≠ []) (hw : ∀ c ∈ ['%', '@', 't', 'l', 'n', '.'], c ∉ w)
    (hhex : looksFloat.hasHexMark w = true ∨ 'e' ∉ w ∧ 'E' ∉ w)
    (hty : (expected.getD .i64).isInteger = true) :
    readOperand params expected w = readInteger (expected.getD .i64) w := by
  have hword {w' : List Char} (c : Char) (hc : c ∈ w') (hmark : c ∈ ['%', '@', 't', 'l', 'n', '.']) :
      w ≠ w' := fun heq => hw c hmark (heq ▸ hc)
  have hfloat : looksFloat w = false := by
    rcases hhex with hhex | ⟨hlower, hupper⟩
    · rw [looksFloat, hhex]
      rfl
    · have hmark : w.any (fun c => c == '.' || c == 'e' || c == 'E') = false := by
        refine List.any_eq_false.mpr fun c hc => ?_
        have hother (d : Char) (hd : d ∉ w) : c ≠ d := fun heq => hd (heq ▸ hc)
        simp [hother '.' (hw _ (by decide)), hother _ hlower, hother _ hupper]
      have hinf : w ≠ "inf".toList := hword 'n' (by decide) (by decide)
      have hminf : w ≠ "-inf".toList := hword 'n' (by decide) (by decide)
      have hnan : w ≠ "nan".toList := hword 'n' (by decide) (by decide)
      rw [looksFloat, hmark, beq_eq_false_iff_ne.mpr hinf, beq_eq_false_iff_ne.mpr hminf,
        beq_eq_false_iff_ne.mpr hnan, Bool.or_false, Bool.or_false, Bool.or_false, Bool.and_false]
  have hliteral : readLiteral expected w = readInteger (expected.getD .i64) w := by
    unfold readLiteral
    split
    · cases hty
    · rw [hfloat]
      rfl
    · rw [hfloat]
      rfl
  unfold readOperand
  split
  case h_1 => exact absurd rfl hne
  case h_2 => exact absurd List.mem_cons_self (hw _ (by decide))
  case h_3 => exact absurd List.mem_cons_self (hw _ (by decide))
  case h_4 =>
    rw [if_neg (hword 't' (by decide) (by decide)), if_neg (hword 'l' (by decide) (by decide)),
      hliteral]

lemma denoted_of_readLiteral (h : readLiteral expected w = .ok x) : Denoted params expected x := by
  unfold readLiteral at h
  split at h
  case h_1 p =>
    obtain ⟨bits, rfl⟩ := readFloat_eq_ok h
    exact .literal rfl fun ty' hty => Or.inl (Option.some.inj hty).symm
  case h_2 ty _ =>
    split_ifs at h
    obtain ⟨bits, rfl, -, hholds⟩ := readInteger_eq_ok h
    exact .literal hholds fun ty' hty => Or.inl (Option.some.inj hty).symm
  case h_3 =>
    split_ifs at h
    · obtain ⟨bits, rfl⟩ := readFloat_eq_ok h
      exact .literal rfl fun _ hty => by cases hty
    · obtain ⟨bits, rfl, -, hholds⟩ := readInteger_eq_ok h
      exact .literal hholds fun _ hty => by cases hty

lemma denoted_of_readOperand (h : readOperand params expected w = .ok x) :
    Denoted params expected x := by
  unfold readOperand at h
  split at h
  · cases h
  · unfold readReference at h
    split at h
    · cases h
      exact .value _
    · split at h
      · rename_i hfind
        cases h
        exact .param (List.findIdx?_eq_some_iff_findIdx_eq.mp hfind).1
      · cases h
  · split_ifs at h with hname
    cases h
    exact .global (by simpa using hname)
  · split_ifs at h
    · cases h
      exact .literal rfl fun _ _ => Or.inr rfl
    · cases h
      exact .literal rfl fun _ _ => Or.inr rfl
    · exact denoted_of_readLiteral h

/-- The statements that a line of a function can be read as, with their results. -/
inductive Formed (params : List Param) (ret : Ty) (result : Option Nat) : Statement → Prop
  | binary {op : BinaryOp} {ty : Ty} {a b : Operand} (hresult : result.isSome = true)
      (ha : Denoted params ty a) (hb : Denoted params ty b) :
      Formed params ret result (.instr (.binary op) ty [a, b])
  | load {ty : Ty} {address : Operand} (hresult : result.isSome = true)
      (haddress : Denoted params (some .ptr) address) :
      Formed params ret result (.instr .load ty [address])
  | alloca {ty : Ty} (hresult : result.isSome = true) :
      Formed params ret result (.instr .alloca ty [])
  | const {ty : Ty} {literal : Operand} (hresult : result.isSome = true)
      (hliteral : Denoted params ty literal) :
      Formed params ret result (.instr .const ty [literal])
  | store {ty : Ty} {value address : Operand} (hresult : result = none)
      (hvalue : Denoted params ty value) (haddress : Denoted params (some .ptr) address) :
      Formed params ret result (.instr .store ty [value, address])
  | call {ty : Ty} {callee : String} {arguments : List Operand}
      (hresult : result.isSome = true → ty.isVoid = false)
      (hcallee : Text.isIdentifier callee.toList = true)
      (harguments : ∀ x ∈ arguments, Denoted params none x) :
      Formed params ret result (.instr (.call callee) ty arguments)
  | ret (hresult : result = none) : Formed params ret result (.instr .ret ret [])
  | retValue {value : Operand} (hresult : result = none) (hret : ret.isVoid = false)
      (hvalue : Denoted params ret value) :
      Formed params ret result (.instr .ret ret [value])
  | jump {target : Nat} (hresult : result = none) :
      Formed params ret result (.exit (.jump target) none)
  | branch {condition : Operand} {onTrue onFalse : Nat} (hresult : result = none)
      (hcondition : Denoted params (some .bool) condition) :
      Formed params ret result (.exit (.branch onTrue onFalse) (some condition))
  | unreachable (hresult : result = none) : Formed params ret result (.exit .unreachable none)

lemma ensures_expectOperand (params : List Param) (expected : Option Ty) :
    Ensures (expectOperand params expected) (Denoted params expected) := by
  refine ensures_bind_any fun column => ensures_bind_any fun w => ?_
  cases hx : readOperand params expected w with
  | ok x => exact ensures_pure (denoted_of_readOperand hx)
  | error fault => exact ensures_failAt column fault

lemma ensures_readCallee : Ensures readCallee fun name => Text.isIdentifier name.toList = true := by
  refine ensures_bind_any fun column => ensures_bind_any fun w => ?_
  split
  · split_ifs with hname
    · exact ensures_pure (by simpa using hname)
    · exact ensures_failAt _ _
  · exact ensures_failAt _ _

lemma ensures_readForm (params : List Param) (ret : Ty) (result : Option Nat)
    (column : Nat) (m : Mnemonic) (hneeds : m.needsResult = true → result.isSome = true)
    (hforbids : m.forbidsResult = true → result = none) :
    Ensures (readForm params ret result column m) (Formed params ret result) := by
  have hoperand (expected : Option Ty) := ensures_expectOperand params expected
  cases m with
  | binary op =>
    refine ensures_bind_any fun ty => ensures_bind (hoperand ty) fun a ha => ?_
    refine ensures_bind_any fun _ => ensures_bind (hoperand ty) fun b hb => ?_
    exact ensures_pure (.binary (hneeds rfl) ha hb)
  | load =>
    refine ensures_bind_any fun ty => ensures_bind (hoperand _) fun a ha => ?_
    exact ensures_pure (.load (hneeds rfl) ha)
  | alloca => exact ensures_bind_any fun ty => ensures_pure (.alloca (hneeds rfl))
  | const =>
    refine ensures_bind_any fun ty => ensures_bind (hoperand ty) fun x hx => ?_
    exact ensures_pure (.const (hneeds rfl) hx)
  | store =>
    refine ensures_bind_any fun ty => ensures_bind (hoperand ty) fun a ha => ?_
    refine ensures_bind_any fun _ => ensures_bind (hoperand _) fun b hb => ?_
    exact ensures_pure (.store (hforbids rfl) ha hb)
  | call =>
    refine ensures_bind_any fun ty => ensures_check (ensures_failAt _ _) fun hvoid => ?_
    refine ensures_bind ensures_readCallee fun callee hcallee => ensures_bind_any fun _ => ?_
    refine ensures_bind (ensures_separated _ (hoperand none)) fun xs hxs => ?_
    exact ensures_pure (.call (by simpa using hvoid) hcallee hxs)
  | ret =>
    refine ensures_bind_any fun ended => ?_
    refine ensures_ite (ensures_pure (.ret (hforbids rfl))) ?_
    refine ensures_check (ensures_failHere _) fun hvoid => ?_
    refine ensures_bind (hoperand ret) fun x hx => ?_
    exact ensures_pure (.retValue (hforbids rfl) (by simpa using hvoid) hx)
  | jmp => exact ensures_bind_any fun target => ensures_pure (.jump (hforbids rfl))
  | br =>
    refine ensures_bind (hoperand _) fun x hx => ensures_bind_any fun _ => ?_
    refine ensures_bind_any fun onTrue => ensures_bind_any fun _ => ensures_bind_any fun onFalse => ?_
    exact ensures_pure (.branch (hforbids rfl) hx)
  | unreachable => exact ensures_pure (.unreachable (hforbids rfl))

/-- What holds of all forms that can follow a result holds of statements. -/
lemma ensures_statement {params : List Param} {ret : Ty} {open? : Except Fault Unit}
    {R : Option Nat → Prop} {P : Option Nat × Statement → Prop}
    (hresult : ∀ column, Ensures (readResult column) R)
    (hform : open? = .ok () → ∀ result, R result → ∀ m : Mnemonic,
      ¬ (m.needsResult && result.isNone) = true → ¬ (m.forbidsResult && result.isSome) = true →
        ∀ column, Ensures (readForm params ret result column m) fun st => P (result, st)) :
    Ensures (readStatement params ret open?) P := by
  refine ensures_bind_any fun lineColumn => ?_
  refine ensures_bind (hresult lineColumn) fun result hresult => ?_
  refine ensures_bind_any fun column => ensures_bind_any fun w => ?_
  cases open? with
  | error fault => exact ensures_failAt _ _
  | ok u =>
    dsimp only
    cases Mnemonic.ofWord? w with
    | none => exact ensures_failAt _ _
    | some m =>
      refine ensures_check (ensures_failAt _ _) fun hneeds => ?_
      refine ensures_check (ensures_failAt _ _) fun hforbids => ?_
      refine ensures_bind (hform rfl result hresult m hneeds hforbids column) fun st hst => ?_
      exact ensures_bind_any fun _ => ensures_pure hst

/-- Statements have one of the forms, and are only read where they can stand. -/
theorem ensures_readStatement (params : List Param) (ret : Ty) (open? : Except Fault Unit) :
    Ensures (readStatement params ret open?) fun r =>
      open? = .ok () ∧ Formed params ret r.1 r.2 := by
  refine ensures_statement (fun _ => .any _) fun hopen result _ m hneeds hforbids column => ?_
  intro c st c' h
  refine ⟨hopen, ensures_readForm params ret result column m (fun hm => ?_) (fun hm => ?_) c st c' h⟩
  · simpa [hm, Option.isSome_iff_ne_none] using hneeds
  · simpa [hm] using hforbids

end NativeCode.Ir.Reader

namespace NativeCode.Ir

open Ir.Reader

def Instr.Written (params : List Param) (ret : Ty) (i : Instr) : Prop :=
  Formed params ret i.result (.instr i.kind i.ty i.operands)

/-- An end of a block that a line was read as. -/
inductive Terminator.Written (params : List Param) (ret : Ty) (t : Terminator) : Prop
  | exit (result : Option Nat) (h : Formed params ret result (.exit t.exit t.value))
  | ret (i : Instr) (h : i.Written params ret) (hkind : i.kind = .ret) (hexit : t.exit = .ret)
      (hvalue : t.value = i.operands.head?)

/-- A block whose instructions and end come from lines. -/
structure Block.Written (params : List Param) (ret : Ty) (b : Block) : Prop where
  instrs : ∀ i ∈ b.instrs, i.Written params ret
  term : b.term.Written params ret

def Block.ids (b : Block) : List Nat := b.instrs.map (·.id)

/-- The lines of the instructions of a block and of its end. -/
def Block.lines (b : Block) : List Nat := b.instrs.map (·.loc.line) ++ [b.term.loc.line]

/-- A function whose header and blocks come from lines further and further down. -/
structure Function.Written (f : Function) : Prop where
  header : ∃ g, Reads readHeader g ∧ g.name = f.name ∧ g.params = f.params ∧ g.ret = f.ret
  nonempty : f.blocks ≠ []
  blocks : ∀ b ∈ f.blocks, b.Written f.params f.ret
  ids : (f.blocks.flatMap Block.ids).Pairwise (· < ·)
  lines : (f.blocks.flatMap Block.lines).Pairwise (· < ·)

structure Module.Written (m : Module) : Prop where
  name : m.name = "module" ∨ Reads (readLastName .malformedModuleName) m.name
  globals : ∀ g ∈ m.globals, ∃ isConstant, Reads (readGlobal isConstant) g
  externs : ∀ name ∈ m.externs, Reads (readLastName .malformedExternName) name
  functions : ∀ f ∈ m.functions, f.Written

namespace Reader

/-! ### Blocks that are being read -/

/-- A block that is being read and whose statements come from lines. -/
structure OpenBlock.Written (params : List Param) (ret : Ty) (b : OpenBlock) : Prop where
  instrs : ∀ i ∈ b.instrs, i.Written params ret
  term : ∀ t, b.term = some t → t.Written params ret

/-- The lines of the statements of a block that is being read. -/
def OpenBlock.lines (b : OpenBlock) : List Nat :=
  b.instrs.toList.map (·.loc.line) ++ b.term.toList.map (·.loc.line)

/-- The numbers of the instructions of a block that is being read. -/
def OpenBlock.ids (b : OpenBlock) : List Nat := b.instrs.toList.map (·.id)

attribute [local simp] Block.lines OpenBlock.lines OpenBlock.ids

lemma OpenBlock.close_eq_ok_iff {b : OpenBlock} {b' : Block} : b.close = .ok b' ↔
    (∃ t, b.term = some t ∧ ⟨b.id, b.instrs.toList, t⟩ = b') ∨
      b.term = none ∧ ∃ front last, b.instrs.toList = front ++ [last] ∧ last.kind = .ret ∧
        ⟨b.id, front, .ret, last.operands.head?, last.loc⟩ = b' := by
  have hret (kind : InstrKind) : kind.isRet = true ↔ kind = .ret := by
    cases kind <;> simp [InstrKind.isRet]
  rw [close]
  cases b.term with
  | some t => simp
  | none =>
    simp only [reduceCtorEq, false_and, exists_false, true_and, false_or]
    constructor
    · intro h
      split at h
      · rename_i last hlast
        split_ifs at h with hkind
        refine ⟨_, last, ?_, (hret _).mp hkind, Except.ok.inj h⟩
        rw [Array.toList_pop]
        exact (List.dropLast_append_getLast? last (by simpa using hlast)).symm
      · cases h
    · rintro ⟨front, last, hinstrs, hkind, rfl⟩
      have hlast : b.instrs.back? = some last := by
        rw [← Array.getLast?_toList, hinstrs, List.getLast?_concat]
      simp [hlast, (hret _).mpr hkind, hinstrs]

lemma written_close {params : List Param} {ret : Ty} {b : OpenBlock} {b' : Block}
    (hb : b.Written params ret) (h : b.close = .ok b') :
    b'.Written params ret ∧ b'.lines = b.lines ∧ b'.ids.Sublist b.ids := by
  rcases OpenBlock.close_eq_ok_iff.mp h with ⟨t, ht, rfl⟩ | ⟨hterm, front, last, hinstrs, hkind, rfl⟩
  · refine ⟨⟨by simpa using hb.instrs, hb.term t ht⟩, ?_, .refl _⟩
    simp [ht]
  · have hmem (i : Instr) (hi : i ∈ front ++ [last]) : i.Written params ret :=
      hb.instrs i (Array.mem_toList_iff.mp (hinstrs ▸ hi))
    refine ⟨⟨fun i hi => hmem i (List.mem_append_left _ hi), ?_⟩, ?_, ?_⟩
    · exact .ret last (hmem last (by simp)) hkind rfl rfl
    · simp [hterm, hinstrs]
    · rw [Block.ids, OpenBlock.ids, hinstrs, List.map_append]
      exact List.sublist_append_left _ _

/-! ### Functions that are being read -/

namespace OpenFunction

/-- The lines of the statements of a function that is being read. -/
def lines (f : OpenFunction) : List Nat :=
  f.blocks.toList.flatMap Block.lines ++ f.current.toList.flatMap OpenBlock.lines

/-- The numbers of the instructions of a function that is being read. -/
def ids (f : OpenFunction) : List Nat :=
  f.blocks.toList.flatMap Block.ids ++ f.current.toList.flatMap OpenBlock.ids

attribute [local simp] OpenFunction.lines OpenFunction.ids

/-- A function that is being read after line `number`, and whose parts come from lines further and
further down. -/
structure Written (number : Nat) (f : OpenFunction) : Prop where
  header : ∃ g, Reads readHeader g ∧ g.name = f.name ∧ g.params = f.params ∧ g.ret = f.ret
  blocks : ∀ b ∈ f.blocks, b.Written f.params f.ret
  current : ∀ b, f.current = some b → b.Written f.params f.ret
  ids : f.ids.Pairwise (· < ·) ∧ ∀ id ∈ f.ids, id < f.nextId
  lines : f.lines.Pairwise (· < ·) ∧ ∀ l ∈ f.lines, l ≤ number

variable {number : Nat} {f f' : OpenFunction}

lemma Written.mono (h : f.Written number) {number' : Nat} (hle : number ≤ number') :
    f.Written number' :=
  { h with lines := ⟨h.lines.1, fun l hl => (h.lines.2 l hl).trans hle⟩ }

lemma closeBlock_eq_ok_iff : f.closeBlock = .ok f' ↔ (f.current = none ∧ f = f') ∨
    ∃ b block, f.current = some b ∧ b.close = .ok block ∧
      { f with blocks := f.blocks.push block, current := none } = f' := by
  rw [closeBlock]
  cases f.current <;> simp [bind_eq_ok_iff, pure, Except.pure]

lemma close_eq_ok_iff {g : Function} : f.close = .ok g ↔
    ∃ f₁, f.closeBlock = .ok f₁ ∧ f₁.blocks ≠ #[] ∧
      ⟨f₁.name, f₁.params, f₁.ret, f₁.blocks.toList⟩ = g := by
  rw [close, bind_eq_ok_iff]
  refine exists_congr fun f₁ => and_congr_right fun _ => ?_
  by_cases hempty : f₁.blocks = #[] <;>
    simp [hempty, throw, throwThe, MonadExceptOf.throw, bind, Except.bind, pure, Except.pure]

lemma openBlock_eq_ok_iff {line digits : List Char} : f.openBlock line digits = .ok f' ↔
    ∃ id f₁, Text.index? digits = some id ∧ f.closeBlock = .ok f₁ ∧
      { f₁ with current := some { id } } = f' := by
  rw [openBlock]
  cases Text.index? digits <;> simp [bind_eq_ok_iff, pure, Except.pure]

lemma readLine_eq_ok_iff {place : Nat → Source.Loc} {c : Cursor} {r : OpenFunction ⊕ Function} :
    f.readLine place c = .ok r ↔
      (c.rest = ['\x7d'] ∧ ∃ g, f.close = .ok g ∧ .inr g = r) ∨ c.rest ≠ ['\x7d'] ∧
        ((∃ digits f', label? c.rest = some digits ∧ f.openBlock c.rest digits = .ok f' ∧
          .inl f' = r) ∨
        label? c.rest = none ∧ ∃ a : (Option Nat × Statement) × Cursor,
          (readStatement f.params f.ret f.acceptsStatement).run c = .ok a ∧
            .inl (f.push (place c.column) a.1.1 a.1.2) = r) := by
  rw [readLine]
  by_cases hbrace : c.rest = ['\x7d']
  · simp [hbrace, map_eq_ok_iff, mapError_eq_ok_iff]
  · cases label? c.rest <;>
      simp [hbrace, map_eq_ok_iff, mapError_eq_ok_iff, bind_eq_ok_iff, pure, Except.pure]

lemma written_closeBlock (hf : f.Written number) (h : f.closeBlock = .ok f') :
    f'.Written number ∧ f'.current = none := by
  rcases closeBlock_eq_ok_iff.mp h with ⟨hcurrent, rfl⟩ | ⟨b, block, hb, hclose, rfl⟩
  · exact ⟨hf, hcurrent⟩
  · obtain ⟨hwritten, hlines, hids⟩ := written_close (hf.current b hb) hclose
    have hsub : (f.blocks.toList.flatMap Block.ids ++ block.ids).Sublist f.ids := by
      simpa [hb] using hids.append_left (f.blocks.toList.flatMap Block.ids)
    have hsame : f.lines = f.blocks.toList.flatMap Block.lines ++ block.lines := by
      simp [-Block.lines, -OpenBlock.lines, hb, hlines]
    refine ⟨⟨hf.header, fun b' hb' => ?_, by simp, ?_, ?_⟩, rfl⟩
    · rcases Array.mem_push.mp hb' with hb' | rfl
      · exact hf.blocks b' hb'
      · exact hwritten
    · simp only [OpenFunction.ids, Array.toList_push, List.flatMap_append, List.flatMap_singleton,
        Option.toList_none, List.flatMap_nil, List.append_nil]
      exact ⟨hf.ids.1.sublist hsub, fun id hid => hf.ids.2 id (hsub.subset hid)⟩
    · simp only [OpenFunction.lines, Array.toList_push, List.flatMap_append, List.flatMap_singleton,
        Option.toList_none, List.flatMap_nil, List.append_nil]
      exact hsame ▸ hf.lines

lemma written_of_close {g : Function} (hf : f.Written number) (h : f.close = .ok g) :
    g.Written := by
  obtain ⟨f₁, hclose, hempty, rfl⟩ := close_eq_ok_iff.mp h
  obtain ⟨hwritten, hcurrent⟩ := written_closeBlock hf hclose
  have hids := hwritten.ids.1
  have hlines := hwritten.lines.1
  simp only [OpenFunction.ids, OpenFunction.lines, hcurrent, Option.toList_none, List.flatMap_nil,
    List.append_nil] at hids hlines
  exact ⟨hwritten.header, by simpa using hempty, by simpa using hwritten.blocks, hids, hlines⟩

lemma written_openBlock (hf : f.Written number) {line digits : List Char}
    (h : f.openBlock line digits = .ok f') : f'.Written number := by
  obtain ⟨id, f₁, -, hclose, rfl⟩ := openBlock_eq_ok_iff.mp h
  obtain ⟨hwritten, hcurrent⟩ := written_closeBlock hf hclose
  have hids := hwritten.ids
  have hlines := hwritten.lines
  simp only [OpenFunction.ids, OpenFunction.lines, hcurrent] at hids hlines
  refine ⟨hwritten.header, hwritten.blocks, fun b hb => ?_, ?_, ?_⟩
  · cases hb
    exact ⟨by simp, by simp⟩
  · simpa using hids
  · simpa using hlines

lemma pairwise_concat {l : List Nat} {n m : Nat} (hl : l.Pairwise (· < ·))
    (hn : ∀ k ∈ l, k < n) (hm : n ≤ m) :
    (l ++ [n]).Pairwise (· < ·) ∧ ∀ k ∈ l ++ [n], k ≤ m := by
  refine ⟨List.pairwise_append.mpr ⟨hl, List.pairwise_singleton _ _, ?_⟩, fun k hk => ?_⟩
  · intro k hk k' hk'
    rw [List.mem_singleton.mp hk']
    exact hn k hk
  · rcases List.mem_append.mp hk with hk | hk
    · exact (hn k hk).le.trans hm
    · rw [List.mem_singleton.mp hk]
      exact hm

lemma exists_current (h : f.acceptsStatement = .ok ()) :
    ∃ b, f.current = some b ∧ b.term = none := by
  rw [acceptsStatement] at h
  cases hb : f.current with
  | none => simp [hb] at h
  | some b => exact ⟨b, rfl, by simpa [hb] using h⟩

lemma written_push (hf : f.Written number) (hopen : f.acceptsStatement = .ok ())
    {loc : Source.Loc} (hloc : loc.line = number + 1) {result : Option Nat} {st : Statement}
    (h : Formed f.params f.ret result st) : (f.push loc result st).Written (number + 1) := by
  obtain ⟨b, hb, hterm⟩ := exists_current hopen
  have hcurrent := hf.current b hb
  have hnext := pairwise_concat hf.lines.1 (fun k hk => Nat.lt_succ_of_le (hf.lines.2 k hk))
    (le_refl (number + 1))
  cases st with
  | instr kind ty operands =>
    refine ⟨hf.header, hf.blocks, fun b' hb' => ?_, ?_, ?_⟩
    · obtain ⟨b₀, hb₀, rfl⟩ := Option.map_eq_some_iff.mp hb'
      obtain rfl := Option.some.inj (hb.symm.trans hb₀)
      refine ⟨fun i hi => ?_, hcurrent.term⟩
      rcases Array.mem_push.mp hi with hi | rfl
      · exact hcurrent.instrs i hi
      · exact h
    · have hnew := pairwise_concat hf.ids.1 hf.ids.2 (le_refl f.nextId)
      have heq : (f.push loc result (.instr kind ty operands)).ids = f.ids ++ [f.nextId] := by
        simp [push, hb]
      rw [heq]
      exact ⟨hnew.1, fun id hid => Nat.lt_succ_of_le (hnew.2 id hid)⟩
    · have heq : (f.push loc result (.instr kind ty operands)).lines = f.lines ++ [number + 1] := by
        simp [push, hb, hterm, hloc]
      rw [heq]
      exact hnext
  | exit exit value =>
    refine ⟨hf.header, hf.blocks, fun b' hb' => ?_, ?_, ?_⟩
    · obtain ⟨b₀, hb₀, rfl⟩ := Option.map_eq_some_iff.mp hb'
      obtain rfl := Option.some.inj (hb.symm.trans hb₀)
      refine ⟨hcurrent.instrs, fun t ht => ?_⟩
      cases ht
      exact .exit result h
    · have heq : (f.push loc result (.exit exit value)).ids = f.ids := by
        simp [push, hb]
      rw [heq]
      exact hf.ids
    · have heq : (f.push loc result (.exit exit value)).lines = f.lines ++ [number + 1] := by
        simp [push, hb, hterm, hloc]
      rw [heq]
      exact hnext

/-- What is left of a function after one of its lines: the function, still open or finished. -/
def BodyWritten (number : Nat) : OpenFunction ⊕ Function → Prop
  | .inl f => f.Written number
  | .inr f => f.Written

lemma written_readLine (hf : f.Written number) {place : Nat → Source.Loc}
    (hplace : ∀ column, (place column).line = number + 1) {c : Cursor}
    {r : OpenFunction ⊕ Function} (h : f.readLine place c = .ok r) : BodyWritten (number + 1) r := by
  rcases readLine_eq_ok_iff.mp h with ⟨-, g, hclose, rfl⟩ | ⟨-, ⟨digits, f', -, hopen, rfl⟩ |
    ⟨-, a, hr, rfl⟩⟩
  · exact written_of_close hf hclose
  · exact (written_openBlock hf hopen).mono (Nat.le_succ number)
  · obtain ⟨hopen, hreads⟩ := ensures_readStatement _ _ _ c a.1 a.2 hr
    exact written_push hf hopen (hplace _) hreads

end OpenFunction

/-! ### Modules -/

namespace Progress

/-- What has been read up to line `number` comes from lines. -/
structure Written (number : Nat) (p : Progress) : Prop where
  name : p.name = "module" ∨ Reads (readLastName .malformedModuleName) p.name
  globals : ∀ g ∈ p.globals, ∃ isConstant, Reads (readGlobal isConstant) g
  externs : ∀ name ∈ p.externs, Reads (readLastName .malformedExternName) name
  functions : ∀ f ∈ p.functions, f.Written
  body : ∀ f, p.body = some f → f.Written number

variable {file number : Nat} {p p' : Progress}

lemma ensures_readHeader_empty :
    Ensures readHeader fun g => g.blocks = #[] ∧ g.current = none := by
  refine ensures_bind_any fun name => ensures_bind_any fun _ => ensures_bind_any fun params => ?_
  refine ensures_bind_any fun ret => ensures_bind_any fun _ => ensures_bind_any fun _ => ?_
  exact ensures_pure ⟨rfl, rfl⟩

lemma ensures_readHeader (number : Nat) :
    Ensures readHeader (OpenFunction.Written number) := by
  intro c g c' h
  have hempty := ensures_readHeader_empty c g c' h
  refine ⟨⟨g, ⟨c, c', h⟩, rfl, rfl, rfl⟩, ?_, ?_, ?_, ?_⟩
  all_goals simp [OpenFunction.ids, OpenFunction.lines, hempty]

lemma ensures_readItem (hp : p.Written number) (hbody : p.body = none) :
    Ensures p.readItem (Written (number + 1)) := by
  refine ensures_bind_any fun column => ensures_bind_any fun w => ?_
  have hglobal (isConstant : Bool) : Ensures (readGlobal isConstant) fun g =>
      Written (number + 1) { p with globals := p.globals.push g } := by
    refine fun c g c' h => ⟨hp.name, fun g' hg' => ?_, hp.externs, hp.functions, by simp [hbody]⟩
    rcases Array.mem_push.mp hg' with hg' | rfl
    · exact hp.globals g' hg'
    · exact ⟨isConstant, c, c', h⟩
  split
  · refine ensures_bind (ensures_reads _) fun name hname => ensures_pure ?_
    exact { hp with name := Or.inr hname, body := by simp [hbody] }
  · exact ensures_bind (hglobal false) fun g hg => ensures_pure hg
  · exact ensures_bind (hglobal true) fun g hg => ensures_pure hg
  · refine ensures_bind (ensures_reads _) fun name hname => ensures_pure ?_
    refine { hp with externs := fun name' hname' => ?_, body := by simp [hbody] }
    rcases Array.mem_push.mp hname' with hname' | rfl
    · exact hp.externs name' hname'
    · exact hname
  · refine ensures_bind (ensures_readHeader (number + 1)) fun f hf => ensures_pure ?_
    refine { hp with body := ?_ }
    rintro f' ⟨⟩
    exact hf
  · exact ensures_failAt _ _

def leave (p : Progress) : OpenFunction ⊕ Function → Progress
  | .inl f => { p with body := some f }
  | .inr f => { p with functions := p.functions.push f, body := none }

lemma readLine_eq_ok_iff {line : List Char} : p.readLine file number line = .ok p' ↔
    (isSkipped (Cursor.skipBlanks ⟨Text.trimEnd line, 1⟩).rest = true ∧ p = p') ∨
      isSkipped (Cursor.skipBlanks ⟨Text.trimEnd line, 1⟩).rest = false ∧
        ((p.body = none ∧ ∃ c',
          p.readItem.run (Cursor.skipBlanks ⟨Text.trimEnd line, 1⟩) = .ok (p', c')) ∨
        ∃ f, p.body = some f ∧ ∃ r, f.readLine (fun column => ⟨file, number, column⟩)
          (Cursor.skipBlanks ⟨Text.trimEnd line, 1⟩) = .ok r ∧ p.leave r = p') := by
  rw [readLine]
  generalize Cursor.skipBlanks ⟨Text.trimEnd line, 1⟩ = c
  cases isSkipped c.rest with
  | true => simp
  | false =>
    simp only [Bool.false_eq_true, if_false, mapError_eq_ok_iff, readContent, false_and, false_or,
      true_and]
    cases p.body with
    | none => simp [map_eq_ok_iff, Functor.map]
    | some f =>
      simp only [bind_eq_ok_iff, Option.some.injEq, reduceCtorEq, false_and, false_or, exists_eq_left']
      refine exists_congr fun r => and_congr_right fun _ => ?_
      cases r <;> simp [leave, pure, Except.pure]

lemma written_readLine {line : List Char} (hp : p.Written number)
    (h : p.readLine file (number + 1) line = .ok p') : p'.Written (number + 1) := by
  rcases readLine_eq_ok_iff.mp h with ⟨-, rfl⟩ | ⟨-, ⟨hbody, c', hr⟩ | ⟨f, hbody, r, hr, rfl⟩⟩
  · exact { hp with body := fun f hf => (hp.body f hf).mono (Nat.le_succ number) }
  · exact ensures_readItem hp hbody _ p' c' hr
  · have hline := OpenFunction.written_readLine (hp.body f hbody) (fun _ => rfl) hr
    cases r with
    | inl f' =>
      refine { hp with body := ?_ }
      rintro _ ⟨⟩
      exact hline
    | inr f' =>
      refine { hp with functions := fun g hg => ?_, body := by simp [leave] }
      rcases Array.mem_push.mp hg with hg | rfl
      · exact hp.functions g hg
      · exact hline

lemma close_eq_ok_iff {m : Module} : p.close file number = .ok m ↔
    p.body = none ∧
      ⟨p.name, p.globals.toList, p.externs.toList, p.functions.toList⟩ = m := by
  rw [close]
  cases p.body <;> simp

lemma written_readLines {lines : List (List Char)} {m : Module}
    (hp : p.Written number) (h : p.readLines file number lines = .ok m) : m.Written := by
  induction lines generalizing p number with
  | nil =>
    obtain ⟨-, rfl⟩ := close_eq_ok_iff.mp h
    exact ⟨hp.name, by simpa using hp.globals, by simpa using hp.externs,
      by simpa using hp.functions⟩
  | cons line lines ih =>
    obtain ⟨p', hline, h⟩ := exists_ok_of_bind h
    exact ih (written_readLine hp hline) h

lemma written_start : Written 0 {} := ⟨Or.inl rfl, by simp, by simp, by simp, by simp⟩

end Progress

/-- The parts of a module that has been read come from lines. -/
theorem written_of_readModule {file : Nat} {text : String} {m : Module}
    (h : readModule file text = .ok m) : m.Written :=
  Progress.written_readLines Progress.written_start h

end Reader

end NativeCode.Ir
