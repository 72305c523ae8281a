import NativeCode.Proofs.Ir.Scans

/-!
# Printed statements are read back

What a scan has read is read back from its printed form: types, operands, block references and
callees, and with them whole statements. Parameters are printed by position, so that they are read
back if they are named by position; literals are read back if they have the type that their position
expects, and are no floats.
-/

namespace NativeCode.Ir

open Text

/-- A literal has the type that its position expects, and is no float. -/
def Operand.Fits (expected : Ty) : Operand → Prop
  | .const ty _ => ty = expected ∧ ty.isFloat = false
  | _ => True

instance (expected : Ty) : DecidablePred (Operand.Fits expected)
  | .const ty _ => inferInstanceAs (Decidable (ty = expected ∧ ty.isFloat = false))
  | .value _ | .param _ | .global _ => inferInstanceAs (Decidable True)

namespace Reader

variable {ty : Ty} {n : Nat} {params : List Param} {w : List Char}

/-! ### Types, operands and block references -/

lemma ofName?_scalars (h : ty ∈ Ty.scalars) :
    Ty.ofName? ty.name = some ty ∧ IsToken ty.name.toList := by
  have hall : Ty.scalars.all (fun ty => decide (Ty.ofName? ty.name = some ty) &&
      (decide (ty.name.toList ≠ []) && ty.name.toList.all isWordChar)) = true := by
    decide +kernel
  have hty := List.all_eq_true.mp hall ty h
  rw [Bool.and_eq_true, Bool.and_eq_true, decide_eq_true_eq, decide_eq_true_eq, List.all_eq_true] at hty
  exact ⟨hty.1, hty.2.1, hty.2.2⟩

lemma find?_scalars {name : String} {c : Char} (hc : c = 'a' ∨ c = 's')
    (hname : name.toList.head? = some c) : Ty.scalars.find? (·.name == name) = none := by
  have hall : Ty.scalars.all (fun ty => decide (ty.name.toList.head? ≠ some 'a') &&
      decide (ty.name.toList.head? ≠ some 's')) = true := by
    decide +kernel
  refine List.find?_eq_none.mpr fun ty hty h => ?_
  have hne := List.all_eq_true.mp hall ty hty
  rw [Bool.and_eq_true, decide_eq_true_eq, decide_eq_true_eq, eq_of_beq h, hname] at hne
  rcases hc with rfl | rfl
  · exact hne.1 rfl
  · exact hne.2 rfl

lemma sizeAfter?_repr {head name : String} (h : n < 4294967296)
    (hname : name.toList = head.toList ++ (n.repr.toList ++ ['>'])) :
    Ty.sizeAfter? head name.toList = some n := by
  rw [hname, Ty.sizeAfter?, if_pos (List.isPrefixOf_iff_prefix.mpr (List.prefix_append _ _)),
    ← String.length_toList, List.drop_left, Ty.bracketed?, List.reverse_append]
  change index? n.repr.toList.reverse.reverse = some n
  rw [List.reverse_reverse, index?_repr h]

lemma lt_of_sizeAfter? {head : String} {cs : List Char}
    (h : Ty.sizeAfter? head cs = some n) : n < 4294967296 := by
  unfold Ty.sizeAfter? Ty.bracketed? at h
  split_ifs at h
  split at h
  · exact lt_of_index? h
  · cases h

lemma name_array (n : Nat) :
    (Ty.array n).name.toList = "array<".toList ++ (n.repr.toList ++ ['>']) := by
  change ("array<" ++ n.repr ++ ">").toList = _
  rw [String.toList_append, String.toList_append, List.append_assoc]
  rfl

lemma name_struct (n : Nat) :
    (Ty.struct n).name.toList = "struct<".toList ++ (n.repr.toList ++ ['>']) := by
  change ("struct<" ++ n.repr ++ ">").toList = _
  rw [String.toList_append, String.toList_append, List.append_assoc]
  rfl

lemma ofName?_array (hn : n ≠ 0) (h : n < 4294967296) :
    Ty.ofName? (Ty.array n).name = some (.array n) := by
  rw [Ty.ofName?, find?_scalars (Or.inl rfl) (by rw [name_array]; rfl)]
  dsimp only
  rw [sizeAfter?_repr h (name_array n)]
  exact if_neg hn

lemma ofName?_struct (hn : n ≠ 0) (h : n < 4294967296) :
    Ty.ofName? (Ty.struct n).name = some (.struct n) := by
  have harray : Ty.sizeAfter? "array<" (Ty.struct n).name.toList = none := by
    rw [name_struct]
    rfl
  rw [Ty.ofName?, find?_scalars (Or.inr rfl) (by rw [name_struct]; rfl)]
  dsimp only
  rw [harray, sizeAfter?_repr h (name_struct n)]
  exact if_neg hn

lemma ofName?_name {text : String} (h : Ty.ofName? text = some ty) :
    Ty.ofName? ty.name = some ty ∧ IsToken ty.name.toList := by
  have htoken (n : Nat) {head : List Char} (hhead : IsToken head) :
      IsToken (head ++ (n.repr.toList ++ ['>'])) :=
    hhead.append ((isToken_repr n).append (isToken_of_all (by decide) (by decide)))
  unfold Ty.ofName? at h
  split at h
  case h_1 ty' hfind =>
    cases h
    exact ofName?_scalars (List.mem_of_find?_eq_some hfind)
  case h_2 =>
    split at h
    · rename_i n hsize
      split_ifs at h with hn
      cases h
      refine ⟨ofName?_array hn (lt_of_sizeAfter? hsize), ?_⟩
      rw [name_array]
      exact htoken n (isToken_of_all (by decide) (by decide))
    · rename_i n _ hsize
      split_ifs at h with hn
      cases h
      refine ⟨ofName?_struct hn (lt_of_sizeAfter? hsize), ?_⟩
      rw [name_struct]
      exact htoken n (isToken_of_all (by decide) (by decide))
    · cases h

lemma ensures_renders_ty : Ensures expectTy fun ty => Renders expectTy ty ty.name.toList := by
  refine ensures_bind_any fun column => ensures_bind_any fun w => ?_
  split
  · rename_i ty hty
    obtain ⟨hname, htoken⟩ := ofName?_name hty
    refine ensures_pure (.of_token htoken fun column rest => ?_)
    rw [String.ofList_toList, hname]
    exact scans_pure
  · exact ensures_failAt _ _

lemma isToken_cons {c : Char} (hc : isWordChar c = true) (h : IsToken w) :
    IsToken (c :: w) :=
  ⟨List.cons_ne_nil _ _, List.forall_mem_cons.mpr ⟨hc, h.chars⟩⟩

def blockRefText (id : Nat) : String := s!"bb{id}"

lemma toList_blockRefText (id : Nat) :
    (blockRefText id).toList = 'b' :: 'b' :: id.repr.toList := by
  change ("bb" ++ id.repr).toList = _
  rw [String.toList_append]
  rfl

lemma ensures_renders_blockRef :
    Ensures expectBlockRef fun id => Renders expectBlockRef id (blockRefText id).toList := by
  refine ensures_bind_any fun column => ensures_bind_any fun w => ?_
  split
  · rename_i id hid
    have hlt : id < 4294967296 := by
      unfold readBlockRef at hid
      split at hid
      · exact lt_of_index? hid
      · cases hid
    refine ensures_pure ?_
    rw [toList_blockRefText]
    refine .of_token (isToken_cons rfl (isToken_cons rfl (isToken_repr id))) fun _ _ => ?_
    rw [readBlockRef, index?_repr hlt]
    exact scans_pure
  · exact ensures_failAt _ _

lemma toList_at (name : String) : ("@" ++ name).toList = '@' :: name.toList := by
  rw [String.toList_append]
  rfl

lemma ensures_renders_callee :
    Ensures readCallee fun name => Renders readCallee name ("@" ++ name).toList := by
  refine ensures_bind_any fun column => ensures_bind_any fun w => ?_
  split
  · rename_i w
    split_ifs with hw
    · refine ensures_pure ?_
      rw [toList_at, String.toList_ofList]
      refine .of_token (isToken_cons rfl (isToken_of_isIdentifier hw)) fun _ _ => ?_
      simp only [hw, if_true]
      exact scans_pure
    · exact ensures_failAt _ _
  · exact ensures_failAt _ _

def Positional (params : List Param) : Prop :=
  params.map (·.name) = (List.range params.length).map fun i => s!"arg{i}"

instance (params : List Param) : Decidable (Positional params) :=
  inferInstanceAs (Decidable (params.map (·.name) = _))

lemma findIdx?_positional (h : Positional params) {i : Nat} (hi : i < params.length) :
    params.findIdx? (·.name == s!"arg{i}") = some i := by
  have hname {j : Nat} (hj : j < params.length) : params[j].name = s!"arg{j}" := by
    have hget := congrArg (·[j]?) h
    simpa [hj] using hget
  refine List.findIdx?_eq_some_iff_getElem.mpr ⟨hi, by simp [hname hi], fun j hj heq => ?_⟩
  rw [hname (hj.trans hi)] at heq
  have hrepr : j.repr = i.repr := (String.append_right_inj _).mp (eq_of_beq heq)
  have hsome := digits?_repr j
  rw [hrepr, digits?_repr] at hsome
  exact absurd (Option.some.inj hsome) (Nat.ne_of_gt hj)

lemma readOperand_numeral {expected : Option Ty} {v : Word}
    (hw : ∀ c ∈ w, c.isDigit = true ∨ c = '-') (hv : integer? w = some v)
    (hty : expected.getD .i64 = ty) (hint : ty.isInteger = true) (hholds : ty.holds v = true) :
    readOperand params expected w = .ok (.const ty v) := by
  subst hty
  have hne {d : Char} (hd : (d.isDigit || d == '-') = false) : d ∉ w := by
    intro hmem
    have hd' : (d.isDigit || d == '-') = true := by simpa using hw d hmem
    rw [hd] at hd'
    cases hd'
  have hmarks : ∀ d ∈ ['%', '@', 't', 'l', 'n', '.'], d ∉ w := by
    simp only [List.forall_mem_cons, List.not_mem_nil, false_implies, implies_true, and_true]
    refine ⟨?_, ?_, ?_, ?_, ?_, ?_⟩ <;> exact hne (by decide)
  rw [readOperand_eq_readInteger (by rintro rfl; cases hv) hmarks
    (Or.inr ⟨hne (by decide), hne (by decide)⟩) hint, readInteger, hv]
  simp [hint, hholds]

lemma toList_value (id : Nat) :
    (Operand.value id).text.toList = '%' :: id.repr.toList := by
  change ("%" ++ id.repr).toList = _
  rw [String.toList_append]
  rfl

lemma toList_param (index : Nat) :
    (Operand.param index).text.toList = '%' :: 'a' :: 'r' :: 'g' :: index.repr.toList := by
  change ("%arg" ++ index.repr).toList = _
  rw [String.toList_append]
  rfl

lemma text_const (h : ty.isFloat = false) (bits : Word) :
    (Operand.const ty bits).text = toString bits.toInt := by
  cases ty with
  | float p => cases h
  | _ => rfl

lemma isToken_toString (v : Int) : IsToken (toString v).toList := by
  refine ⟨toString_ne_nil v, fun c hc => ?_⟩
  rcases digit_or_sign_of_mem hc with hc | rfl
  · exact isWordChar_of_isDigit hc
  · rfl

lemma readOperand_text {expected : Option Ty} {x : Operand} (hparams : Positional params)
    (h : readOperand params expected w = .ok x) (hfits : x.Fits (expected.getD .i64)) :
    readOperand params expected x.text.toList = .ok x ∧ IsToken x.text.toList := by
  -- all literals that fit are printed as numerals
  have hconst {ty : Ty} {bits : Word} (hx : x = .const ty bits) (hint : ty.isInteger = true)
      (hholds : ty.holds bits = true) :
      readOperand params expected x.text.toList = .ok x ∧ IsToken x.text.toList := by
    subst hx
    rw [text_const hfits.2]
    exact ⟨readOperand_numeral (fun _ => digit_or_sign_of_mem) (integer?_toString bits) hfits.1.symm hint
      hholds, isToken_toString _⟩
  unfold readOperand at h
  split at h
  case h_1 => cases h
  case h_2 rest =>
    unfold readReference at h
    split at h
    case h_1 id hid =>
      cases h
      rw [toList_value]
      refine ⟨?_, isToken_cons rfl (isToken_repr id)⟩
      rw [readOperand, readReference, index?_repr (lt_of_index? hid)]
    case h_2 =>
      split at h
      case h_1 index hindex =>
        cases h
        have hlt : index < params.length := (List.findIdx?_eq_some_iff_findIdx_eq.mp hindex).1
        have hname : String.ofList ('a' :: 'r' :: 'g' :: index.repr.toList) = s!"arg{index}" := by
          change _ = "arg" ++ index.repr
          rw [← String.toList_inj, String.toList_append, String.toList_ofList]
          rfl
        rw [toList_param]
        refine ⟨?_, isToken_cons rfl (isToken_cons rfl (isToken_cons rfl (isToken_cons rfl
          (isToken_repr index))))⟩
        rw [readOperand, readReference, index?_eq_none rfl, hname]
        dsimp only
        rw [findIdx?_positional hparams hlt]
      case h_2 => cases h
  case h_3 rest =>
    split_ifs at h with hname
    cases h
    rw [Operand.text, toList_at, String.toList_ofList]
    refine ⟨?_, isToken_cons rfl (isToken_of_isIdentifier hname)⟩
    rw [readOperand, if_pos hname]
  case h_4 =>
    split_ifs at h
    · exact hconst (Except.ok.inj h).symm rfl rfl
    · exact hconst (Except.ok.inj h).symm rfl rfl
    · unfold readLiteral at h
      split at h
      · obtain ⟨bits, rfl⟩ := readFloat_eq_ok h
        cases hfits.2
      · split_ifs at h
        obtain ⟨bits, hx, hint, hholds⟩ := readInteger_eq_ok h
        exact hconst hx hint hholds
      · split_ifs at h
        · obtain ⟨bits, rfl⟩ := readFloat_eq_ok h
          cases hfits.2
        · obtain ⟨bits, hx, hint, hholds⟩ := readInteger_eq_ok h
          exact hconst hx hint hholds

theorem ensures_renders_operand (hparams : Positional params) (expected : Option Ty) :
    Ensures (expectOperand params expected) fun x => x.Fits (expected.getD .i64) →
      Renders (expectOperand params expected) x x.text.toList := by
  refine ensures_bind_any fun column => ensures_bind_any fun w => ?_
  cases hx : readOperand params expected w with
  | error fault => exact ensures_failAt column fault
  | ok x =>
    refine ensures_pure fun hfits => ?_
    obtain ⟨htext, htoken⟩ := readOperand_text hparams hx hfits
    refine .of_token htoken fun column rest => ?_
    rw [htext]
    exact scans_pure

/-! ### Statements -/

def Mnemonic.word : Mnemonic → String
  | binary op => op.name
  | load => "load"
  | alloca => "alloca"
  | const => "const"
  | store => "store"
  | call => "call"
  | ret => "ret"
  | jmp => "jmp"
  | br => "br"
  | unreachable => "unreachable"

namespace Statement

/-- The literals of a statement of a function that returns `ret` have the types that their positions
expect: that of the instruction, pointers for addresses, 64-bit integers for arguments of calls, that of
the function for what is returned, and booleans for conditions. -/
def Fits (ret : Ty) : Statement → Prop
  | .instr .load _ operands => ∀ x ∈ operands, x.Fits .ptr
  | .instr .store ty operands => ∀ q ∈ operands.zip [ty, .ptr], q.1.Fits q.2
  | .instr (.call _) _ operands => ∀ x ∈ operands, x.Fits .i64
  | .instr .ret _ operands => ∀ x ∈ operands, x.Fits ret
  | .instr _ ty operands => ∀ x ∈ operands, x.Fits ty
  | .exit _ value => ∀ x ∈ value, x.Fits .bool

instance (ret : Ty) : DecidablePred (Fits ret)
  | .instr .load _ operands => inferInstanceAs (Decidable (∀ x ∈ operands, x.Fits .ptr))
  | .instr .store ty operands =>
    inferInstanceAs (Decidable (∀ q ∈ operands.zip [ty, .ptr], q.1.Fits q.2))
  | .instr (.call _) _ operands => inferInstanceAs (Decidable (∀ x ∈ operands, x.Fits .i64))
  | .instr .ret _ operands => inferInstanceAs (Decidable (∀ x ∈ operands, x.Fits ret))
  | .instr (.binary _) ty operands | .instr .alloca ty operands | .instr .const ty operands =>
    inferInstanceAs (Decidable (∀ x ∈ operands, x.Fits ty))
  | .exit _ value => inferInstanceAs (Decidable (∀ x ∈ value, x.Fits .bool))

def mnemonic : Statement → Mnemonic
  | .instr (.binary op) _ _ => .binary op
  | .instr .load _ _ => .load
  | .instr .store _ _ => .store
  | .instr (.call _) _ _ => .call
  | .instr .ret _ _ => .ret
  | .instr .alloca _ _ => .alloca
  | .instr .const _ _ => .const
  | .exit (.jump _) _ => .jmp
  | .exit (.branch _ _) _ => .br
  | .exit _ _ => .unreachable

/-- The printed form of what follows the mnemonic. -/
def tail : Statement → String
  | .instr .ret _ (x :: _) => " " ++ x.text
  | .instr .ret _ [] => ""
  | .instr kind ty operands => " " ++ ty.name ++ Instr.argumentsText { kind, ty, operands }
  | .exit (.jump target) _ => " " ++ blockRefText target
  | .exit (.branch onTrue onFalse) value =>
    " " ++ (value.map Operand.text).getD "?" ++ ", " ++ blockRefText onTrue ++ ", " ++
      blockRefText onFalse
  | .exit _ _ => ""

def text (result : Option Nat) (st : Statement) : String :=
  Instr.resultText { result, kind := .ret } ++ st.mnemonic.word ++ st.tail

end Statement

/-- Characters that lie within one line, and of which the last can end a statement. -/
structure Closed (cs : List Char) : Prop where
  last : ∃ c, cs.getLast? = some c ∧ isBlank c = false ∧ c ≠ ':' ∧ c ≠ '\x7d'
  inline : '\n' ∉ cs

namespace Closed

variable {cs cs' : List Char} {c : Char}

lemma append (h : Closed cs) (h' : '\n' ∉ cs') : Closed (cs' ++ cs) := by
  obtain ⟨c, hlast, hc⟩ := h.last
  refine ⟨⟨c, by rw [List.getLast?_append, hlast]; rfl, hc⟩, fun hmem => ?_⟩
  rcases List.mem_append.mp hmem with hmem | hmem
  · exact h' hmem
  · exact h.inline hmem

lemma cons (h : Closed cs) (hc : c ≠ '\n') : Closed (c :: cs) :=
  h.append fun hmem => hc (List.mem_singleton.mp hmem).symm

lemma space (h : Closed cs) : Closed (' ' :: cs) := h.cons (by decide)

lemma comma (h : Closed cs) : Closed (',' :: ' ' :: cs) := h.space.cons (by decide)

end Closed

lemma IsToken.inline {w : List Char} (h : IsToken w) : '\n' ∉ w := fun hmem => by
  cases h.chars '\n' hmem

lemma IsToken.closed {w : List Char} (h : IsToken w) : Closed w := by
  obtain ⟨c, hc⟩ := List.getLast?_isSome.mpr h.ne_nil |> Option.isSome_iff_exists.mp
  have hword := h.chars c (List.mem_of_getLast? hc)
  refine ⟨⟨c, hc, isBlank_of_isWordChar hword, ?_, ?_⟩, h.inline⟩
  · rintro rfl
    cases hword
  · rintro rfl
    cases hword

lemma inline_joined {ws : List (List Char)} (h : ∀ w ∈ ws, IsToken w) : '\n' ∉ joined ws := by
  induction ws with
  | nil => simp [joined]
  | cons w ws ih =>
    obtain ⟨hw, hws⟩ := List.forall_mem_cons.mp h
    cases ws with
    | nil =>
      rw [joined, List.intercalate_singleton]
      exact hw.inline
    | cons w' ws =>
      rw [joined_cons_cons]
      simpa [hw.inline] using ih hws

section Forms

attribute [local simp] Statement.tail Instr.argumentsText operandsText

variable {α : Type} {x : Scan α} {a : α} {w rest : List Char}

lemma Renders.space (h : Renders x a w) (hrest : Ends rest) :
    Scans x (' ' :: (w ++ rest)) a rest := h.scans blanks_space hrest

lemma Renders.space_end (h : Renders x a w) : Scans x (' ' :: w) a [] := by
  simpa using h.space ends_nil

/-- What follows the mnemonic of a statement is read back. -/
structure FormRereads (params : List Param) (ret : Ty) (result : Option Nat) (m : Mnemonic)
    (st : Statement) : Prop where
  mnemonic : st.mnemonic = m
  scans : ∀ column, Scans (readForm params ret result column m) st.tail.toList st []
  ends : Ends st.tail.toList
  closed : st.tail.toList = [] ∨ Closed st.tail.toList

variable {ret : Ty} {result : Option Nat} {column : Nat} {m : Mnemonic} {kind : InstrKind}

lemma FormRereads.of_tail {st : Statement} {cs : List Char}
    (htail : st.tail.toList = ' ' :: cs) (hclosed : Closed cs)
    (hscans : ∀ column, Scans (readForm params ret result column st.mnemonic) (' ' :: cs) st []) :
    FormRereads params ret result st.mnemonic st :=
  ⟨rfl, fun column => htail ▸ hscans column, htail ▸ ends_cons rfl, Or.inr (htail ▸ hclosed.space)⟩

lemma ensures_operandForm (hparams : Positional params) (e : Ty → Ty)
    (hform : ∀ column, readForm params ret result column m = do
      let ty ← expectTy
      let x ← expectOperand params (e ty)
      return .instr kind ty [x])
    (hkind : ∀ ty x, (Statement.instr kind ty [x]).mnemonic = m ∧
      (Statement.instr kind ty [x]).tail.toList =
        ' ' :: (ty.name.toList ++ ' ' :: x.text.toList) ∧
      ((Statement.instr kind ty [x]).Fits ret → x.Fits (e ty))) :
    Ensures (readForm params ret result column m) fun st => st.Fits ret →
      FormRereads params ret result m st := by
  rw [hform]
  refine ensures_bind ensures_renders_ty fun ty hty => ?_
  refine ensures_bind (ensures_renders_operand hparams _) fun x hx => ensures_pure fun hfits => ?_
  obtain ⟨rfl, htail, hoperand⟩ := hkind ty x
  have hx := hx (hoperand hfits)
  refine .of_tail htail (hx.token.closed.space.append hty.token.inline) fun column => ?_
  rw [hform]
  exact scans_bind (hty.space (ends_cons rfl)) (scans_bind hx.space_end scans_pure)

lemma ensures_pairForm (hparams : Positional params) (e e' : Ty → Ty)
    (hform : ∀ column, readForm params ret result column m = do
      let ty ← expectTy
      let x ← expectOperand params (e ty)
      expectComma
      let y ← expectOperand params (e' ty)
      return .instr kind ty [x, y])
    (hkind : ∀ ty x y, (Statement.instr kind ty [x, y]).mnemonic = m ∧
      (Statement.instr kind ty [x, y]).tail.toList =
        ' ' :: (ty.name.toList ++ ' ' :: (x.text.toList ++ ',' :: ' ' :: y.text.toList)) ∧
      ((Statement.instr kind ty [x, y]).Fits ret → x.Fits (e ty) ∧ y.Fits (e' ty))) :
    Ensures (readForm params ret result column m) fun st => st.Fits ret →
      FormRereads params ret result m st := by
  rw [hform]
  refine ensures_bind ensures_renders_ty fun ty hty => ?_
  refine ensures_bind (ensures_renders_operand hparams _) fun x hx => ensures_bind_any fun _ => ?_
  refine ensures_bind (ensures_renders_operand hparams _) fun y hy => ensures_pure fun hfits => ?_
  obtain ⟨rfl, htail, hoperands⟩ := hkind ty x y
  have hx := hx (hoperands hfits).1
  have hy := hy (hoperands hfits).2
  refine .of_tail htail ?_ fun column => ?_
  · exact (hy.token.closed.comma.append hx.token.inline).space.append hty.token.inline
  · rw [hform]
    refine scans_bind (hty.space (ends_cons rfl)) (scans_bind (hx.space (ends_cons rfl)) ?_)
    exact scans_bind scans_expectComma (scans_bind hy.space_end scans_pure)

lemma ensures_callForm (hparams : Positional params) :
    Ensures (readForm params ret result column .call) fun st => st.Fits ret →
      FormRereads params ret result .call st := by
  refine ensures_bind ensures_renders_ty fun ty hty => ?_
  refine ensures_check (ensures_failAt _ _) fun hvoid => ?_
  refine ensures_bind ensures_renders_callee fun callee hcallee => ensures_bind_any fun _ => ?_
  refine ensures_bind (ensures_separated _ (ensures_renders_operand hparams none)) fun xs hxs => ?_
  refine ensures_pure fun hfits => ?_
  have htail : (Statement.instr (.call callee) ty xs).tail.toList =
      ' ' :: (ty.name.toList ++ ' ' :: (("@" ++ callee).toList ++
        '(' :: (joined (xs.map fun x => x.text.toList) ++ [')']))) := by
    simp [Function.comp_def]
  have hclosed : Closed [')'] := ⟨⟨')', rfl, rfl, by decide, by decide⟩, by decide⟩
  have harguments : ∀ x ∈ xs, Renders (expectOperand params none) x x.text.toList := fun x hx =>
    hxs x hx (hfits x hx)
  have hinline : '\n' ∉ joined (xs.map fun x => x.text.toList) := inline_joined fun w hw => by
    obtain ⟨x, hx, rfl⟩ := List.mem_map.mp hw
    exact (harguments x hx).token
  refine .of_tail htail ?_ fun column => ?_
  · exact (((hclosed.append hinline).cons (by decide)).append hcallee.token.inline).space.append
      hty.token.inline
  · refine scans_bind (hty.space (ends_cons rfl)) (scans_check hvoid ?_)
    refine scans_bind (hcallee.space (ends_cons rfl)) (scans_bind (scans_expect blanks_nil rfl _) ?_)
    exact scans_bind (scans_separated _ harguments) scans_pure

lemma ensures_formRereads (hparams : Positional params) :
    Ensures (readForm params ret result column m) fun st => st.Fits ret →
      FormRereads params ret result m st := by
  have hoperand (expected : Option Ty) := ensures_renders_operand hparams expected
  cases m with
  | binary op =>
    exact ensures_pairForm hparams id id (fun _ => rfl) fun ty x y =>
      ⟨rfl, by simp, fun h => ⟨h x (by simp), h y (by simp)⟩⟩
  | store =>
    exact ensures_pairForm hparams id (fun _ => .ptr) (fun _ => rfl) fun ty x y =>
      ⟨rfl, by simp, fun h => ⟨h (x, ty) (by simp), h (y, .ptr) (by simp)⟩⟩
  | load =>
    exact ensures_operandForm hparams (fun _ => .ptr) (fun _ => rfl) fun ty x =>
      ⟨rfl, by simp, fun h => h x (by simp)⟩
  | const =>
    exact ensures_operandForm hparams id (fun _ => rfl) fun ty x =>
      ⟨rfl, by simp, fun h => h x (by simp)⟩
  | call => exact ensures_callForm hparams
  | alloca =>
    refine ensures_bind ensures_renders_ty fun ty hty => ensures_pure fun _ => ?_
    have htail : (Statement.instr .alloca ty []).tail.toList = ' ' :: ty.name.toList := by
      simp
    exact .of_tail htail hty.token.closed fun column => scans_bind hty.space_end scans_pure
  | ret =>
    refine ensures_bind_any fun ended => ensures_ite (ensures_pure fun _ => ?_) ?_
    · exact ⟨rfl, fun column => scans_bind scans_atEnd scans_pure, ends_nil, Or.inl rfl⟩
    · refine ensures_check (ensures_failHere _) fun hvoid => ?_
      refine ensures_bind (hoperand ret) fun x hx => ensures_pure fun hfits => ?_
      have hx := hx (hfits x (by simp))
      have htail : (Statement.instr .ret ret [x]).tail.toList = ' ' :: x.text.toList := by
        simp
      refine .of_tail htail hx.token.closed fun column => ?_
      obtain ⟨c, w, hw, -, hblank⟩ := hx.token.exists_cons
      have hend : Scans atEnd (' ' :: x.text.toList) false x.text.toList := by
        rw [hw]
        exact scans_atEnd_ne blanks_space hblank
      have hvalue : Scans (expectOperand params ret) x.text.toList x [] := by
        simpa using hx.scans blanks_nil ends_nil
      refine scans_bind hend ?_
      rw [if_neg Bool.false_ne_true]
      exact scans_check hvoid (scans_bind hvalue scans_pure)
  | jmp =>
    refine ensures_bind ensures_renders_blockRef fun target htarget => ensures_pure fun _ => ?_
    have htail : (Statement.exit (.jump target) none).tail.toList =
        ' ' :: (blockRefText target).toList := by
      simp
    exact .of_tail htail htarget.token.closed fun column =>
      scans_bind htarget.space_end scans_pure
  | br =>
    refine ensures_bind (hoperand _) fun x hx => ensures_bind_any fun _ => ?_
    refine ensures_bind ensures_renders_blockRef fun onTrue htrue => ensures_bind_any fun _ => ?_
    refine ensures_bind ensures_renders_blockRef fun onFalse hfalse => ensures_pure fun hfits => ?_
    have hx := hx (hfits x rfl)
    have htail : (Statement.exit (.branch onTrue onFalse) (some x)).tail.toList =
        ' ' :: (x.text.toList ++ ',' :: ' ' :: ((blockRefText onTrue).toList ++
          ',' :: ' ' :: (blockRefText onFalse).toList)) := by
      simp
    refine .of_tail htail ?_ fun column => ?_
    · exact (hfalse.token.closed.comma.append htrue.token.inline).comma.append hx.token.inline
    · refine scans_bind (hx.space (ends_cons rfl)) (scans_bind scans_expectComma ?_)
      refine scans_bind (htrue.space (ends_cons rfl)) (scans_bind scans_expectComma ?_)
      exact scans_bind hfalse.space_end scans_pure
  | unreachable => exact ensures_pure fun _ => ⟨rfl, fun column => scans_pure, ends_nil, Or.inl rfl⟩

end Forms

lemma Mnemonic.ofWord?_word (m : Mnemonic) : Mnemonic.ofWord? m.word.toList = some m := by
  cases m with
  | binary op => cases op <;> decide
  | _ => decide

lemma Mnemonic.isToken_word (m : Mnemonic) : IsToken m.word.toList ∧
    ∀ c ∈ m.word.toList.head?, c ≠ '%' ∧ c ≠ '#' ∧ c ≠ '/' := by
  have hword {w : List Char} (h : (decide (w ≠ []) && w.all isWordChar &&
      w.head?.all fun c => c != '%' && (c != '#' && c != '/')) = true) :
      IsToken w ∧ ∀ c ∈ w.head?, c ≠ '%' ∧ c ≠ '#' ∧ c ≠ '/' := by
    rw [Bool.and_eq_true, Bool.and_eq_true, decide_eq_true_eq] at h
    refine ⟨isToken_of_all h.1.1 h.1.2, fun c hc => ?_⟩
    have hhead := h.2
    rw [Option.mem_def.mp hc] at hhead
    simpa using hhead
  cases m with
  | binary op => cases op <;> exact hword (by decide)
  | _ => exact hword (by decide)

/-- A statement is read back from its printed form, which a line can hold. -/
structure Rereads (params : List Param) (ret : Ty) (result : Option Nat) (st : Statement) : Prop where
  scans : Scans (readStatement params ret (.ok ())) (st.text result).toList (result, st) []
  head : ∃ c cs, (st.text result).toList = c :: cs ∧ isBlank c = false ∧ c ≠ '#' ∧ c ≠ '/'
  closed : Closed (st.text result).toList

lemma ensures_readResult (lineColumn : Nat) :
    Ensures (readResult lineColumn) fun result => ∀ id, result = some id → id < 4294967296 := by
  refine ensures_bind_any fun c => ?_
  split
  · refine ensures_bind_any fun w => ?_
    split
    · exact ensures_failAt _ _
    · rename_i id hid
      refine ensures_bind_any fun _ => ensures_pure ?_
      rintro _ ⟨⟩
      exact lt_of_index? hid
  · exact ensures_pure (by simp)

lemma toList_resultText (id : Nat) :
    (Instr.resultText { result := some id, kind := .ret }).toList =
      ('%' :: id.repr.toList) ++ [' ', '=', ' '] := by
  change ("%" ++ id.repr ++ " = ").toList = _
  rw [String.toList_append, String.toList_append]
  rfl

lemma scans_readResult (lineColumn : Nat) {result : Option Nat}
    (hresult : ∀ id, result = some id → id < 4294967296) {cs : List Char}
    (hcs : ∀ c ∈ cs.head?, c ≠ '%') :
    ∃ bs, Blanks bs ∧ Scans (readResult lineColumn)
      ((Instr.resultText { result, kind := .ret }).toList ++ cs) result (bs ++ cs) := by
  cases result with
  | none =>
    refine ⟨[], blanks_nil, scans_get_bind fun column => ?_⟩
    rw [List.nil_append]
    split
    · rename_i hhead
      exact absurd rfl (hcs '%' (congrArg List.head? hhead))
    · exact scans_pure
  | some id =>
    refine ⟨[' '], blanks_space, ?_⟩
    rw [toList_resultText, List.append_assoc]
    refine scans_get_bind fun column => ?_
    refine scans_bind (scans_token (isToken_cons rfl (isToken_repr id)) (ends_cons rfl)) ?_
    rw [List.drop_one, List.tail_cons, index?_repr (hresult id rfl)]
    exact scans_bind (scans_expect blanks_space rfl _) scans_pure

lemma FormRereads.rereads {ret : Ty} {result : Option Nat} {st : Statement}
    (h : FormRereads params ret result st.mnemonic st)
    (hresult : ∀ id, result = some id → id < 4294967296)
    (hneeds : ¬ (st.mnemonic.needsResult && result.isNone) = true)
    (hforbids : ¬ (st.mnemonic.forbidsResult && result.isSome) = true) :
    Rereads params ret result st := by
  obtain ⟨htoken, hhead⟩ := st.mnemonic.isToken_word
  obtain ⟨c, w, hw, -, hblank⟩ := htoken.exists_cons
  have hc := hhead c (by rw [hw]; rfl)
  have htext : (st.text result).toList = (Instr.resultText { result, kind := .ret }).toList ++
      (st.mnemonic.word.toList ++ st.tail.toList) := by
    rw [Statement.text, String.toList_append, String.toList_append, List.append_assoc]
  have hstart : ∃ c cs, (st.text result).toList = c :: cs ∧ isBlank c = false ∧ c ≠ '#' ∧
      c ≠ '/' := by
    rw [htext]
    cases result with
    | none => exact ⟨c, w ++ st.tail.toList, by rw [hw]; rfl, hblank, hc.2⟩
    | some id => exact ⟨'%', _, by rw [toList_resultText]; rfl, rfl, by decide, by decide⟩
  refine ⟨?_, hstart, ?_⟩
  · obtain ⟨d, cs, hd, hdblank, -⟩ := hstart
    refine scans_nextColumn_bind fun lineColumn => ?_
    rw [hd, List.dropWhile_cons_of_neg (by simp [hdblank]), ← hd, htext]
    have hpercent : ∀ c ∈ (st.mnemonic.word.toList ++ st.tail.toList).head?, c ≠ '%' := by
      rw [hw]
      rintro c ⟨⟩
      exact hc.1
    obtain ⟨bs, hbs, hscans⟩ := scans_readResult lineColumn hresult hpercent
    refine scans_bind hscans (scans_nextColumn_token_bind htoken hbs h.ends fun column => ?_)
    rw [st.mnemonic.ofWord?_word]
    refine scans_check hneeds (scans_check hforbids ?_)
    exact scans_bind (h.scans column) (scans_bind (scans_expectEnd _) scans_pure)
  · have hinline : '\n' ∉ (Instr.resultText { result, kind := .ret }).toList := by
      cases result with
      | none => decide
      | some id =>
        rw [toList_resultText]
        simpa using (isToken_repr id).inline
    rw [htext]
    refine Closed.append ?_ hinline
    rcases h.closed with hnil | hclosed
    · rw [hnil, List.append_nil]
      exact htoken.closed
    · exact hclosed.append htoken.inline

/-- A statement that has been read is read back from its printed form. -/
theorem ensures_rereads (hparams : Positional params) (ret : Ty) (open? : Except Fault Unit) :
    Ensures (readStatement params ret open?) fun r => r.2.Fits ret → Rereads params ret r.1 r.2 := by
  refine ensures_statement ensures_readResult fun _ result hresult m hneeds hforbids column => ?_
  intro c st c' h hfits
  have hform := ensures_formRereads hparams c st c' h hfits
  obtain rfl := hform.mnemonic
  exact hform.rereads hresult hneeds hforbids

end Reader

end NativeCode.Ir
