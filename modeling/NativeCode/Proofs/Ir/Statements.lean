import NativeCode.Proofs.Ir.Reading

/-!
# The statements of a module and their lines

Every line of a source text adds at most one statement to what has been read, behind all others, and
the place of the statement names the line. Closing a block or a function loses no statement: a return
that becomes the end of its block is still the statement that was read.
-/

namespace NativeCode.Ir

open Ir.Reader
open Source (Loc)

/-- A statement with the header it stands under, its result and its place. -/
structure Placed where
  params : List Param
  ret : Ty
  result : Option Nat
  statement : Statement
  loc : Loc

/-- The statement that an instruction is read from. -/
def Instr.statement (i : Instr) : Statement := .instr i.kind i.ty i.operands

/-- The statement that the end of a block is read from, in a function that returns `ret`. Returns
are read as instructions. -/
def Terminator.statement (ret : Ty) (t : Terminator) : Statement :=
  match t.exit with
  | .ret => .instr .ret ret t.value.toList
  | exit => .exit exit t.value

/-- An instruction as a statement under a header. -/
def Instr.placed (params : List Param) (ret : Ty) (i : Instr) : Placed :=
  ⟨params, ret, i.result, i.statement, i.loc⟩

/-- The end of a block as a statement under a header. -/
def Terminator.placed (params : List Param) (ret : Ty) (t : Terminator) : Placed :=
  ⟨params, ret, none, t.statement ret, t.loc⟩

def Block.statements (params : List Param) (ret : Ty) (b : Block) : List Placed :=
  b.instrs.map (Instr.placed params ret) ++ [b.term.placed params ret]

def Function.statements (f : Function) : List Placed :=
  f.blocks.flatMap (Block.statements f.params f.ret)

def Module.statements (m : Module) : List Placed := m.functions.flatMap Function.statements

lemma placed_mem_statements {m : Module} {f : Function} {b : Block} (hf : f ∈ m.functions)
    (hb : b ∈ f.blocks) :
    (∀ i ∈ b.instrs, i.placed f.params f.ret ∈ m.statements) ∧
      b.term.placed f.params f.ret ∈ m.statements := by
  have hblock {x : Placed} (hx : x ∈ b.statements f.params f.ret) : x ∈ m.statements :=
    List.mem_flatMap.mpr ⟨f, hf, List.mem_flatMap.mpr ⟨b, hb, hx⟩⟩
  refine ⟨fun i hi => hblock (List.mem_append_left _ (List.mem_map_of_mem hi)), hblock ?_⟩
  exact List.mem_append_right _ (List.mem_singleton_self _)

namespace Reader

/-! ### Blocks and functions that are being read -/

/-- The statements of a block that is being read. -/
def OpenBlock.statements (params : List Param) (ret : Ty) (b : OpenBlock) : List Placed :=
  b.instrs.toList.map (Instr.placed params ret) ++ b.term.toList.map (Terminator.placed params ret)

lemma placed_ret {params : List Param} {ret : Ty} {i : Instr} (h : i.Written params ret)
    (hkind : i.kind = .ret) :
    i.placed params ret = Terminator.placed params ret
      { exit := .ret, value := i.operands.head?, loc := i.loc } := by
  obtain ⟨id, result, kind, ty, operands, loc⟩ := i
  cases hkind
  cases h with
  | ret hresult =>
    cases hresult
    rfl
  | retValue hresult _ _ =>
    cases hresult
    rfl

lemma statements_close {params : List Param} {ret : Ty} {b : OpenBlock} {b' : Block}
    (hb : b.Written params ret) (h : b.close = .ok b') :
    b'.statements params ret = b.statements params ret := by
  rcases OpenBlock.close_eq_ok_iff.mp h with ⟨t, ht, rfl⟩ | ⟨hterm, front, last, hinstrs, hkind, rfl⟩
  · rw [Block.statements, OpenBlock.statements, ht]
    rfl
  · have hlast : last ∈ b.instrs := Array.mem_toList_iff.mp (hinstrs ▸ by simp)
    rw [Block.statements, OpenBlock.statements, hterm, hinstrs, List.map_append, List.map_singleton,
      placed_ret (hb.instrs last hlast) hkind]
    exact (List.append_nil _).symm

namespace OpenFunction

variable {number : Nat} {f f' : OpenFunction}

/-- The statements of a function that is being read. -/
def statements (f : OpenFunction) : List Placed :=
  f.blocks.toList.flatMap (Block.statements f.params f.ret) ++
    f.current.toList.flatMap (OpenBlock.statements f.params f.ret)

lemma statements_closeBlock (hf : f.Written number) (h : f.closeBlock = .ok f') :
    f'.statements = f.statements ∧ f'.current = none := by
  rcases closeBlock_eq_ok_iff.mp h with ⟨hcurrent, rfl⟩ | ⟨b, block, hb, hclose, rfl⟩
  · exact ⟨rfl, hcurrent⟩
  · refine ⟨?_, rfl⟩
    simp [statements, hb, statements_close (hf.current b hb) hclose]

lemma statements_of_close {g : Function} (hf : f.Written number) (h : f.close = .ok g) :
    g.statements = f.statements := by
  obtain ⟨f₁, hclose, -, rfl⟩ := close_eq_ok_iff.mp h
  obtain ⟨hstatements, hcurrent⟩ := statements_closeBlock hf hclose
  rw [← hstatements, statements, hcurrent]
  exact (List.append_nil _).symm

lemma statements_openBlock (hf : f.Written number) {line digits : List Char}
    (h : f.openBlock line digits = .ok f') : f'.statements = f.statements := by
  obtain ⟨id, f₁, -, hclose, rfl⟩ := openBlock_eq_ok_iff.mp h
  obtain ⟨hstatements, hcurrent⟩ := statements_closeBlock hf hclose
  rw [← hstatements, statements, statements, hcurrent]
  rfl

lemma statements_push (hopen : f.acceptsStatement = .ok ()) {result : Option Nat}
    {st : Statement} (h : Formed f.params f.ret result st) (loc : Loc) :
    (f.push loc result st).statements = f.statements ++ [⟨f.params, f.ret, result, st, loc⟩] := by
  obtain ⟨b, hb, hterm⟩ := exists_current hopen
  cases st with
  | instr kind ty operands =>
    simp [push, statements, hb, OpenBlock.statements, hterm, Instr.placed, Instr.statement]
  | exit exit value =>
    have hplaced : Terminator.placed f.params f.ret { exit, value, loc } =
        ⟨f.params, f.ret, result, .exit exit value, loc⟩ := by
      cases h with
      | jump hresult | branch hresult _ | unreachable hresult =>
        rw [hresult]
        rfl
    simp [push, statements, hb, OpenBlock.statements, hterm, hplaced]

end OpenFunction

/-! ### Modules -/

namespace Progress

variable {file number : Nat} {p p' : Progress} {line : List Char}

def statements (p : Progress) : List Placed :=
  p.functions.toList.flatMap Function.statements ++ p.body.toList.flatMap OpenFunction.statements

lemma statements_readItem (hbody : p.body = none) :
    Ensures p.readItem fun p' => p'.statements = p.statements := by
  refine ensures_bind_any fun column => ensures_bind_any fun w => ?_
  split
  case h_5 =>
    refine ensures_bind ensures_readHeader_empty fun f hf => ensures_pure ?_
    simp [statements, hbody, OpenFunction.statements, hf]
  case h_6 => exact ensures_failAt _ _
  all_goals
    refine ensures_bind_any fun _ => ensures_pure ?_
    simp [statements, hbody]

/-- A line adds no statement, or it is in an open function and adds the statement that it is read
as. -/
theorem readLine_cases (hp : p.Written number) (h : p.readLine file (number + 1) line = .ok p') :
    p'.statements = p.statements ∨
      ∃ f result st column, p.body = some f ∧ f.acceptsStatement = .ok () ∧
        Reads (readStatement f.params f.ret f.acceptsStatement) (result, st) ∧
        p' = { p with body := some (f.push ⟨file, number + 1, column⟩ result st) } := by
  rcases readLine_eq_ok_iff.mp h with ⟨-, rfl⟩ | ⟨-, ⟨hbody, c', hr⟩ | ⟨f, hbody, r, hr, rfl⟩⟩
  · exact Or.inl rfl
  · exact Or.inl (statements_readItem hbody _ p' c' hr)
  · have hf := hp.body f hbody
    rcases OpenFunction.readLine_eq_ok_iff.mp hr with ⟨-, g, hclose, rfl⟩ | ⟨-, ⟨digits, f', -, hopen, rfl⟩ |
      ⟨-, a, ha, rfl⟩⟩
    · exact Or.inl (by simp [statements, leave, hbody, OpenFunction.statements_of_close hf hclose])
    · exact Or.inl (by simp [statements, leave, hbody, OpenFunction.statements_openBlock hf hopen])
    · obtain ⟨hopen, -⟩ := ensures_readStatement _ _ _ _ a.1 a.2 ha
      exact Or.inr ⟨f, a.1.1, a.1.2, _, hbody, hopen, ⟨_, a.2, ha⟩, rfl⟩

lemma statements_pushed {f : OpenFunction} (hbody : p.body = some f)
    (hopen : f.acceptsStatement = .ok ()) {result : Option Nat} {st : Statement}
    (h : Reads (readStatement f.params f.ret f.acceptsStatement) (result, st)) (loc : Loc) :
    ({ p with body := some (f.push loc result st) } : Progress).statements =
      p.statements ++ [⟨f.params, f.ret, result, st, loc⟩] := by
  have hformed := ((ensures_readStatement _ _ _).of_reads h).2
  simp [statements, hbody, OpenFunction.statements_push hopen hformed]

lemma statements_of_close {m : Module} (h : p.close file number = .ok m) :
    m.statements = p.statements := by
  obtain ⟨hbody, rfl⟩ := close_eq_ok_iff.mp h
  simp [statements, Module.statements, hbody]

/-- The statements of the lines that follow come behind those that have been read, and are read from
lines further down. -/
theorem exists_statements {lines : List (List Char)} {m : Module} (hp : p.Written number)
    (h : p.readLines file number lines = .ok m) :
    ∃ new, m.statements = p.statements ++ new ∧ ∀ x ∈ new, number < x.loc.line ∧
      Reads (readStatement x.params x.ret (.ok ())) (x.result, x.statement) := by
  induction lines generalizing p number with
  | nil => exact ⟨[], by rw [statements_of_close h, List.append_nil], by simp⟩
  | cons line lines ih =>
    obtain ⟨p', hline, h⟩ := exists_ok_of_bind h
    obtain ⟨new, hnew, hlater⟩ := ih (written_readLine hp hline) h
    have hlater (x : Placed) (hx : x ∈ new) : number < x.loc.line ∧
        Reads (readStatement x.params x.ret (.ok ())) (x.result, x.statement) :=
      ⟨(Nat.lt_succ_self number).trans (hlater x hx).1, (hlater x hx).2⟩
    rcases readLine_cases hp hline with hsame | ⟨f, result, st, column, hbody, hopen, hreads, rfl⟩
    · exact ⟨new, by rw [hnew, hsame], hlater⟩
    · rw [statements_pushed hbody hopen hreads, List.append_assoc] at hnew
      rw [hopen] at hreads
      exact ⟨_, hnew, List.forall_mem_cons.mpr ⟨⟨Nat.lt_succ_self number, hreads⟩, hlater⟩⟩

end Progress

/-- The statements of a module that has been read are read from lines that their places name. -/
theorem reads_of_readModule {file : Nat} {text : String} {m : Module}
    (h : readModule file text = .ok m) : ∀ x ∈ m.statements, 1 ≤ x.loc.line ∧
      Reads (readStatement x.params x.ret (.ok ())) (x.result, x.statement) := by
  obtain ⟨new, hnew, hlater⟩ := Progress.exists_statements Progress.written_start h
  rw [hnew]
  exact hlater

end Reader

end NativeCode.Ir
