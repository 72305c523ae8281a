import NativeCode.Proofs.Ir.Places
import NativeCode.Proofs.Ir.Rendering
import NativeCode.Proofs.Ir.Statements
import NativeCode.Proofs.Text.Lines

/-!
# Printing a statement in place of its line

A statement of a module that has been read can be printed in place of the line that it was read from:
the text is then read as the same module, but for the columns of the places in this line. Reading
never looks at places, so it goes on as before behind the line.
-/

namespace NativeCode.Ir

open Text
open Source (Loc)

/-- The first column of line `n` for all places in this line. -/
def front (n : Nat) (l : Loc) : Loc := if l.line = n then { l with column := 1 } else l

lemma front_of_ne {file line column n : Nat} (h : line ≠ n) :
    front n ⟨file, line, column⟩ = ⟨file, line, column⟩ := if_neg h

lemma front_self (file line column : Nat) : front line ⟨file, line, column⟩ = ⟨file, line, 1⟩ :=
  if_pos rfl

/-- A module whose places in line `n` are in the first column. -/
def Module.relocate (m : Module) (n : Nat) : Module := m.mapLoc (front n)

namespace Reader

attribute [local simp] OpenBlock.mapLoc OpenFunction.mapLoc Progress.mapLoc Instr.mapLoc
  Terminator.mapLoc Block.mapLoc Function.mapLoc Module.mapLoc

variable {g : Loc → Loc} {file number : Nat}

namespace Progress

variable {p p' : Progress}

lemma readLine_mapLoc (line : List Char)
    (hg : ∀ column, g ⟨file, number, column⟩ = ⟨file, number, column⟩) :
    (p.mapLoc g).readLine file number line = (p.readLine file number line).map (mapLoc g) := by
  have hplace : g ∘ (Loc.mk file number) = Loc.mk file number := funext hg
  unfold readLine
  dsimp only
  split_ifs
  · rfl
  · have hcontent := readContent_mapLoc (g := g) p (Loc.mk file number)
      (Cursor.skipBlanks ⟨trimEnd line, 1⟩)
    rw [hplace] at hcontent
    rw [hcontent]
    cases p.readContent (Loc.mk file number) (Cursor.skipBlanks ⟨trimEnd line, 1⟩) <;> rfl

/-- The lines that follow are read in the same way if their places stay. -/
theorem readLines_mapLoc {ls : List (List Char)} {m : Module}
    (hg : ∀ number' column, number < number' → g ⟨file, number', column⟩ = ⟨file, number', column⟩)
    (h : p.readLines file number ls = .ok m) :
    (p.mapLoc g).readLines file number ls = .ok (m.mapLoc g) := by
  induction ls generalizing p number with
  | nil =>
    obtain ⟨hbody, rfl⟩ := close_eq_ok_iff.mp h
    exact close_eq_ok_iff.mpr ⟨by simp [hbody], by simp⟩
  | cons line ls ih =>
    obtain ⟨p', hline, h⟩ := exists_ok_of_bind h
    refine bind_eq_ok_iff.mpr ⟨p'.mapLoc g, ?_, ih (fun _ column hlt => hg _ column (Nat.lt_of_succ_lt hlt)) h⟩
    rw [readLine_mapLoc line fun column => hg _ column (Nat.lt_succ_self number), hline]
    rfl

/-! ### Printed lines -/

lemma skipBlanks_of_rereads {params : List Param} {ret : Ty} {result : Option Nat}
    {st : Statement} (h : Rereads params ret result st) :
    Cursor.skipBlanks ⟨trimEnd (st.text result).toList, 1⟩ = ⟨(st.text result).toList, 1⟩ ∧
      isSkipped (st.text result).toList = false ∧ (st.text result).toList ≠ ['\x7d'] ∧
      OpenFunction.label? (st.text result).toList = none := by
  obtain ⟨c, cs, hcs, hblank, hcomment, hslash⟩ := h.head
  obtain ⟨d, hlast, hdblank, hcolon, hbrace⟩ := h.closed.last
  generalize (st.text result).toList = line at hcs hlast ⊢
  have htrim : trimEnd line = line := by
    obtain ⟨front, rfl⟩ := List.getLast?_eq_some_iff.mp hlast
    rw [trimEnd, List.reverse_append, List.reverse_singleton, List.singleton_append,
      List.dropWhile_cons_of_neg (by simp [hdblank])]
    simp
  refine ⟨?_, ?_, ?_, ?_⟩
  · rw [htrim, Cursor.skipBlanks, hcs]
    dsimp only
    rw [List.takeWhile_cons_of_neg (by simp [hblank]), List.dropWhile_cons_of_neg (by simp [hblank])]
    rfl
  · rw [hcs]
    unfold isSkipped
    split
    case h_1 heq => cases heq
    case h_2 heq =>
      cases heq
      exact absurd rfl hcomment
    case h_3 heq =>
      cases heq
      exact absurd rfl hslash
    case h_4 => rfl
  · rintro rfl
    cases hlast
    exact hbrace rfl
  · unfold OpenFunction.label?
    split
    case h_2 => rfl
    case h_1 c' rest =>
      split
      case h_2 => rfl
      case h_1 e es heq =>
        have hhead : (c' :: rest).getLast? = some ':' := by
          rw [List.getLast?_eq_head?_reverse, heq]
          rfl
        rw [List.getLast?_cons_cons, List.getLast?_cons_cons, hhead] at hlast
        exact absurd (Option.some.inj hlast).symm hcolon

lemma readLine_text {f : OpenFunction} (hbody : p.body = some f)
    (hopen : f.acceptsStatement = .ok ()) {result : Option Nat} {st : Statement}
    (h : Rereads f.params f.ret result st) :
    p.readLine file number (st.text result).toList =
      .ok { p with body := some (f.push ⟨file, number, 1⟩ result st) } := by
  obtain ⟨hcursor, hskipped, hbrace, hlabel⟩ := skipBlanks_of_rereads h
  obtain ⟨column, hscans⟩ := h.scans 1
  rw [readLine, hcursor]
  dsimp only
  rw [hskipped, readContent, hbody]
  dsimp only
  rw [OpenFunction.readLine]
  dsimp only
  rw [if_neg hbrace, hlabel, hopen]
  dsimp only
  rw [hscans]
  rfl

/-- A statement that is printed in place of the line that it was read from is read like this line. -/
theorem readLines_set {ls : List (List Char)} {m : Module} {x : Placed} (hp : p.Written number)
    (hbefore : ∀ y ∈ p.statements, y.loc.line ≤ number) (h : p.readLines file number ls = .ok m)
    (hx : x ∈ m.statements) (hrereads : Rereads x.params x.ret x.result x.statement) {k : Nat}
    (hk : x.loc.line = number + 1 + k) :
    (p.mapLoc (front x.loc.line)).readLines file number
      (ls.set k (x.statement.text x.result).toList) = .ok (m.mapLoc (front x.loc.line)) := by
  have hold (hmem : x ∈ p.statements) : False := by
    have := hbefore x hmem
    omega
  induction ls generalizing p number k with
  | nil =>
    rw [statements_of_close h] at hx
    exact (hold hx).elim
  | cons line ls ih =>
    obtain ⟨p', hline, h⟩ := exists_ok_of_bind h
    have hp' := written_readLine hp hline
    have hbefore' : ∀ y ∈ p'.statements, y.loc.line ≤ number + 1 := by
      have hle (y : Placed) (hy : y ∈ p.statements) := (hbefore y hy).trans (Nat.le_succ number)
      rcases readLine_cases hp hline with hsame | ⟨f, result, st, column, hbody, hopen, hreads, rfl⟩
      · rw [hsame]
        exact hle
      · rw [statements_pushed hbody hopen hreads]
        exact List.forall_mem_append.mpr ⟨hle, List.forall_mem_singleton.mpr le_rfl⟩
    cases k with
    | zero =>
      obtain ⟨new, hnew, hlater⟩ := exists_statements hp' h
      have hmem : x ∈ p'.statements := by
        rw [hnew] at hx
        refine (List.mem_append.mp hx).resolve_right fun hx => ?_
        have := (hlater x hx).1
        omega
      rcases readLine_cases hp hline with hsame | ⟨f, result, st, column, hbody, hopen, hreads, rfl⟩
      · exact (hold (hsame ▸ hmem)).elim
      · rw [statements_pushed hbody hopen hreads] at hmem
        obtain rfl := List.mem_singleton.mp ((List.mem_append.mp hmem).resolve_left hold)
        have hbody' : (p.mapLoc (front (number + 1))).body = some (f.mapLoc (front (number + 1))) := by
          simp [hbody]
        have hpushed : ({ p with body := some (f.push ⟨file, number + 1, column⟩ result st) } :
            Progress).mapLoc (front (number + 1)) =
              { p.mapLoc (front (number + 1)) with
                body := some ((f.mapLoc (front (number + 1))).push ⟨file, number + 1, 1⟩ result st) } := by
          simp [-OpenFunction.mapLoc, OpenFunction.push_mapLoc, front_self]
        rw [List.set_cons_zero, readLines, readLine_text hbody'
          ((OpenFunction.acceptsStatement_mapLoc f).trans hopen) hrereads]
        refine Eq.trans ?_ (readLines_mapLoc (fun n _ hn => front_of_ne (Nat.ne_of_gt hn)) h)
        rw [hpushed]
        rfl
    | succ k =>
      rw [List.set_cons_succ, readLines, readLine_mapLoc line (fun column => ?_), hline]
      · refine ih hp' hbefore' h (by omega) fun hmem => ?_
        have := hbefore' x hmem
        omega
      · exact front_of_ne (by omega)

end Progress

/-! ### Texts -/

lemma readModule_replaceLine {text : String} {m : Module} (h : readModule file text = .ok m)
    {x : Placed} (hx : x ∈ m.statements) (hparams : Positional x.params)
    (hfits : x.statement.Fits x.ret) :
    readModule file (replaceLine text x.loc.line (x.statement.text x.result)) =
      .ok (m.relocate x.loc.line) := by
  obtain ⟨hline, hreads⟩ := reads_of_readModule h x hx
  have hrereads : Rereads x.params x.ret x.result x.statement :=
    (ensures_rereads hparams x.ret _).of_reads hreads hfits
  have hset := Progress.readLines_set (k := x.loc.line - 1) Progress.written_start
    (by simp [Progress.statements]) h hx hrereads (by omega)
  have hstart : Progress.mapLoc (front x.loc.line) {} = {} := by simp
  rw [hstart] at hset
  rw [readModule, lines_replaceLine hrereads.closed.inline, hset, Module.relocate]

lemma text_instr {i : Instr} (h : i.kind ≠ .ret) : i.text = i.statement.text i.result := by
  obtain ⟨id, result, kind, ty, operands, loc⟩ := i
  cases kind with
  | ret => exact absurd rfl h
  | _ =>
    simp only [Instr.text, Instr.statement, Statement.text, Statement.tail, String.append_assoc]
    rfl

lemma text_terminator (t : Terminator) (ret : Ty) :
    t.text = (t.statement ret).text none := by
  obtain ⟨exit, value, loc⟩ := t
  cases exit with
  | ret =>
    cases value with
    | none => rfl
    | some x =>
      change "ret " ++ x.text = "" ++ "ret" ++ (" " ++ x.text)
      simp [← String.toList_inj]
  | jump target =>
    change "jmp bb" ++ target.repr = "" ++ "jmp" ++ (" " ++ ("bb" ++ target.repr))
    simp [← String.toList_inj]
  | branch onTrue onFalse =>
    change "br " ++ (value.map Operand.text).getD "?" ++ (", bb" ++ onTrue.repr ++ ", bb" ++ onFalse.repr) =
      "" ++ "br" ++ (" " ++ (value.map Operand.text).getD "?" ++ ", " ++ ("bb" ++ onTrue.repr) ++ ", " ++
        ("bb" ++ onFalse.repr))
    simp [← String.toList_inj]
  | unreachable => rfl

/-- Instructions and block ends can be printed in place of their lines. In a function whose parameters
are named by their positions, every instruction but a return, and every block end, whose literals have
the types that their positions expect and are no floats, is printed as a line that is read back: with
this line in place of the one that it was read from, the text is read as the same module, but for the
columns of the places in this line. -/
theorem text_reread {text : String} {m : Module} (h : readModule file text = .ok m) {f : Function}
    (hf : f ∈ m.functions) (hparams : Positional f.params) {b : Block} (hb : b ∈ f.blocks) :
    (∀ i ∈ b.instrs, i.kind ≠ .ret → i.statement.Fits f.ret →
      readModule file (replaceLine text i.loc.line i.text) = .ok (m.relocate i.loc.line)) ∧
    ((b.term.statement f.ret).Fits f.ret →
      readModule file (replaceLine text b.term.loc.line b.term.text) =
        .ok (m.relocate b.term.loc.line)) := by
  obtain ⟨hinstrs, hterm⟩ := placed_mem_statements hf hb
  refine ⟨fun i hi hkind hfits => ?_, fun hfits => ?_⟩
  · rw [text_instr hkind]
    exact readModule_replaceLine (x := i.placed f.params f.ret) h (hinstrs i hi) hparams hfits
  · rw [text_terminator b.term f.ret]
    exact readModule_replaceLine (x := b.term.placed f.params f.ret) h hterm hparams hfits

/-- A text with instructions of all kinds, on parameters that are named by their positions. -/
def positionalText : String :=
  "global v: i32\nextern g\nfunc f(arg0: i32, arg1: ptr) -> i32 \x7b\nbb0:\n" ++
    "  %0 = alloca array<24>\n  %1=const u64 0xFFFFFFFFFFFFFFFF\n  store i32 -7, %0\n" ++
    "  %2 = load i32 @v\n  %3 =  add i32 %arg0,  %2\n  %4 = call ptr @g( %arg1, 5 )\n" ++
    "  br 1, bb1, bb0\nbb1:\n  ret 12\n\x7d\n"

lemma fits_positionalText : (readModule 0 positionalText).map (fun m =>
    decide (∃ f ∈ m.functions, Positional f.params ∧ ∃ b ∈ f.blocks, b.instrs.length = 6 ∧
      (∀ i ∈ b.instrs, i.kind ≠ .ret ∧ i.statement.Fits f.ret) ∧
        (b.term.statement f.ret).Fits f.ret)) = .ok true := by
  decide +kernel

/-- Each of its instructions can be printed in place of its line. -/
theorem text_reread_positionalText :
    ∃ m, readModule 0 positionalText = .ok m ∧ ∃ f ∈ m.functions, Positional f.params ∧
      ∃ b ∈ f.blocks, b.instrs.length = 6 ∧
        (∀ i ∈ b.instrs, i.kind ≠ .ret ∧ i.statement.Fits f.ret ∧
          readModule 0 (replaceLine positionalText i.loc.line i.text) =
            .ok (m.relocate i.loc.line)) ∧
        (b.term.statement f.ret).Fits f.ret ∧
        readModule 0 (replaceLine positionalText b.term.loc.line b.term.text) =
          .ok (m.relocate b.term.loc.line) := by
  have hdecide := fits_positionalText
  cases hread : readModule 0 positionalText with
  | error e =>
    rw [hread] at hdecide
    cases hdecide
  | ok m =>
    rw [hread] at hdecide
    obtain ⟨f, hf, hparams, b, hb, hlength, hinstrs, hterm⟩ :=
      of_decide_eq_true (Except.ok.inj hdecide)
    obtain ⟨hi, ht⟩ := text_reread hread hf hparams hb
    refine ⟨m, rfl, f, hf, hparams, b, hb, hlength, fun i hmem => ?_, hterm, ht hterm⟩
    obtain ⟨hkind, hfits⟩ := hinstrs i hmem
    exact ⟨hkind, hfits, hi i hmem hkind hfits⟩

end Reader

end NativeCode.Ir
