import NativeCode.Shell.Quote
import NativeCode.Shell.Token

/-!
# Quoted command lines

The shell reads a quoted argument back as one word, all of whose characters stand for themselves.
So a command line consists of its arguments and the redirection of its error stream only.
-/

namespace NativeCode.Shell

/-- The parts of a word in double quotes whose characters stand for themselves. -/
def quotedParts (arg : List Char) : List Part := .quotes :: (arg.map .quoted ++ [.quotes])

/-! ### Characters -/

theorem scanParts_escape_cons (line : List Part) (c : Char) (cs rest : List Char) :
    scanParts .script .double line (escape (c :: cs) ++ rest) =
      .quoted c :: scanParts .script .double (.quoted c :: line) (escape cs ++ rest) := by
  rw [escape]
  by_cases hspecial : isSpecial c = true
  · -- the backslash takes the meaning of the character behind it, which is no newline
    have hc : c ≠ '\n' ∧ isEscapable .script c = true := by
      simp only [isSpecial, Bool.or_eq_true, beq_iff_eq] at hspecial
      rcases hspecial with ((rfl | rfl) | rfl) | rfl <;> decide
    rw [if_pos hspecial, List.cons_append, List.cons_append, scanParts.eq_def]
    simp [Mode.expands, hc]
  · rw [if_neg hspecial]
    simp only [isSpecial, Bool.or_eq_true, beq_iff_eq, not_or] at hspecial
    rw [List.cons_append, scanParts.eq_def]
    simp [Mode.expands, hspecial]

theorem scanParts_escape (line : List Part) (arg rest : List Char) :
    scanParts .script .double line (escape arg ++ '"' :: rest) =
      arg.map .quoted ++ .quotes ::
        scanParts .script (.plain false) (.quotes :: ((arg.map .quoted).reverse ++ line)) rest := by
  induction arg generalizing line with
  | nil =>
    rw [escape, List.nil_append, scanParts.eq_def]
    simp [Mode.expands]
  | cons c arg ih =>
    rw [scanParts_escape_cons, ih]
    simp

theorem scanParts_quoted (atStart : Bool) (line : List Part) (arg rest : List Char) :
    scanParts .script (.plain atStart) line (quoteChars arg ++ rest) =
      quotedParts arg ++
        scanParts .script (.plain false) ((quotedParts arg).reverse ++ line) rest := by
  rw [quoteChars, List.cons_append, List.cons_append, List.append_assoc, List.singleton_append,
    scanParts.eq_def]
  simp [Mode.expands, scanParts_escape, quotedParts]

theorem scanParts_blank (atStart : Bool) (line : List Part) (rest : List Char) :
    scanParts .script (.plain atStart) line (' ' :: rest) =
      .plain ' ' :: scanParts .script (.plain true) (.plain ' ' :: line) rest := by
  rw [scanParts.eq_def]
  simp [Mode.expands, endsWord]

theorem scanParts_redirection (line : List Part) :
    scanParts .script (.plain true) line "2>&1".toList = "2>&1".toList.map .plain := rfl

theorem scanParts_arguments (atStart : Bool) (line : List Part) (args : List (List Char)) :
    scanParts .script (.plain atStart) line
        ([' '].intercalate (args.map quoteChars) ++ " 2>&1".toList) =
      [Part.plain ' '].intercalate (args.map quotedParts) ++ " 2>&1".toList.map .plain := by
  induction args generalizing atStart line with
  | nil =>
    change scanParts .script (.plain atStart) line (' ' :: "2>&1".toList) = _
    rw [scanParts_blank, scanParts_redirection]
    rfl
  | cons arg args ih =>
    cases args with
    | nil =>
      change scanParts .script (.plain atStart) line
        ((quoteChars arg ++ []) ++ ' ' :: "2>&1".toList) = _
      rw [List.append_nil, scanParts_quoted, scanParts_blank, scanParts_redirection]
      simp
    | cons arg' args =>
      rw [List.map_cons, List.map_cons, List.intercalate_cons_cons, List.append_assoc,
        List.append_assoc, scanParts_quoted, List.singleton_append, scanParts_blank]
      rw [List.map_cons] at ih
      rw [ih]
      simp [List.intercalate_cons_cons]

/-- The characters of a command line: those of the arguments stand for themselves. -/
theorem parts_commandLine (argv : List String) :
    parts .script (commandLine argv).toList =
      [Part.plain ' '].intercalate (argv.map fun a => quotedParts a.toList) ++
        " 2>&1".toList.map .plain := by
  have h : (commandLine argv).toList =
      [' '].intercalate ((argv.map String.toList).map quoteChars) ++ " 2>&1".toList := by
    simp [commandLine, quote, Function.comp_def]
  rw [h]
  exact (scanParts_arguments true [] _).trans (by rw [List.map_map]; rfl)

/-! ### Tokens -/

theorem exists_lexemesFrom_quoted (line : Nat) (word : List Part) (arg : List Char)
    (ps : List Part) :
    ∃ line', lexemesFrom line (some word) (arg.map .quoted ++ ps) =
      lexemesFrom line' (some ((arg.map .quoted).reverse ++ word)) ps := by
  induction arg generalizing line word with
  | nil => exact ⟨line, rfl⟩
  | cons c arg ih =>
    obtain ⟨line', h⟩ := ih (line + (Part.quoted c).lines) (.quoted c :: word)
    refine ⟨line', ?_⟩
    rw [List.map_cons, List.cons_append, lexemesFrom.eq_def]
    simp [Part.startingAt, extendWord, h]

theorem exists_lexemesFrom_word (line : Nat) (arg : List Char) (ps : List Part) :
    ∃ line', lexemesFrom line none (quotedParts arg ++ .plain ' ' :: ps) =
      ⟨.word (quotedParts arg), line'⟩ :: lexemesFrom line' none ps := by
  obtain ⟨line', h⟩ := exists_lexemesFrom_quoted (line + Part.quotes.lines) [.quotes] arg
    (.quotes :: .plain ' ' :: ps)
  refine ⟨line' + Part.quotes.lines, ?_⟩
  rw [quotedParts, List.cons_append, List.append_assoc, List.singleton_append, lexemesFrom.eq_def]
  simp only [Part.startingAt, extendWord, reduceCtorEq, if_false, Option.getD_none, h]
  rw [lexemesFrom.eq_def]
  simp only [Part.startingAt, extendWord, reduceCtorEq, if_false, Option.getD_some]
  rw [lexemesFrom.eq_def]
  simp [finish]

/-- What joins the error stream to the output. -/
def redirection : List Token := [.descriptor '2', .operator .greatAnd, .word [.plain '1']]

theorem map_token_redirection (line : Nat) :
    (lexemesFrom line none (" 2>&1".toList.map .plain)).map Lexeme.token =
      redirection ++ [.eof] := rfl

theorem map_token_lexemesFrom (line : Nat) (argv : List String) :
    (lexemesFrom line none ([Part.plain ' '].intercalate (argv.map fun a => quotedParts a.toList) ++
      " 2>&1".toList.map .plain)).map Lexeme.token =
      argv.map Token.ofQuoted ++ redirection ++ [.eof] := by
  induction argv generalizing line with
  | nil => exact map_token_redirection line
  | cons arg argv ih =>
    cases argv with
    | nil =>
      obtain ⟨line', h⟩ := exists_lexemesFrom_word line arg.toList ("2>&1".toList.map .plain)
      change (lexemesFrom line none
        ((quotedParts arg.toList ++ []) ++ .plain ' ' :: "2>&1".toList.map .plain)).map _ = _
      rw [List.append_nil, h]
      rfl
    | cons arg' argv =>
      rw [List.map_cons, List.map_cons, List.intercalate_cons_cons, List.append_assoc,
        List.append_assoc, List.singleton_append]
      obtain ⟨line', h⟩ := exists_lexemesFrom_word line arg.toList _
      rw [List.map_cons] at ih
      rw [h, List.map_cons, ih]
      rfl

/-- A command line falls into its arguments, unchanged and in order, and the redirection. Every
character of an argument stands for itself; outside of the arguments there are the blanks between
them and the characters of the redirection. So nothing is expanded, no line is joined to the next
and no operator stands in front of the redirection, whatever the arguments are. -/
theorem commandLine_reads (argv : List String) :
    parts .script (commandLine argv).toList =
        [Part.plain ' '].intercalate (argv.map fun a => quotedParts a.toList) ++
          " 2>&1".toList.map .plain ∧
      (lexemes 1 (commandLine argv).toList).map Lexeme.token =
        argv.map Token.ofQuoted ++ redirection ++ [.eof] := by
  refine ⟨parts_commandLine argv, ?_⟩
  rw [lexemes, parts_commandLine, map_token_lexemesFrom]

end NativeCode.Shell
