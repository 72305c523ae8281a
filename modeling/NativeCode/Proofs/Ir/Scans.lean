import NativeCode.Proofs.Ir.Reading
import NativeCode.Proofs.Text.Numeral

/-!
# Scans from given characters

A word is read up to the blank or the punctuation that ends it, whatever stands around it. So a scan
that reads a printed text is followed word by word, from the characters alone: columns do not matter
to what is read.
-/

namespace NativeCode.Ir.Reader

open Text

/-! ### Scans from given characters -/

section Scans

variable {α β : Type} {x : Scan α} {a : α} {b : β} {cs cs' cs'' bs w rest : List Char} {c ch : Char}

/-- From the characters `cs`, at whatever column, a scan reads `a` and leaves `cs'`. -/
def Scans (x : Scan α) (cs : List Char) (a : α) (cs' : List Char) : Prop :=
  ∀ column, ∃ column', x.run ⟨cs, column⟩ = .ok (a, ⟨cs', column'⟩)

def Blanks (bs : List Char) : Prop := ∀ c ∈ bs, isBlank c = true

/-- A word: it is read up to its end, and has a start. -/
structure IsToken (w : List Char) : Prop where
  ne_nil : w ≠ []
  chars : ∀ c ∈ w, isWordChar c = true

/-- A word in front of these characters ends there. -/
def Ends (rest : List Char) : Prop := ∀ c, rest.head? = some c → isWordChar c = false

lemma blanks_nil : Blanks [] := by simp [Blanks]

lemma blanks_space : Blanks [' '] := List.forall_mem_singleton.mpr rfl

lemma ends_nil : Ends [] := by simp [Ends]

lemma ends_cons (h : isWordChar c = false) : Ends (c :: rest) := by
  rintro c ⟨⟩
  exact h

lemma isBlank_of_isWordChar (h : isWordChar c = true) : isBlank c = false := by
  rw [isWordChar, Bool.not_eq_true', Bool.or_eq_false_iff] at h
  exact h.1

lemma IsToken.exists_cons (h : IsToken w) :
    ∃ c w', w = c :: w' ∧ isWordChar c = true ∧ isBlank c = false := by
  obtain ⟨c, w', rfl⟩ := List.exists_cons_of_ne_nil h.ne_nil
  have hc := h.chars c List.mem_cons_self
  exact ⟨c, w', rfl, hc, isBlank_of_isWordChar hc⟩

lemma dropWhile_blanks (hbs : Blanks bs) (hc : isBlank c = false) :
    (bs ++ c :: rest).dropWhile isBlank = c :: rest := by
  rw [List.dropWhile_append_of_pos hbs, List.dropWhile_cons_of_neg (by simp [hc])]

lemma IsToken.dropWhile_blanks (h : IsToken w) (hbs : Blanks bs) :
    (bs ++ (w ++ rest)).dropWhile isBlank = w ++ rest := by
  obtain ⟨c, w', rfl, -, hblank⟩ := h.exists_cons
  exact Reader.dropWhile_blanks hbs hblank

lemma scans_pure : Scans (pure a) cs a cs := fun column => ⟨column, rfl⟩

lemma scans_bind {f : α → Scan β} (hx : Scans x cs a cs') (hf : Scans (f a) cs' b cs'') :
    Scans (x >>= f) cs b cs'' := by
  intro column
  obtain ⟨column', hx⟩ := hx column
  obtain ⟨column'', hf⟩ := hf column'
  refine ⟨column'', ?_⟩
  rw [StateT.run_bind, hx]
  exact hf

lemma scans_get_bind {f : Cursor → Scan β} (hf : ∀ column, Scans (f ⟨cs, column⟩) cs b cs') :
    Scans (get >>= f) cs b cs' := fun column => hf column column

lemma scans_nextColumn_bind {f : Nat → Scan β}
    (hf : ∀ column, Scans (f column) (cs.dropWhile isBlank) b cs') :
    Scans (nextColumn >>= f) cs b cs' := fun _ => hf _ _

lemma scans_check {p : Prop} [Decidable p] {y : Scan PUnit} {f : PUnit → Scan β} (hp : ¬ p)
    (hf : Scans (f ⟨⟩) cs b cs') : Scans (if p then y >>= f else f ⟨⟩) cs b cs' := by
  rw [if_neg hp]
  exact hf

lemma scans_token_of (hskip : (w ++ rest).dropWhile isBlank = w ++ rest)
    (hw : ∀ c ∈ w, isWordChar c = true) (hrest : Ends rest) : Scans token (w ++ rest) w rest := by
  have htake : (w ++ rest).takeWhile isWordChar = w := by
    rw [List.takeWhile_append_of_pos hw]
    cases rest with
    | nil => simp
    | cons c rest => rw [List.takeWhile_cons_of_neg (by simp [hrest c rfl]), List.append_nil]
  have hdrop : (w ++ rest).dropWhile isWordChar = rest := by
    rw [List.dropWhile_append_of_pos hw]
    cases rest with
    | nil => rfl
    | cons c rest => rw [List.dropWhile_cons_of_neg (by simp [hrest c rfl])]
  intro column
  let c := Cursor.skipBlanks ⟨w ++ rest, column⟩
  have hc : c.rest = w ++ rest := hskip
  refine ⟨c.column + byteLength (c.rest.takeWhile isWordChar), ?_⟩
  change Except.ok (c.rest.takeWhile isWordChar, (⟨c.rest.dropWhile isWordChar, _⟩ : Cursor)) = _
  rw [hc, htake, hdrop]

theorem scans_token (hw : IsToken w) (hrest : Ends rest) : Scans token (w ++ rest) w rest :=
  scans_token_of (hw.dropWhile_blanks blanks_nil) hw.chars hrest

lemma scans_nextColumn_token_bind {f : Nat → List Char → Scan β} (hw : IsToken w)
    (hbs : Blanks bs) (hrest : Ends rest) (hf : ∀ column, Scans (f column w) rest b cs') :
    Scans (nextColumn >>= fun column => token >>= f column) (bs ++ (w ++ rest)) b cs' := by
  refine scans_nextColumn_bind fun column => ?_
  rw [hw.dropWhile_blanks hbs]
  exact scans_bind (scans_token hw hrest) (hf column)

lemma run_eat (ch : Char) (k : Cursor) : (eat ch).run k =
    (match k.skipBlanks.rest with
    | x :: rest => if x = ch then (do set (k.skipBlanks.advance [x] rest); return true : Scan Bool)
      else return false
    | [] => return false).run k.skipBlanks := rfl

lemma exists_skipBlanks (hbs : Blanks bs) (hc : isBlank c = false) (column : Nat) :
    ∃ column', Cursor.skipBlanks ⟨bs ++ c :: rest, column⟩ = ⟨c :: rest, column'⟩ :=
  ⟨_, congrArg (Cursor.mk · _) (dropWhile_blanks hbs hc)⟩

theorem scans_eat (hbs : Blanks bs) (hch : isBlank ch = false) :
    Scans (eat ch) (bs ++ ch :: rest) true rest := by
  intro column
  obtain ⟨column', hskip⟩ := exists_skipBlanks hbs hch column
  refine ⟨column' + byteLength [ch], ?_⟩
  rw [run_eat, hskip]
  dsimp only
  rw [if_pos rfl]
  rfl

lemma scans_eat_ne (hc : isBlank c = false) (hne : c ≠ ch) :
    Scans (eat ch) (c :: rest) false (c :: rest) := by
  intro column
  obtain ⟨column', hskip⟩ := exists_skipBlanks blanks_nil hc column
  refine ⟨column', ?_⟩
  rw [List.nil_append] at hskip
  rw [run_eat, hskip]
  dsimp only
  rw [if_neg hne]
  rfl

theorem scans_expect (hbs : Blanks bs) (hch : isBlank ch = false) (fault : Fault) :
    Scans (expect ch fault) (bs ++ ch :: rest) () rest :=
  scans_bind (scans_eat hbs hch) scans_pure

lemma scans_expectComma : Scans expectComma (',' :: rest) () rest :=
  scans_expect blanks_nil rfl _

theorem scans_atEnd : Scans atEnd [] true [] := fun column => ⟨column, rfl⟩

lemma scans_atEnd_ne (hbs : Blanks bs) (hc : isBlank c = false) :
    Scans atEnd (bs ++ c :: rest) false (c :: rest) := by
  intro column
  let k := Cursor.skipBlanks ⟨bs ++ c :: rest, column⟩
  have hk : k.rest = c :: rest := dropWhile_blanks hbs hc
  refine ⟨k.column, ?_⟩
  change Except.ok (k.rest.isEmpty, k) = _
  have hcursor : k = ⟨c :: rest, k.column⟩ := by rw [← hk]
  rw [hk]
  exact congrArg (fun k => Except.ok (false, k)) hcursor

lemma scans_expectEnd (fault : Fault) : Scans (expectEnd fault) [] () [] :=
  scans_bind scans_atEnd scans_pure

/-- The word `w` is read back as `a`, whatever surrounds it. -/
structure Renders (x : Scan α) (a : α) (w : List Char) : Prop where
  token : IsToken w
  scans : ∀ {bs rest}, Blanks bs → Ends rest → Scans x (bs ++ (w ++ rest)) a rest

lemma Renders.of_token {f : Nat → List Char → Scan α} (hw : IsToken w)
    (hf : ∀ column rest, Scans (f column w) rest a rest) :
    Renders (nextColumn >>= fun column => Reader.token >>= f column) a w where
  token := hw
  scans hbs hrest := scans_nextColumn_token_bind hw hbs hrest fun column => hf column _

abbrev joined (ws : List (List Char)) : List Char := [',', ' '].intercalate ws

lemma joined_cons_cons (w w' : List Char) (ws : List (List Char)) :
    joined (w :: w' :: ws) = w ++ ',' :: ' ' :: joined (w' :: ws) := by
  rw [joined, List.intercalate_cons_cons, List.append_assoc]
  rfl

lemma scans_separatedUpTo {item : Scan α} (fault : Fault) {text : α → List Char} {a : α}
    {as : List α} (h : ∀ a' ∈ a :: as, Renders item a' (text a')) {fuel : Nat}
    (hfuel : as.length < fuel) (hbs : Blanks bs) :
    Scans (separatedUpTo item fault fuel) (bs ++ (joined ((a :: as).map text) ++ ')' :: rest))
      (a :: as) rest := by
  induction as generalizing a fuel bs with
  | nil =>
    obtain ⟨fuel, rfl⟩ := Nat.exists_eq_add_one_of_ne_zero (Nat.ne_of_gt hfuel)
    have ha := h a List.mem_cons_self
    rw [List.map_singleton, joined, List.intercalate_singleton]
    refine scans_bind (ha.scans hbs (ends_cons rfl)) ?_
    exact scans_bind (scans_eat blanks_nil rfl) scans_pure
  | cons a' as ih =>
    obtain ⟨fuel, rfl⟩ := Nat.exists_eq_add_one_of_ne_zero (Nat.ne_zero_of_lt hfuel)
    obtain ⟨ha, has⟩ := List.forall_mem_cons.mp h
    have hsplit : joined ((a :: a' :: as).map text) ++ ')' :: rest =
        text a ++ ',' :: ([' '] ++ (joined ((a' :: as).map text) ++ ')' :: rest)) := by
      rw [List.map_cons, List.map_cons, joined_cons_cons, List.append_assoc]
      rfl
    rw [hsplit]
    refine scans_bind (ha.scans hbs (ends_cons rfl)) ?_
    refine scans_bind (scans_eat_ne rfl (by decide)) ?_
    refine scans_bind (scans_expect blanks_nil rfl _) ?_
    exact scans_bind (ih has (Nat.lt_of_succ_lt_succ hfuel) blanks_space) scans_pure

lemma length_le_joined {ws : List (List Char)} (h : ∀ w ∈ ws, IsToken w) :
    ws.length ≤ (joined ws).length := by
  induction ws with
  | nil => exact le_rfl
  | cons w ws ih =>
    obtain ⟨hw, hws⟩ := List.forall_mem_cons.mp h
    have hlength := List.length_pos_of_ne_nil hw.ne_nil
    cases ws with
    | nil =>
      rw [joined, List.intercalate_singleton]
      exact hlength
    | cons w' ws =>
      have := ih hws
      rw [joined_cons_cons, List.length_append]
      simp only [List.length_cons] at this ⊢
      omega

theorem scans_separated {item : Scan α} (fault : Fault) {text : α → List Char} {as : List α}
    (h : ∀ a ∈ as, Renders item a (text a)) :
    Scans (separated item fault) (joined (as.map text) ++ ')' :: rest) as rest := by
  cases as with
  | nil => exact scans_bind (scans_eat blanks_nil rfl) scans_pure
  | cons a as =>
    have htokens : ∀ w ∈ (a :: as).map text, IsToken w := by
      intro w hw
      obtain ⟨a', ha', rfl⟩ := List.mem_map.mp hw
      exact (h a' ha').token
    obtain ⟨c, w, hw, hword, hblank⟩ := (h a List.mem_cons_self).token.exists_cons
    have hstart : ∃ tail, joined ((a :: as).map text) ++ ')' :: rest = c :: tail := by
      cases as with
      | nil => exact ⟨_, by rw [List.map_singleton, joined, List.intercalate_singleton, hw]; rfl⟩
      | cons a' as => exact ⟨_, by rw [List.map_cons, List.map_cons, joined_cons_cons, hw]; rfl⟩
    have hne : c ≠ ')' := by
      rintro rfl
      cases hword
    obtain ⟨tail, htail⟩ := hstart
    have heat : Scans (eat ')') (c :: tail) false (c :: tail) := scans_eat_ne hblank hne
    rw [← htail] at heat
    refine scans_bind heat (scans_get_bind fun column => ?_)
    refine scans_separatedUpTo fault h ?_ blanks_nil
    have hlength := length_le_joined htokens
    simp only [List.length_map, List.length_cons, List.length_append] at hlength ⊢
    omega

end Scans

/-! ### Words -/

def separators : List Char :=
  [' ', '\t', '\n', '\x0b', '\x0c', '\r', ',', '(', ')', ':', '\x7b', '\x7d', '=']

lemma isWordChar_of_class {p : Char → Bool} (hp : separators.all (fun d => !p d) = true)
    {c : Char} (hc : p c = true) : isWordChar c = true := by
  rw [← Bool.not_eq_false]
  intro h
  have hsep : c ∈ separators := by
    by_contra hmem
    simp only [separators, List.mem_cons, List.not_mem_nil, or_false, not_or] at hmem
    simp [isWordChar, isBlank, isPunctuation, hmem] at h
  have hnot := List.all_eq_true.mp hp c hsep
  rw [hc] at hnot
  cases hnot

lemma isWordChar_of_isDigit {c : Char} (h : c.isDigit = true) : isWordChar c = true :=
  isWordChar_of_class (p := Char.isDigit) (by decide) h

theorem isToken_repr (n : Nat) : IsToken n.repr.toList :=
  ⟨repr_ne_nil n, fun _ hc => isWordChar_of_isDigit (isDigit_of_mem_repr hc)⟩

lemma isToken_of_all {w : List Char} (hne : w ≠ []) (h : w.all isWordChar = true) : IsToken w :=
  ⟨hne, List.all_eq_true.mp h⟩

lemma IsToken.append {w w' : List Char} (h : IsToken w) (h' : IsToken w') : IsToken (w ++ w') :=
  ⟨fun heq => h.ne_nil (List.append_eq_nil_iff.mp heq).1,
    List.forall_mem_append.mpr ⟨h.chars, h'.chars⟩⟩

theorem isToken_of_isIdentifier {w : List Char} (h : isIdentifier w = true) : IsToken w := by
  cases w with
  | nil => cases h
  | cons c w =>
    rw [isIdentifier, Bool.and_eq_true, List.all_eq_true] at h
    have hrest {d : Char} (hd : isIdentRest d = true) : isWordChar d = true :=
      isWordChar_of_class (p := isIdentRest) (by decide) hd
    refine ⟨List.cons_ne_nil _ _, List.forall_mem_cons.mpr ⟨hrest ?_, fun d hd => hrest (h.2 d hd)⟩⟩
    rw [isIdentRest, h.1, Bool.true_or]

end NativeCode.Ir.Reader
