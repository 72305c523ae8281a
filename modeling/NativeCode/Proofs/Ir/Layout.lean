import NativeCode.Proofs.Ir.Places
import NativeCode.Proofs.Ir.Scans

/-!
# Layout does not matter

Reading a line depends only on its words and punctuation marks, wherever the blanks are. Only the
lines of labels are read as a whole, but for the blanks around them. So blanks at the ends of lines
and beside punctuation, blank lines and comments change nothing but places.
-/

namespace NativeCode.Ir.Reader

open Text
open Source (Loc)

/-! ### Words and punctuation -/

section Pieces

variable {a b bs cs w rest : List Char} {c : Char}

/-- The words and punctuation marks of a text, and whether the text starts with a word. -/
def scanPieces : List Char → List (List Char) × Bool
  | [] => ([], false)
  | c :: cs =>
    let (ps, joins) := scanPieces cs
    if isBlank c then (ps, false)
    else if isPunctuation c then ([c] :: ps, false)
    else if joins then ((c :: ps.headD []) :: ps.tail, true)
    else ([c] :: ps, true)

def pieces (cs : List Char) : List (List Char) := (scanPieces cs).1

lemma isBlank_of_isPunctuation (h : isPunctuation c = true) : isBlank c = false := by
  simp only [isPunctuation, Bool.or_eq_true, beq_iff_eq] at h
  rcases h with (((((rfl | rfl) | rfl) | rfl) | rfl) | rfl) | rfl <;> rfl

lemma isWordChar_eq_true_iff :
    isWordChar c = true ↔ isBlank c = false ∧ isPunctuation c = false := by
  simp [isWordChar]

lemma scanPieces_blank (h : isBlank c = true) (cs : List Char) :
    scanPieces (c :: cs) = (pieces cs, false) := by simp [scanPieces, pieces, h]

lemma scanPieces_mark (h : isPunctuation c = true) (cs : List Char) :
    scanPieces (c :: cs) = ([c] :: pieces cs, false) := by
  simp [scanPieces, pieces, h, isBlank_of_isPunctuation h]

lemma snd_scanPieces_of_ends (h : Ends rest) : (scanPieces rest).2 = false := by
  cases rest with
  | nil => rfl
  | cons c rest =>
    have hc := h c rfl
    by_cases hblank : isBlank c = true
    · rw [scanPieces_blank hblank]
    · rw [scanPieces_mark (by simpa [isWordChar, hblank] using hc)]

lemma scanPieces_word (hw : IsToken w) (hrest : Ends rest) :
    scanPieces (w ++ rest) = (w :: pieces rest, true) := by
  obtain ⟨hne, hchars⟩ := hw
  induction w with
  | nil => exact absurd rfl hne
  | cons c w ih =>
    obtain ⟨hc, hw⟩ := List.forall_mem_cons.mp hchars
    obtain ⟨hblank, hmark⟩ := isWordChar_eq_true_iff.mp hc
    rw [List.cons_append, scanPieces]
    cases w with
    | nil => simp [hblank, hmark, snd_scanPieces_of_ends hrest, pieces]
    | cons d w =>
      rw [ih (List.cons_ne_nil _ _) hw]
      simp [hblank, hmark]

lemma scanPieces_append (h : scanPieces b = scanPieces cs) (a : List Char) :
    scanPieces (a ++ b) = scanPieces (a ++ cs) := by
  induction a with
  | nil => exact h
  | cons c a ih => rw [List.cons_append, List.cons_append, scanPieces, scanPieces, ih]

lemma pieces_blanks (hbs : Blanks bs) (cs : List Char) : pieces (bs ++ cs) = pieces cs := by
  induction bs with
  | nil => rfl
  | cons c bs ih =>
    obtain ⟨hc, hbs⟩ := List.forall_mem_cons.mp hbs
    rw [List.cons_append, pieces, scanPieces_blank hc, ih hbs]

lemma pieces_dropWhile (cs : List Char) : pieces (cs.dropWhile isBlank) = pieces cs := by
  have hbs : Blanks (cs.takeWhile isBlank) := fun d hd => List.mem_takeWhile_imp hd
  rw [← pieces_blanks hbs, List.takeWhile_append_dropWhile]

lemma scanPieces_blanks (hbs : Blanks bs) (h : (scanPieces cs).2 = false) :
    scanPieces (bs ++ cs) = scanPieces cs := by
  cases bs with
  | nil => rfl
  | cons c bs =>
    obtain ⟨hc, hbs⟩ := List.forall_mem_cons.mp hbs
    rw [List.cons_append, scanPieces_blank hc, pieces_blanks hbs, ← h]
    rfl

lemma pieces_beside (hc : isPunctuation c = true) {bs' : List Char} (hbs : Blanks bs)
    (hbs' : Blanks bs') (a b : List Char) :
    pieces (a ++ (bs ++ c :: (bs' ++ b))) = pieces (a ++ c :: b) := by
  refine congrArg Prod.fst (scanPieces_append ?_ a)
  rw [scanPieces_blanks hbs (by rw [scanPieces_mark hc]), scanPieces_mark hc, scanPieces_mark hc,
    pieces_blanks hbs']

lemma pieces_append_blanks (hbs : Blanks bs) (a : List Char) : pieces (a ++ bs) = pieces a := by
  have h : scanPieces bs = scanPieces [] := by
    rw [← List.append_nil bs]
    exact scanPieces_blanks hbs rfl
  rw [pieces, scanPieces_append h, List.append_nil]
  rfl

lemma pieces_cases (h : cs.dropWhile isBlank = cs) :
    cs = [] ∨ (∃ c rest, isPunctuation c = true ∧ cs = c :: rest ∧ pieces cs = [c] :: pieces rest) ∨
      ∃ w rest, IsToken w ∧ Ends rest ∧ cs = w ++ rest ∧ pieces cs = w :: pieces rest := by
  cases cs with
  | nil => exact Or.inl rfl
  | cons c cs =>
    have hblank : isBlank c = false := by simpa using List.dropWhile_eq_self_iff.mp h
    by_cases hmark : isPunctuation c = true
    · exact Or.inr (Or.inl ⟨c, cs, hmark, rfl, congrArg Prod.fst (scanPieces_mark hmark cs)⟩)
    · have hc := isWordChar_eq_true_iff.mpr ⟨hblank, by simpa using hmark⟩
      have hw : IsToken ((c :: cs).takeWhile isWordChar) := by
        refine ⟨?_, fun d hd => List.mem_takeWhile_imp hd⟩
        rw [List.takeWhile_cons_of_pos hc]
        exact List.cons_ne_nil _ _
      have hrest : Ends ((c :: cs).dropWhile isWordChar) := by
        intro d hd
        have hnot := List.head?_dropWhile_not isWordChar (c :: cs)
        rw [hd] at hnot
        exact hnot
      have hsplit := (List.takeWhile_append_dropWhile (p := isWordChar) (l := c :: cs)).symm
      refine Or.inr (Or.inr ⟨_, _, hw, hrest, hsplit, ?_⟩)
      rw [pieces]
      nth_rewrite 1 [hsplit]
      rw [scanPieces_word hw hrest]

lemma pieces_eq_cases {cs' : List Char} (h : cs.dropWhile isBlank = cs)
    (h' : cs'.dropWhile isBlank = cs') (heq : pieces cs = pieces cs') :
    (cs = [] ∧ cs' = []) ∨
    (∃ c rest rest', isPunctuation c = true ∧ cs = c :: rest ∧ cs' = c :: rest' ∧
      pieces cs = [c] :: pieces rest ∧ pieces rest = pieces rest') ∨
    ∃ w rest rest', IsToken w ∧ Ends rest ∧ Ends rest' ∧ cs = w ++ rest ∧ cs' = w ++ rest' ∧
      pieces cs = w :: pieces rest ∧ pieces rest = pieces rest' := by
  have hne {c : Char} {w : List Char} (hc : isPunctuation c = true) (hw : IsToken w) : [c] ≠ w := by
    rintro rfl
    have := (isWordChar_eq_true_iff.mp (hw.chars c List.mem_cons_self)).2
    rw [hc] at this
    cases this
  rcases pieces_cases h with rfl | ⟨c, rest, hc, rfl, hp⟩ | ⟨w, rest, hw, hends, rfl, hp⟩ <;>
    rcases pieces_cases h' with rfl | ⟨c', rest', hc', rfl, hp'⟩ | ⟨w', rest', hw', hends', rfl,
      hp'⟩
  · exact Or.inl ⟨rfl, rfl⟩
  · cases heq.trans hp'
  · cases heq.trans hp'
  · cases hp.symm.trans heq
  · obtain ⟨hhead, htail⟩ := List.cons.inj (hp.symm.trans (heq.trans hp'))
    cases hhead
    exact Or.inr (Or.inl ⟨c, rest, rest', hc, rfl, rfl, hp, htail⟩)
  · exact absurd (List.cons.inj (hp.symm.trans (heq.trans hp'))).1 (hne hc hw')
  · cases hp.symm.trans heq
  · exact absurd (List.cons.inj (hp.symm.trans (heq.trans hp'))).1.symm (hne hc' hw)
  · obtain ⟨rfl, htail⟩ := List.cons.inj (hp.symm.trans (heq.trans hp'))
    exact Or.inr (Or.inr ⟨w, rest, rest', hw, hends, hends', rfl, rfl, hp, htail⟩)

lemma length_pieces_le (cs : List Char) : (pieces cs).length ≤ cs.length := by
  induction cs with
  | nil => exact le_rfl
  | cons c cs ih =>
    rw [pieces, scanPieces]
    dsimp only
    rw [pieces] at ih
    split_ifs <;> simp only [List.length_cons, List.length_tail] <;> omega

end Pieces

/-! ### Scans -/

section Alike

variable {α β : Type} {x x' : Scan α}

/-- What a scan gives, without columns: a value and the pieces that are left, or a fault. -/
def view (r : Except Flaw (α × Cursor)) : Except Fault (α × List (List Char)) :=
  (r.map fun p => (p.1, pieces p.2.rest)).mapError Flaw.fault

/-- From two cursors two scans give the same, and leave no more pieces than there were. -/
def AlikeAt (x x' : Scan α) (c c' : Cursor) : Prop :=
  view (x.run c) = view (x'.run c') ∧
    ∀ a k, x.run c = .ok (a, k) → (pieces k.rest).length ≤ (pieces c.rest).length

/-- Two scans give the same wherever the pieces of the line are the same. -/
def Alike (x x' : Scan α) : Prop :=
  ∀ c c', pieces c.rest = pieces c'.rest → AlikeAt x x' c c'

lemma alikeAt_bind {f f' : α → Scan β} {c c' : Cursor} (hx : AlikeAt x x' c c')
    (hf : ∀ a k k', x.run c = .ok (a, k) → pieces k.rest = pieces k'.rest →
      AlikeAt (f a) (f' a) k k') :
    AlikeAt (x >>= f) (x' >>= f') c c' := by
  obtain ⟨hview, hshrink⟩ := hx
  unfold AlikeAt
  rw [StateT.run_bind, StateT.run_bind]
  cases hr : x.run c with
  | error e =>
    cases hr' : x'.run c' with
    | error e' =>
      rw [hr, hr'] at hview
      exact ⟨congrArg Except.error (Except.error.inj hview), by rintro a k ⟨⟩⟩
    | ok r' => rw [hr, hr'] at hview; cases hview
  | ok r =>
    cases hr' : x'.run c' with
    | error e' => rw [hr, hr'] at hview; cases hview
    | ok r' =>
      rw [hr, hr'] at hview
      obtain ⟨a, k⟩ := r
      obtain ⟨a', k'⟩ := r'
      obtain ⟨rfl, hk⟩ := Prod.mk.inj (Except.ok.inj hview)
      obtain ⟨hview, hleft⟩ := hf a k k' hr hk
      exact ⟨hview, fun b k₁ h => (hleft b k₁ h).trans (hshrink a k hr)⟩

lemma alike_bind {f f' : α → Scan β} (hx : Alike x x') (hf : ∀ a, Alike (f a) (f' a)) :
    Alike (x >>= f) (x' >>= f') := fun c c' h =>
  alikeAt_bind (hx c c' h) fun a k k' _ hk => hf a k k' hk

lemma alike_pure (a : α) : Alike (pure a) (pure a) := fun c c' h => by
  refine ⟨by simp [view, Except.map, Except.mapError, pure, StateT.pure, StateT.run, Except.pure,
    h], ?_⟩
  rintro a k ⟨⟩
  exact le_rfl

lemma alike_failAt (column column' : Nat) (fault : Fault) :
    Alike (failAt column fault : Scan α) (failAt column' fault) :=
  fun _ _ _ => ⟨rfl, by rintro a k ⟨⟩⟩

lemma alike_ite {b : Prop} [Decidable b] {y y' : Scan α} (hx : Alike x x') (hy : Alike y y') :
    Alike (if b then x else y) (if b then x' else y') := by
  split_ifs
  · exact hx
  · exact hy

lemma alikeAt_nextColumn {f f' : Nat → Scan β} {c c' : Cursor} (h : pieces c.rest = pieces c'.rest)
    (hf : ∀ k k' : Cursor, k.rest.dropWhile isBlank = k.rest → k'.rest.dropWhile isBlank = k'.rest →
      pieces k.rest = pieces k'.rest → AlikeAt (f k.column) (f' k'.column) k k') :
    AlikeAt (nextColumn >>= f) (nextColumn >>= f') c c' := by
  obtain ⟨hview, hshrink⟩ := hf c.skipBlanks c'.skipBlanks (List.dropWhile_idempotent _ _)
    (List.dropWhile_idempotent _ _) ((pieces_dropWhile _).trans (h.trans (pieces_dropWhile _).symm))
  exact ⟨hview, fun a k hk => pieces_dropWhile c.rest ▸ hshrink a k hk⟩

lemma alike_nextColumn {f f' : Nat → Scan β}
    (hf : ∀ column column', Alike (f column) (f' column')) :
    Alike (nextColumn >>= f) (nextColumn >>= f') := fun _ _ h =>
  alikeAt_nextColumn h fun k k' _ _ hk => hf _ _ k k' hk

lemma alike_failHere (fault : Fault) : Alike (failHere fault : Scan α) (failHere fault) :=
  alike_nextColumn fun column column' => alike_failAt column column' fault

lemma skipBlanks_skipBlanks (c : Cursor) : c.skipBlanks.skipBlanks = c.skipBlanks := by
  have htake : (c.rest.dropWhile isBlank).takeWhile isBlank = [] := by
    have h := List.takeWhile_append_dropWhile (p := isBlank) (l := c.rest.dropWhile isBlank)
    rw [List.dropWhile_idempotent] at h
    simpa using h
  simp [Cursor.skipBlanks, Cursor.advance, htake, byteLength, List.dropWhile_idempotent]

lemma alike_of_scans
    (hx : ∀ c c' : Cursor, c.skipBlanks = c'.skipBlanks → x.run c = x.run c')
    (h : ∀ cs cs', cs.dropWhile isBlank = cs → cs'.dropWhile isBlank = cs' →
      pieces cs = pieces cs' → ∃ a r r', Scans x cs a r ∧ Scans x cs' a r' ∧ pieces r = pieces r' ∧
        (pieces r).length ≤ (pieces cs).length) : Alike x x := by
  intro c c' heq
  have hrun (c : Cursor) : (nextColumn >>= fun _ => x).run c = x.run c :=
    hx _ _ (skipBlanks_skipBlanks c)
  have hafter : AlikeAt (nextColumn >>= fun _ => x) (nextColumn >>= fun _ => x) c c' := by
    refine alikeAt_nextColumn heq fun k k' hk hk' hpieces => ?_
    obtain ⟨a, r, r', hr, hr', hleft, hle⟩ := h k.rest k'.rest hk hk' hpieces
    obtain ⟨column, hr⟩ := hr k.column
    obtain ⟨column', hr'⟩ := hr' k'.column
    unfold AlikeAt
    rw [hr, hr']
    refine ⟨congrArg (fun ps => Except.ok (a, ps)) hleft, ?_⟩
    rintro a k ⟨⟩
    exact hle
  rw [AlikeAt, hrun, hrun] at hafter
  exact hafter

lemma alike_token : Alike token token := by
  refine alike_of_scans (fun _ _ h => congrArg (fun k : Cursor => Except.ok k.word) h)
    fun cs cs' h h' heq => ?_
  rcases pieces_eq_cases h h' heq with ⟨rfl, rfl⟩ | ⟨c, rest, rest', hc, rfl, rfl, -, -⟩ |
    ⟨w, rest, rest', hw, hrest, hrest', rfl, rfl, hp, htail⟩
  · exact ⟨[], [], [], fun column => ⟨column, rfl⟩, fun column => ⟨column, rfl⟩, rfl, le_rfl⟩
  · have hends (rest : List Char) : Ends (c :: rest) := ends_cons (by simp [isWordChar, hc])
    exact ⟨[], _, _, scans_token_of h (List.forall_mem_nil _) (hends rest),
      scans_token_of h' (List.forall_mem_nil _) (hends rest'), heq, le_rfl⟩
  · exact ⟨w, _, _, scans_token hw hrest, scans_token hw hrest', htail, by simp [hp]⟩

lemma alike_eat {ch : Char} (hch : isPunctuation ch = true) : Alike (eat ch) (eat ch) := by
  refine alike_of_scans (fun c c' h => by rw [run_eat, run_eat, h]) fun cs cs' h h' heq => ?_
  rcases pieces_eq_cases h h' heq with ⟨rfl, rfl⟩ | ⟨c, rest, rest', hc, rfl, rfl, hp, htail⟩ |
    ⟨w, rest, rest', hw, -, -, rfl, rfl, -, -⟩
  · exact ⟨false, [], [], fun column => ⟨column, rfl⟩, fun column => ⟨column, rfl⟩, rfl, le_rfl⟩
  · have hblank := isBlank_of_isPunctuation hc
    by_cases hne : c = ch
    · subst hne
      exact ⟨true, _, _, scans_eat blanks_nil hblank, scans_eat blanks_nil hblank, htail,
        by simp [hp]⟩
    · exact ⟨false, _, _, scans_eat_ne hblank hne, scans_eat_ne hblank hne, heq, le_rfl⟩
  · obtain ⟨c, w, rfl, hword, hblank⟩ := hw.exists_cons
    have hne : c ≠ ch := by
      rintro rfl
      rw [(isWordChar_eq_true_iff.mp hword).2] at hch
      cases hch
    exact ⟨false, _, _, scans_eat_ne hblank hne, scans_eat_ne hblank hne, heq, le_rfl⟩

lemma alike_atEnd : Alike atEnd atEnd := by
  refine alike_of_scans (fun _ _ h => congrArg (fun k : Cursor => Except.ok (k.rest.isEmpty, k)) h)
    fun cs cs' h h' heq => ?_
  rcases pieces_eq_cases h h' heq with ⟨rfl, rfl⟩ | ⟨c, rest, rest', hc, rfl, rfl, -, -⟩ |
    ⟨w, rest, rest', hw, -, -, rfl, rfl, -, -⟩
  · exact ⟨true, [], [], scans_atEnd, scans_atEnd, rfl, le_rfl⟩
  · have hblank := isBlank_of_isPunctuation hc
    exact ⟨false, _, _, scans_atEnd_ne blanks_nil hblank, scans_atEnd_ne blanks_nil hblank, heq,
      le_rfl⟩
  · obtain ⟨c, w, rfl, -, hblank⟩ := hw.exists_cons
    exact ⟨false, _, _, scans_atEnd_ne blanks_nil hblank, scans_atEnd_ne blanks_nil hblank, heq,
      le_rfl⟩

lemma alike_expect {ch : Char} (hch : isPunctuation ch = true) (fault : Fault) :
    Alike (expect ch fault) (expect ch fault) :=
  alike_bind (alike_eat hch) fun _ => alike_ite (alike_pure _) (alike_failHere fault)

lemma alike_expectEnd (fault : Fault) : Alike (expectEnd fault) (expectEnd fault) :=
  alike_bind alike_atEnd fun _ => alike_ite (alike_pure _) (alike_failHere fault)

lemma alike_check {b : Prop} [Decidable b] {y y' : Scan PUnit} {f f' : PUnit → Scan β}
    (hy : Alike y y') (hf : Alike (f ⟨⟩) (f' ⟨⟩)) :
    Alike (if b then y >>= f else f ⟨⟩) (if b then y' >>= f' else f' ⟨⟩) :=
  alike_ite (alike_bind hy fun _ => hf) hf

lemma length_lt_of_expect {ch : Char} {fault : Fault} {c k : Cursor} {u : Unit}
    (hch : isPunctuation ch = true) (h : (expect ch fault).run c = .ok (u, k)) :
    (pieces k.rest).length < (pieces c.rest).length := by
  obtain ⟨eaten, k₁, heat, h⟩ := run_bind_eq_ok_iff.mp h
  cases eaten with
  | false => cases h
  | true =>
    cases h
    rw [run_eat] at heat
    rw [← pieces_dropWhile c.rest]
    change _ < (pieces c.skipBlanks.rest).length
    split at heat
    case h_2 => cases heat
    case h_1 d rest hrest =>
      split_ifs at heat with hd
      · cases heat
        rw [hrest, hd]
        exact Nat.lt_of_lt_of_eq (Nat.lt_succ_self _)
          (congrArg (fun r => r.1.length) (scanPieces_mark hch rest)).symm
      · cases heat

lemma alikeAt_separatedUpTo {item : Scan α} (fault : Fault) (hitem : Alike item item)
    {fuel fuel' : Nat} {c c' : Cursor} (heq : pieces c.rest = pieces c'.rest)
    (hfuel : (pieces c.rest).length < fuel) (hfuel' : (pieces c.rest).length < fuel') :
    AlikeAt (separatedUpTo item fault fuel) (separatedUpTo item fault fuel') c c' := by
  induction fuel generalizing fuel' c c' with
  | zero => exact absurd hfuel (Nat.not_lt_zero _)
  | succ fuel ih =>
    obtain ⟨fuel', rfl⟩ := Nat.exists_eq_add_one_of_ne_zero (Nat.ne_zero_of_lt hfuel')
    refine alikeAt_bind (hitem c c' heq) fun x k k' hx hk => ?_
    refine alikeAt_bind (alike_eat rfl k k' hk) fun closed k₁ k₁' hclosed hk₁ => ?_
    cases closed with
    | true => exact alike_pure _ k₁ k₁' hk₁
    | false =>
      refine alikeAt_bind (alike_expect rfl fault k₁ k₁' hk₁) fun _ k₂ k₂' hcomma hk₂ => ?_
      have hlt := length_lt_of_expect (by rfl) hcomma
      have hle := (hitem c c' heq).2 x k hx
      have hle₁ := (alike_eat (by rfl) k k' hk).2 _ k₁ hclosed
      refine alikeAt_bind (ih hk₂ (by omega) (by omega)) fun xs k₃ k₃' _ hk₃ => ?_
      exact alike_pure _ k₃ k₃' hk₃

lemma alike_separated {item : Scan α} (fault : Fault) (hitem : Alike item item) :
    Alike (separated item fault) (separated item fault) := by
  refine alike_bind (alike_eat rfl) fun closed => alike_ite (alike_pure _) fun c c' heq => ?_
  have hlength := length_pieces_le c.rest
  have hlength' := length_pieces_le c'.rest
  exact alikeAt_separatedUpTo fault hitem heq (by omega) (by rw [heq]; omega)

lemma alike_expectOperand (params : List Param) (expected : Option Ty) :
    Alike (expectOperand params expected) (expectOperand params expected) := by
  refine alike_nextColumn fun column column' => alike_bind alike_token fun w => ?_
  cases readOperand params expected w with
  | ok x => exact alike_pure x
  | error fault => exact alike_failAt column column' fault

lemma alike_expectTy : Alike expectTy expectTy := by
  refine alike_nextColumn fun column column' => alike_bind alike_token fun w => ?_
  cases Ty.ofName? (String.ofList w) with
  | some ty => exact alike_pure ty
  | none => exact alike_failAt column column' _

lemma alike_expectBlockRef : Alike expectBlockRef expectBlockRef := by
  refine alike_nextColumn fun column column' => alike_bind alike_token fun w => ?_
  cases readBlockRef w with
  | some id => exact alike_pure id
  | none => exact alike_failAt column column' _

lemma alike_expectName (fault : String → Fault) : Alike (expectName fault) (expectName fault) :=
  alike_nextColumn fun column column' => alike_bind alike_token fun _ =>
    alike_ite (alike_pure _) (alike_bind (alike_failAt column column' _) fun _ => alike_pure _)

lemma alike_readCallee : Alike readCallee readCallee := by
  refine alike_nextColumn fun column column' => alike_bind alike_token fun w => ?_
  split
  · exact alike_ite (alike_pure _) (alike_failAt column column' _)
  · exact alike_failAt column column' _

lemma alike_readForm (params : List Param) (ret : Ty) (result : Option Nat) (column column' : Nat)
    (m : Mnemonic) :
    Alike (readForm params ret result column m) (readForm params ret result column' m) := by
  have hoperand (expected : Option Ty) := alike_expectOperand params expected
  have hcomma : Alike expectComma expectComma := alike_expect rfl _
  cases m with
  | binary op =>
    refine alike_bind alike_expectTy fun ty => alike_bind (hoperand ty) fun a => ?_
    exact alike_bind hcomma fun _ => alike_bind (hoperand ty) fun b => alike_pure _
  | load => exact alike_bind alike_expectTy fun ty => alike_bind (hoperand _) fun a => alike_pure _
  | alloca => exact alike_bind alike_expectTy fun ty => alike_pure _
  | const => exact alike_bind alike_expectTy fun ty => alike_bind (hoperand ty) fun a =>
      alike_pure _
  | store =>
    refine alike_bind alike_expectTy fun ty => alike_bind (hoperand ty) fun a => ?_
    exact alike_bind hcomma fun _ => alike_bind (hoperand _) fun b => alike_pure _
  | call =>
    refine alike_bind alike_expectTy fun ty => alike_check (alike_failAt _ _ _) ?_
    refine alike_bind alike_readCallee fun callee => alike_bind (alike_expect rfl _) fun _ => ?_
    exact alike_bind (alike_separated _ (hoperand none)) fun xs => alike_pure _
  | ret =>
    refine alike_bind alike_atEnd fun ended => alike_ite (alike_pure _) ?_
    exact alike_check (alike_failHere _) (alike_bind (hoperand ret) fun a => alike_pure _)
  | jmp => exact alike_bind alike_expectBlockRef fun target => alike_pure _
  | br =>
    refine alike_bind (hoperand _) fun a => alike_bind hcomma fun _ => ?_
    refine alike_bind alike_expectBlockRef fun onTrue => alike_bind hcomma fun _ => ?_
    exact alike_bind alike_expectBlockRef fun onFalse => alike_pure _
  | unreachable => exact alike_pure _

private def readNumber (lineColumn : Nat) : Scan (Option Nat) := do
  match index? ((← token).drop 1) with
  | none => failAt lineColumn .resultNotNumbered
  | some id =>
    expect '=' .expectedEquals
    return some id

lemma alikeAt_readResult {c c' : Cursor} (h : c.rest.dropWhile isBlank = c.rest)
    (h' : c'.rest.dropWhile isBlank = c'.rest) (heq : pieces c.rest = pieces c'.rest) :
    AlikeAt (readResult c.column) (readResult c'.column) c c' := by
  have hnone {d : Char} (hd : d ≠ '%') (rest rest' : List Char)
      (heq : pieces (d :: rest) = pieces (d :: rest')) (column column' : Nat) :
      AlikeAt (readResult column) (readResult column') ⟨d :: rest, column⟩
        ⟨d :: rest', column'⟩ := by
    have hrun (rest : List Char) (column : Nat) :
        (readResult column).run ⟨d :: rest, column⟩ = .ok (none, ⟨d :: rest, column⟩) := by
      unfold readResult
      rw [StateT.run_bind, StateT.run_get, pure_bind]
      dsimp only
      split
      case h_1 heq => exact absurd (List.cons.inj heq).1 hd
      case h_2 => rfl
    unfold AlikeAt
    rw [hrun, hrun]
    exact ⟨congrArg (fun ps => Except.ok (none, ps)) heq, by rintro a k ⟨⟩; exact le_rfl⟩
  obtain ⟨cs, column⟩ := c
  obtain ⟨cs', column'⟩ := c'
  rcases pieces_eq_cases h h' heq with ⟨rfl, rfl⟩ | ⟨d, rest, rest', hd, rfl, rfl, -, -⟩ |
    ⟨w, rest, rest', hw, -, -, rfl, rfl, -, -⟩
  · exact ⟨rfl, by rintro a k ⟨⟩; exact le_rfl⟩
  · exact hnone (by rintro rfl; cases hd) rest rest' heq column column'
  · obtain ⟨d, w, rfl, -, -⟩ := hw.exists_cons
    by_cases hd : d = '%'
    · subst hd
      have hnumber : Alike (readNumber column) (readNumber column') := by
        refine alike_bind alike_token fun w => ?_
        cases index? (w.drop 1) with
        | none => exact alike_failAt column column' _
        | some id => exact alike_bind (alike_expect rfl _) fun _ => alike_pure _
      exact hnumber _ _ heq
    · exact hnone hd (w ++ rest) (w ++ rest') heq column column'

theorem alike_readStatement (params : List Param) (ret : Ty) (open? : Except Fault Unit) :
    Alike (readStatement params ret open?) (readStatement params ret open?) := by
  intro c c' heq
  refine alikeAt_nextColumn heq fun k k' hk hk' heq => ?_
  refine alikeAt_bind (alikeAt_readResult hk hk' heq) fun result k₁ k₁' _ hk₁ => ?_
  refine alike_nextColumn (fun column column' => alike_bind alike_token fun w => ?_) k₁ k₁' hk₁
  cases open? with
  | error fault => exact alike_failAt _ _ fault
  | ok u =>
    dsimp only
    cases Mnemonic.ofWord? w with
    | none => exact alike_failAt column column' _
    | some m =>
      refine alike_check (alike_failAt column column' _)
        (alike_check (alike_failAt column column' _) ?_)
      refine alike_bind (alike_readForm params ret result column column' m) fun st => ?_
      exact alike_bind (alike_expectEnd _) fun _ => alike_pure _

lemma alike_readLastName (fault : Fault) : Alike (readLastName fault) (readLastName fault) :=
  alike_nextColumn fun column column' => alike_bind alike_token fun _ => alike_bind alike_atEnd
    fun _ => alike_ite (alike_pure _) (alike_failAt column column' fault)

lemma alike_readGlobal (isConstant : Bool) :
    Alike (readGlobal isConstant) (readGlobal isConstant) := by
  have hinitializer (ty : Ty) : Alike (readInitializer ty) (readInitializer ty) := by
    refine alike_nextColumn fun column column' => alike_bind alike_token fun w => ?_
    cases integer? w with
    | none => exact alike_failAt column column' _
    | some v => exact alike_check (alike_failAt column column' _) (alike_pure v)
  have hinit (name : String) (ty : Ty) :
      Alike (readInit isConstant name ty) (readInit isConstant name ty) :=
    alike_bind (alike_eat rfl) fun _ =>
      alike_ite (alike_bind (hinitializer ty) fun _ => alike_pure _)
        (alike_check (alike_failHere _) (alike_pure _))
  refine alike_bind (alike_expectName _) fun name => alike_bind (alike_expect rfl _) fun _ => ?_
  refine alike_bind alike_expectTy fun ty => alike_bind (hinit name ty) fun _ => ?_
  exact alike_bind (alike_expectEnd _) fun _ => alike_pure _

lemma alike_readReturnTy : Alike readReturnTy readReturnTy := by
  intro c c' heq
  obtain ⟨hview, hshrink⟩ := alike_token c c' heq
  obtain ⟨hw, hk⟩ := Prod.mk.inj (Except.ok.inj hview)
  by_cases harrow : c.skipBlanks.word.1 = "->".toList
  · have hrun (c : Cursor) (harrow : c.skipBlanks.word.1 = "->".toList) :
        readReturnTy.run c = expectTy.run c.skipBlanks.word.2 := by
      change StateT.run (if c.skipBlanks.word.1 = "->".toList then _ else _) _ = _
      rw [if_pos harrow]
      rfl
    obtain ⟨hview, hleft⟩ := alike_expectTy c.skipBlanks.word.2 c'.skipBlanks.word.2 hk
    unfold AlikeAt
    rw [hrun c harrow, hrun c' (hw.symm.trans harrow)]
    exact ⟨hview, fun a k h => (hleft a k h).trans (hshrink _ _ rfl)⟩
  · have hrun (c : Cursor) (harrow : c.skipBlanks.word.1 ≠ "->".toList) :
        readReturnTy.run c = .ok (.void, c) := by
      change StateT.run (if c.skipBlanks.word.1 = "->".toList then _ else _) _ = _
      rw [if_neg harrow]
      rfl
    unfold AlikeAt
    rw [hrun c harrow, hrun c' (hw ▸ harrow)]
    exact ⟨congrArg (fun ps => Except.ok (Ty.void, ps)) heq, by rintro a k ⟨⟩; exact le_rfl⟩

lemma alike_readHeader : Alike readHeader readHeader := by
  have hparam : Alike readParam readParam :=
    alike_bind (alike_expectName _) fun _ => alike_bind (alike_expect rfl _) fun _ =>
      alike_bind alike_expectTy fun _ => alike_pure _
  refine alike_bind (alike_expectName _) fun name => alike_bind (alike_expect rfl _) fun _ => ?_
  refine alike_bind (alike_separated _ hparam) fun params => alike_bind alike_readReturnTy
    fun ret => ?_
  exact alike_bind (alike_expect rfl _) fun _ => alike_bind (alike_expectEnd _) fun _ =>
    alike_pure _

/-- Lines outside of functions with the same pieces are read alike. -/
theorem alike_readItem (p : Progress) : Alike p.readItem p.readItem := by
  refine alike_nextColumn fun column column' => alike_bind alike_token fun w => ?_
  split
  · exact alike_bind (alike_readLastName _) fun _ => alike_pure _
  · exact alike_bind (alike_readGlobal false) fun _ => alike_pure _
  · exact alike_bind (alike_readGlobal true) fun _ => alike_pure _
  · exact alike_bind (alike_readLastName _) fun _ => alike_pure _
  · exact alike_bind alike_readHeader fun _ => alike_pure _
  · exact alike_failAt column column' _

end Alike

/-! ### Lines -/

section Lines

variable {cs cs' line line' bs bs' : List Char}

def content (line : List Char) : List Char := (trimEnd line).dropWhile isBlank

/-- A line that is blank or starts with one of the marks of comments. -/
def Skipped (line : List Char) : Prop :=
  Blanks line ∨ ∃ bs rest, Blanks bs ∧ (line = bs ++ '#' :: rest ∨ line = bs ++ '/' :: '/' :: rest)

/-- A line that starts with `bb`. -/
def StartsLabel (line : List Char) : Prop := ∃ bs rest, Blanks bs ∧ line = bs ++ 'b' :: 'b' :: rest

lemma dropWhile_content (line : List Char) : (content line).dropWhile isBlank = content line :=
  List.dropWhile_idempotent _ _

lemma content_around (hbs : Blanks bs) (hbs' : Blanks bs') :
    content (bs ++ line ++ bs') = content line := by
  have hreverse {bs : List Char} (h : Blanks bs) : Blanks bs.reverse := fun c hc =>
    h c (List.mem_reverse.mp hc)
  rw [content, trimEnd, List.reverse_append, List.dropWhile_append_of_pos (hreverse hbs'),
    List.reverse_append, List.dropWhile_append]
  split_ifs with hline
  · have hnil : (bs.reverse).dropWhile isBlank = [] := List.dropWhile_eq_nil_iff.mpr (hreverse hbs)
    rw [hnil, content, trimEnd, List.isEmpty_iff.mp hline]
  · rw [List.reverse_append, List.reverse_reverse, List.dropWhile_append_of_pos hbs]
    rfl

lemma exists_trimEnd (line : List Char) : ∃ bs, Blanks bs ∧ line = trimEnd line ++ bs := by
  refine ⟨(line.reverse.takeWhile isBlank).reverse, fun c hc =>
    List.mem_takeWhile_imp (List.mem_reverse.mp hc), ?_⟩
  rw [trimEnd, ← List.reverse_append, List.takeWhile_append_dropWhile, List.reverse_reverse]

lemma pieces_content (line : List Char) : pieces (content line) = pieces line := by
  obtain ⟨bs, hbs, hline⟩ := exists_trimEnd line
  rw [content, pieces_dropWhile, ← pieces_append_blanks hbs, ← hline]

lemma blanks_of_pieces (h : pieces cs = []) : Blanks cs := by
  intro c hc
  by_contra hblank
  have hnil : cs.dropWhile isBlank = [] := by
    rcases pieces_cases (List.dropWhile_idempotent isBlank cs) with h' | ⟨_, _, -, -, h'⟩ |
      ⟨_, _, -, -, -, h'⟩
    · exact h'
    all_goals
      rw [pieces_dropWhile, h] at h'
      cases h'
  exact hblank (List.dropWhile_eq_nil_iff.mp hnil c hc)

lemma content_content (line : List Char) : content (content line) = content line := by
  obtain ⟨bs, hbs, hline⟩ := exists_trimEnd line
  have hfront : Blanks ((trimEnd line).takeWhile isBlank) := fun c hc => List.mem_takeWhile_imp hc
  have hsplit : (trimEnd line).takeWhile isBlank ++ content line = trimEnd line :=
    List.takeWhile_append_dropWhile
  rw [← content_around hfront hbs, hsplit, ← hline]

lemma content_eq_brace_iff : content line = ['\x7d'] ↔ pieces line = [['\x7d']] := by
  refine ⟨fun h => by rw [← pieces_content, h]; rfl, fun h => ?_⟩
  rw [← pieces_content] at h
  rcases pieces_cases (dropWhile_content line) with hnil | ⟨c, rest, -, hc, hp⟩ |
    ⟨w, rest, hw, -, -, hp⟩
  · rw [hnil] at h
    cases h
  · obtain ⟨hhead, hrest⟩ := List.cons.inj (h.symm.trans hp)
    cases hhead
    -- nothing but blanks could follow, and these have been cut off
    rw [← content_content, hc]
    have h : content ([] ++ ['\x7d'] ++ rest) = content ['\x7d'] :=
      content_around blanks_nil (blanks_of_pieces hrest.symm)
    exact h
  · cases (List.cons.inj (h.symm.trans hp)).1
    cases hw.chars _ List.mem_cons_self

lemma isPrefix_iff_of_pieces {u : List Char} (hne : u ≠ []) (hu : ∀ c ∈ u, isWordChar c = true)
    (h : cs.dropWhile isBlank = cs) (h' : cs'.dropWhile isBlank = cs')
    (heq : pieces cs = pieces cs') : u <+: cs ↔ u <+: cs' := by
  have hword {w rest : List Char} (hrest : Ends rest) : u <+: w ++ rest ↔ u <+: w := by
    refine ⟨fun hpre => ?_, fun hpre => hpre.trans (List.prefix_append _ _)⟩
    rcases List.prefix_or_prefix_of_prefix hpre (List.prefix_append w rest) with hpre' | ⟨v, rfl⟩
    · exact hpre'
    · rw [List.prefix_append_right_inj] at hpre
      cases v with
      | nil => exact (List.append_nil w).symm ▸ List.prefix_rfl
      | cons c v =>
        obtain ⟨_, rfl⟩ := hpre
        have hc := hrest c rfl
        rw [hu c (by simp)] at hc
        cases hc
  rcases pieces_eq_cases h h' heq with ⟨rfl, rfl⟩ | ⟨c, rest, rest', hc, rfl, rfl, -, -⟩ |
    ⟨w, rest, rest', -, hrest, hrest', rfl, rfl, -, -⟩
  · rfl
  · have hnot (rest : List Char) : ¬ u <+: c :: rest := by
      rintro ⟨v, hv⟩
      obtain ⟨d, u, rfl⟩ := List.exists_cons_of_ne_nil hne
      cases (List.cons.inj hv).1
      have hword := (isWordChar_eq_true_iff.mp (hu c List.mem_cons_self)).2
      rw [hc] at hword
      cases hword
    exact iff_of_false (hnot rest) (hnot rest')
  · rw [hword hrest, hword hrest']

lemma isPrefix_content_iff {u : List Char} (hne : u ≠ []) (hu : u.all isWordChar = true) :
    u <+: content line ↔ u <+: line.dropWhile isBlank :=
  isPrefix_iff_of_pieces hne (List.all_eq_true.mp hu) (dropWhile_content line)
    (List.dropWhile_idempotent _ _) ((pieces_content line).trans (pieces_dropWhile line).symm)

lemma startsLabel_iff : StartsLabel line ↔ ['b', 'b'] <+: content line := by
  rw [isPrefix_content_iff (by simp) rfl]
  constructor
  · rintro ⟨bs, rest, hbs, rfl⟩
    rw [dropWhile_blanks hbs rfl]
    exact ⟨rest, rfl⟩
  · rintro ⟨rest, hrest⟩
    refine ⟨line.takeWhile isBlank, rest, fun c hc => List.mem_takeWhile_imp hc, ?_⟩
    exact (List.takeWhile_append_dropWhile.symm).trans (by rw [← hrest]; rfl)

lemma isSkipped_iff :
    Progress.isSkipped cs = true ↔ cs = [] ∨ ['#'] <+: cs ∨ ['/', '/'] <+: cs := by
  unfold Progress.isSkipped
  split
  case h_4 _ hnil hcomment hslashes =>
    refine iff_of_false Bool.false_ne_true ?_
    rintro (rfl | ⟨rest, rfl⟩ | ⟨rest, rfl⟩)
    · exact hnil rfl
    · exact hcomment rest rfl
    · exact hslashes rest rfl
  all_goals simp

lemma label?_eq_none (h : ¬ ['b', 'b'] <+: cs) : OpenFunction.label? cs = none := by
  unfold OpenFunction.label?
  split
  · exact absurd (by simp) h
  · rfl

/-- Lines that are read alike: they are the same but for blanks at their ends, or they have the same
pieces and are not read as labels. -/
def SameLine (line line' : List Char) : Prop :=
  content line = content line' ∨
    (pieces line = pieces line' ∧ ¬ ['b', 'b'] <+: content line ∧ ¬ ['b', 'b'] <+: content line')

lemma SameLine.pieces_eq (h : SameLine line line') :
    pieces (content line) = pieces (content line') := by
  rcases h with h | ⟨h, -⟩
  · rw [h]
  · rw [pieces_content, pieces_content, h]

lemma mapError_bind_congr {α β : Type} {x x' : Except Flaw α}
    (h : x.mapError Flaw.fault = x'.mapError Flaw.fault) (k : α → Except Flaw β) :
    (x >>= k).mapError Flaw.fault = (x' >>= k).mapError Flaw.fault := by
  cases x with
  | error e =>
    cases x' with
    | error e' => exact congrArg Except.error (Except.error.inj h)
    | ok a' => cases h
  | ok a =>
    cases x' with
    | error e' => cases h
    | ok a' => rw [Except.ok.inj h]

lemma mapError_map_fst {α : Type} {r r' : Except Flaw (α × Cursor)}
    (h : view r = view r') :
    (r.map Prod.fst).mapError Flaw.fault = (r'.map Prod.fst).mapError Flaw.fault := by
  cases r with
  | error e =>
    cases r' with
    | error e' => exact congrArg Except.error (Except.error.inj h)
    | ok a' => cases h
  | ok a =>
    cases r' with
    | error e' => cases h
    | ok a' => exact congrArg Except.ok (Prod.mk.inj (Except.ok.inj h)).1

variable {c c' : Cursor} (l : Loc)

lemma bind_push (f : OpenFunction)
    (r : Except Flaw ((Option Nat × Statement) × Cursor)) : (do
      let ((result, statement), _) ← r
      return .inl (f.push l result statement) : Except Flaw (OpenFunction ⊕ Function)) =
      r.map Prod.fst >>= fun a => .ok (.inl (f.push l a.1 a.2)) := by
  cases r <;> rfl

lemma SameLine.readLine_eq (h : SameLine line line') (f : OpenFunction)
    (hc : c.rest = content line) (hc' : c'.rest = content line') :
    (f.readLine (fun _ => l) c).mapError Flaw.fault =
      (f.readLine (fun _ => l) c').mapError Flaw.fault := by
  have hbrace : c.rest = ['\x7d'] ↔ c'.rest = ['\x7d'] := by
    rw [hc, hc', content_eq_brace_iff, content_eq_brace_iff, ← pieces_content, h.pieces_eq,
      pieces_content]
  have hstatement := mapError_map_fst (alike_readStatement f.params f.ret f.acceptsStatement c c'
    (by rw [hc, hc', h.pieces_eq])).1
  unfold OpenFunction.readLine
  dsimp only
  rw [bind_push, bind_push]
  by_cases hb : c.rest = ['\x7d']
  · rw [if_pos hb, if_pos (hbrace.mp hb)]
    cases f.close <;> rfl
  · rw [if_neg hb, if_neg (mt hbrace.mpr hb)]
    rcases h with h | ⟨-, hlabel, hlabel'⟩
    · rw [hc, hc', h]
      cases OpenFunction.label? (content line') with
      | some digits =>
        cases hopen : f.openBlock (content line') digits <;>
          simp [hopen, Except.map, Except.mapError]
      | none => exact mapError_bind_congr hstatement _
    · rw [hc, hc', label?_eq_none hlabel, label?_eq_none hlabel']
      exact mapError_bind_congr hstatement _

lemma SameLine.readContent_eq (h : SameLine line line') (p : Progress)
    (hc : c.rest = content line) (hc' : c'.rest = content line') :
    (p.readContent (fun _ => l) c).mapError Flaw.fault =
      (p.readContent (fun _ => l) c').mapError Flaw.fault := by
  unfold Progress.readContent
  cases p.body with
  | none => exact mapError_map_fst (alike_readItem p c c' (by rw [hc, hc', h.pieces_eq])).1
  | some f => exact mapError_bind_congr (h.readLine_eq l f hc hc') _

/-- The one place of all that is compared without places. -/
private abbrev nowhere (_ : Loc) : Loc := {}

lemma SameLine.progress_eq (h : SameLine line line') {p p' : Progress}
    (hp : p.mapLoc nowhere = p'.mapLoc nowhere) (file number number' : Nat) :
    ((p.readLine file number line).map (Progress.mapLoc nowhere)).mapError Error.fault =
      ((p'.readLine file number' line').map (Progress.mapLoc nowhere)).mapError Error.fault := by
  have hskipped : Progress.isSkipped (content line) = Progress.isSkipped (content line') := by
    have hnil : content line = [] ↔ content line' = [] := by
      rcases pieces_eq_cases (dropWhile_content line) (dropWhile_content line') h.pieces_eq with
        h | ⟨_, _, _, -, h, h', -⟩ | ⟨_, _, _, hw, -, -, h, h', -⟩
      · exact iff_of_true h.1 h.2
      · simp [h, h']
      · simp [h, h', hw.ne_nil]
    have hpre {u : List Char} (hne : u ≠ []) (hu : ∀ c ∈ u, isWordChar c = true) :=
      isPrefix_iff_of_pieces hne hu (dropWhile_content line) (dropWhile_content line') h.pieces_eq
    rw [Bool.eq_iff_iff, isSkipped_iff, isSkipped_iff, hnil,
      hpre (by simp) (List.all_eq_true.mp (rfl : ['#'].all isWordChar = true)),
      hpre (by simp) (List.all_eq_true.mp (rfl : ['/', '/'].all isWordChar = true))]
  -- the content is read at places that are forgotten
  have hcontent (q : Progress) (number : Nat) (c : Cursor) :
      (((q.readContent (Loc.mk file number) c).mapError fun flaw =>
        Error.mk flaw.fault (Loc.mk file number flaw.column)).map
          (Progress.mapLoc nowhere)).mapError Error.fault =
        ((q.mapLoc nowhere).readContent (fun _ => {}) c).mapError Flaw.fault := by
    rw [show (fun _ => {} : Nat → Loc) = nowhere ∘ Loc.mk file number from rfl,
      Progress.readContent_mapLoc]
    cases q.readContent (Loc.mk file number) c <;> rfl
  unfold Progress.readLine
  dsimp only
  rw [show (Cursor.skipBlanks ⟨trimEnd line, 1⟩).rest = content line from rfl,
    show (Cursor.skipBlanks ⟨trimEnd line', 1⟩).rest = content line' from rfl, hskipped]
  split_ifs
  · exact congrArg Except.ok hp
  · rw [hcontent, hcontent, hp]
    exact h.readContent_eq {} _ rfl rfl

lemma readLine_of_skipped (h : Skipped line) (p : Progress) (file number : Nat) :
    p.readLine file number line = .ok p := by
  have hskipped : Progress.isSkipped (content line) = true := by
    rw [isSkipped_iff]
    rcases h with hblanks | ⟨bs, rest, hbs, rfl | rfl⟩
    · have hnil : content (line ++ [] ++ []) = content [] := content_around hblanks blanks_nil
      rw [List.append_nil, List.append_nil] at hnil
      exact Or.inl hnil
    · refine Or.inr (Or.inl ((isPrefix_content_iff (by simp) rfl).mpr ?_))
      rw [dropWhile_blanks hbs rfl]
      exact ⟨rest, rfl⟩
    · refine Or.inr (Or.inr ((isPrefix_content_iff (by simp) rfl).mpr ?_))
      rw [dropWhile_blanks hbs rfl]
      exact ⟨rest, rfl⟩
  exact if_pos hskipped

end Lines

/-! ### Texts -/

/-- One change of layout: a line that holds nothing is inserted, blanks are put around a line, or
they are put beside punctuation in a line that does not start with `bb`. -/
inductive Relaid : List (List Char) → List (List Char) → Prop
  | skipped (before after : List (List Char)) {line : List Char} (h : Skipped line) :
      Relaid (before ++ after) (before ++ line :: after)
  | around (before after : List (List Char)) (line : List Char) {bs bs' : List Char}
      (hbs : Blanks bs) (hbs' : Blanks bs') :
      Relaid (before ++ line :: after) (before ++ (bs ++ line ++ bs') :: after)
  | beside (before after : List (List Char)) (a b : List Char) {c : Char} {bs bs' : List Char}
      (hc : c ∈ [',', '(', ')', '=', '\x7b', ':']) (hlabel : ¬ StartsLabel (a ++ c :: b))
      (hbs : Blanks bs) (hbs' : Blanks bs') :
      Relaid (before ++ (a ++ c :: b) :: after) (before ++ (a ++ (bs ++ c :: (bs' ++ b))) :: after)

/-- A module without its places, or the message of an error. -/
def unplaced (r : Except Error Module) : Except String Module :=
  (r.map (Module.mapLoc fun _ => {})).mapError fun e => e.diagnostic.message

/-- Lines that are read alike from wherever what was read before is the same but for places. -/
private def SameLines (file : Nat) (ls ls' : List (List Char)) : Prop :=
  ∀ (p p' : Progress) (number number' : Nat), p.mapLoc nowhere = p'.mapLoc nowhere →
    unplaced (p.readLines file number ls) = unplaced (p'.readLines file number' ls')

lemma sameLines_nil (file : Nat) : SameLines file [] [] := by
  intro p p' number number' hp
  obtain ⟨name, globals, externs, functions, body⟩ := p
  obtain ⟨name', globals', externs', functions', body'⟩ := p'
  simp only [Progress.mapLoc, Progress.mk.injEq] at hp
  obtain ⟨rfl, rfl, rfl, hfunctions, hbody⟩ := hp
  cases body with
  | none =>
    cases body' with
    | none =>
      have hlists : functions.toList.map (Function.mapLoc nowhere) =
          functions'.toList.map (Function.mapLoc nowhere) := by
        simpa using congrArg Array.toList hfunctions
      exact congrArg (fun fs => Except.ok (Module.mk name globals.toList externs.toList fs)) hlists
    | some f' => cases hbody
  | some f =>
    cases body' with
    | none => cases hbody
    | some f' =>
      have hf : f.mapLoc nowhere = f'.mapLoc nowhere := Option.some.inj hbody
      exact congrArg (fun f => Except.error (Fault.unterminatedFunction f.name).message) hf

lemma SameLines.cons {file : Nat} {ls ls' : List (List Char)} (h : SameLines file ls ls')
    {line line' : List Char} (hline : SameLine line line') :
    SameLines file (line :: ls) (line' :: ls') := by
  intro p p' number number' hp
  have hfirst := hline.progress_eq hp file (number + 1) (number' + 1)
  rw [Progress.readLines, Progress.readLines]
  cases hr : p.readLine file (number + 1) line with
  | error e =>
    cases hr' : p'.readLine file (number' + 1) line' with
    | error e' =>
      rw [hr, hr'] at hfirst
      exact congrArg (fun f : Fault => Except.error f.message) (Except.error.inj hfirst)
    | ok q' => rw [hr, hr'] at hfirst; cases hfirst
  | ok q =>
    cases hr' : p'.readLine file (number' + 1) line' with
    | error e' => rw [hr, hr'] at hfirst; cases hfirst
    | ok q' =>
      rw [hr, hr'] at hfirst
      exact h q q' _ _ (Except.ok.inj hfirst)

lemma SameLines.append {file : Nat} {ls ls' : List (List Char)} (h : SameLines file ls ls')
    (before : List (List Char)) : SameLines file (before ++ ls) (before ++ ls') := by
  induction before with
  | nil => exact h
  | cons line before ih => exact ih.cons (Or.inl rfl)

lemma sameLines_refl (file : Nat) (ls : List (List Char)) : SameLines file ls ls := by
  simpa using (sameLines_nil file).append ls

lemma sameLines_of_relaid (file : Nat) {ls ls' : List (List Char)} (h : Relaid ls ls') :
    SameLines file ls ls' := by
  cases h with
  | skipped before after h =>
    refine SameLines.append (fun p p' number number' hp => ?_) before
    have hskip := sameLines_refl file after p p' number (number' + 1) hp
    rw [hskip, Progress.readLines, readLine_of_skipped h]
    rfl
  | around before after line hbs hbs' =>
    exact ((sameLines_refl file after).cons (Or.inl (content_around hbs hbs').symm)).append before
  | @beside before after a b c bs bs' hc hlabel hbs hbs' =>
    have hmark : isPunctuation c = true :=
      List.all_eq_true.mp (rfl : [',', '(', ')', '=', '\x7b', ':'].all isPunctuation = true) c hc
    have hpieces := pieces_beside hmark hbs hbs' a b
    have hnot := mt startsLabel_iff.mpr hlabel
    refine ((sameLines_refl file after).cons (Or.inr ⟨hpieces.symm, hnot, ?_⟩)).append before
    rwa [isPrefix_iff_of_pieces (by simp)
      (List.all_eq_true.mp (rfl : ['b', 'b'].all isWordChar = true)) (dropWhile_content _)
      (dropWhile_content (a ++ c :: b)) (by rw [pieces_content, pieces_content, hpieces])]

/-- Layout does not matter. A text that differs from another by any number of changes of layout, one
way or the other, is read as the same module but for places, or refused with the same message. -/
theorem layout_ignored (file : Nat) {s t : String}
    (h : Relation.EqvGen Relaid (lines s.toList) (lines t.toList)) :
    unplaced (readModule file s) = unplaced (readModule file t) := by
  have hread {ls ls' : List (List Char)} (h : Relation.EqvGen Relaid ls ls') :
      unplaced (Progress.readLines file {} 0 ls) = unplaced (Progress.readLines file {} 0 ls') := by
    induction h with
    | rel ls ls' h => exact sameLines_of_relaid file h {} {} 0 0 rfl
    | refl ls => rfl
    | symm ls ls' _ ih => exact ih.symm
    | trans ls ls' ls'' _ _ ih ih' => exact ih.trans ih'
  exact hread h

/-- A function with its parts close together. -/
def tightText : String := "func f(a:i64)\x7b\nbb0:\nret\n\x7d\n"

/-- The same function with more blanks, an indented label and a comment. -/
def looseText : String := "func f( a:i64)\x7b\n// none\n\tbb0: \nret\n\x7d\n"

/-- The two texts are read as one function. -/
theorem layout_ignored_looseText :
    Relation.EqvGen Relaid (lines tightText.toList) (lines looseText.toList) ∧
      (readModule 1 tightText).isOk = true ∧
      unplaced (readModule 1 tightText) = unplaced (readModule 1 looseText) := by
  have htight : lines tightText.toList =
      [] ++ ("func f".toList ++ '(' :: "a:i64)\x7b".toList) ::
        ["bb0:".toList, "ret".toList, ['\x7d']] := by
    simp [tightText, lines]
  have hloose : lines looseText.toList =
      ["func f( a:i64)\x7b".toList, "// none".toList] ++ (['\t'] ++ "bb0:".toList ++ [' ']) ::
        ["ret".toList, ['\x7d']] := by
    simp [looseText, lines]
  have hblank : Blanks [' '] ∧ Blanks ['\t'] := by simp [Blanks, isBlank]
  have h : Relation.EqvGen Relaid (lines tightText.toList) (lines looseText.toList) := by
    rw [htight, hloose]
    refine .trans _ _ _ (.rel _ _ (.beside [] _ _ _ (by simp) ?_ blanks_nil hblank.1)) ?_
    · rintro ⟨bs, rest, hbs, h⟩
      cases bs with
      | nil => cases h
      | cons c bs =>
        cases (List.cons.inj h).1
        cases hbs _ List.mem_cons_self
    · have hskipped : Skipped "// none".toList := Or.inr ⟨[], _, blanks_nil, Or.inr rfl⟩
      refine .trans _ _ _ (.rel _ _ (.skipped ["func f( a:i64)\x7b".toList] _ hskipped)) ?_
      exact .rel _ _ (.around ["func f( a:i64)\x7b".toList, "// none".toList] _ "bb0:".toList
        hblank.2 hblank.1)
  exact ⟨h, by decide +kernel, layout_ignored 1 h⟩

end NativeCode.Ir.Reader
