import NativeCode.Proofs.Compile.LineMap

/-!
# Histories of listings

Lines are added to the header and to the sections of a listing in any order, until its text is asked
for. The text has the header first and then the sections, so that only the order within the header and
within each section counts. From then on the listing refuses all requests, and stays as it is.
-/

namespace NativeCode.Listing

open Machine

/-- A line of the header, or a directive, a label or an instruction of a section. -/
inductive Line where
  | header (text : String)
  | item (sec : Section) (i : Item)

/-- What can be added to a listing. -/
inductive Addition where
  | line (x : Line)
  | function (f : Function)

/-- What is asked of a listing. -/
inductive Request where
  | add (a : Addition)
  | render (comments : Bool)

namespace Line

def header? : Line → Option String
  | header text => some text
  | item _ _ => none

def item? (sec : Section) : Line → Option Item
  | header _ => none
  | item sec' i => if sec' = sec then some i else none

def enter (l : Listing) : Line → Except Sealed Listing
  | header text => l.addHeader text
  | item sec i => l.add sec i

end Line

namespace Addition

def perform (l : Listing) : Addition → Except Sealed Listing
  | line x => x.enter l
  | function f => l.addFunction f

/-- The lines of an addition, in order. -/
def lines : Addition → List Line
  | line x => [x]
  | function f => (functionItems f).map (.item .text)

end Addition

/-- The lines of additions that belong to the header. -/
def headerOf (as : List Addition) : List String := (as.flatMap Addition.lines).filterMap Line.header?

/-- The lines of additions that belong to a section. -/
def itemsOf (as : List Addition) (sec : Section) : List Item :=
  (as.flatMap Addition.lines).filterMap (Line.item? sec)

/-- An answer to a request, with the text if it was asked for. -/
abbrev Answer := Except Sealed (Option Rendered)

/-- The answer to a request, and the listing after it. A refusal leaves the listing that was there. -/
def step (l : Listing) : Request → Answer × Listing
  | .add a =>
    match a.perform l with
    | .ok l' => (.ok none, l')
    | .error e => (.error e, l)
  | .render comments =>
    match l.render comments with
    | .ok (r, l') => (.ok (some r), l')
    | .error e => (.error e, l)

/-- The answers to a sequence of requests, and the listing after them. -/
def run (l : Listing) : List Request → List Answer × Listing
  | [] => ([], l)
  | r :: rs => ((l.step r).1 :: ((l.step r).2.run rs).1, ((l.step r).2.run rs).2)

/-- Additions are asked for, and then the text. -/
def requests (as : List Addition) (comments : Bool) : List Request :=
  as.map .add ++ [.render comments]

/-- All additions are made, and the text is given. -/
def answers (as : List Addition) (r : Rendered) : List Answer :=
  as.map (fun _ => .ok none) ++ [.ok (some r)]

variable {l l' : Listing} {ls ls' : List Line}

/-! ### Additions -/

lemma foldlM_add (h : l.sealed = false) (sec : Section) (is : List Item) :
    is.foldlM (·.add sec ·) l = .ok (is.foldl (·.append sec ·) l) := by
  induction is generalizing l with
  | nil => rfl
  | cons i is ih =>
    have hadd : l.add sec i = .ok (l.append sec i) := if_neg (by simp [h])
    rw [List.foldlM_cons, hadd]
    exact ih (by cases sec <;> exact h)

/-- An addition adds its lines one by one. -/
lemma perform_eq (a : Addition) (l : Listing) : a.perform l = a.lines.foldlM Line.enter l := by
  cases a with
  | line x => exact (bind_pure (x.enter l)).symm
  | function f =>
    rw [Addition.lines, List.foldlM_map]
    cases h : l.sealed with
    | false => exact (if_neg (by simp [h])).trans (foldlM_add h .text _).symm
    | true =>
      -- a function has lines, of which the first one is refused
      obtain ⟨i, is, hitems⟩ : ∃ i is, functionItems f = i :: is := ⟨_, _, rfl⟩
      have hadd : Line.enter l (.item .text i) = .error {} := if_pos h
      rw [hitems, List.foldlM_cons, hadd]
      exact if_pos h

/-- A listing that takes lines, and has taken `ls`. -/
structure Collects (l : Listing) (ls : List Line) : Prop where
  unsealed : l.sealed = false
  header : l.header.toList = ls.filterMap Line.header?
  items : ∀ sec, (l.items sec).toList = ls.filterMap (Line.item? sec)

lemma collects_empty : Collects {} [] := ⟨rfl, rfl, by rintro (_ | _ | _) <;> rfl⟩

lemma Collects.enter (h : Collects l ls) (x : Line) :
    ∃ l', x.enter l = .ok l' ∧ Collects l' (ls ++ [x]) := by
  have hopen : ¬ l.sealed = true := by simp [h.unsealed]
  cases x with
  | header text =>
    refine ⟨_, if_neg hopen, h.unsealed, by simp [h.header, Line.header?], fun sec => ?_⟩
    have hitems := (h.items sec).trans (List.append_nil _).symm
    rw [List.filterMap_append]
    cases sec <;> exact hitems
  | item sec i =>
    refine ⟨_, if_neg hopen, by cases sec <;> exact h.unsealed, ?_, fun sec' => ?_⟩
    · rw [List.filterMap_append]
      cases sec <;> exact h.header.trans (List.append_nil _).symm
    · have hitems := items_foldl_append [i] sec sec' l
      rw [h.items] at hitems
      refine hitems.trans ?_
      by_cases hsec : sec = sec' <;> simp [Line.item?, hsec]

lemma Collects.foldlM (h : Collects l ls) (xs : List Line) :
    ∃ l', xs.foldlM Line.enter l = .ok l' ∧ Collects l' (ls ++ xs) := by
  induction xs generalizing l ls with
  | nil => exact ⟨l, rfl, (List.append_nil ls).symm ▸ h⟩
  | cons x xs ih =>
    obtain ⟨l₁, hl₁, h₁⟩ := h.enter x
    obtain ⟨l₂, hl₂, h₂⟩ := ih h₁
    refine ⟨l₂, ?_, by simpa using h₂⟩
    rw [List.foldlM_cons, hl₁]
    exact hl₂

/-- Additions succeed, and add their lines. -/
theorem Collects.run (h : Collects l ls) (as : List Addition) (rs : List Request) :
    ∃ l', Collects l' (ls ++ as.flatMap Addition.lines) ∧
      l.run (as.map Request.add ++ rs) =
        (as.map (fun _ => Except.ok none) ++ (l'.run rs).1, (l'.run rs).2) := by
  induction as generalizing l ls with
  | nil => exact ⟨l, (List.append_nil ls).symm ▸ h, rfl⟩
  | cons a as ih =>
    obtain ⟨l₁, hl₁, h₁⟩ := h.foldlM a.lines
    obtain ⟨l₂, h₂, hrun⟩ := ih h₁
    have hstep : l.step (.add a) = (.ok none, l₁) := by rw [step, perform_eq, hl₁]
    refine ⟨l₂, by simpa using h₂, ?_⟩
    rw [List.map_cons, List.cons_append, Listing.run, hstep, hrun]
    rfl

/-- What a listing is depends only on the lines of its header and of its sections. -/
lemma Collects.unique (h : Collects l ls) (h' : Collects l' ls')
    (hheader : ls'.filterMap Line.header? = ls.filterMap Line.header?)
    (hitems : ∀ sec, ls'.filterMap (Line.item? sec) = ls.filterMap (Line.item? sec)) : l' = l := by
  have hsec (sec : Section) : l'.items sec = l.items sec :=
    Array.toList_inj.mp (by rw [h.items, h'.items, hitems])
  have htop : l'.header = l.header := Array.toList_inj.mp (by rw [h.header, h'.header, hheader])
  rw [Listing.mk.injEq]
  exact ⟨htop, hsec .text, hsec .data, hsec .bss, h'.unsealed.trans h.unsealed.symm⟩

/-! ### Printing -/

/-- A sealed listing refuses all requests, and stays as it is. -/
theorem run_of_sealed (h : l.sealed = true) (rs : List Request) :
    l.run rs = (rs.map fun _ => .error {}, l) := by
  have hstep (r : Request) : l.step r = (.error {}, l) := by
    rcases r with ((_ | _) | _) | _ <;>
      simp [step, Addition.perform, Line.enter, addHeader, add, addFunction, render, h]
  induction rs with
  | nil => rfl
  | cons r rs ih =>
    rw [run, hstep, ih]
    rfl

/-- After additions the text is printed, and the listing is sealed. -/
lemma exists_run_requests (as : List Addition) (comments : Bool) :
    ∃ l, Collects l (as.flatMap Addition.lines) ∧
      run {} (requests as comments) = (answers as (l.print comments), { l with sealed := true }) := by
  obtain ⟨l, hl, hrun⟩ := collects_empty.run as [.render comments]
  refine ⟨l, hl, hrun.trans ?_⟩
  simp [run, step, render, hl.unsealed, answers]

/-- A listing keeps the order of what is added to its header and to each section, whatever is added in
between, and is printed once. -/
theorem printed_in_order_once (as : List Addition) (comments : Bool) :
    ∃ (r : Rendered) (l : Listing),
      run {} (requests as comments) = (answers as r, l) ∧
      r.text.toList = written (headerOf as ++
        (printedSec comments "\t.text" (itemsOf as .text).toArray ++
          (printedSec comments "\t.data" (itemsOf as .data).toArray ++
            printedSec comments "\t.bss" (itemsOf as .bss).toArray))) ∧
      r.lines = mappings ((headerOf as).length + 1) "" (itemsOf as .text) ++
        (mappings ((headerOf as).length +
            (printedSec comments "\t.text" (itemsOf as .text).toArray).length + 1) "" (itemsOf as .data) ++
          mappings ((headerOf as).length +
            (printedSec comments "\t.text" (itemsOf as .text).toArray).length +
            (printedSec comments "\t.data" (itemsOf as .data).toArray).length + 1) "" (itemsOf as .bss)) ∧
      (∀ bs : List Addition, headerOf bs = headerOf as → (∀ sec, itemsOf bs sec = itemsOf as sec) →
        run {} (requests bs comments) = (answers bs r, l)) ∧
      ∀ rs : List Request, l.run rs = (rs.map fun _ => .error {}, l) := by
  obtain ⟨l, hl, hrun⟩ := exists_run_requests as comments
  have hheader : headerOf as = l.header.toList := hl.header.symm
  have hitems (sec : Section) : itemsOf as sec = (l.items sec).toList := (hl.items sec).symm
  refine ⟨l.print comments, { l with sealed := true }, hrun, ?_, ?_, fun bs hheader' hitems' => ?_,
    run_of_sealed rfl⟩
  · rw [hheader, hitems, hitems, hitems]
    exact toList_print l comments
  · rw [hheader, hitems, hitems, hitems]
    exact lines_print_eq_append l comments
  · obtain ⟨l', hl', hrun'⟩ := exists_run_requests bs comments
    obtain rfl : l' = l := hl.unique hl' hheader' hitems'
    exact hrun'

/-- A header, a function and the lines of two sections. -/
def grouped : List Addition :=
  [.line (.header "# t"),
    .function { blocks := [{ label := "f_0", code := [{ op := .ret, origin := ⟨0, 1, 2⟩ }] }] },
    .line (.item .data (.label "v")), .line (.item .data (.directive ".quad 1")),
    .line (.item .bss (.directive ".zero 8"))]

/-- The lines of the sections come first, and the header and the function after them. -/
theorem printed_in_order_once_rotated :
    ∃ (r : Rendered) (l : Listing),
      run {} (requests grouped true) = (answers grouped r, l) ∧
      run {} (requests (grouped.rotate 2) true) = (answers (grouped.rotate 2) r, l) ∧
      r.text = "# t\n\t.text\n\t.globl f\n\t.p2align 4\nf:\nf_0:\n\tret\n\t.data\nv:\n\t.quad 1\n" ++
        "\t.bss\n\t.zero 8\n" ∧
      r.lines = [⟨⟨0, 1, 2⟩, 7, "f_0"⟩] ∧
      l.run [.add (.line (.header "")), .render true] = ([.error {}, .error {}], l) := by
  obtain ⟨r, l, hrun, htext, hlines, hsame, hsealed⟩ := printed_in_order_once grouped true
  exact ⟨r, l, hrun, hsame _ (by decide) (by rintro (_ | _ | _) <;> decide),
    String.toList_inj.mp (htext.trans (by decide)), hlines.trans (by decide), hsealed _⟩

end NativeCode.Listing
