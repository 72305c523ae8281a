import NativeCode.Proofs.Symbols

/-!
# Histories of a table

A table of symbols is a map that grows. Operations enter names, define functions that so far were
external, or only look. The first operation on a name that enters it decides for good what kind of
symbol it is and whether it has an address; later ones can do no more than define it. So a table can
be read off the operations that led to it.
-/

namespace NativeCode.Symbols

variable {ops : List Operation}

/-- What can be done with a table. -/
inductive Operation where
  /-- Asks for an entry, which may have to be made. -/
  | request (r : Request)
  /-- Looks whether a name has an entry. -/
  | lookup (name : String)
  deriving DecidableEq

/-- The name that an operation is about. -/
def Operation.name : Operation → String
  | request (.define name _ _) => name
  | request (.declare name) => name
  | request (.callee name) => name
  | request (.data name) => name
  | lookup name => name

/-- The name, kind and address that an operation enters if the name is new. -/
def Operation.enters? : Operation → Option (String × SymbolKind × Option Address)
  | request (.define name kind address) => some (name, kind, address)
  | request (.declare name) => some (name, .function, none)
  | request (.callee name) => some (name, .function, none)
  | request (.data _) => none
  | lookup _ => none

/-- The entry that an operation gives. -/
def answer (s : Symbols) : Operation → Except Failure (Option Symbol)
  | .request (.define name kind address) => (s.define name kind address).map fun r => some r.1
  | .request (.declare name) => .ok (some (s.declare name).1)
  | .request (.callee name) => (s.callee name).map fun r => some r.1
  | .request (.data name) => (s.data name).map some
  | .lookup name => .ok (s.find? name)

/-- The table after an operation. -/
def next (s : Symbols) : Operation → Symbols
  | .request r => s.serve r
  | .lookup _ => s

/-- The table after operations, from an empty one. -/
def history (stem : String) (ops : List Operation) : Symbols := ops.foldl next { stem }

/-- An operation that fails: a definition of a name that is there already, unless it defines an
external function as a function; a call of data; and a reference to data that is unknown or a
function. -/
def Refuses (s : Symbols) : Operation → Prop
  | .request (.define name kind _) => ∃ e, s.find? name = some e ∧
      ¬(e.defined = false ∧ e.kind = .function ∧ kind = .function)
  | .request (.declare _) => False
  | .request (.callee name) => ∃ e, s.find? name = some e ∧ e.kind ≠ .function
  | .request (.data name) => s.find? name = none ∨ ∃ e, s.find? name = some e ∧ e.kind = .function
  | .lookup _ => False

/-- An entry stays the same, except that it can become defined. -/
structure Keeps (e e' : Symbol) : Prop where
  source : e'.source = e.source
  kind : e'.kind = e.kind
  address : e'.address = e.address
  defined : e.defined = true → e' = e

/-- All entries of a table are still where they were. -/
structure Grows (s s' : Symbols) : Prop where
  stem : s'.stem = s.stem
  entries : ∀ (k : Nat) (e : Symbol), s.entries[k]? = some e → ∃ e', s'.entries[k]? = some e' ∧ Keeps e e'

/-- The entry of an external function once it is defined. -/
def adopt (stem : String) (d : Symbol) : Symbol :=
  { d with defined := true, asm := stem ++ d.source }

/-- What an operation can do to a table. -/
inductive Step (s : Symbols) (op : Operation) : Symbols → Prop
  /-- It only looks, or its name is there already and cannot be defined any more. -/
  | keep (hname : ∀ x, op.enters? = some x → x.1 ∈ s.sources)
      (hdefined : ∀ e ∈ s.entries, ∀ address,
        op = .request (.define e.source e.kind address) → e.defined = true) : Step s op s
  /-- It enters a new name. -/
  | enter (e : Symbol) (henters : op.enters? = some (e.source, e.kind, e.address))
      (hnew : e.source ∉ s.sources)
      (hdefined : e.defined = true ↔
        ∃ address, op = .request (.define e.source e.kind address)) : Step s op (s.push e)
  /-- It defines an external function. -/
  | define (d : Symbol) (address : Option Address) (hd : d ∈ s.entries)
      (hdefined : d.defined = false) (hkind : d.kind = .function)
      (hop : op = .request (.define d.source .function address)) :
      Step s op (s.update d.source fun _ => adopt s.stem d)

variable {s s' s'' : Symbols} {e e' e'' : Symbol} {name : String} {op : Operation}

/-! ### Failures and answers -/

lemma define_eq_error_iff {kind : SymbolKind} {address : Option Address} :
    (∃ failure, s.define name kind address = .error failure) ↔
      ∃ e, s.find? name = some e ∧ ¬(e.defined = false ∧ e.kind = .function ∧ kind = .function) := by
  rw [Symbols.define]
  cases s.find? name with
  | none => simp
  | some e =>
    simp only [Option.some.injEq, exists_eq_left']
    split_ifs with h
    · simpa [and_assoc] using h
    · simpa [fail, and_assoc] using h

lemma callee_eq_error_iff :
    (∃ failure, s.callee name = .error failure) ↔
      ∃ e, s.find? name = some e ∧ e.kind ≠ .function := by
  rw [callee]
  cases s.find? name with
  | none => simp
  | some e => by_cases h : e.kind = .function <;> simp [h, fail]

lemma data_eq_error_iff :
    (∃ failure, s.data name = .error failure) ↔
      s.find? name = none ∨ ∃ e, s.find? name = some e ∧ e.kind = .function := by
  rw [data]
  cases s.find? name with
  | none => simp [fail]
  | some e => by_cases h : e.kind = .function <;> simp [h, fail]

lemma data_eq_ok (h : s.data name = .ok e) : s.find? name = some e := by
  rw [data] at h
  cases hfind : s.find? name with
  | none =>
    rw [hfind] at h
    cases h
  | some d =>
    rw [hfind] at h
    dsimp only at h
    split_ifs at h
    · cases h
    · cases h
      rfl

lemma map_eq_error_iff {α β : Type} {x : Except Failure α} {g : α → β} :
    (∃ failure, x.map g = .error failure) ↔ ∃ failure, x = .error failure := by
  cases x <;> simp [Except.map]

lemma map_eq_ok {α β : Type} {x : Except Failure α} {g : α → β} {b : β}
    (h : x.map g = .ok b) : ∃ a, x = .ok a ∧ g a = b := by
  cases x with
  | error failure => cases h
  | ok a => exact ⟨a, rfl, by cases h; rfl⟩

theorem answer_eq_error_iff : (∃ failure, s.answer op = .error failure) ↔ s.Refuses op := by
  rcases op with (⟨name, kind, address⟩ | name | name | name) | name
  · exact map_eq_error_iff.trans define_eq_error_iff
  · simp [answer, Refuses]
  · exact map_eq_error_iff.trans callee_eq_error_iff
  · exact map_eq_error_iff.trans data_eq_error_iff
  · simp [answer, Refuses]

lemma Refuses.next_eq (h : s.Refuses op) : s.next op = s := by
  rcases op with (⟨name, kind, address⟩ | name | name | name) | name
  · obtain ⟨failure, h⟩ := define_eq_error_iff.mpr h
    rw [next, serve, h]
  · cases h
  · obtain ⟨failure, h⟩ := callee_eq_error_iff.mpr h
    rw [next, serve, h]
  · rfl
  · rfl

lemma find?_push (s : Symbols) (e : Symbol) (name : String) :
    (s.push e).find? name = (s.find? name).or (if e.source = name then some e else none) := by
  rw [find?, push, List.find?_append, List.find?_singleton, find?]
  simp only [beq_iff_eq]

lemma find?_push_self (h : s.find? e.source = none) :
    (s.push e).find? e.source = some e := by
  rw [find?_push, h, if_pos rfl, Option.none_or]

lemma find?_update (h : e.source = name) (name' : String) :
    (s.update name fun _ => e).find? name' =
      (s.find? name').map fun d => if d.source = name then e else d := by
  rw [find?, update, List.find?_map, find?]
  congr 2
  funext d
  rw [Function.comp_apply]
  split_ifs with hd
  · rw [h, hd]
  · rfl

/-- An operation that does not fail gives the entry of its name in the table after it. -/
theorem answer_eq_find? {a : Option Symbol} (h : s.answer op = .ok a) :
    a = (s.next op).find? op.name := by
  rcases op with (⟨name, kind, address⟩ | name | name | name) | name
  · obtain ⟨⟨e, s'⟩, hdefine, rfl⟩ := map_eq_ok h
    rw [next, serve, hdefine]
    rcases define_cases hdefine with ⟨hnew, rfl, rfl⟩ | ⟨d, hd, -, -, rfl, rfl⟩
    · exact (find?_push_self hnew).symm
    · have hsource := (of_find?_eq_some hd).2
      refine ((find?_update ?_ name).trans ?_).symm
      · exact hsource
      · rw [hd, Option.map_some, if_pos hsource]
  · cases h
    rcases s.declare_cases name with ⟨e, hfind, h⟩ | ⟨hnew, h⟩
    · rw [next, serve, h]
      exact hfind.symm
    · rw [next, serve, h]
      exact (find?_push_self hnew).symm
  · obtain ⟨⟨e, s'⟩, hcallee, rfl⟩ := map_eq_ok h
    rw [next, serve, hcallee]
    rcases callee_cases hcallee with ⟨hfind, -, rfl⟩ | ⟨hnew, rfl, rfl⟩
    · exact hfind.symm
    · exact (find?_push_self hnew).symm
  · obtain ⟨e, hdata, rfl⟩ := map_eq_ok h
    exact (data_eq_ok hdata).symm
  · cases h
    rfl

/-! ### Steps -/

lemma step_declare (henters : op.enters? = some (name, .function, none))
    (hop : ∀ name kind address, op ≠ .request (.define name kind address)) :
    Step s op (s.declare name).2 := by
  rcases s.declare_cases name with ⟨e, hfind, h⟩ | ⟨hnew, h⟩
  · rw [h]
    refine .keep (fun x hx => ?_) fun d _ address h => absurd h (hop _ _ _)
    obtain rfl := Option.some.inj (henters.symm.trans hx)
    obtain ⟨he, rfl⟩ := of_find?_eq_some hfind
    exact List.mem_map_of_mem he
  · rw [h]
    refine .enter _ henters (find?_eq_none_iff.mp hnew) (iff_of_false Bool.false_ne_true ?_)
    rintro ⟨address, h⟩
    exact hop _ _ _ h

theorem step_next (hs : s.Consistent) (op : Operation) : Step s op (s.next op) := by
  have hlook {op : Operation} (h : op.enters? = none)
      (hop : ∀ name kind address, op ≠ .request (.define name kind address)) : Step s op s :=
    .keep (by simp [h]) fun _ _ _ h => absurd h (hop _ _ _)
  rcases op with (⟨name, kind, address⟩ | name | name | name) | name
  · rw [next, serve]
    cases h : s.define name kind address with
    | error failure =>
      obtain ⟨d, hd, hkind⟩ := define_eq_error_iff.mp ⟨failure, h⟩
      obtain ⟨hmem, rfl⟩ := of_find?_eq_some hd
      refine .keep (by rintro x ⟨⟩; exact List.mem_map_of_mem hmem) fun e he address hop => ?_
      simp only [Operation.request.injEq, Request.define.injEq] at hop
      obtain ⟨hsource, rfl, -⟩ := hop
      obtain rfl := List.inj_on_of_nodup_map hs.nodup he hmem hsource.symm
      by_contra hdef
      have hfunction := hs.functions e he (Bool.eq_false_of_not_eq_true hdef)
      exact hkind ⟨Bool.eq_false_of_not_eq_true hdef, hfunction, hfunction⟩
    | ok r =>
      obtain ⟨e, s'⟩ := r
      rcases define_cases h with ⟨hnew, rfl, rfl⟩ | ⟨d, hd, hdef, rfl, rfl, rfl⟩
      · exact .enter _ rfl (find?_eq_none_iff.mp hnew) (iff_of_true rfl ⟨address, rfl⟩)
      · obtain ⟨hmem, rfl⟩ := of_find?_eq_some hd
        exact .define d address hmem hdef (hs.functions d hmem hdef) rfl
  · exact step_declare rfl (by simp)
  · rw [next, serve]
    cases h : s.callee name with
    | error failure =>
      obtain ⟨d, hd, -⟩ := callee_eq_error_iff.mp ⟨failure, h⟩
      obtain ⟨hmem, rfl⟩ := of_find?_eq_some hd
      exact .keep (by rintro x ⟨⟩; exact List.mem_map_of_mem hmem) (by simp)
    | ok r =>
      obtain ⟨e, s'⟩ := r
      have hdeclare : s' = (s.declare name).2 := by
        rcases callee_cases h with ⟨hfind, -, rfl⟩ | ⟨hnew, rfl, rfl⟩
        · rw [declare, hfind]
        · rw [declare, hnew]
          rfl
      exact hdeclare ▸ step_declare rfl (by simp)
  · exact hlook rfl (by simp)
  · exact hlook rfl (by simp)

/-! ### Growth -/

lemma Keeps.refl (e : Symbol) : Keeps e e := ⟨rfl, rfl, rfl, fun _ => rfl⟩

lemma Keeps.trans (h : Keeps e e') (h' : Keeps e' e'') : Keeps e e'' where
  source := h'.source.trans h.source
  kind := h'.kind.trans h.kind
  address := h'.address.trans h.address
  defined hdef := by
    obtain rfl := h.defined hdef
    exact h'.defined hdef

lemma Grows.refl (s : Symbols) : Grows s s := ⟨rfl, fun _ e he => ⟨e, he, .refl e⟩⟩

lemma Grows.trans (h : Grows s s') (h' : Grows s' s'') : Grows s s'' where
  stem := h'.stem.trans h.stem
  entries k e he := by
    obtain ⟨e', he', hkeeps⟩ := h.entries k e he
    obtain ⟨e'', he'', hkeeps'⟩ := h'.entries k e' he'
    exact ⟨e'', he'', hkeeps.trans hkeeps'⟩

lemma Step.grows (hs : s.Consistent) (h : Step s op s') : Grows s s' := by
  cases h with
  | keep => exact .refl s
  | enter e =>
    refine ⟨rfl, fun k d hd => ⟨d, ?_, .refl d⟩⟩
    rw [push, List.getElem?_append_left (List.getElem?_eq_some_iff.mp hd).1]
    exact hd
  | define d address hd hdef =>
    refine ⟨rfl, fun k e he => ?_⟩
    refine ⟨_, by rw [update, List.getElem?_map, he, Option.map_some], ?_⟩
    split_ifs with hsource
    · obtain rfl := List.inj_on_of_nodup_map hs.nodup (List.mem_of_getElem? he) hd hsource
      refine ⟨rfl, rfl, rfl, fun h => ?_⟩
      rw [hdef] at h
      cases h
    · exact .refl e

lemma history_concat (stem : String) (ops : List Operation) (op : Operation) :
    history stem (ops ++ [op]) = (history stem ops).next op := by
  rw [history, List.foldl_append]
  rfl

lemma consistent_history (stem : String) (ops : List Operation) :
    (history stem ops).Consistent ∧ (history stem ops).stem = stem := by
  induction ops using List.reverseRecOn with
  | nil => exact ⟨consistent_empty stem, rfl⟩
  | append_singleton ops op ih =>
    rw [history_concat]
    cases op with
    | request r =>
      obtain ⟨hserve, hstem⟩ := ih.1.serve r
      exact ⟨hserve, hstem.trans ih.2⟩
    | lookup => exact ih

lemma grows_history (stem : String) (ops more : List Operation) :
    Grows (history stem ops) (history stem (ops ++ more)) := by
  induction more using List.reverseRecOn with
  | nil =>
    rw [List.append_nil]
    exact .refl _
  | append_singleton more op ih =>
    rw [← List.append_assoc, history_concat]
    have hconsistent := (consistent_history stem (ops ++ more)).1
    exact ih.trans ((step_next hconsistent op).grows hconsistent)

/-! ### Tables and what led to them -/

/-- A table is what operations say: the entry of a name is what the first operation on this name has
entered, and it is defined if one of them defines the name as what it is. -/
structure Recorded (ops : List Operation) (s : Symbols) : Prop where
  first : ∀ name, (s.find? name).map (fun e => (e.source, e.kind, e.address)) =
    (ops.filterMap Operation.enters?).find? (·.1 == name)
  defined : ∀ e ∈ s.entries, (e.defined = true ↔
    ∃ address, Operation.request (.define e.source e.kind address) ∈ ops)

lemma Recorded.not_enters (h : Recorded ops s) (hnew : name ∉ s.sources) (hop : op ∈ ops)
    {x : String × SymbolKind × Option Address} (hx : op.enters? = some x) : x.1 ≠ name := by
  have hnone := h.first name
  rw [find?_eq_none_iff.mpr hnew, Option.map_none, eq_comm, List.find?_eq_none] at hnone
  simpa using hnone x (List.mem_filterMap.mpr ⟨op, hop, hx⟩)

lemma find?_enters_concat (ops : List Operation) (op : Operation) (name : String) :
    ((ops ++ [op]).filterMap Operation.enters?).find? (·.1 == name) =
      ((ops.filterMap Operation.enters?).find? (·.1 == name)).or
        (op.enters?.filter (·.1 == name)) := by
  rw [List.filterMap_append, List.find?_append]
  cases h : op.enters? with
  | none => simp [h]
  | some x => by_cases hx : x.1 = name <;> simp [h, hx, Option.filter]

lemma Step.first (hs : s.Consistent) (h : Step s op s') (hr : Recorded ops s)
    (name : String) :
    (s'.find? name).map (fun e => (e.source, e.kind, e.address)) =
      ((ops ++ [op]).filterMap Operation.enters?).find? (·.1 == name) := by
  rw [find?_enters_concat, ← hr.first name]
  cases h with
  | keep hname =>
    cases hfind : s.find? name with
    | some e => rfl
    | none =>
      have hnew := find?_eq_none_iff.mp hfind
      cases hop : op.enters? with
      | none => rfl
      | some x =>
        have hne : x.1 ≠ name := fun heq => hnew (heq ▸ hname x hop)
        simp [Option.filter, hne]
  | enter e henters =>
    rw [find?_push, Option.map_or, henters]
    by_cases hname : e.source = name <;> simp [Option.filter, hname]
  | define d address hd hdef hkind hop =>
    rw [find?_update (show (adopt s.stem d).source = d.source from rfl), Option.map_map]
    cases hfind : s.find? name with
    | none =>
      have hne : d.source ≠ name := fun heq =>
        find?_eq_none_iff.mp hfind (heq ▸ List.mem_map_of_mem hd)
      simp [hop, Operation.enters?, Option.filter, hne]
    | some e =>
      simp only [Option.map_some, Option.some_or, Function.comp_apply]
      split_ifs with hsource
      · obtain rfl := List.inj_on_of_nodup_map hs.nodup (of_find?_eq_some hfind).1 hd hsource
        rfl
      · rfl

lemma Step.defined (h : Step s op s') (hr : Recorded ops s) (he : e ∈ s'.entries) :
    e.defined = true ↔
      ∃ address, Operation.request (.define e.source e.kind address) ∈ ops ++ [op] := by
  simp only [List.mem_append, List.mem_singleton, exists_or]
  cases h with
  | keep hname hdefined =>
    rw [← hr.defined e he, iff_self_or]
    rintro ⟨address, hop⟩
    exact hdefined e he address hop.symm
  | enter d henters hnew hdefined =>
    rcases List.mem_append.mp he with he | he
    · have hne : d.source ≠ e.source := fun heq => hnew (heq ▸ List.mem_map_of_mem he)
      rw [← hr.defined e he, iff_self_or]
      rintro ⟨address, rfl⟩
      exact absurd (congrArg Prod.fst (Option.some.inj henters)).symm hne
    · obtain rfl := List.mem_singleton.mp he
      simp only [hdefined, eq_comm (a := op), iff_or_self]
      rintro ⟨address, hop⟩
      exact absurd rfl (hr.not_enters hnew hop rfl)
  | define d address hd hdef hkind hop =>
    obtain ⟨d', hd', rfl⟩ := List.mem_map.mp he
    split_ifs with hsource
    · refine iff_of_true rfl (Or.inr ⟨address, ?_⟩)
      rw [hop, ← hkind]
      rfl
    · rw [← hr.defined d' hd', iff_self_or]
      rintro ⟨address, heq⟩
      exact absurd (congrArg Operation.name (heq.trans hop)) hsource

lemma Step.recorded (hs : s.Consistent) (h : Step s op s') (hr : Recorded ops s) :
    Recorded (ops ++ [op]) s' :=
  ⟨h.first hs hr, fun _ => h.defined hr⟩

lemma recorded_history (stem : String) (ops : List Operation) :
    Recorded ops (history stem ops) := by
  induction ops using List.reverseRecOn with
  | nil => exact ⟨fun _ => rfl, List.forall_mem_nil _⟩
  | append_singleton ops op ih =>
    rw [history_concat]
    have hconsistent := (consistent_history stem ops).1
    exact (step_next hconsistent op).recorded hconsistent ih

/-- Whatever is done with a table, each name has at most one entry, its spelling in the assembly
follows from whether it is defined, and its kind and address are those that it was entered with. Later
operations keep all entries and at most define them. Operations fail exactly where `Refuses` says, and
then change nothing; otherwise they give the entry that the name has after them. -/
theorem history_grows (stem : String) (ops : List Operation) :
    (history stem ops).sources.Nodup ∧
      (∀ e ∈ (history stem ops).entries,
        e.asm = if e.defined then stem ++ e.source else e.source) ∧
      Recorded ops (history stem ops) ∧
      (∀ more, Grows (history stem ops) (history stem (ops ++ more))) ∧
      ∀ op,
        ((∃ failure, (history stem ops).answer op = .error failure) ↔
          (history stem ops).Refuses op) ∧
        ((history stem ops).Refuses op → history stem (ops ++ [op]) = history stem ops) ∧
        ∀ a, (history stem ops).answer op = .ok a →
          a = (history stem (ops ++ [op])).find? op.name := by
  obtain ⟨hconsistent, hstem⟩ := consistent_history stem ops
  refine ⟨hconsistent.nodup, fun e he => ?_, recorded_history stem ops, grows_history stem ops,
    fun op => ⟨answer_eq_error_iff, fun h => ?_, fun a h => ?_⟩⟩
  · rw [hconsistent.asm e he, hstem]
  · rw [history_concat]
    exact h.next_eq
  · rw [history_concat]
    exact answer_eq_find? h

/-- A function that is called before it is defined: the address of the definition is not kept, a
second definition fails, and so does a call of data. -/
theorem history_grows_called :
    let ops : List Operation :=
      [.request (.callee "f"), .request (.define "g" .variable (some ⟨.data, 8⟩)),
        .request (.define "f" .function (some ⟨.text, 4⟩)), .lookup "h"]
    (history "p_" ops).Refuses (.request (.define "f" .function none)) ∧
      history "p_" (ops ++ [.request (.define "f" .function none)]) = history "p_" ops ∧
      (∃ failure, (history "p_" ops).answer (.request (.callee "g")) = .error failure) ∧
      (history "p_" ops).entries =
        [{ source := "f", asm := "p_f", kind := .function, defined := true },
          { source := "g", asm := "p_g", kind := .variable, defined := true,
            address := some ⟨.data, 8⟩ }] := by
  intro ops
  obtain ⟨-, -, -, -, hops⟩ := history_grows "p_" ops
  have hentries : (history "p_" ops).entries =
      [{ source := "f", asm := "p_f", kind := .function, defined := true },
        { source := "g", asm := "p_g", kind := .variable, defined := true,
          address := some ⟨.data, 8⟩ }] := by decide
  have hrefuses : (history "p_" ops).Refuses (.request (.define "f" .function none)) :=
    ⟨⟨"f", "p_f", .function, true, none⟩, by decide, by decide⟩
  refine ⟨hrefuses, (hops _).2.1 hrefuses, (hops _).1.mpr ?_, hentries⟩
  exact ⟨⟨"g", "p_g", .variable, true, some ⟨.data, 8⟩⟩, by decide, by decide⟩

end NativeCode.Symbols
