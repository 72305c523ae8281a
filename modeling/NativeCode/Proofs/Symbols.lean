import Mathlib
import NativeCode.Symbols

/-!
# Tables of symbols

A table starts empty and only changes by requests. Whatever is asked of it, no name is entered twice,
the names that are defined here have the stem in front of their spelling, and all other names are
those of functions and keep theirs. So two names share a name in the assembly only where one of them
is defined here, and the other one is not and happens to be spelled like the first with the stem.
-/

namespace NativeCode.Symbols

variable {kind : SymbolKind} {address : Option Address}

/-- The names that have been entered. -/
def sources (s : Symbols) : List String := s.entries.map (·.source)

/-- What can be asked of a table. -/
inductive Request where
  | define (name : String) (kind : SymbolKind) (address : Option Address)
  | declare (name : String)
  | callee (name : String)
  | data (name : String)
  deriving DecidableEq

/-- The table after a request. One that fails leaves it as it was. -/
def serve (s : Symbols) : Request → Symbols
  | .define name kind address =>
    match s.define name kind address with
    | .ok r => r.2
    | .error _ => s
  | .declare name => (s.declare name).2
  | .callee name =>
    match s.callee name with
    | .ok r => r.2
    | .error _ => s
  | .data _ => s

/-- The table after requests. -/
def after (stem : String) (rs : List Request) : Symbols := rs.foldl serve { stem }

/-- No name is entered twice, and the spelling in the assembly follows from where a name is
defined. -/
structure Consistent (s : Symbols) : Prop where
  nodup : s.sources.Nodup
  asm : ∀ e ∈ s.entries, e.asm = if e.defined then s.stem ++ e.source else e.source
  functions : ∀ e ∈ s.entries, e.defined = false → e.kind = .function

variable {s s' : Symbols} {e e' : Symbol} {name : String}

lemma find?_eq_none_iff : s.find? name = none ↔ name ∉ s.sources := by
  simp [find?, sources]

lemma of_find?_eq_some (h : s.find? name = some e) : e ∈ s.entries ∧ e.source = name :=
  ⟨List.mem_of_find?_eq_some h, by simpa using List.find?_some h⟩

lemma Consistent.find?_source (hs : s.Consistent) (he : e ∈ s.entries) :
    s.find? e.source = some e := by
  cases hfind : s.find? e.source with
  | none => exact absurd (List.mem_map_of_mem he) (find?_eq_none_iff.mp hfind)
  | some e' =>
    obtain ⟨he', hsource⟩ := of_find?_eq_some hfind
    rw [List.inj_on_of_nodup_map hs.nodup he' he hsource]

/-! ### What requests do -/

def external (name : String) : Symbol where
  source := name
  asm := name
  kind := .function
  defined := false

/-- A name is defined if it is new, or if it is that of an external function. -/
theorem define_cases (h : s.define name kind address = .ok (e, s')) :
    (s.find? name = none ∧
        e = { source := name, asm := s.stem ++ name, kind, defined := true, address } ∧
        s' = s.push e) ∨
      ∃ d, s.find? name = some d ∧ d.defined = false ∧ kind = .function ∧
        e = { d with defined := true, asm := s.stem ++ name } ∧ s' = s.update name fun _ => e := by
  rw [define] at h
  cases hfind : s.find? name with
  | none =>
    rw [hfind] at h
    cases h
    exact Or.inl ⟨rfl, rfl, rfl⟩
  | some d =>
    rw [hfind] at h
    dsimp only at h
    split_ifs at h with hd
    · cases h
      simp only [Bool.and_eq_true, Bool.not_eq_true', decide_eq_true_eq] at hd
      exact Or.inr ⟨d, rfl, hd.1.1, hd.2, rfl, rfl⟩
    · cases h

lemma define_of_not_mem (h : name ∉ s.sources) (kind : SymbolKind) (address : Option Address) :
    ∃ e, e.source = name ∧ s.define name kind address = .ok (e, s.push e) := by
  rw [define, find?_eq_none_iff.mpr h]
  exact ⟨_, rfl, rfl⟩

/-- A name that is declared is that of an external function, unless it is there already. -/
theorem declare_cases (s : Symbols) (name : String) :
    (∃ e, s.find? name = some e ∧ s.declare name = (e, s)) ∨
      s.find? name = none ∧ s.declare name = (external name, s.push (external name)) := by
  rw [declare]
  cases s.find? name with
  | none => exact Or.inr ⟨rfl, rfl⟩
  | some e => exact Or.inl ⟨e, rfl, rfl⟩

/-- A callee is a function of the table, or it is entered as an external one. -/
theorem callee_cases (h : s.callee name = .ok (e, s')) :
    (s.find? name = some e ∧ e.kind = .function ∧ s' = s) ∨
      s.find? name = none ∧ e = external name ∧ s' = s.push e := by
  rw [callee] at h
  cases hfind : s.find? name with
  | none =>
    rcases s.declare_cases name with ⟨d, hd, -⟩ | ⟨-, hdeclare⟩
    · rw [hfind] at hd
      cases hd
    · rw [hfind, hdeclare] at h
      cases h
      exact Or.inr ⟨rfl, rfl, rfl⟩
  | some d =>
    rw [hfind] at h
    dsimp only at h
    split_ifs at h with hkind
    · cases h
      exact Or.inl ⟨rfl, hkind, rfl⟩
    · cases h

@[simp] lemma sources_push (s : Symbols) (e : Symbol) :
    (s.push e).sources = s.sources ++ [e.source] := List.map_append

@[simp] lemma stem_push (s : Symbols) (e : Symbol) : (s.push e).stem = s.stem := rfl

@[simp] lemma stem_update (s : Symbols) (name : String) (g : Symbol → Symbol) :
    (s.update name g).stem = s.stem := rfl

lemma stem_of_define (h : s.define name kind address = .ok (e, s')) : s'.stem = s.stem := by
  rcases define_cases h with ⟨-, -, rfl⟩ | ⟨-, -, -, -, -, rfl⟩ <;> rfl

lemma stem_declare (s : Symbols) (name : String) : (s.declare name).2.stem = s.stem := by
  rcases s.declare_cases name with ⟨e, -, h⟩ | ⟨-, h⟩
  · rw [h]
  · rw [h]
    rfl

lemma stem_of_callee (h : s.callee name = .ok (e, s')) : s'.stem = s.stem := by
  rcases callee_cases h with ⟨-, -, rfl⟩ | ⟨-, -, rfl⟩ <;> rfl

lemma sources_update (h : e.source = name) : (s.update name fun _ => e).sources = s.sources := by
  rw [sources, sources, update, List.map_map]
  refine List.map_congr_left fun d _ => ?_
  rw [Function.comp_apply]
  split_ifs with hname
  · rw [h, hname]
  · rfl

/-! ### Every table is consistent -/

lemma consistent_empty (stem : String) : Consistent { stem } :=
  ⟨List.nodup_nil, by simp, by simp⟩

lemma Consistent.push (hs : s.Consistent) (hnew : e.source ∉ s.sources)
    (hasm : e.asm = if e.defined then s.stem ++ e.source else e.source)
    (hfunction : e.defined = false → e.kind = .function) : (s.push e).Consistent where
  nodup := by
    rw [sources_push, ← List.concat_eq_append]
    exact hs.nodup.concat hnew
  asm := by
    refine List.forall_mem_append.mpr ⟨hs.asm, ?_⟩
    rintro d (- | ⟨_, ⟨⟩⟩)
    exact hasm
  functions := by
    refine List.forall_mem_append.mpr ⟨hs.functions, ?_⟩
    rintro d (- | ⟨_, ⟨⟩⟩)
    exact hfunction

lemma Consistent.update (hs : s.Consistent) (hsource : e.source = name)
    (hdefined : e.defined = true) (hasm : e.asm = s.stem ++ name) :
    (s.update name fun _ => e).Consistent := by
  have hmem : ∀ d ∈ (s.update name fun _ => e).entries, d = e ∨ d ∈ s.entries := by
    intro d hd
    obtain ⟨d', hd', rfl⟩ := List.mem_map.mp hd
    split_ifs
    · exact Or.inl rfl
    · exact Or.inr hd'
  refine ⟨by rw [sources_update hsource]; exact hs.nodup, fun d hd => ?_, fun d hd => ?_⟩
  · rcases hmem d hd with rfl | hd
    · rw [if_pos hdefined, hasm, hsource, stem_update]
    · exact hs.asm d hd
  · rcases hmem d hd with rfl | hd
    · rw [hdefined]
      exact nofun
    · exact hs.functions d hd

lemma Consistent.define (hs : s.Consistent) (h : s.define name kind address = .ok (e, s')) :
    s'.Consistent := by
  rcases define_cases h with ⟨hnew, rfl, rfl⟩ | ⟨d, hd, -, -, rfl, rfl⟩
  · exact hs.push (find?_eq_none_iff.mp hnew) rfl nofun
  · exact hs.update (of_find?_eq_some hd).2 rfl rfl

lemma Consistent.pushExternal (hs : s.Consistent) (hnew : s.find? name = none) :
    (s.push (external name)).Consistent :=
  hs.push (find?_eq_none_iff.mp hnew) rfl fun _ => rfl

lemma Consistent.declare (hs : s.Consistent) (name : String) : (s.declare name).2.Consistent := by
  rcases s.declare_cases name with ⟨e, -, h⟩ | ⟨hnew, h⟩
  · rwa [h]
  · rw [h]
    exact hs.pushExternal hnew

theorem Consistent.callee (hs : s.Consistent) (h : s.callee name = .ok (e, s')) :
    s'.Consistent := by
  rcases callee_cases h with ⟨-, -, rfl⟩ | ⟨hnew, rfl, rfl⟩
  · exact hs
  · exact hs.pushExternal hnew

/-- Every request leaves a table consistent, and the stem as it is. -/
theorem Consistent.serve (hs : s.Consistent) (r : Request) :
    (s.serve r).Consistent ∧ (s.serve r).stem = s.stem := by
  cases r with
  | define name kind address =>
    rw [Symbols.serve]
    cases h : s.define name kind address with
    | error _ => exact ⟨hs, rfl⟩
    | ok r => exact ⟨hs.define h, stem_of_define h⟩
  | declare name => exact ⟨hs.declare name, s.stem_declare name⟩
  | callee name =>
    rw [Symbols.serve]
    cases h : s.callee name with
    | error _ => exact ⟨hs, rfl⟩
    | ok r => exact ⟨hs.callee h, stem_of_callee h⟩
  | data => exact ⟨hs, rfl⟩

/-- Whatever is asked of a table, it is consistent, and it keeps its stem. -/
theorem consistent_after (stem : String) (rs : List Request) :
    (after stem rs).Consistent ∧ (after stem rs).stem = stem := by
  suffices h : ∀ s : Symbols, s.Consistent →
      (rs.foldl serve s).Consistent ∧ (rs.foldl serve s).stem = s.stem from
    h _ (consistent_empty stem)
  induction rs with
  | nil => exact fun s hs => ⟨hs, rfl⟩
  | cons r rs ih =>
    intro s hs
    obtain ⟨hserve, hstem⟩ := hs.serve r
    obtain ⟨hall, hstem'⟩ := ih _ hserve
    exact ⟨hall, hstem'.trans hstem⟩

/-! ### Names that are spelled alike -/

/-- Two names share a name in the assembly only where the stem in front of the one that is defined
here gives the spelling of the other one, which is not. -/
theorem Consistent.asm_eq_iff (hs : s.Consistent) (he : e ∈ s.entries) (he' : e' ∈ s.entries)
    (hne : e.source ≠ e'.source) :
    e.asm = e'.asm ↔
      e.defined = true ∧ e'.defined = false ∧ e'.source = s.stem ++ e.source ∨
        e'.defined = true ∧ e.defined = false ∧ e.source = s.stem ++ e'.source := by
  rw [hs.asm e he, hs.asm e' he']
  cases e.defined <;> cases e'.defined
  · simpa using hne
  · simp
  · simp [eq_comm]
  · simpa using hne

/-! ### The table of a module -/

/-- The table of a module: it defines `globals` and `functions` and nothing else, and all its names
are among `names`. -/
structure Lists (stem : String) (globals functions names : List String) (s : Symbols) : Prop where
  consistent : s.Consistent
  stem : s.stem = stem
  defined : ∀ name,
    (∃ e ∈ s.entries, e.source = name ∧ e.defined = true) ↔ name ∈ globals ∨ name ∈ functions
  functions : ∀ e ∈ s.entries, e.defined = true → (e.kind = .function ↔ e.source ∈ functions)
  names : ∀ e ∈ s.entries, e.source ∈ names

/-- The name of a callee in the assembly: functions of the module have the stem in front, and all
others keep their spelling. -/
def spelling (stem : String) (functions : List String) (name : String) : String :=
  if name ∈ functions then stem ++ name else name

section Lists

variable {stem : String} {globals functions names : List String}

lemma lists_empty (stem : String) (names : List String) : Lists stem [] [] names { stem } :=
  ⟨consistent_empty stem, rfl, by simp, by simp, by simp⟩

lemma Lists.mem_sources (hs : s.Lists stem globals functions names)
    (h : name ∈ globals ∨ name ∈ functions) : name ∈ s.sources := by
  obtain ⟨e, he, rfl, -⟩ := (hs.defined name).mpr h
  exact List.mem_map_of_mem he

lemma Lists.push {globals' functions' : List String}
    (hs : s.Lists stem globals functions names) (hpush : (s.push e).Consistent)
    (hname : e.source ∈ names)
    (hdefined : ∀ name, name ∈ globals' ∨ name ∈ functions' ↔
      (name ∈ globals ∨ name ∈ functions) ∨ e.defined = true ∧ name = e.source)
    (hfunctions : ∀ d ∈ s.entries, d.source ∈ functions' ↔ d.source ∈ functions)
    (he : e.defined = true → (e.kind = .function ↔ e.source ∈ functions')) :
    (s.push e).Lists stem globals' functions' names where
  consistent := hpush
  stem := hs.stem
  defined name := by
    rw [hdefined, ← hs.defined]
    simp only [Symbols.push, List.mem_append, List.mem_singleton]
    constructor
    · rintro ⟨d, hd | rfl, rfl, hdef⟩
      · exact Or.inl ⟨d, hd, rfl, hdef⟩
      · exact Or.inr ⟨hdef, rfl⟩
    · rintro (⟨d, hd, rfl, hdef⟩ | ⟨hdef, rfl⟩)
      · exact ⟨d, Or.inl hd, rfl, hdef⟩
      · exact ⟨e, Or.inr rfl, rfl, hdef⟩
  functions := by
    refine List.forall_mem_append.mpr ⟨fun d hd hdef => ?_, by simpa using he⟩
    rw [hfunctions d hd]
    exact hs.functions d hd hdef
  names := List.forall_mem_append.mpr ⟨hs.names, by simpa using hname⟩

lemma Lists.define_global (hs : s.Lists stem globals functions names) (hnew : name ∉ s.sources)
    (hname : name ∈ names) {kind : SymbolKind} (hkind : kind ≠ .function)
    {address : Option Address} (h : s.define name kind address = .ok (e, s')) :
    e.asm = stem ++ name ∧ s'.Lists stem (globals ++ [name]) functions names := by
  have hconsistent := hs.consistent.define h
  rcases define_cases h with ⟨-, rfl, rfl⟩ | ⟨d, -, -, rfl, -, -⟩
  · refine ⟨congrArg (· ++ name) hs.stem, hs.push hconsistent hname ?_ (fun _ _ => Iff.rfl) ?_⟩
    · intro x
      simp only [List.mem_append, List.mem_singleton]
      tauto
    · exact fun _ => iff_of_false hkind fun hmem => hnew (hs.mem_sources (Or.inr hmem))
  · exact absurd rfl hkind

lemma Lists.define_function (hs : s.Lists stem globals functions names) (hnew : name ∉ s.sources)
    (hname : name ∈ names) {address : Option Address}
    (h : s.define name .function address = .ok (e, s')) :
    s'.Lists stem globals (functions ++ [name]) names := by
  have hconsistent := hs.consistent.define h
  rcases define_cases h with ⟨-, rfl, rfl⟩ | ⟨d, hd, -, -, -, -⟩
  · refine hs.push hconsistent hname ?_ (fun d hd => ?_) fun _ => by simp
    · intro x
      simp only [List.mem_append, List.mem_singleton]
      tauto
    · have hne : d.source ≠ name := fun heq => hnew (heq ▸ List.mem_map_of_mem hd)
      simp [hne]
  · obtain ⟨hmem, rfl⟩ := of_find?_eq_some hd
    exact absurd (List.mem_map_of_mem hmem) hnew

lemma Lists.pushExternal (hs : s.Lists stem globals functions names)
    (hnew : s.find? name = none) (hname : name ∈ names) :
    (s.push (external name)).Lists stem globals functions names := by
  refine hs.push (hs.consistent.pushExternal hnew) hname (fun x => ?_) (fun _ _ => Iff.rfl) nofun
  simp [external]

lemma Lists.declare (hs : s.Lists stem globals functions names) (hname : name ∈ names) :
    (s.declare name).2.Lists stem globals functions names := by
  rcases s.declare_cases name with ⟨e, -, h⟩ | ⟨hnew, h⟩
  · rwa [h]
  · rw [h]
    exact hs.pushExternal hnew hname

/-- A callee keeps the table of a module, and is spelled as it should be. -/
theorem Lists.callee (hs : s.Lists stem globals functions names) (hname : name ∈ names)
    (h : s.callee name = .ok (e, s')) :
    s'.Lists stem globals functions names ∧ e ∈ s'.entries ∧
      e.asm = spelling stem functions name := by
  rcases callee_cases h with ⟨hfind, hkind, rfl⟩ | ⟨hnew, rfl, rfl⟩
  · obtain ⟨he, rfl⟩ := of_find?_eq_some hfind
    refine ⟨hs, he, ?_⟩
    rw [hs.consistent.asm e he, hs.stem, spelling]
    cases hdef : e.defined with
    | true => rw [if_pos rfl, if_pos ((hs.functions e he hdef).mp hkind)]
    | false =>
      rw [if_neg nofun, if_neg fun hmem => ?_]
      obtain ⟨d, hd, hsource, hdef'⟩ := (hs.defined e.source).mpr (Or.inr hmem)
      rw [List.inj_on_of_nodup_map hs.consistent.nodup hd he hsource, hdef] at hdef'
      cases hdef'
  · refine ⟨hs.pushExternal hnew hname, List.mem_append_right _ List.mem_cons_self, ?_⟩
    have hfunctions : name ∉ functions := fun hmem =>
      find?_eq_none_iff.mp hnew (hs.mem_sources (Or.inr hmem))
    exact (if_neg hfunctions).symm

lemma Lists.find?_defined (hs : s.Lists stem globals functions names)
    (h : name ∈ globals ∨ name ∈ functions) :
    ∃ e, s.find? name = some e ∧ e.asm = stem ++ name := by
  obtain ⟨e, he, rfl, hdef⟩ := (hs.defined name).mpr h
  refine ⟨e, hs.consistent.find?_source he, ?_⟩
  rw [hs.consistent.asm e he, if_pos hdef, hs.stem]

lemma Lists.asm_of_data (hs : s.Lists stem globals functions names) (he : e ∈ s.entries)
    (hkind : e.kind ≠ .function) : e.source ∈ globals ∧ e.asm = stem ++ e.source := by
  have hdef : e.defined = true := by
    cases hdef : e.defined with
    | true => rfl
    | false => exact absurd (hs.consistent.functions e he hdef) hkind
  refine ⟨((hs.defined e.source).mp ⟨e, he, rfl, hdef⟩).resolve_right fun hmem => ?_, ?_⟩
  · exact hkind ((hs.functions e he hdef).mpr hmem)
  · rw [hs.consistent.asm e he, if_pos hdef, hs.stem]

lemma Lists.asm_eq (hs : s.Lists stem globals functions names) (he : e ∈ s.entries) :
    ∃ name ∈ names, e.asm = name ∨ e.asm = stem ++ name := by
  refine ⟨e.source, hs.names e he, ?_⟩
  rw [hs.consistent.asm e he, hs.stem]
  split_ifs
  · exact Or.inr rfl
  · exact Or.inl rfl

end Lists

end NativeCode.Symbols
