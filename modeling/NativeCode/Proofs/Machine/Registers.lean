import NativeCode.Proofs.Machine.Effect

/-!
# Registers that instructions need and settle

An instruction needs low bytes of the registers that it reads or addresses memory with, and settles
low bytes of the register it writes. Code is prepared if it settles every temporary before it needs
it.
-/

namespace NativeCode

/-- How many low bytes of a register a write of a width settles. Writing four bytes clears the
rest. -/
def Width.settled : Width → Nat
  | .byte => 1
  | .word => 2
  | .long | .quad => 8

end NativeCode

namespace NativeCode.Machine

namespace Operand

def address : Operand → List Reg
  | .mem m => m.base :: (m.index.map Prod.fst).toList
  | _ => []

def regs : Operand → List Reg
  | .reg r => [r.reg]
  | o => o.address

/-- The registers that it takes to find an operand. -/
def addressNeeds (o : Operand) : List (Reg × Nat) := o.address.map (·, 8)

/-- The registers that it takes to read an operand. -/
def needs : Operand → List (Reg × Nat)
  | .reg r => [(r.reg, r.width.bytes)]
  | o => o.addressNeeds

end Operand

/-- Whether an operation writes its last operand without reading it. -/
def Opcode.overwrites : Opcode → Bool
  | .mov _ | .movabs | .movzb | .movzw | .movsb | .movsw | .movsl | .lea | .set _ | .pop | .movs _ =>
    true
  | _ => false

lemma Opcode.writesLast_of_overwrites {op : Opcode} (h : op.overwrites = true) :
    op.writesLast = true := by
  cases op <;> simp_all [overwrites, writesLast]

namespace Instr

def regs (i : Instr) : List Reg := i.operands.flatMap Operand.regs

/-- The registers that an instruction needs, with the number of low bytes. -/
def needs (i : Instr) : List (Reg × Nat) :=
  i.operands.dropLast.flatMap Operand.needs ++
    i.operands.getLast?.toList.flatMap
      (if i.op.overwrites then Operand.addressNeeds else Operand.needs)

/-- The register that an instruction settles, with the number of low bytes. -/
def settles (i : Instr) : List (Reg × Nat) :=
  match i.dst? with
  | some (.reg r) => [(r.reg, r.width.settled)]
  | _ => []

lemma mem_needs_or_eq {o : Operand} {r : Reg} (h : r ∈ o.regs) :
    (∃ n, (r, n) ∈ o.addressNeeds) ∨ ∃ q, o = .reg q ∧ q.reg = r := by
  cases o with
  | reg q => exact Or.inr ⟨q, rfl, (List.mem_singleton.mp h).symm⟩
  | mem m => exact Or.inl ⟨8, List.mem_map_of_mem h⟩
  | imm | label | symbol | rip => cases h

lemma exists_mem_needs {o : Operand} {r : Reg} (h : r ∈ o.regs) :
    ∃ n, (r, n) ∈ o.needs := by
  cases o with
  | reg q => exact ⟨_, by rw [List.mem_singleton.mp h]; exact List.mem_singleton_self _⟩
  | mem m => exact ⟨8, List.mem_map_of_mem h⟩
  | imm | label | symbol | rip => cases h

/-- Every register of an instruction is needed or settled. -/
theorem mem_regs {i : Instr} {r : Reg} (h : r ∈ i.regs) :
    (∃ n, (r, n) ∈ i.needs) ∨ ∃ n, (r, n) ∈ i.settles := by
  obtain ⟨o, ho, hr⟩ := List.mem_flatMap.mp h
  cases hlast : i.operands.getLast? with
  | none => simp [List.getLast?_eq_none_iff.mp hlast] at ho
  | some last =>
    obtain ⟨front, hfront⟩ := List.getLast?_eq_some_iff.mp hlast
    have hdrop : i.operands.dropLast = front := by rw [hfront, List.dropLast_concat]
    rw [hfront, List.mem_append, List.mem_singleton] at ho
    simp only [needs, settles, dst?, hlast, hdrop, List.mem_append, List.mem_flatMap,
      Option.toList_some, List.mem_singleton, exists_eq_left]
    rcases ho with ho | rfl
    · obtain ⟨n, hn⟩ := exists_mem_needs hr
      exact Or.inl ⟨n, Or.inl ⟨o, ho, hn⟩⟩
    · by_cases hop : i.op.overwrites = true
      · rcases mem_needs_or_eq hr with ⟨n, hn⟩ | ⟨q, rfl, rfl⟩
        · exact Or.inl ⟨n, Or.inr (by rw [if_pos hop]; exact hn)⟩
        · exact Or.inr ⟨q.width.settled, by simp [Opcode.writesLast_of_overwrites hop]⟩
      · obtain ⟨n, hn⟩ := exists_mem_needs hr
        exact Or.inl ⟨n, Or.inr (by rw [if_neg hop]; exact hn)⟩

end Instr

/-! ### Prepared code -/

/-- Low bytes of a register are settled, unless it is no temporary. -/
def Covers (k : List (Reg × Nat)) (u : Reg × Nat) : Prop :=
  ∀ id cls, u.1 = .temp id cls → ∃ n, u.2 ≤ n ∧ (u.1, n) ∈ k

/-- The bytes that are settled after an instruction, if the bytes `k` were before it. A call keeps
none of them. -/
def Instr.settled (i : Instr) (k : List (Reg × Nat)) : List (Reg × Nat) :=
  i.settles ++ if i.op = .call then [] else k

/-- Code that settles every temporary before it needs it, after the bytes `k` have been settled. -/
def Prepared (k : List (Reg × Nat)) : List Instr → Prop
  | [] => True
  | i :: is => (∀ u ∈ i.needs, Covers k u) ∧ Prepared (i.settled k) is

def settledAfter (k : List (Reg × Nat)) : List Instr → List (Reg × Nat)
  | [] => k
  | i :: is => settledAfter (i.settled k) is

variable {k k' : List (Reg × Nat)} {is js : List Instr}

lemma Instr.pos_of_mem_needs {i : Instr} {u : Reg × Nat} (h : u ∈ i.needs) : 0 < u.2 := by
  have haddress {o : Operand} (h : u ∈ o.addressNeeds) : 0 < u.2 := by
    obtain ⟨r, -, rfl⟩ := List.mem_map.mp h
    exact Nat.succ_pos 7
  have hneeds {o : Operand} (h : u ∈ o.needs) : 0 < u.2 := by
    cases o with
    | reg r =>
      rw [List.mem_singleton.mp h]
      exact r.width.bytes_pos
    | mem | imm | label | symbol | rip => exact haddress h
  rw [Instr.needs, List.mem_append, List.mem_flatMap, List.mem_flatMap] at h
  rcases h with ⟨o, -, h⟩ | ⟨o, -, h⟩
  · exact hneeds h
  · split_ifs at h
    · exact haddress h
    · exact hneeds h

lemma Covers.mono {u : Reg × Nat} (h : Covers k u) (hu : 0 < u.2)
    (hk : ∀ u ∈ k, 0 < u.2 → u ∈ k') : Covers k' u := by
  intro id cls hid
  obtain ⟨n, hn, hmem⟩ := h id cls hid
  exact ⟨n, hn, hk _ hmem (hu.trans_le hn)⟩

lemma mem_settled_mono (i : Instr) (hk : ∀ u ∈ k, 0 < u.2 → u ∈ k') :
    ∀ u ∈ i.settled k, 0 < u.2 → u ∈ i.settled k' := by
  intro u hu hpos
  rcases List.mem_append.mp hu with hu | hu
  · exact List.mem_append_left _ hu
  · refine List.mem_append_right _ ?_
    split_ifs at hu ⊢
    · exact hu
    · exact hk u hu hpos

lemma Prepared.mono (h : Prepared k is) (hk : ∀ u ∈ k, 0 < u.2 → u ∈ k') : Prepared k' is := by
  induction is generalizing k k' with
  | nil => trivial
  | cons i is ih =>
    exact ⟨fun u hu => (h.1 u hu).mono (Instr.pos_of_mem_needs hu) hk,
      ih h.2 (mem_settled_mono i hk)⟩

/-- Code is prepared if its parts are, one after the other. -/
theorem prepared_append :
    Prepared k (is ++ js) ↔ Prepared k is ∧ Prepared (settledAfter k is) js := by
  induction is generalizing k with
  | nil => simp [Prepared, settledAfter]
  | cons i is ih => rw [List.cons_append, Prepared, Prepared, settledAfter, ih, and_assoc]

lemma settledAfter_append : settledAfter k (is ++ js) = settledAfter (settledAfter k is) js := by
  induction is generalizing k with
  | nil => rfl
  | cons i is ih => exact ih

lemma settledAfter_mono (hk : ∀ u ∈ k, 0 < u.2 → u ∈ k') :
    ∀ u ∈ settledAfter k is, 0 < u.2 → u ∈ settledAfter k' is := by
  induction is generalizing k k' with
  | nil => exact hk
  | cons i is ih => exact ih (mem_settled_mono i hk)

end NativeCode.Machine
