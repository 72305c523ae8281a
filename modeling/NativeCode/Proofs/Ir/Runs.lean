import Mathlib
import NativeCode.Ir.Module

/-!
# Runs of functions on integers

A run of a function computes with integers. A value of an integer type is an integer in its range,
and arithmetic wraps around there. Results keep their values until they are computed again. Each
allocation makes an empty slot, which the result of the allocation stands for. There is no step for
what a run cannot know: a result that has not been computed, a slot that is empty, a call.
-/

namespace NativeCode.Ir

/-! ### Values -/

namespace Ty

/-- The value of a type that an integer wraps around to: the one that is equal to it modulo the
number of values, which for a signed type lie around zero. -/
def wrap (ty : Ty) (z : Int) : Int :=
  if ty.isSigned then z.bmod (2 ^ (8 * ty.size)) else z % 2 ^ (8 * ty.size)

/-- The integers that are values of a type. -/
def Has (ty : Ty) (z : Int) : Prop := ty.wrap z = z

instance (ty : Ty) (z : Int) : Decidable (ty.Has z) := inferInstanceAs (Decidable (_ = _))

/-- The integer of a literal. -/
def literal (ty : Ty) (bits : Word) : Int := if ty.isSigned then bits.toInt else bits.toNat

theorem has_wrap (ty : Ty) (z : Int) : ty.Has (ty.wrap z) := by
  unfold Has wrap
  split_ifs
  · exact Int.bmod_bmod
  · exact Int.emod_emod_of_dvd _ dvd_rfl

end Ty

namespace BinaryOp

def orders : BinaryOp → Int → Int → Bool
  | ne, x, y => x ≠ y
  | lt, x, y => x < y
  | le, x, y => x ≤ y
  | gt, x, y => y < x
  | ge, x, y => y ≤ x
  | _, x, y => x = y

/-- The bits of two integers, combined as 64-bit words. -/
def bitwise (k : Word → Word → Word) (x y : Int) : Int :=
  (k (BitVec.ofInt 64 x) (BitVec.ofInt 64 y)).toInt

/-- The quotient of two integers, rounded towards zero. There is none if the divisor is zero, or if
the type is signed and the quotient is the smallest integer that does not fit into 64 bits. -/
def quotient? (ty : Ty) (x y : Int) : Option Int :=
  if y = 0 ∨ ty.isSigned = true ∧ x.tdiv y = 2 ^ 63 then none else some (x.tdiv y)

/-- The result of an operation on two values of a type. Only a division can have none. Counts of
shifts are taken modulo 64. -/
def eval (op : BinaryOp) (ty : Ty) (x y : Int) : Option Int :=
  match op with
  | add => some (ty.wrap (x + y))
  | sub => some (ty.wrap (x - y))
  | mul => some (ty.wrap (x * y))
  | div => (quotient? ty x y).map ty.wrap
  | and => some (ty.wrap (bitwise (· &&& ·) x y))
  | or => some (ty.wrap (bitwise (· ||| ·) x y))
  | xor => some (ty.wrap (bitwise (· ^^^ ·) x y))
  | shl => some (ty.wrap (x * 2 ^ (y % 64).toNat))
  | shr => some (ty.wrap (x / 2 ^ (y % 64).toNat))
  | eq | ne | lt | le | gt | ge => some (if op.orders x y then 1 else 0)

lemma eval_of_isComparison {op : BinaryOp} (h : op.isComparison = true) (ty : Ty) (x y : Int) :
    op.eval ty x y = some (if op.orders x y then 1 else 0) := by
  cases op <;> first | rfl | cases h

end BinaryOp

/-! ### Steps -/

/-- What a run knows: its arguments, the results that have been computed, and the slots that have
been allocated, with what was stored in them last. -/
structure Env where
  args : List Int
  results : Nat → Option Int := fun _ => none
  slots : Nat → Option (Option Int) := fun _ => none

namespace Env

def operand? (ρ : Env) : Operand → Option Int
  | .value id => ρ.results id
  | .param index => ρ.args[index]?
  | .const ty bits => some (ty.literal bits)
  | .global _ => none

/-- A result that has been computed. -/
def define (ρ : Env) (id : Nat) (v : Int) : Env :=
  { ρ with results := Function.update ρ.results id (some v) }

def put (ρ : Env) (id : Nat) (v : Option Int) : Env :=
  { ρ with slots := Function.update ρ.slots id (some v) }

variable (ρ : Env) (id : Nat)

lemma operand?_define (v : Int) (x : Operand) :
    (ρ.define id v).operand? x = if x = .value id then some v else ρ.operand? x := by
  cases x with
  | value id' => simp [operand?, define, Function.update_apply]
  | param | const | global => simp [operand?, define]

@[simp] lemma operand?_put (v : Option Int) (x : Operand) :
    (ρ.put id v).operand? x = ρ.operand? x := by
  cases x <;> rfl

lemma slots_put (v : Option Int) (id' : Nat) :
    (ρ.put id v).slots id' = if id' = id then some v else ρ.slots id' :=
  Function.update_apply ..

end Env

inductive Effect where
  | onward (ρ : Env)
  | ret (v : Option Int)
  /-- A division without a quotient. -/
  | fault

/-- What an instruction does in an environment. Loads and stores go through the results of
allocations. -/
def Instr.effect? (i : Instr) (ρ : Env) : Option Effect :=
  match i.kind, i.operands with
  | .const, [x] => do
    let v ← ρ.operand? x
    let id ← i.result
    return .onward (ρ.define id (i.ty.wrap v))
  | .binary op, [x, y] => do
    let v ← ρ.operand? x
    let w ← ρ.operand? y
    let id ← i.result
    return ((op.eval i.ty v w).map fun r => .onward (ρ.define id r)).getD .fault
  | .alloca, _ => do
    let id ← i.result
    return .onward (ρ.put id none)
  | .load, [.value slot] => do
    let v ← (← ρ.slots slot)
    let id ← i.result
    return .onward (ρ.define id v)
  | .store, [x, .value slot] => do
    let v ← ρ.operand? x
    let _ ← ρ.slots slot
    return .onward (ρ.put slot (some (i.ty.wrap v)))
  | .ret, [] => some (.ret none)
  | .ret, [x] => do
    let v ← ρ.operand? x
    return .ret (some v)
  | _, _ => none

/-- What an instruction can do, case by case. -/
inductive Instr.Acts (i : Instr) (ρ : Env) : Effect → Prop
  | const {x : Operand} {v : Int} {id : Nat} (hkind : i.kind = .const) (hops : i.operands = [x])
      (hv : ρ.operand? x = some v) (hid : i.result = some id) :
      Acts i ρ (.onward (ρ.define id (i.ty.wrap v)))
  | binary {op : BinaryOp} {x y : Operand} {v w z : Int} {id : Nat} (hkind : i.kind = .binary op)
      (hops : i.operands = [x, y]) (hv : ρ.operand? x = some v) (hw : ρ.operand? y = some w)
      (hid : i.result = some id) (hz : op.eval i.ty v w = some z) :
      Acts i ρ (.onward (ρ.define id z))
  | fault {op : BinaryOp} {x y : Operand} {v w : Int} {id : Nat} (hkind : i.kind = .binary op)
      (hops : i.operands = [x, y]) (hv : ρ.operand? x = some v) (hw : ρ.operand? y = some w)
      (hid : i.result = some id) (hz : op.eval i.ty v w = none) : Acts i ρ .fault
  | alloca {id : Nat} (hkind : i.kind = .alloca) (hid : i.result = some id) :
      Acts i ρ (.onward (ρ.put id none))
  | load {slot id : Nat} {v : Int} (hkind : i.kind = .load) (hops : i.operands = [.value slot])
      (hv : ρ.slots slot = some (some v)) (hid : i.result = some id) :
      Acts i ρ (.onward (ρ.define id v))
  | store {x : Operand} {slot : Nat} {v : Int} {u : Option Int} (hkind : i.kind = .store)
      (hops : i.operands = [x, .value slot]) (hv : ρ.operand? x = some v)
      (hu : ρ.slots slot = some u) : Acts i ρ (.onward (ρ.put slot (some (i.ty.wrap v))))
  | ret (hkind : i.kind = .ret) (hops : i.operands = []) : Acts i ρ (.ret none)
  | retValue {x : Operand} {v : Int} (hkind : i.kind = .ret) (hops : i.operands = [x])
      (hv : ρ.operand? x = some v) : Acts i ρ (.ret (some v))

lemma Instr.acts_of_effect? {i : Instr} {ρ : Env} {e : Effect} (h : i.effect? ρ = some e) :
    i.Acts ρ e := by
  unfold effect? at h
  split at h
  case h_1 x hkind hops =>
    simp only [Option.bind_eq_bind, Option.bind_eq_some_iff, Option.pure_def,
      Option.some.injEq] at h
    obtain ⟨v, hv, id, hid, rfl⟩ := h
    exact .const hkind hops hv hid
  case h_2 op x y hkind hops =>
    simp only [Option.bind_eq_bind, Option.bind_eq_some_iff, Option.pure_def,
      Option.some.injEq] at h
    obtain ⟨v, hv, w, hw, id, hid, rfl⟩ := h
    cases hz : op.eval i.ty v w with
    | none => exact .fault hkind hops hv hw hid hz
    | some z => exact .binary hkind hops hv hw hid hz
  case h_3 hkind =>
    simp only [Option.bind_eq_bind, Option.bind_eq_some_iff, Option.pure_def,
      Option.some.injEq] at h
    obtain ⟨id, hid, rfl⟩ := h
    exact .alloca hkind hid
  case h_4 slot hkind hops =>
    simp only [Option.bind_eq_bind, Option.bind_eq_some_iff, Option.pure_def,
      Option.some.injEq] at h
    obtain ⟨u, hu, v, rfl, id, hid, rfl⟩ := h
    exact .load hkind hops hu hid
  case h_5 x slot hkind hops =>
    simp only [Option.bind_eq_bind, Option.bind_eq_some_iff, Option.pure_def,
      Option.some.injEq] at h
    obtain ⟨v, hv, u, hu, rfl⟩ := h
    exact .store hkind hops hv hu
  case h_6 hkind hops =>
    cases h
    exact .ret hkind hops
  case h_7 x hkind hops =>
    obtain ⟨v, hv, h⟩ := Option.bind_eq_some_iff.mp h
    cases h
    exact .retValue hkind hops hv
  case h_8 => cases h

/-- A point of a run. -/
inductive Config where
  /-- In a block, in front of the rest of its instructions. -/
  | inside (b : Block) (rest : List Instr) (ρ : Env)
  | returned (v : Option Int)
  /-- A division had no quotient. -/
  | faulted
  /-- A block end was reached that cannot be reached. -/
  | unreachable

def Function.enter? (f : Function) (id : Nat) (ρ : Env) : Option Config :=
  (f.block? id).map fun b => .inside b b.instrs ρ

/-- The configuration after what an instruction does. -/
def Effect.config (b : Block) (rest : List Instr) : Effect → Config
  | onward ρ => .inside b rest ρ
  | ret v => .returned v
  | fault => .faulted

/-- Where the end of a block leads. -/
def Terminator.next (f : Function) (t : Terminator) (ρ : Env) : Option Config :=
  match t.exit, t.value with
  | .ret, none => some (.returned none)
  | .ret, some x => (ρ.operand? x).map fun v => .returned (some v)
  | .jump target, _ => f.enter? target ρ
  | .branch onTrue onFalse, some x => do
    let v ← ρ.operand? x
    f.enter? (if v ≠ 0 then onTrue else onFalse) ρ
  | .branch _ _, none => none
  | .unreachable, _ => some .unreachable

/-- One step of a run. -/
def next (f : Function) : Config → Option Config
  | .inside b (i :: rest) ρ => (i.effect? ρ).map (Effect.config b rest)
  | .inside b [] ρ => b.term.next f ρ
  | _ => none

/-- A number of steps. -/
def run (f : Function) : Nat → Config → Option Config
  | 0, c => some c
  | n + 1, c => (next f c).bind (run f n)

end NativeCode.Ir
