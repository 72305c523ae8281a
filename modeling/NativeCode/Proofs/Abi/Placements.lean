import NativeCode.Proofs.Abi.Conventions

/-!
# The exact places of parameters

The placement of parameters fails exactly at the first type that cannot be passed, and none of the
checks of a placement rejects what a convention assigns. Under System V a parameter takes the next
register of its own class, and the rest is packed on the stack. Under Windows x64 a parameter takes
the register or the slot of its position. So no two parameters share a place.
-/

namespace NativeCode.Abi

open Ir (Ty)
open Machine

variable {c : Convention} {t : Target} {tys : List Ty} {ty : Ty} {ps : List Placement}
  {p : Placement} {r : PhysReg} {k : Nat}

/-! ### The place of each parameter -/

def stackCount (ps : List Placement) : Nat := ps.countP (·.place.isStack)

namespace Convention

/-- How many parameter registers of a class there are. -/
def registers : Convention → RegClass → Nat
  | sysv, .gpr => 6
  | sysv, .xmm => 8
  | win64, _ => 4

/-- How many registers of a class are gone at a position: System V counts the earlier parameters of
the class, and Windows x64 all earlier parameters. -/
def turn (c : Convention) (tys : List Ty) (cls : RegClass) (k : Nat) : Nat :=
  match c with
  | sysv => (tys.take k).countP (·.regClass = cls)
  | win64 => k

/-- How many slots are below the slot of a position: System V has one for each earlier parameter on
the stack, and Windows x64 one for each earlier parameter. -/
def slot (c : Convention) (ps : List Placement) (k : Nat) : Nat :=
  match c with
  | sysv => stackCount (ps.take k)
  | win64 => k

end Convention

lemma length_args (c : Convention) (cls : RegClass) :
    (c.target.args cls).length = c.registers cls := by
  cases c <;> cases cls <;> rfl

/-- A register if there is one left, and otherwise a slot. -/
def Place.orSlot (r? : Option PhysReg) (slot : Nat) : Place :=
  match r? with
  | some r => .register r
  | none => .stack (slot * slotBytes)

lemma getElem?_assignShared (index : Nat) (h : tys[k]? = some ty) :
    (t.assignShared index tys)[k]? =
      some ⟨ty.regClass, Place.orSlot (t.arg? ty.regClass (index + k)) (index + k)⟩ := by
  induction tys generalizing index k with
  | nil => cases h
  | cons ty' tys ih =>
    cases k with
    | zero =>
      cases h
      rfl
    | succ k =>
      have hk := ih (index + 1) (k := k) h
      rw [Nat.add_right_comm] at hk
      exact hk

lemma Used.count_step (u : Used) (cls cls' : RegClass) :
    (u.step cls').count cls = u.count cls + if cls' = cls then 1 else 0 := by
  cases cls <;> cases cls' <;> rfl

lemma Used.slots_step (u : Used) (cls : RegClass) : (u.step cls).slots = u.slots := by
  cases cls <;> rfl

lemma getElem?_assignApart (u : Used) (h : tys[k]? = some ty) :
    (t.assignApart u tys)[k]? = some ⟨ty.regClass,
      Place.orSlot (t.arg? ty.regClass
          (u.count ty.regClass + (tys.take k).countP (·.regClass = ty.regClass)))
        (u.slots + stackCount ((t.assignApart u tys).take k))⟩ := by
  induction tys generalizing u k with
  | nil => cases h
  | cons ty' tys ih =>
    rw [Target.assignApart]
    cases k with
    | zero =>
      cases h
      cases harg : t.arg? ty.regClass (u.count ty.regClass) with
      | some r => simp [harg, Place.orSlot]
      | none => simp [harg, Place.orSlot, stackCount]
    | succ k =>
      have htys : tys[k]? = some ty := h
      cases harg : t.arg? ty'.regClass (u.count ty'.regClass) with
      | some r =>
        have hk := ih (u.step ty'.regClass) htys
        rw [Used.count_step, Used.slots_step] at hk
        simp only [List.getElem?_cons_succ, hk, List.take_succ_cons, List.countP_cons, stackCount,
          Place.isStack, decide_eq_true_eq, Bool.false_eq_true, if_false, Nat.add_zero]
        congr 4
        omega
      | none =>
        have hk := ih { u.step ty'.regClass with slots := u.slots + 1 } htys
        have hcount : Used.count { u.step ty'.regClass with slots := u.slots + 1 } ty.regClass =
            u.count ty.regClass + if ty'.regClass = ty.regClass then 1 else 0 := by
          rw [← Used.count_step]
          cases ty.regClass <;> rfl
        rw [hcount] at hk
        simp only [List.getElem?_cons_succ, hk, List.take_succ_cons, List.countP_cons, stackCount,
          Place.isStack, decide_eq_true_eq, if_true]
        congr 3
        · congr 1
          omega
        · omega

lemma length_assignShared (t : Target) (index : Nat) (tys : List Ty) :
    (t.assignShared index tys).length = tys.length := by
  induction tys generalizing index with
  | nil => rfl
  | cons ty tys ih => exact congrArg (· + 1) (ih (index + 1))

lemma length_assignApart (t : Target) (u : Used) (tys : List Ty) :
    (t.assignApart u tys).length = tys.length := by
  induction tys generalizing u with
  | nil => rfl
  | cons ty tys ih =>
    rw [Target.assignApart]
    split <;> exact congrArg (· + 1) (ih _)

lemma length_assign (t : Target) (tys : List Ty) : (t.assign tys).length = tys.length := by
  rw [Target.assign]
  split
  · exact length_assignShared t 0 tys
  · exact length_assignApart t {} tys

/-- The place of each parameter is the register of its turn, or else the slot above those below. -/
theorem getElem?_assign (c : Convention) (h : tys[k]? = some ty) :
    (c.target.assign tys)[k]? = some ⟨ty.regClass,
      .orSlot (c.target.arg? ty.regClass (c.turn tys ty.regClass k))
        (c.slot (c.target.assign tys) k)⟩ := by
  cases c with
  | sysv =>
    have hk := getElem?_assignApart (t := sysv) {} h
    have hcount : Used.count {} ty.regClass = 0 := by cases ty.regClass <;> rfl
    rw [hcount, Nat.zero_add, Nat.zero_add] at hk
    exact hk
  | win64 =>
    have hk := getElem?_assignShared (t := win64) 0 h
    rw [Nat.zero_add] at hk
    exact hk

lemma exists_place_of_assign (c : Convention) (h : (c.target.assign tys)[k]? = some p) :
    ∃ ty, tys[k]? = some ty ∧
      p.place = .orSlot (c.target.arg? ty.regClass (c.turn tys ty.regClass k))
        (c.slot (c.target.assign tys) k) := by
  have hlt : k < tys.length := by
    rw [← length_assign c.target]
    exact (List.getElem?_eq_some_iff.mp h).1
  have hty := List.getElem?_eq_getElem hlt
  rw [getElem?_assign c hty] at h
  cases h
  exact ⟨_, hty, rfl⟩

/-! ### Places of their own -/

/-- Places that share neither a register nor a byte of the stack. -/
def Place.Apart : Place → Place → Prop
  | .register r, .register q => r ≠ q
  | .stack d, .stack e => d + 8 ≤ e ∨ e + 8 ≤ d
  | _, _ => True

lemma arg?_ne {cls cls' : RegClass} {k k' : Nat} {q : PhysReg}
    (hr : c.target.arg? cls k = some r) (hq : c.target.arg? cls' k' = some q)
    (h : cls = cls' → k ≠ k') : r ≠ q := by
  rintro rfl
  have hcls : cls = cls' :=
    (args_scratch (List.mem_of_getElem? hr)).1.symm.trans (args_scratch (List.mem_of_getElem? hq)).1
  subst hcls
  have hnodup : (c.target.args cls).Nodup := by cases c <;> cases cls <;> decide
  obtain ⟨hk, hkr⟩ := List.getElem?_eq_some_iff.mp hr
  obtain ⟨hk', hkq⟩ := List.getElem?_eq_some_iff.mp hq
  exact h rfl (hnodup.getElem_inj_iff.mp (hkr.trans hkq.symm))

lemma countP_take_lt {α : Type} {P : α → Bool} {l : List α} {j k : Nat} {a : α} (hjk : j < k)
    (ha : l[j]? = some a) (hP : P a = true) : (l.take j).countP P < (l.take k).countP P := by
  have hnext : (l.take (j + 1)).countP P = (l.take j).countP P + 1 := by
    rw [List.take_add_one, ha, List.countP_append]
    simp [hP]
  have hle : (l.take (j + 1)).countP P ≤ (l.take k).countP P :=
    (List.take_sublist_take_left hjk).countP_le
  omega

lemma turn_lt (c : Convention) {j : Nat} (hjk : j < k) (hty : tys[j]? = some ty) :
    c.turn tys ty.regClass j < c.turn tys ty.regClass k := by
  cases c with
  | sysv => exact countP_take_lt hjk hty (decide_eq_true rfl)
  | win64 => exact hjk

lemma slot_lt (c : Convention) {j : Nat} (hjk : j < k) (hp : ps[j]? = some p)
    (hstack : p.place.isStack = true) : c.slot ps j < c.slot ps k := by
  cases c with
  | sysv => exact countP_take_lt hjk hp hstack
  | win64 => exact hjk

theorem pairwise_apart (c : Convention) (tys : List Ty) :
    (c.target.assign tys).Pairwise fun p q => p.place.Apart q.place := by
  refine List.pairwise_iff_getElem.mpr fun j k hj hk hjk => ?_
  have hp := List.getElem?_eq_getElem hj
  obtain ⟨ty, hty, hplace⟩ := exists_place_of_assign c hp
  obtain ⟨ty', -, hplace'⟩ := exists_place_of_assign c (List.getElem?_eq_getElem hk)
  rw [hplace, hplace']
  cases harg : c.target.arg? ty.regClass (c.turn tys ty.regClass j) with
  | some r =>
    cases harg' : c.target.arg? ty'.regClass (c.turn tys ty'.regClass k) with
    | some r' => exact arg?_ne harg harg' fun hcls => hcls ▸ (turn_lt c hjk hty).ne
    | none => trivial
  | none =>
    cases harg' : c.target.arg? ty'.regClass (c.turn tys ty'.regClass k) with
    | some r' => trivial
    | none =>
      have hlt := slot_lt c hjk hp (by rw [hplace, harg]; rfl)
      refine Or.inl ?_
      simp only [slotBytes]
      omega

/-! ### Stack space of a call -/

/-- The space of a call after one more parameter. -/
private def widen (bytes : Int) (p : Placement) : Int :=
  match p.place with
  | .stack offset => max bytes (offset + slotBytes)
  | .register _ => bytes

lemma foldl_widen (ps : List Placement) (b : Int) :
    b ≤ ps.foldl widen b ∧
      (∀ p ∈ ps, ∀ o, p.place = .stack o → o + 8 ≤ ps.foldl widen b) ∧
      ∀ n, b ≤ n → (∀ p ∈ ps, ∀ o, p.place = .stack o → o + 8 ≤ n) → ps.foldl widen b ≤ n := by
  induction ps generalizing b with
  | nil => simp
  | cons p ps ih =>
    rw [List.foldl_cons]
    obtain ⟨h₁, h₂, h₃⟩ := ih (widen b p)
    have hb : b ≤ widen b p := by
      unfold widen
      split
      · exact le_max_left _ _
      · exact le_rfl
    refine ⟨le_trans hb h₁, fun q hq o ho => ?_, fun n hbn hn => h₃ n ?_ fun q hq => ?_⟩
    · rcases List.mem_cons.mp hq with rfl | hq
      · have hq : o + 8 ≤ widen b q := by
          rw [widen, ho]
          exact le_max_right _ _
        exact le_trans hq h₁
      · exact h₂ q hq o ho
    · have hp := hn p List.mem_cons_self
      unfold widen
      split
      · exact max_le hbn (hp _ ‹_›)
      · exact hbn
    · exact hn q (List.mem_cons_of_mem _ hq)

lemma shadowSpace_le_outgoingBytes (t : Target) (ps : List Placement) :
    t.shadowSpace ≤ t.outgoingBytes ps := (foldl_widen ps _).1

lemma stack_le_outgoingBytes (t : Target) {o : Int} (h : p ∈ ps) (ho : p.place = .stack o) :
    o + 8 ≤ t.outgoingBytes ps :=
  (foldl_widen ps _).2.1 p h o ho

/-- The space of a call is no larger than the shadow space and the parameters need. -/
theorem isLeast_outgoingBytes (t : Target) (ps : List Placement) :
    IsLeast {n | t.shadowSpace ≤ n ∧ ∀ p ∈ ps, ∀ d, p.place = .stack d → d + 8 ≤ n}
      (t.outgoingBytes ps) :=
  ⟨⟨(foldl_widen ps _).1, (foldl_widen ps _).2.1⟩, fun n hn => (foldl_widen ps _).2.2 n hn.1 hn.2⟩

/-- Under Windows x64 all parameters but the first four are on the stack. -/
lemma length_le_stackCount (tys : List Ty) :
    tys.length ≤ 4 + stackCount (Convention.win64.target.assign tys) := by
  have hall : ∀ p ∈ (Convention.win64.target.assign tys).drop 4, p.place.isStack = true := by
    intro p hp
    obtain ⟨k, hk⟩ := List.mem_iff_getElem?.mp hp
    rw [List.getElem?_drop] at hk
    obtain ⟨ty, -, hplace⟩ := exists_place_of_assign .win64 hk
    rw [hplace, Target.arg?, List.getElem?_eq_none_iff.mpr]
    · rfl
    · rw [length_args]
      exact Nat.le_add_right 4 k
  have hdrop := List.countP_eq_length.mpr hall
  have hle := (List.drop_sublist 4 (Convention.win64.target.assign tys)).countP_le
    (p := (·.place.isStack))
  rw [List.length_drop, length_assign] at hdrop
  rw [stackCount]
  omega

/-- A call takes little more than eight bytes for each parameter on the stack. -/
theorem outgoingBytes_le (c : Convention) (tys : List Ty) :
    c.target.outgoingBytes (c.target.assign tys) ≤
      8 * (4 + stackCount (c.target.assign tys)) := by
  refine (foldl_widen _ _).2.2 _ ?_ fun p hp o ho => ?_
  · have hshadow : c.target.shadowSpace ≤ 32 := by cases c <;> decide
    omega
  · obtain ⟨k, hk⟩ := List.mem_iff_getElem?.mp hp
    obtain ⟨ty, hty, hplace⟩ := exists_place_of_assign c hk
    have hslot : c.slot (c.target.assign tys) k < 4 + stackCount (c.target.assign tys) := by
      cases c with
      | sysv =>
        have hlt := slot_lt .sysv (List.getElem?_eq_some_iff.mp hk).1 hk (by rw [ho]; rfl)
        rw [Convention.slot, Convention.slot, List.take_length] at hlt
        exact Nat.lt_add_left 4 hlt
      | win64 => exact (List.getElem?_eq_some_iff.mp hty).1.trans_le (length_le_stackCount tys)
    rw [ho] at hplace
    unfold Place.orSlot at hplace
    split at hplace
    · cases hplace
    · cases hplace
      simp only [slotBytes]
      omega

/-! ### The checks of a placement -/

/-- The first type of a list that cannot be passed, and its position. -/
structure FirstUnpassable (tys : List Ty) (k : Nat) (ty : Ty) : Prop where
  at_position : tys[k]? = some ty
  unpassable : (ty.isVoid || ty.isAggregate) = true
  first : ∀ j < k, ∀ ty', tys[j]? = some ty' → (ty'.isVoid || ty'.isAggregate) = false

lemma FirstUnpassable.tail {ty' : Ty} (h : FirstUnpassable (ty' :: tys) (k + 1) ty) :
    (ty'.isVoid || ty'.isAggregate) = false ∧ FirstUnpassable tys k ty :=
  ⟨h.first 0 (Nat.succ_pos k) ty' rfl, h.at_position, h.unpassable,
    fun j hj => h.first (j + 1) (Nat.succ_lt_succ hj)⟩

lemma checkPassable_eq_fail (t : Target) (index : Nat) (h : FirstUnpassable tys k ty) :
    t.checkPassable index tys = fail (.notPassable (index + k) ty t.convention) ty.name := by
  induction tys generalizing index k with
  | nil => cases h.at_position
  | cons ty' tys ih =>
    rw [Target.checkPassable]
    cases k with
    | zero =>
      cases h.at_position
      exact if_pos h.unpassable
    | succ k =>
      obtain ⟨hpass, h⟩ := h.tail
      rw [if_neg (by simp [hpass]), ih (index + 1) h, Nat.add_right_comm, Nat.add_assoc]

lemma checkPassable_eq_ok_of_forall (t : Target) (index : Nat)
    (h : ∀ ty ∈ tys, (ty.isVoid || ty.isAggregate) = false) : t.checkPassable index tys = .ok () := by
  induction tys generalizing index with
  | nil => rfl
  | cons ty tys ih =>
    rw [Target.checkPassable, if_neg (by simp [h ty List.mem_cons_self])]
    exact ih (index + 1) fun ty' hty' => h ty' (List.mem_cons_of_mem _ hty')

lemma checkPlacement_orSlot (t : Target) (index n slot : Nat) :
    t.checkPlacement index ty ⟨ty.regClass, .orSlot (t.arg? ty.regClass n) slot⟩ = .ok () := by
  rw [Target.checkPlacement, if_neg (not_not.mpr rfl)]
  cases harg : t.arg? ty.regClass n with
  | some r => exact if_pos (List.contains_iff_mem.mpr (List.mem_of_getElem? harg))
  | none =>
    refine if_neg ?_
    simp only [slotBytes]
    omega

lemma checkEach_eq_ok_of_forall (index : Nat)
    (h : ∀ k ty p, tys[k]? = some ty → ps[k]? = some p →
      t.checkPlacement (index + k) ty p = .ok ()) : t.checkEach index tys ps = .ok () := by
  induction tys generalizing index ps with
  | nil => rfl
  | cons ty tys ih =>
    cases ps with
    | nil => rfl
    | cons p ps =>
      have hhead : t.checkPlacement index ty p = .ok () := h 0 ty p rfl rfl
      rw [Target.checkEach, hhead]
      refine ih (index + 1) fun k ty' p' hty' hp' => ?_
      rw [Nat.add_right_comm]
      exact h (k + 1) ty' p' hty' hp'

/-- Where all types can be passed, the assignment of a convention passes all checks. -/
theorem place_eq_assign (c : Convention) (h : ∀ ty ∈ tys, (ty.isVoid || ty.isAggregate) = false) :
    c.target.place tys = .ok (c.target.assign tys) := by
  have heach : c.target.checkEach 0 tys (c.target.assign tys) = .ok () := by
    refine checkEach_eq_ok_of_forall 0 fun k ty p hty hp => ?_
    obtain rfl := Option.some.inj ((getElem?_assign c hty).symm.trans hp)
    exact checkPlacement_orSlot ..
  rw [Target.place, Target.check, checkPassable_eq_ok_of_forall _ 0 h,
    if_neg (not_not.mpr (length_assign c.target tys)), heach]
  rfl

lemma place_eq_fail (c : Convention) (h : FirstUnpassable tys k ty) :
    c.target.place tys = fail (.notPassable k ty c) ty.name := by
  have hconvention : c.target.convention = c := by cases c <;> rfl
  rw [Target.place, Target.check, checkPassable_eq_fail _ 0 h, hconvention, Nat.zero_add]
  rfl

lemma exists_firstUnpassable (h : ∃ ty ∈ tys, (ty.isVoid || ty.isAggregate) = true) :
    ∃ k ty, FirstUnpassable tys k ty := by
  induction tys with
  | nil => simp at h
  | cons ty' tys ih =>
    cases hpass : ty'.isVoid || ty'.isAggregate with
    | true => exact ⟨0, ty', rfl, hpass, by simp⟩
    | false =>
      obtain ⟨ty, hmem, hty⟩ := h
      have hmem : ty ∈ tys := by
        rcases List.mem_cons.mp hmem with rfl | hmem
        · simp [hpass] at hty
        · exact hmem
      obtain ⟨k, ty, hk, hty, hfirst⟩ := ih ⟨ty, hmem, hty⟩
      refine ⟨k + 1, ty, hk, hty, fun j hj ty'' hty'' => ?_⟩
      cases j with
      | zero =>
        cases hty''
        exact hpass
      | succ j => exact hfirst j (Nat.lt_of_succ_lt_succ hj) ty'' hty''

/-- A placement fails if and only if some type cannot be passed, and reports the first such type. -/
theorem place_eq_error_iff (c : Convention) (tys : List Ty) (e : Failure) :
    c.target.place tys = .error e ↔ ∃ k ty, FirstUnpassable tys k ty ∧
      e = { cause := .notPassable k ty c, construct := ty.name } := by
  constructor
  · intro he
    by_cases h : ∃ ty ∈ tys, (ty.isVoid || ty.isAggregate) = true
    · obtain ⟨k, ty, hfirst⟩ := exists_firstUnpassable h
      rw [place_eq_fail c hfirst] at he
      exact ⟨k, ty, hfirst, (Except.error.inj he).symm⟩
    · rw [place_eq_assign c (by simpa using h)] at he
      cases he
  · rintro ⟨k, ty, hfirst, rfl⟩
    exact place_eq_fail c hfirst

/-! ### The placement of any list of types -/

/-- Where the parameters of a list of types are. -/
structure Placed (c : Convention) (tys : List Ty) (ps : List Placement) : Prop where
  length : ps.length = tys.length
  /-- The first parameters of a class are in the registers of the class, in order. -/
  register : ∀ (k : Nat) (ty : Ty), tys[k]? = some ty →
    c.turn tys ty.regClass k < c.registers ty.regClass →
      ∃ r, (c.target.args ty.regClass)[c.turn tys ty.regClass k]? = some r ∧
        ps[k]? = some ⟨ty.regClass, .register r⟩
  /-- The others are in slots of eight bytes each. -/
  stack : ∀ (k : Nat) (ty : Ty), tys[k]? = some ty →
    c.registers ty.regClass ≤ c.turn tys ty.regClass k →
      ps[k]? = some ⟨ty.regClass, .stack (8 * c.slot ps k)⟩
  /-- No two parameters share a register or a byte of the stack. -/
  apart : ps.Pairwise fun p q => p.place.Apart q.place
  /-- A call takes the least stack that holds the shadow space and all slots. -/
  outgoing : IsLeast
    {n | c.target.shadowSpace ≤ n ∧ ∀ p ∈ ps, ∀ d, p.place = .stack d → d + 8 ≤ n}
    (c.target.outgoingBytes ps)
  /-- The offsets of less than `2 ^ 28` parameters fit in 32 bits with a sign. -/
  fits : tys.length < 2 ^ 28 → ∀ p ∈ ps, ∀ d, p.place = .stack d → 0 ≤ d ∧ d < 2 ^ 31

lemma slot_le (c : Convention) (ps : List Placement) (k : Nat) : c.slot ps k ≤ k := by
  cases c with
  | sysv => exact List.countP_le_length.trans (List.length_take_le k ps)
  | win64 => exact le_rfl

lemma placed_assign (c : Convention) (tys : List Ty) : Placed c tys (c.target.assign tys) where
  length := length_assign c.target tys
  register k ty hty hturn := by
    rw [← length_args] at hturn
    refine ⟨_, List.getElem?_eq_getElem hturn, ?_⟩
    rw [getElem?_assign c hty, Target.arg?, List.getElem?_eq_getElem hturn]
    rfl
  stack k ty hty hturn := by
    rw [← length_args] at hturn
    rw [getElem?_assign c hty, Target.arg?, List.getElem?_eq_none_iff.mpr hturn, mul_comm]
    rfl
  apart := pairwise_apart c tys
  outgoing := isLeast_outgoingBytes c.target (c.target.assign tys)
  fits hlen p hp d hd := by
    obtain ⟨k, hk⟩ := List.mem_iff_getElem?.mp hp
    obtain ⟨ty, hty, hplace⟩ := exists_place_of_assign c hk
    have hlt := (List.getElem?_eq_some_iff.mp hty).1
    have hslot := slot_le c (c.target.assign tys) k
    rw [hd] at hplace
    unfold Place.orSlot at hplace
    split at hplace
    · cases hplace
    · cases hplace
      simp only [slotBytes]
      omega

/-- The placement of parameters is exact. It fails if and only if some type cannot be passed, with
the position of the first such type, so that no check of a placement ever fails. Otherwise every
parameter is in its place. -/
theorem place_exact (c : Convention) (tys : List Ty) :
    (∀ e, c.target.place tys = .error e ↔ ∃ k ty, FirstUnpassable tys k ty ∧
      e = { cause := .notPassable k ty c, construct := ty.name }) ∧
    (∀ e, c.target.place tys = .error e → e.cause.kind = .unsupportedType) ∧
    ((∀ ty ∈ tys, (ty.isVoid || ty.isAggregate) = false) →
      ∃ ps, c.target.place tys = .ok ps ∧ Placed c tys ps) := by
  refine ⟨place_eq_error_iff c tys, fun e he => ?_, fun h =>
    ⟨_, place_eq_assign c h, placed_assign c tys⟩⟩
  obtain ⟨k, ty, -, rfl⟩ := (place_eq_error_iff c tys e).mp he
  rfl

/-- Under Windows x64 the fifth parameter has the slot above the shadow space. -/
theorem place_exact_five :
    ∃ ps, win64.place [.float .double, .ptr, .bool, .float .single, .i64] = .ok ps ∧
      ps[3]? = some ⟨.xmm, .register (.xmm 3)⟩ ∧ ps[4]? = some ⟨.gpr, .stack 32⟩ ∧
      win64.outgoingBytes ps = 40 := by
  obtain ⟨ps, hplace, hplaced⟩ :=
    (place_exact .win64 [.float .double, .ptr, .bool, .float .single, .i64]).2.2 (by decide)
  obtain ⟨r, hr, hthird⟩ := hplaced.register 3 (.float .single) rfl (by decide)
  cases hr
  refine ⟨ps, hplace, hthird, hplaced.stack 4 .i64 rfl (by decide), ?_⟩
  cases hplace
  rfl

end NativeCode.Abi
