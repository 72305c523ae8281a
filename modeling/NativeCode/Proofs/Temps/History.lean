import Mathlib.Data.List.Range
import NativeCode.Proofs.Temps

/-!
# Histories of temporaries

Temporaries are handed out, released together and reset, in any order. A history records beside the
temporaries what was handed out since the last reset. Three views of it agree at every point: who is
live, which register each number has for good, and which registers a callee has to save.
-/

namespace NativeCode.Temps

open Abi Machine

/-- What is asked of the temporaries. -/
inductive Request where
  | issue (cls : RegClass)
  | release
  | reset
  deriving DecidableEq

/-- Temporaries, and what was handed out since the last reset. -/
structure History where
  temps : Temps := {}
  /-- The numbers that were handed out, with their classes, in order. -/
  handed : List (Nat × RegClass) := []
  /-- How many of them were handed out before the last release. -/
  released : Nat := 0

/-- A live temporary has the register. -/
def Holds (t : Temps) (q : PhysReg) : Prop := ∃ id, t.isLive id = true ∧ t.reg id = .ok q

lemma reg_eq_ok_iff {t : Temps} {id : Nat} {q : PhysReg} :
    t.reg id = .ok q ↔ t.regs[id]? = some q := by
  unfold reg
  cases t.regs[id]? <;> simp [fail]

lemma holds_iff {t : Temps} {q : PhysReg} : t.holds q = true ↔ t.Holds q := by
  simp [holds, Holds, isLive, reg_eq_ok_iff]

lemma issue_eq_error_iff {t : Temps} {target : Target} {cls : RegClass} :
    (∃ e, t.issue target cls = .error e) ↔
      limit ≤ t.regs.size ∨ ∀ q ∈ target.pool cls, t.Holds q := by
  have hfree : t.free? target cls = none ↔ ∀ q ∈ target.pool cls, t.Holds q := by
    simp [free?, List.find?_eq_none, holds_iff]
  rw [← hfree, issue, count]
  split_ifs with hlimit
  · exact iff_of_true ⟨_, rfl⟩ (Or.inl hlimit)
  · cases h : t.free? target cls with
    | none => exact iff_of_true ⟨_, rfl⟩ (Or.inr rfl)
    | some q => simp [hlimit]

namespace History

/-- What one request leaves. A temporary that cannot be had changes nothing. -/
def step (target : Target) (s : History) : Request → History
  | .issue cls =>
    match s.temps.issue target cls with
    | .ok (id, temps) => { s with temps, handed := s.handed ++ [(id, cls)] }
    | .error _ => s
  | .release => { s with temps := s.temps.release, released := s.handed.length }
  | .reset => {}

/-- What a sequence of requests leaves, from the start. -/
def run (target : Target) (rs : List Request) : History := rs.foldl (step target) {}

/-- What holds at every point of a history. -/
structure Sound (target : Target) (s : History) : Prop where
  /-- The numbers since the last reset are counted from zero. -/
  numbers : s.handed.map Prod.fst = List.range s.handed.length
  /-- Each number has a register of the pool of its class. -/
  assigned : ∀ id cls, (id, cls) ∈ s.handed → ∃ q ∈ target.pool cls, s.temps.reg id = .ok q
  /-- No other number has one. -/
  unassigned : ∀ id, s.handed.length ≤ id → ∃ e, s.temps.reg id = .error e
  /-- The live temporaries are those handed out since the last release. -/
  live : ∀ id, s.temps.isLive id = true ↔ s.released ≤ id ∧ id < s.handed.length
  /-- Live temporaries have different registers. -/
  distinct : ∀ id id' q, s.temps.isLive id = true → s.temps.isLive id' = true →
    s.temps.reg id = .ok q → s.temps.reg id' = .ok q → id = id'
  /-- A temporary is refused exactly when the numbers or the free registers are used up. -/
  refused : ∀ cls, (∃ e, s.temps.issue target cls = .error e) ↔
    s.handed.length = limit ∨ ∀ q ∈ target.pool cls, s.temps.Holds q
  /-- A refusal changes nothing. -/
  unchanged : ∀ cls, (∃ e, s.temps.issue target cls = .error e) → s.step target (.issue cls) = s
  /-- Otherwise the temporary has the next number and the first register that is free. -/
  first : ∀ cls, (¬ ∃ e, s.temps.issue target cls = .error e) →
    ∃ front q back, target.pool cls = front ++ q :: back ∧ (∀ p ∈ front, s.temps.Holds p) ∧
      ¬ s.temps.Holds q ∧
      (s.step target (.issue cls)).handed = s.handed ++ [(s.handed.length, cls)] ∧
      (s.step target (.issue cls)).temps.reg s.handed.length = .ok q ∧
      (s.step target (.issue cls)).temps.isLive s.handed.length = true
  /-- The registers to save are listed once, in the order of the pools. -/
  saved_nodup : (s.temps.saved target).Nodup
  saved_sublist : (s.temps.saved target).Sublist (target.pool .gpr ++ target.pool .xmm)
  /-- They are the registers a callee keeps that were assigned since the last reset. -/
  saved : ∀ q, q ∈ s.temps.saved target ↔
    target.keeps q = true ∧ ∃ id cls, (id, cls) ∈ s.handed ∧ s.temps.reg id = .ok q

/-- What every request keeps. -/
structure Kept (target : Target) (s : History) : Prop where
  size : s.temps.regs.size = s.handed.length
  limited : s.handed.length ≤ limit
  numbers : s.handed.map Prod.fst = List.range s.handed.length
  assigned : ∀ id cls, (id, cls) ∈ s.handed → ∃ q ∈ target.pool cls, s.temps.regs[id]? = some q
  released : s.released ≤ s.handed.length
  live : s.temps.live = List.range' s.released (s.handed.length - s.released)
  distinct : ∀ id ∈ s.temps.live, ∀ id' ∈ s.temps.live, ∀ q, s.temps.regs[id]? = some q →
    s.temps.regs[id']? = some q → id = id'

variable {target : Target} {s : History}

lemma kept_start (target : Target) : Kept target {} where
  size := rfl
  limited := Nat.zero_le _
  numbers := rfl
  assigned _ _ h := absurd h List.not_mem_nil
  released := le_rfl
  live := rfl
  distinct _ h := absurd h List.not_mem_nil

lemma Kept.mem_live_iff (h : Kept target s) {id : Nat} :
    id ∈ s.temps.live ↔ s.released ≤ id ∧ id < s.handed.length := by
  have := h.released
  rw [h.live, List.mem_range'_1]
  omega

lemma Kept.push (h : Kept target s) {cls : RegClass} {q : PhysReg} (hq : q ∈ target.pool cls)
    (hfree : ¬ s.temps.Holds q) (hlimit : s.temps.regs.size < limit) :
    Kept target
      { s with
        temps := ⟨s.temps.regs.push q, s.temps.live ++ [s.temps.regs.size]⟩
        handed := s.handed ++ [(s.temps.regs.size, cls)] } := by
  have hsize := h.size
  have hreleased := h.released
  have hold {id : Nat} {p : PhysReg} (hp : s.temps.regs[id]? = some p) :
      (s.temps.regs.push q)[id]? = some p := (grows_push s.temps q []).getElem? hp
  -- an old live temporary does not have the register of the new one
  have hnew {id : Nat} (hid : id ∈ s.temps.live) {p : PhysReg}
      (hp : (s.temps.regs.push q)[id]? = some p) :
      s.temps.regs[id]? = some p ∧ p ≠ q := by
    have hlt := (h.mem_live_iff.mp hid).2
    rw [Array.getElem?_push, if_neg (by omega)] at hp
    refine ⟨hp, ?_⟩
    rintro rfl
    exact hfree ⟨id, List.contains_iff_mem.mpr hid, reg_eq_ok_iff.mpr hp⟩
  refine ⟨?_, ?_, ?_, ?_, ?_, ?_, ?_⟩
  · simp [hsize]
  · simp only [List.length_append, List.length_singleton]
    omega
  · simp [h.numbers, hsize, List.range_succ]
  · intro id cls' hmem
    rcases List.mem_append.mp hmem with hmem | hmem
    · obtain ⟨p, hp, hget⟩ := h.assigned id cls' hmem
      exact ⟨p, hp, hold hget⟩
    · cases List.mem_singleton.mp hmem
      exact ⟨q, hq, Array.getElem?_push_size⟩
  · simp only [List.length_append, List.length_singleton]
    omega
  · simp only [List.length_append, List.length_singleton]
    rw [h.live, hsize, Nat.sub_add_comm hreleased, List.range'_concat]
    congr 3
    omega
  · intro id hid id' hid' p hp hp'
    rcases List.mem_append.mp hid with hid | hid <;> rcases List.mem_append.mp hid' with hid' | hid'
    · exact h.distinct id hid id' hid' p (hnew hid hp).1 (hnew hid' hp').1
    · cases List.mem_singleton.mp hid'
      rw [Array.getElem?_push_size] at hp'
      exact absurd (Option.some.inj hp').symm (hnew hid hp).2
    · cases List.mem_singleton.mp hid
      rw [Array.getElem?_push_size] at hp
      exact absurd (Option.some.inj hp).symm (hnew hid' hp').2
    · rw [List.mem_singleton.mp hid, List.mem_singleton.mp hid']

lemma step_issue_of_error {cls : RegClass} (h : ∃ e, s.temps.issue target cls = .error e) :
    s.step target (.issue cls) = s := by
  obtain ⟨e, he⟩ := h
  simp [step, he]

lemma step_issue_of_ok {cls : RegClass} {r : Nat × Temps}
    (h : s.temps.issue target cls = .ok r) :
    s.step target (.issue cls) = { s with temps := r.2, handed := s.handed ++ [(r.1, cls)] } := by
  simp [step, h]

lemma Kept.step (h : Kept target s) (r : Request) : Kept target (s.step target r) := by
  cases r with
  | issue cls =>
    cases hissue : s.temps.issue target cls with
    | error e => rwa [step_issue_of_error ⟨e, hissue⟩]
    | ok r =>
      rw [step_issue_of_ok hissue]
      obtain ⟨q, hq, hfree, hlimit, rfl⟩ := issue_eq_ok hissue
      exact h.push hq (mt holds_iff.mpr (Bool.eq_false_iff.mp hfree)) hlimit
  | release =>
    exact ⟨h.size, h.limited, h.numbers, h.assigned, le_rfl,
      by simp [History.step, release], fun _ hid => absurd hid List.not_mem_nil⟩
  | reset => exact kept_start target

/-- The invariant holds after every sequence of requests. -/
theorem kept_run (target : Target) (rs : List Request) : Kept target (run target rs) := by
  induction rs using List.reverseRecOn with
  | nil => exact kept_start target
  | append_singleton rs r ih =>
    rw [run, List.foldl_concat]
    exact ih.step r

lemma grows_foldl {rs : List Request} (h : Request.reset ∉ rs) (s : History) :
    s.temps.Grows (rs.foldl (step target) s).temps := by
  induction rs generalizing s with
  | nil => exact .refl _
  | cons r rs ih =>
    rw [List.mem_cons, not_or] at h
    refine Grows.trans ?_ (ih h.2 _)
    cases r with
    | issue cls =>
      cases hissue : s.temps.issue target cls with
      | error e => rw [step_issue_of_error ⟨e, hissue⟩]; exact .refl _
      | ok r =>
        rw [step_issue_of_ok hissue]
        obtain ⟨q, -, -, -, rfl⟩ := issue_eq_ok hissue
        exact grows_push _ _ _
    | release => exact .refl s.temps
    | reset => exact absurd rfl h.1

lemma nodup_pools (c : Convention) :
    (c.target.pool .gpr ++ c.target.pool .xmm).Nodup := by cases c <;> decide

lemma Kept.mem_saved_iff (h : Kept target s) (q : PhysReg) :
    q ∈ s.temps.saved target ↔
      target.keeps q = true ∧ ∃ id cls, (id, cls) ∈ s.handed ∧ s.temps.reg id = .ok q := by
  have hassigned : s.temps.regs.contains q = true ↔
      ∃ id cls, (id, cls) ∈ s.handed ∧ s.temps.regs[id]? = some q := by
    rw [Array.contains_iff_mem, Array.mem_iff_getElem?]
    refine ⟨fun ⟨id, hid⟩ => ?_, fun ⟨id, cls, _, hid⟩ => ⟨id, hid⟩⟩
    obtain ⟨hlt, -⟩ := Array.getElem?_eq_some_iff.mp hid
    have hnumber : id ∈ s.handed.map Prod.fst := by
      rw [h.numbers, List.mem_range]
      exact h.size ▸ hlt
    obtain ⟨⟨_, cls⟩, hmem, rfl⟩ := List.mem_map.mp hnumber
    exact ⟨_, cls, hmem, hid⟩
  simp only [reg_eq_ok_iff, ← hassigned, Temps.saved, List.mem_filter, Bool.and_eq_true]
  refine and_iff_right_of_imp fun ⟨_, hq⟩ => ?_
  -- what was assigned is in a pool
  obtain ⟨id, cls, hmem, hid⟩ := hassigned.mp hq
  obtain ⟨p, hp, hget⟩ := h.assigned id cls hmem
  cases hget.symm.trans hid
  cases cls with
  | gpr => exact List.mem_append_left _ hp
  | xmm => exact List.mem_append_right _ hp

lemma Kept.sound (h : Kept target s) (hpools : (target.pool .gpr ++ target.pool .xmm).Nodup) :
    s.Sound target where
  numbers := h.numbers
  assigned id cls hmem := by
    obtain ⟨q, hq, hget⟩ := h.assigned id cls hmem
    exact ⟨q, hq, reg_eq_ok_iff.mpr hget⟩
  unassigned id hle := by
    rw [reg, Array.getElem?_eq_none (h.size ▸ hle)]
    exact ⟨_, rfl⟩
  live id := by rw [isLive, List.contains_iff_mem, h.mem_live_iff]
  distinct id id' q hid hid' hq hq' := h.distinct id (List.contains_iff_mem.mp hid) id'
    (List.contains_iff_mem.mp hid') q (reg_eq_ok_iff.mp hq) (reg_eq_ok_iff.mp hq')
  refused cls := by
    rw [issue_eq_error_iff, h.size, h.limited.ge_iff_eq]
  unchanged cls := step_issue_of_error
  first cls hok := by
    cases hissue : s.temps.issue target cls with
    | error e => exact absurd ⟨e, hissue⟩ hok
    | ok r =>
      rw [step_issue_of_ok hissue]
      obtain ⟨front, q, back, hpool, hfront, hfree, -, rfl⟩ := exists_first_of_issue hissue
      refine ⟨front, q, back, hpool, fun p hp => holds_iff.mp (hfront p hp),
        mt holds_iff.mpr (Bool.eq_false_iff.mp hfree), by rw [h.size], ?_, ?_⟩
      · exact reg_eq_ok_iff.mpr (h.size ▸ Array.getElem?_push_size)
      · simp [isLive, h.size]
  saved_nodup := hpools.filter _
  saved_sublist := List.filter_sublist
  saved := h.mem_saved_iff

/-- Every history of temporaries is sound, for both conventions, and until the next reset a number
keeps its register. -/
theorem sound_run (c : Convention) (rs : List Request) :
    (run c.target rs).Sound c.target ∧
      ∀ rs' : List Request, Request.reset ∉ rs' → ∀ id q, (run c.target rs).temps.reg id = .ok q →
        (run c.target (rs ++ rs')).temps.reg id = .ok q := by
  refine ⟨(kept_run c.target rs).sound (nodup_pools c), fun rs' hreset id q hq => ?_⟩
  rw [run, List.foldl_append]
  exact reg_eq_ok_iff.mpr ((grows_foldl hreset _).getElem? (reg_eq_ok_iff.mp hq))

/-- Two vector registers serve temporaries under Windows x64: a third one is refused, and the first
is the first again after a release. -/
theorem sound_run_win64 :
    (run win64 [.issue .xmm, .issue .xmm, .issue .xmm]).Sound win64 ∧
      (run win64 ([.issue .xmm, .issue .xmm, .issue .xmm] ++ [.release, .issue .xmm])).handed =
        [(0, .xmm), (1, .xmm), (2, .xmm)] ∧
      (run win64 ([.issue .xmm, .issue .xmm, .issue .xmm] ++ [.release, .issue .xmm])).temps.reg 0 =
        .ok (.xmm 4) := by
  obtain ⟨hsound, hkeeps⟩ := sound_run .win64 [.issue .xmm, .issue .xmm, .issue .xmm]
  exact ⟨hsound, by decide, hkeeps [.release, .issue .xmm] (by decide) 0 _ (by rfl)⟩

end History

end NativeCode.Temps
