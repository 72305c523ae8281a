import NativeCode.Proofs.Selection.Encodable

/-!
# Uniform properties of code selection

Some properties hold of code selection whatever is given and whatever its steps find: they speak of
sites, tables or places, but of no operand. Such a property has to be kept by the steps and by their
composition only, without a count of temporaries and without properties of results.
-/

namespace NativeCode.Selection

open Machine

/-- A property of computations that all steps of code selection have. When computations are composed,
what follows counts only for results that can be met. -/
structure Uniform (R : ∀ ⦃α : Type⦄, Emit α → Prop) : Prop where
  holds_pure : ∀ {α : Type} (a : α), R (pure a)
  holds_bind : ∀ {α β : Type} {x : Emit α} {k : α → Emit β}, R x →
    (∀ a, (∃ site s s', Yields x site s a s') → R (k a)) → R (x >>= k)
  holds_get_bind : ∀ {β : Type} {k : Session → Emit β}, (∀ s t, k (s.under t) = k s) →
    (∀ s, R (k s)) → R (get >>= k)
  holds_read_bind : ∀ {β : Type} {k : Site → Emit β},
    (∀ site o, site.options.Agrees o → k { site with options := o } = k site) →
    (∀ site, R (k site)) → R (read >>= k)
  holds_lift_bind : ∀ {α β : Type} {x : Except Failure α} {k : α → Emit β},
    Raises (fun _ => True) x → (∀ a, x = .ok a → R (k a)) → R (liftM x >>= k)
  holds_data_bind : ∀ {β : Type} {name : String} {k : String → Emit β},
    (∀ s e, Symbols.data s name = .ok e → R (k e.asm)) →
    R (do k (← (← get).symbols.data name).asm)
  holds_newTemp : ∀ cls, R (newTemp cls)
  holds_allocate : ∀ bytes, R (allocate bytes)
  holds_modify : ∀ {k : Session → Session}, Change k → R (modify k : Emit PUnit)
  holds_callee : ∀ name, R (callee name)
  holds_emit : ∀ op os comment, R (emit op os comment)
  holds_stop : ∀ {α : Type} (c : Cause) (t : String), R (stop c t : Emit α)
  holds_stopHere : ∀ {α : Type} (c : Cause) (t : String), R (stopHere c t : Emit α)

namespace Uniform

variable {R : ∀ ⦃α : Type⦄, Emit α → Prop} (h : Uniform R)

include h

lemma compositional {P : ∀ ⦃α : Type⦄, Nat → Nat → Nat → Nat → (α → Prop) → Emit α → Prop}
    (hP : Compositional {} P)
    (hresult : ∀ {α : Type} {g v g' v' : Nat} {Q : α → Prop} {x : Emit α} {site : Site}
      {s s' : Session} {a : α}, P g v g' v' Q x → Yields x site s a s' → Q a) :
    Compositional {} fun _ g v g' v' Q x => P g v g' v' Q x ∧ R x where
  toFits := Setting.fits_default
  holds_pure hQ := ⟨hP.holds_pure hQ, h.holds_pure _⟩
  holds_bind hx hk :=
    ⟨hP.holds_bind hx.1 fun a ha => (hk a ha).1,
      h.holds_bind hx.2 fun a ⟨_, _, _, ha⟩ => (hk a (hresult hx.1 ha)).2⟩
  holds_mono hx hg hv := ⟨hP.holds_mono hx.1 hg hv, hx.2⟩
  holds_get_bind htable hk :=
    ⟨hP.holds_get_bind htable fun s hs => (hk s hs).1, h.holds_get_bind htable fun s => (hk s trivial).2⟩
  holds_read_bind hsite hk :=
    ⟨hP.holds_read_bind hsite fun site => (hk site).1,
      h.holds_read_bind hsite fun site => (hk site).2⟩
  holds_lift_bind hx hk :=
    ⟨hP.holds_lift_bind hx fun a ha => (hk a ha).1, h.holds_lift_bind hx fun a ha => (hk a ha).2⟩
  holds_data_bind hk :=
    ⟨hP.holds_data_bind fun asm hasm => (hk asm hasm).1,
      h.holds_data_bind fun s _ he => (hk _ (known_of_data (s := { symbols := s }) trivial he)).2⟩
  holds_newGpr := ⟨hP.holds_newGpr, h.holds_newTemp _⟩
  holds_newXmm := ⟨hP.holds_newXmm, h.holds_newTemp _⟩
  holds_allocate bytes := ⟨hP.holds_allocate bytes, h.holds_allocate bytes⟩
  holds_modify hk := ⟨hP.holds_modify hk, h.holds_modify hk⟩
  holds_callee hname := ⟨hP.holds_callee hname, h.holds_callee _⟩
  holds_emit haccepts hos := ⟨hP.holds_emit haccepts hos, h.holds_emit _ _ _⟩
  holds_emitCall hasm := ⟨hP.holds_emitCall hasm, h.holds_emit _ _ _⟩
  holds_trap := ⟨hP.holds_trap, h.holds_emit _ _ _⟩
  holds_stop t hc := ⟨hP.holds_stop t hc, h.holds_stop _ _⟩
  holds_stopHere t hc := ⟨hP.holds_stopHere t hc, h.holds_stopHere _ _⟩

theorem holds_instrCode (i : Ir.Instr) : R (instrCode i) :=
  ((h.compositional compositional_codes fun hx hrun => (hx hrun).2).holds_instrCode
    (fun _ _ _ _ _ _ _ => ⟨trivial, fun _ _ _ => trivial⟩) (fun _ _ => trivial) False.elim).2

theorem holds_leave (t : Ir.Terminator) (next : Option Nat) : R (leave t next) :=
  ((h.compositional compositional_codes fun hx hrun => (hx hrun).2).holds_leave
    (fun _ _ => trivial) False.elim next).2

end Uniform

end NativeCode.Selection
