import NativeCode.Proofs.Compile.Lowering

/-!
# The labels of a function

A function has labels for its blocks, for what follows a return in the middle of a block, and for
its epilogue. All of them are different, and none is the name of the function.
-/

namespace NativeCode.Selection

inductive Local where
  | block (id : Nat)
  | cont (n : Nat)
  | epilogue
  deriving DecidableEq

/-- The spelling of a label after the name of its function. -/
def Local.text : Local → String
  | block id => "bb" ++ id.repr
  | cont n => "cont" ++ n.repr
  | epilogue => "epilogue"

def localLabel (symbol : String) (l : Local) : String := ".L" ++ symbol ++ "_" ++ l.text

lemma Local.text_injective : Function.Injective Local.text := by
  have hhead : ∀ l : Local, l.text.toList.head? = some (match l with
      | .block _ => 'b' | .cont _ => 'c' | .epilogue => 'e') := by
    intro l
    cases l <;> simp [text, String.toList_append]
  intro l m h
  have hlm := (hhead l).symm.trans ((congrArg (fun t : String => t.toList.head?) h).trans (hhead m))
  cases l <;> cases m <;> simp only [Option.some.injEq, Char.reduceEq] at hlm
  case block.block a b => rw [Nat.repr_injective ((String.append_right_inj "bb").mp h)]
  case cont.cont a b => rw [Nat.repr_injective ((String.append_right_inj "cont").mp h)]
  case epilogue.epilogue => rfl

theorem localLabel_injective (symbol : String) : Function.Injective (localLabel symbol) :=
  fun _ _ h => Local.text_injective ((String.append_right_inj _).mp h)

theorem localLabel_ne_symbol (symbol : String) (l : Local) : localLabel symbol l ≠ symbol := by
  intro h
  have hlen := congrArg String.length h
  simp only [localLabel, String.length_append] at hlen
  have hl : ".L".length = 2 := rfl
  omega

theorem localLabel_ne_empty (symbol : String) (l : Local) : localLabel symbol l ≠ "" := by
  intro h
  have hlen := congrArg String.length h
  simp only [localLabel, String.length_append] at hlen
  have hl : ".L".length = 2 := rfl
  have h₀ : "".length = 0 := rfl
  omega

variable (s : Session)

lemma blockLabel_eq (id : Nat) : s.blockLabel id = localLabel s.symbol (.block id) := by
  simp only [Session.blockLabel, localLabel, Local.text, String.append_assoc]
  rfl

lemma epilogueLabel_eq : s.epilogueLabel = localLabel s.symbol .epilogue := by
  simp only [Session.epilogueLabel, localLabel, Local.text, String.append_assoc]
  rfl

lemma contLabel_eq : s.contLabel = localLabel s.symbol (.cont s.labels) := by
  simp only [Session.contLabel, Session.freshLabel, localLabel, Local.text, String.append_assoc]
  rfl

end NativeCode.Selection
