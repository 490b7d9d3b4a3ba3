import GuardedList.Error

/-!
# Endings

The three ways in which a computation inside a list can come to its end, and what a value's owner
finds when a disposal is over.
-/

namespace GuardedList

/-- How a computation ends: with a value, with an error that it returns, or by a panic that
unwinds through it. -/
inductive Ending (β : Type) where
  | value (result : β)
  | error (cause : ListError)
  | panicked (text : String)
  deriving DecidableEq

/-- What a disposal leaves: the value, perhaps changed, and the text of the panic if the disposal
ended in one. The value is there in either case, since it stays where its owner keeps it. -/
structure Residue (α : Type) where
  value : α
  panic : Option String := none
  deriving DecidableEq

namespace Residue

variable {α : Type}

/-- How the disposal ended. -/
def ending (residue : Residue α) : Ending Unit :=
  match residue.panic with
  | none => .value ()
  | some text => .panicked text

end Residue

/-- How a guard is given up: in the normal course of things, or while a panic unwinds past it. -/
inductive Manner where
  | orderly
  | unwinding
  deriving DecidableEq

/-- The manner in which a guard goes when the code it covers has ended. -/
def Ending.manner {β : Type} : Ending β → Manner
  | panicked _ => .unwinding
  | _ => .orderly

end GuardedList
