import GuardedList.Ending
import GuardedList.Message

/-!
# Routines

The code of an operation, as the requests that it makes one after another: of the lock, of the value
behind the lock, of the hooks, and of the log. A routine says what is asked and in which order, and
leaves open who answers; so one and the same routine can be run alone, be run inside a hook of
another routine, and be taken apart into single steps that alternate with those of other threads.

There is no request for the end of a value, when it goes after its owner is done with it. An element
is taken to go without doing anything that can be observed: what its type does then, if it does
anything, does not panic and does not call a list, a lock or the log. All that a value does on its
way out is the doing of the dispose hook.

`Routine.holding` is the one way in which a section under the lock is built. It gives the lock up on
every way out of the section, so no routine built with it keeps the lock.
-/

namespace GuardedList

/-- Code over a lock that guards a `π`, with values of type `α` going through the hooks, that comes
to its end with a `β`. -/
inductive Routine (π α β : Type) where
  /-- The end. -/
  | finish (ending : Ending β)
  /-- Asks for the lock; it is granted, or refused for a reason. -/
  | acquire (next : Except LockError Unit → Routine π α β)
  /-- Gives the lock up. -/
  | release (manner : Manner) (next : Routine π α β)
  /-- Reads the guarded value. -/
  | load (next : π → Routine π α β)
  /-- Writes the guarded value. -/
  | store (value : π) (next : Routine π α β)
  /-- Has the copy hook copy a value. -/
  | copy (source : α) (next : Ending α → Routine π α β)
  /-- Has the dispose hook release what a value owns. -/
  | dispose (value : α) (next : Residue α → Routine π α β)
  /-- Writes a message to the log. -/
  | log (message : Message) (next : Routine π α β)

namespace Routine

variable {π α β γ : Type}

/-- Goes on with the value of the first routine; its error or panic is the end of both. -/
protected def bind : Routine π α β → (β → Routine π α γ) → Routine π α γ
  | finish (.value result), rest => rest result
  | finish (.error cause), _ => finish (.error cause)
  | finish (.panicked text), _ => finish (.panicked text)
  | acquire next, rest => acquire fun answer => (next answer).bind rest
  | release manner next, rest => release manner (next.bind rest)
  | load next, rest => load fun value => (next value).bind rest
  | store value next, rest => store value (next.bind rest)
  | copy source next, rest => copy source fun ending => (next ending).bind rest
  | dispose value next, rest => dispose value fun residue => (next residue).bind rest
  | log message next, rest => log message (next.bind rest)

instance : Monad (Routine π α) where
  pure result := finish (.value result)
  bind := Routine.bind

@[simp] theorem pure_eq (result : β) :
    (pure result : Routine π α β) = finish (.value result) := rfl

@[simp] theorem bind_eq (routine : Routine π α β) (rest : β → Routine π α γ) :
    routine >>= rest = routine.bind rest := rfl

/-- Ends with an error. -/
def fail (cause : ListError) : Routine π α β := finish (.error cause)

/-- The answer of the lock to a request. -/
def askLock : Routine π α (Except LockError Unit) := acquire fun answer => finish (.value answer)

/-- The end of a scope that is left in this manner. If the guard is still there it goes, and with it
the lock. -/
def endScope (manner : Manner) (guard : Bool) (rest : Routine π α β) : Routine π α β :=
  if guard then release manner rest else rest

/-- Hands the guard back: it is moved into a scope of its own, which ends at once. -/
def handBack (rest : Routine π α β) : Routine π α β := endScope .orderly true rest

/-- Gives the lock up in the normal course of things. -/
def leave : Routine π α Unit := handBack (finish (.value ()))

/-- The guarded value. -/
def guarded : Routine π α π := load fun value => finish (.value value)

/-- Writes the guarded value. -/
def put (value : π) : Routine π α Unit := store value (finish (.value ()))

/-- A copy of a value; a failure or a panic of the hook is passed on. -/
def copyOf (source : α) : Routine π α α := copy source finish

/-- What a disposal leaves of a value. Its panic is part of the answer and not yet passed on. -/
def disposalOf (value : α) : Routine π α (Residue α) :=
  dispose value fun residue => finish (.value residue)

/-- Passes on the panic of a disposal, if there was one. -/
def settle (residue : Residue α) : Routine π α Unit := finish residue.ending

/-- Writes a message to the log. -/
def note (message : Message) : Routine π α Unit := log message (finish (.value ()))

/-- The same code with the lock given up at its end, however it ends. -/
def releasing : Routine π α β → Routine π α β
  | finish ending => release ending.manner (finish ending)
  | acquire next => acquire fun answer => (next answer).releasing
  | release manner next => release manner next.releasing
  | load next => load fun value => (next value).releasing
  | store value next => store value next.releasing
  | copy source next => copy source fun ending => (next ending).releasing
  | dispose value next => dispose value fun residue => (next residue).releasing
  | log message next => log message next.releasing

/-- Runs `body` under the lock. When the lock is refused the section fails and `body` is not run. -/
def holding (body : Routine π α β) : Routine π α β :=
  acquire fun
    | .error cause => fail (.lock cause)
    | .ok () => body.releasing

end Routine

end GuardedList
