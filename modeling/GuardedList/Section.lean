import GuardedList.Run

/-!
# Sections

The use of a lock on its own, without a list: a section takes the lock, works on the guarded value
and gives the lock up again. What the section read is reported in every case, also when it panics;
what it wrote before it panicked stays.
-/

namespace GuardedList

/-- One thing that the holder of a lock does to the guarded value. -/
inductive Action (π : Type) where
  /-- Reads it. -/
  | read
  /-- Overwrites it. -/
  | write (value : π)
  /-- Reads it and overwrites it with a function of what was read. -/
  | modify (change : π → π)
  /-- Panics; nothing after it is done. -/
  | panic

/-- The two ways of giving up a guard in the normal course of things: to hand it back, or to let it
go out of scope. -/
inductive GuardEnd where
  | handedBack
  | outOfScope
  deriving DecidableEq

/-- The work of one holder. -/
structure Section (π : Type) where
  body : List (Action π)
  guardEnd : GuardEnd := .handedBack

/-- What is known after a section. -/
inductive Report (π : Type) where
  /-- The section was done; it read these values. -/
  | completed (seen : List π)
  /-- The holder panicked after it had read these values. -/
  | holderPanicked (seen : List π)
  /-- The lock was refused, and nothing was done. -/
  | refused (cause : LockError)
  deriving DecidableEq

/-- The end of a section in which there was no panic. A guard that was handed back is no longer
there when the scope ends. -/
def GuardEnd.close {π α β : Type} (rest : Routine π α β) : GuardEnd → Routine π α β
  | handedBack => .handBack (.endScope .orderly false rest)
  | outOfScope => .endScope .orderly true rest

/-- It comes to the same. -/
@[simp] theorem GuardEnd.close_eq {π α β : Type} (guardEnd : GuardEnd) (rest : Routine π α β) :
    guardEnd.close rest = .release .orderly rest := by
  cases guardEnd <;> rfl

namespace Section

variable {π : Type}

/-- The work under the lock, after the values in `seen` have been read, the latest first. -/
def work (guardEnd : GuardEnd) : List (Action π) → List π → Routine π Empty (Report π)
  | [], seen => guardEnd.close (.finish (.value (.completed seen.reverse)))
  | .read :: rest, seen => .load fun value => work guardEnd rest (value :: seen)
  | .write value :: rest, seen => .store value (work guardEnd rest seen)
  | .modify change :: rest, seen =>
    .load fun value => .store (change value) (work guardEnd rest seen)
  | .panic :: _, seen =>
    .endScope .unwinding true (.finish (.value (.holderPanicked seen.reverse)))

/-- The routine of a section. There are no hooks: nothing is copied and nothing disposed of. -/
def routine (job : Section π) : Routine π Empty (Report π) :=
  .acquire fun
    | .error cause => .finish (.value (.refused cause))
    | .ok () => work job.guardEnd job.body []

/-- Runs a section on a lock that nobody else uses. There is no outcome when the lock is held. -/
def run {ω σ : Type} [Journal ω] (job : Section π) (lock : Lock ω σ) (cell : Cell σ π)
    (memory : ω) : Option (Outcome (Ending (Report π)) (Cell σ π) ω) :=
  job.routine.run lock .clone (fun _ _ _ => none) cell memory

end Section

end GuardedList
