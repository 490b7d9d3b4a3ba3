import GuardedList.Run

/-!
# Guarded lists

A list whose elements live in a chain behind one lock, and whose values go in and out through its
owner's hooks. A list is in use from its creation until it is destroyed; `serve` carries out an
operation on it in either case, and `destroy` ends its use for good.

Everything takes the session's memory and gives it back, since locks, hooks and the log may all
leave their traces there. Elements leave none: the hooks may do as they please with an element that
is disposed of, but when it goes after that, or goes with a chain that nobody disposes of any more,
this is taken to do nothing that can be observed, neither to panic nor to call. What is shown of
`destroy` and of the operations that get rid of elements rests on it.
-/

/-- A list of `α` behind a lock with states in `σ`, in a session with memory `ω`. -/
structure GuardedList (ω σ α : Type) where
  /-- The size of an element in bytes; it outlives the list's use. -/
  elementSize : Nat
  /-- The kind of lock that guards the list. -/
  backend : GuardedList.Lock ω σ
  /-- The lock with the chain behind it; nothing once the destruction of the list has begun. -/
  cell : Option (GuardedList.Cell σ (GuardedList.Chain α))
  /-- The hooks; nothing once the list is destroyed. -/
  hooks : Option (GuardedList.Hooks ω α)

namespace GuardedList

variable {ω σ α : Type}

/-- An empty list. Elements without a size are refused, before a lock is made. -/
def create (backend : Lock ω σ) (hooks : Hooks ω α) (elementSize : Nat) (memory : ω) :
    Except ListError (GuardedList ω σ α) × ω :=
  if elementSize = 0 then (.error .invalidArgument, memory)
  else
    match Cell.create backend .empty memory with
    | (.error cause, memory) => (.error (.lock cause), memory)
    | (.ok cell, memory) => (.ok ⟨elementSize, backend, some cell, some hooks⟩, memory)

/-- An empty list of plainly copied values. -/
def createPlain (backend : Lock ω σ) (elementSize : Nat) (memory : ω) :
    Except ListError (GuardedList ω σ α) × ω :=
  create backend .clone elementSize memory

/-- Whether the list can be used. -/
def isInitialized (list : GuardedList ω σ α) : Bool := list.hooks.isSome && list.cell.isSome

/-- The elements of a list in use. -/
def contents? (list : GuardedList ω σ α) : Option (List α) :=
  list.cell.map fun cell => cell.value.toList

/-- Carries out operations on a list. The hooks may call the list in turn, and the hooks of those
calls too, `depth` calls deep. -/
def serve [Journal ω] (depth : Nat) : Server ω α (GuardedList ω σ α) :=
  fun operation list memory =>
    match list.cell, list.hooks with
    | some cell, some hooks =>
      (Operation.serve list.backend hooks list.elementSize (depth + 1) operation cell memory).map
        fun outcome =>
          ⟨outcome.result, { list with cell := some outcome.target }, outcome.memory⟩
    | _, _ => some ⟨operation.afterDestroy list.elementSize, list, memory⟩

/-- Disposes of the values of a chain from the first to the last and counts them on from `freed`. A
panic ends the walk there. While a list is destroyed nobody else can reach it, so its hooks cannot
make calls. -/
def freeAll (hooks : Option (Hooks ω α)) : Chain α → Nat → ω → Option (Ending Nat × ω)
  | .empty, freed, memory => some (.value freed, memory)
  | .link value next, freed, memory =>
    match hooks with
    | none => freeAll hooks next (freed + 1) memory
    | some strategy =>
      match (strategy.dispose value memory).silent? with
      | none => none
      | some (memory, ⟨_, none⟩) => freeAll hooks next (freed + 1) memory
      | some (memory, ⟨_, some text⟩) => some (.panicked text, memory)

/-- Destroys a list: takes its lock down, disposes of its elements in order, and gives up its hooks.
When a disposal panics the elements behind it go without one, and the hooks stay. A list that
has no lock any more only gives up its hooks. -/
def destroy [Journal ω] (list : GuardedList ω σ α) (memory : ω) :
    Option (Outcome (Ending Unit) (GuardedList ω σ α) ω) :=
  match list.cell with
  | none => some ⟨.value (), { list with hooks := none }, memory⟩
  | some cell =>
    let (chain, memory) := cell.destroy list.backend memory
    match freeAll list.hooks chain 0 memory with
    | none => none
    | some (.value freed, memory) =>
      some ⟨.value (), { list with cell := none, hooks := none },
        Journal.record (.freed freed) memory⟩
    | some (.error cause, memory) => some ⟨.error cause, { list with cell := none }, memory⟩
    | some (.panicked text, memory) => some ⟨.panicked text, { list with cell := none }, memory⟩

/-- Lets go of a list, which destroys it first. -/
def drop [Journal ω] (list : GuardedList ω σ α) (memory : ω) : Option (Ending Unit × ω) :=
  (list.destroy memory).map fun outcome => (outcome.result, outcome.memory)

/-- What a list shows of itself without being locked. -/
structure Summary where
  elementSize : Nat
  initialized : Bool
  deriving DecidableEq

/-- The summary of a list. -/
def summary (list : GuardedList ω σ α) : Summary := ⟨list.elementSize, list.isInitialized⟩

namespace Summary

/-- The fields with their names; what else a list holds is left out. -/
def fields (summary : Summary) : List String :=
  ["element_size: " ++ toString summary.elementSize,
    "initialized: " ++ (if summary.initialized then "true" else "false")]

/-- The summary on one line. -/
def text (summary : Summary) : String :=
  "LockedList \x7b " ++ ", ".intercalate summary.fields ++ ", .. \x7d"

/-- The summary with a line for each field. -/
def indentedText (summary : Summary) : String :=
  "LockedList \x7b\n" ++ String.join (summary.fields.map ("    " ++ · ++ ",\n")) ++ "    ..\n\x7d"

end Summary

/-- The choices that go into a list before it is made. -/
structure Builder (ω α : Type) where
  hooks : Hooks ω α := .clone

namespace Builder

/-- The same choices with other hooks. -/
def withHooks (_ : Builder ω α) (hooks : Hooks ω α) : Builder ω α := { hooks }

/-- Makes the list. -/
def build (builder : Builder ω α) (backend : Lock ω σ) (elementSize : Nat) (memory : ω) :
    Except ListError (GuardedList ω σ α) × ω :=
  create backend builder.hooks elementSize memory

end Builder

end GuardedList
