import GuardedList.Hooks
import GuardedList.Lock

/-!
# Running routines

Who answers the requests of a routine: a lock, the hooks, and a memory that takes the messages. Two
readings are given. `Routine.run` runs a routine to its end with nobody in between, hooks and the
calls that they make included. `Routine.step` answers one request and stops, so that other threads
can move before the next. `run_of_step` says that the two agree, and `run_releasing` that a section
under the lock gives it up however the section ends.
-/

namespace GuardedList

/-- A request that has been answered. -/
inductive Event (π α : Type) where
  | granted
  | refused (cause : LockError)
  | released (manner : Manner)
  | loaded (value : π)
  | stored (value : π)
  | copied (source : α) (ending : Ending α)
  | disposed (value : α) (residue : Residue α)
  | logged (message : Message)

/-- One request further on: what was answered, what is still to do, and what the answer left. -/
structure Advance (ω σ π α β : Type) where
  event : Event π α
  rest : Routine π α β
  cell : Cell σ π
  memory : ω

namespace Routine

variable {ω σ π α β : Type} [Journal ω]

/-- Runs a routine to its end, with `server` for the calls that hooks make. There is no outcome when
the routine waits for a lock that nobody can give up, or when a call never returns. -/
def run (lock : Lock ω σ) (hooks : Hooks ω α) (server : Server ω α (Cell σ π)) :
    Routine π α β → Cell σ π → ω → Option (Outcome (Ending β) (Cell σ π) ω)
  | finish ending, cell, memory => some ⟨ending, cell, memory⟩
  | acquire next, cell, memory =>
    match lock.acquire cell.lock memory with
    | (.granted state, memory) =>
      (next (.ok ())).run lock hooks server { cell with lock := state } memory
    | (.refused cause state, memory) =>
      (next (.error cause)).run lock hooks server { cell with lock := state } memory
    | (.blocked, _) => none
  | release manner next, cell, memory =>
    let (state, memory) := lock.release manner cell.lock memory
    next.run lock hooks server { cell with lock := state } memory
  | load next, cell, memory => (next cell.value).run lock hooks server cell memory
  | store value next, cell, memory => next.run lock hooks server { cell with value } memory
  | copy source next, cell, memory =>
    match (hooks.copy source memory).run server cell with
    | none => none
    | some outcome => (next outcome.result).run lock hooks server outcome.target outcome.memory
  | dispose value next, cell, memory =>
    match (hooks.dispose value memory).run server cell with
    | none => none
    | some outcome => (next outcome.result).run lock hooks server outcome.target outcome.memory
  | log message next, cell, memory =>
    next.run lock hooks server cell (Journal.record message memory)

/-- What runs after a routine starts where the routine ended, if it ended with a value. -/
theorem run_bind {γ : Type} (lock : Lock ω σ) (hooks : Hooks ω α) (server : Server ω α (Cell σ π))
    (routine : Routine π α β) (rest : β → Routine π α γ) (cell : Cell σ π) (memory : ω) :
    (routine.bind rest).run lock hooks server cell memory =
      (routine.run lock hooks server cell memory).bind fun outcome =>
        match outcome.result with
        | .value result => (rest result).run lock hooks server outcome.target outcome.memory
        | .error cause => some ⟨.error cause, outcome.target, outcome.memory⟩
        | .panicked text => some ⟨.panicked text, outcome.target, outcome.memory⟩ := by
  induction routine generalizing cell memory with
  | finish ending => cases ending <;> rfl
  | acquire next ih =>
    rw [Routine.bind, run, run]
    split
    · exact ih _ _ _
    · exact ih _ _ _
    · rfl
  | release manner next ih => exact ih _ _
  | load next ih => exact ih _ _ _
  | store value next ih => exact ih _ _
  | copy source next ih =>
    rw [Routine.bind, run, run]
    split
    · rfl
    · exact ih _ _ _
  | dispose value next ih =>
    rw [Routine.bind, run, run]
    split
    · rfl
    · exact ih _ _ _
  | log message next ih => exact ih _ _

/-- A section ends as its body does, and then the lock is given up: while unwinding after a panic,
in an orderly manner otherwise. -/
theorem run_releasing (lock : Lock ω σ) (hooks : Hooks ω α) (server : Server ω α (Cell σ π))
    (body : Routine π α β) (cell : Cell σ π) (memory : ω) :
    body.releasing.run lock hooks server cell memory =
      (body.run lock hooks server cell memory).map fun outcome =>
        let (state, memory) := lock.release outcome.result.manner outcome.target.lock outcome.memory
        ⟨outcome.result, { outcome.target with lock := state }, memory⟩ := by
  induction body generalizing cell memory with
  | finish ending => rfl
  | acquire next ih =>
    rw [releasing, run, run]
    split
    · exact ih _ _ _
    · exact ih _ _ _
    · rfl
  | release manner next ih => exact ih _ _
  | load next ih => exact ih _ _ _
  | store value next ih => exact ih _ _
  | copy source next ih =>
    rw [releasing, run, run]
    split
    · rfl
    · exact ih _ _ _
  | dispose value next ih =>
    rw [releasing, run, run]
    split
    · rfl
    · exact ih _ _ _
  | log message next ih => exact ih _ _

/-- Answers the first request of a routine. There is no answer at the end of the routine, while
the lock is somebody's, and from a hook that makes calls of its own. -/
def step (lock : Lock ω σ) (hooks : Hooks ω α) :
    Routine π α β → Cell σ π → ω → Option (Advance ω σ π α β)
  | finish _, _, _ => none
  | acquire next, cell, memory =>
    match lock.acquire cell.lock memory with
    | (.granted state, memory) =>
      some ⟨.granted, next (.ok ()), { cell with lock := state }, memory⟩
    | (.refused cause state, memory) =>
      some ⟨.refused cause, next (.error cause), { cell with lock := state }, memory⟩
    | (.blocked, _) => none
  | release manner next, cell, memory =>
    let (state, memory) := lock.release manner cell.lock memory
    some ⟨.released manner, next, { cell with lock := state }, memory⟩
  | load next, cell, memory => some ⟨.loaded cell.value, next cell.value, cell, memory⟩
  | store value next, cell, memory => some ⟨.stored value, next, { cell with value }, memory⟩
  | copy source next, cell, memory =>
    (hooks.copy source memory).silent?.map fun (memory, ending) =>
      ⟨.copied source ending, next ending, cell, memory⟩
  | dispose value next, cell, memory =>
    (hooks.dispose value memory).silent?.map fun (memory, residue) =>
      ⟨.disposed value residue, next residue, cell, memory⟩
  | log message next, cell, memory =>
    some ⟨.logged message, next, cell, Journal.record message memory⟩

/-- Answering one request and then running the rest is running the whole. -/
theorem run_of_step {lock : Lock ω σ} {hooks : Hooks ω α} {routine : Routine π α β}
    {cell : Cell σ π} {memory : ω} {advance : Advance ω σ π α β}
    (h : routine.step lock hooks cell memory = some advance) (server : Server ω α (Cell σ π)) :
    routine.run lock hooks server cell memory =
      advance.rest.run lock hooks server advance.cell advance.memory := by
  cases routine with
  | finish ending => simp [step] at h
  | acquire next =>
    rw [step] at h
    rw [run]
    split at h
    · cases h; rfl
    · cases h; rfl
    · simp at h
  | release manner next => cases h; rfl
  | load next => cases h; rfl
  | store value next => cases h; rfl
  | copy source next =>
    simp only [step, Option.map_eq_some_iff] at h
    obtain ⟨⟨left, ending⟩, hsilent, rfl⟩ := h
    rw [run, Dialogue.run_of_silent? hsilent]
  | dispose value next =>
    simp only [step, Option.map_eq_some_iff] at h
    obtain ⟨⟨left, residue⟩, hsilent, rfl⟩ := h
    rw [run, Dialogue.run_of_silent? hsilent]
  | log message next => cases h; rfl

end Routine

/-- Carries out operations on a list in use that lives in a cell, with hooks whose calls of the list
go `depth` deep at most: at depth one no hook makes a call, at depth two the hooks of such calls
make none, and so on. -/
def Operation.serve {ω σ α : Type} [Journal ω] (lock : Lock ω σ) (hooks : Hooks ω α) (size : Nat) :
    Nat → Server ω α (Cell σ (Chain α))
  | 0, _, _, _ => none
  | depth + 1, operation, cell, memory =>
    (operation.routine size).run lock hooks (Operation.serve lock hooks size depth) cell memory

end GuardedList
