import GuardedList.Operation

/-!
# Hooks

The code by which a list's owner decides how values are copied and how they are disposed of. A hook
may do anything with the session's memory, and it may call operations of the very list that runs it;
so what a hook does is a dialogue (`Dialogue`): turns of work on the memory and calls.

A client's whole program against a list is a dialogue too, and what a hook runs can be set beside
the same program run on its own.
-/

namespace GuardedList

/-- A computation on a memory `ω` that calls operations of a list of `α` as it goes, and ends with
a `ρ`. -/
inductive Dialogue (ω α ρ : Type) where
  /-- The end. -/
  | finish (memory : ω) (result : ρ)
  /-- A call, with the memory as it is when the call begins; `next` gets it back with the answer. -/
  | call (memory : ω) (operation : Operation α) (next : ω → Ending (Reply α) → Dialogue ω α ρ)

/-- The outcome of something done to a `τ`: the result, and what is left of the `τ` and of the
memory. -/
structure Outcome (ρ τ ω : Type) where
  result : ρ
  target : τ
  memory : ω

/-- A way to carry out operations of a list of `α` on a `τ`. It answers nothing when a call never
returns. -/
abbrev Server (ω α τ : Type) := Operation α → τ → ω → Option (Outcome (Ending (Reply α)) τ ω)

namespace Dialogue

variable {ω α ρ κ τ : Type}

/-- Goes on with the result of the first dialogue. -/
protected def bind : Dialogue ω α ρ → (ρ → ω → Dialogue ω α κ) → Dialogue ω α κ
  | finish memory result, rest => rest result memory
  | call memory operation next, rest =>
    call memory operation fun memory answer => (next memory answer).bind rest

/-- Carries a dialogue out, each call by `server`. -/
def run (server : Server ω α τ) : Dialogue ω α ρ → τ → Option (Outcome ρ τ ω)
  | finish memory result, target => some ⟨result, target, memory⟩
  | call memory operation next, target =>
    match server operation target memory with
    | none => none
    | some answer => (next answer.memory answer.result).run server answer.target

/-- The memory and the result of a dialogue that makes no call. -/
def silent? : Dialogue ω α ρ → Option (ω × ρ)
  | finish memory result => some (memory, result)
  | call _ _ _ => none

@[simp] theorem run_finish (server : Server ω α τ) (memory : ω) (result : ρ) (target : τ) :
    (finish memory result : Dialogue ω α ρ).run server target = some ⟨result, target, memory⟩ := rfl

/-- A dialogue that makes no call has the same outcome whoever would serve it. -/
theorem run_of_silent? {dialogue : Dialogue ω α ρ} {memory : ω} {result : ρ}
    (h : dialogue.silent? = some (memory, result)) (server : Server ω α τ) (target : τ) :
    dialogue.run server target = some ⟨result, target, memory⟩ := by
  cases dialogue with
  | finish left reached => cases h; rfl
  | call left operation next => simp [silent?] at h

/-- What runs after a dialogue starts where the dialogue ended. -/
theorem run_bind (server : Server ω α τ) (first : Dialogue ω α ρ)
    (rest : ρ → ω → Dialogue ω α κ) (target : τ) :
    (first.bind rest).run server target =
      (first.run server target).bind fun outcome =>
        (rest outcome.result outcome.memory).run server outcome.target := by
  induction first generalizing target with
  | finish memory result => rfl
  | call memory operation next ih =>
    simp only [Dialogue.bind, run]
    cases server operation target memory with
    | none => rfl
    | some answer => exact ih _ _ _

end Dialogue

/-- How the values of a list are copied and disposed of. -/
structure Hooks (ω α : Type) where
  /-- An independent copy of a value, or the error that kept it from being made. -/
  copy : α → ω → Dialogue ω α (Ending α)
  /-- Releases what a value owns, just before the value goes. Unless told otherwise, nothing. -/
  dispose : α → ω → Dialogue ω α (Residue α) := fun value memory => .finish memory { value }

namespace Hooks

variable {ω α : Type}

/-- Plain copies, and nothing to dispose of. -/
def clone : Hooks ω α where
  copy source memory := .finish memory (.value source)

/-- Hooks from a pair of functions. -/
def ofFunctions (copy : α → ω → Dialogue ω α (Ending α))
    (dispose : α → ω → Dialogue ω α (Residue α)) : Hooks ω α where
  copy := copy
  dispose := dispose

/-- Hooks with a copy of their own, and nothing to dispose of. -/
def copyOnly (copy : α → ω → Dialogue ω α (Ending α)) : Hooks ω α :=
  ofFunctions copy fun value memory => .finish memory { value }

end Hooks

end GuardedList
