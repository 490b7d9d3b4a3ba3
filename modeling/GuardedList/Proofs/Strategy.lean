import GuardedList.Basic

/-!
# Hooks that make no calls

Hooks that leave the list alone while they run are known by what they answer (`Strategy`). Their
answers may depend on every hook call made before, so a session with such hooks keeps the calls in
its memory (`Recorded`), the first one first. A lock and a log do not look at that record
(`Lock.recorded`).
-/

namespace GuardedList

/-- One call of a hook and what came of it. -/
inductive HookCall (α : Type) where
  /-- The copy hook was given `source`. -/
  | copied (source : α) (ending : Ending α)
  /-- The dispose hook was given `value` and left `residue` of it. -/
  | disposed (value : α) (residue : Residue α)
  deriving DecidableEq

/-- The text of the panic in which a hook call ended. -/
def HookCall.panic? {α : Type} : HookCall α → Option String
  | copied _ (.panicked text) => some text
  | copied _ _ => none
  | disposed _ residue => residue.panic

@[simp] theorem HookCall.panic?_copied {α : Type} {source : α} {ending : Ending α} {text : String} :
    (copied source ending).panic? = some text ↔ ending = .panicked text := by
  cases ending <;> simp [panic?]

@[simp] theorem HookCall.panic?_disposed {α : Type} (value : α) (residue : Residue α) :
    (disposed value residue).panic? = residue.panic := rfl

/-- What hooks without calls of their own answer, given the hook calls before, the first one
first. -/
structure Strategy (α : Type) where
  copy : List (HookCall α) → α → Ending α
  dispose : List (HookCall α) → α → Residue α

/-- The memory of a session that keeps its hook calls, the first one first, beside whatever its lock
and its log keep. -/
structure Recorded (α ω : Type) where
  calls : List (HookCall α)
  rest : ω

namespace Recorded

variable {α ω : Type}

instance [Journal ω] : Journal (Recorded α ω) where
  record message memory := { memory with rest := Journal.record message memory.rest }

/-- One more hook call. -/
def push (memory : Recorded α ω) (call : HookCall α) : Recorded α ω :=
  { memory with calls := memory.calls ++ [call] }

end Recorded

/-- The hooks that answer by a strategy. -/
def Strategy.hooks {α ω : Type} (strategy : Strategy α) : Hooks (Recorded α ω) α where
  copy source memory :=
    .finish (memory.push (.copied source (strategy.copy memory.calls source)))
      (strategy.copy memory.calls source)
  dispose value memory :=
    .finish (memory.push (.disposed value (strategy.dispose memory.calls value)))
      (strategy.dispose memory.calls value)

/-- A lock in a session that keeps its hook calls. -/
def Lock.recorded {α ω σ : Type} (lock : Lock ω σ) : Lock (Recorded α ω) σ where
  make memory := ((lock.make memory.rest).1, { memory with rest := (lock.make memory.rest).2 })
  acquire state memory :=
    ((lock.acquire state memory.rest).1, { memory with rest := (lock.acquire state memory.rest).2 })
  release manner state memory :=
    ((lock.release manner state memory.rest).1,
      { memory with rest := (lock.release manner state memory.rest).2 })
  destroy state memory := { memory with rest := lock.destroy state memory.rest }

/-- Hooks whose answers depend on nothing but the value that they are given. -/
structure Strategy.Steady {α : Type} (strategy : Strategy α) : Prop where
  copy (past past' : List (HookCall α)) (source : α) :
    strategy.copy past source = strategy.copy past' source
  dispose (past past' : List (HookCall α)) (value : α) :
    strategy.dispose past value = strategy.dispose past' value

/-- Hooks that copy everything, and that overwrite what they dispose of and panic at odd values. -/
def Strategy.brittle : Strategy Nat where
  copy _ source := .value source
  dispose _ value := ⟨0, if value % 2 = 1 then some "odd" else none⟩

end GuardedList
