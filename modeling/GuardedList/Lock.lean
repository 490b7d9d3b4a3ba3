import GuardedList.Message
import GuardedList.Mutex

/-!
# Locks

What a list asks of a lock (`Lock`), and how mutexes are made to offer it: any plain mutex
(`Lock.ofPlain`), and any that can be poisoned (`Lock.ofPoisonable`). The locks at hand are one that
spins on a flag, one that spins on a ticket, and one that is poisoned when a holder panics.

A lock here has a state of its own and guards one value (`Cell`). Its answer to a request is one
of three: the lock is granted, it is refused, or whoever asks has to wait. Waiting is no event:
the request is repeated until somebody gives the lock up.
-/

namespace GuardedList

/-- The answer to one attempt at a lock with states in `σ`. -/
inductive Attempt (σ : Type) where
  /-- The lock is the caller's now. -/
  | granted (next : σ)
  /-- The caller is turned away and does not hold the lock. -/
  | refused (cause : LockError) (next : σ)
  /-- Somebody holds the lock; nothing has changed. -/
  | blocked

/-- A lock with states in `σ` that may leave traces in a memory `ω`. -/
structure Lock (ω σ : Type) where
  /-- Makes a lock that is free. -/
  make : ω → Except LockError σ × ω
  /-- One attempt to take the lock. -/
  acquire : σ → ω → Attempt σ × ω
  /-- The holder gives the lock up. -/
  release : Manner → σ → ω → σ × ω
  /-- Takes the lock down; the value that it guarded goes back to its owner. -/
  destroy : σ → ω → ω

/-- A lock in use and the value behind it. -/
structure Cell (σ π : Type) where
  lock : σ
  value : π

namespace Cell

variable {ω σ π : Type}

/-- Puts a value behind a new lock. -/
def create (lock : Lock ω σ) (value : π) (memory : ω) : Except LockError (Cell σ π) × ω :=
  let (made, memory) := lock.make memory
  (made.map (⟨·, value⟩), memory)

/-- Takes the lock down and gets the value back. -/
def destroy (lock : Lock ω σ) (cell : Cell σ π) (memory : ω) : π × ω :=
  (cell.value, lock.destroy cell.lock memory)

end Cell

namespace Lock

variable {ω σ : Type}

/-- A lock made of a plain mutex. Nothing is refused, and a holder that panics gives the lock up
like any other. -/
def ofPlain (mutex : PlainMutex σ) : Lock ω σ where
  make memory := (.ok mutex.fresh, memory)
  acquire state memory := ((mutex.lock? state).elim .blocked .granted, memory)
  release _ state memory := (mutex.unlock state, memory)
  destroy _ memory := memory

/-- A lock made of a mutex that can be poisoned. When it is poisoned everyone is turned away with a
warning, and taking the lock down is still possible, with a warning. -/
def ofPoisonable [Journal ω] (mutex : PoisonableMutex σ) : Lock ω σ where
  make memory := (.ok mutex.fresh, memory)
  acquire state memory :=
    match mutex.lock? state with
    | none => (.blocked, memory)
    | some (.ok locked) => (.granted locked, memory)
    -- The guard inside the error is not used. It goes when the warning has been written.
    | some (.error locked) =>
      (.refused .poisoned (mutex.unlock .orderly locked), Journal.record .acquireRefused memory)
  release manner state memory := (mutex.unlock manner state, memory)
  destroy state memory :=
    match mutex.dismantle state with
    | .ok () => memory
    | .error () => Journal.record .poisonedDestroyed memory

/-- A lock that spins on a flag. -/
def spin : Lock ω Spin := ofPlain .flag

/-- A lock that spins until its ticket is served. -/
def ticket : Lock ω Ticket := ofPlain .tickets

/-- The lock that a panic of its holder poisons. -/
def poisoning [Journal ω] : Lock ω Poisoning := ofPoisonable .flags

section Plain

variable {mutex : PlainMutex σ} {state next : σ} {memory after : ω}

/-- A lock made of a plain mutex is granted when the mutex can be locked. -/
theorem acquire_ofPlain_eq_granted :
    (ofPlain mutex).acquire state memory = (.granted next, after) ↔
      mutex.lock? state = some next ∧ memory = after := by
  cases hlock : mutex.lock? state <;> simp [ofPlain, hlock]

/-- Nobody is ever turned away from it. -/
theorem acquire_ofPlain_ne_refused {cause : LockError} :
    (ofPlain mutex).acquire state memory ≠ (.refused cause next, after) := by
  cases hlock : mutex.lock? state <;> simp [ofPlain, hlock]

end Plain

section Poisoning

variable [Journal ω]

/-- A refused request leaves the lock as it was: the guard that came with the error is gone. -/
@[simp] theorem acquire_poisoning (state : Poisoning) (memory : ω) :
    poisoning.acquire state memory =
      if state.held then (.blocked, memory)
      else if state.poisoned then
        (.refused .poisoned state, Journal.record .acquireRefused memory)
      else (.granted { state with held := true }, memory) := by
  obtain ⟨held, poisoned⟩ := state
  cases held <;> cases poisoned <;> rfl

@[simp] theorem release_poisoning (manner : Manner) (state : Poisoning) (memory : ω) :
    poisoning.release manner state memory =
      ({ held := false, poisoned := state.poisoned || manner == .unwinding }, memory) := rfl

@[simp] theorem destroy_poisoning (state : Poisoning) (memory : ω) :
    poisoning.destroy state memory =
      if state.poisoned then Journal.record .poisonedDestroyed memory else memory := by
  obtain ⟨held, poisoned⟩ := state
  cases poisoned <;> rfl

end Poisoning

end Lock

end GuardedList
