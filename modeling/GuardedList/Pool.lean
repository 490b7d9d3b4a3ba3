import GuardedList.Run

/-!
# Threads

Threads that share one lock and the value behind it. A thread makes calls one after another, and
each call runs its routine; between any two requests of one thread the others may move. A move of
the pool is a move of one of its threads, and nothing but a lock that somebody holds keeps a thread
with work left from moving (hooks that make calls of their own are left out here).
-/

namespace GuardedList

/-- What all threads have in common: the lock, the hooks, and the routine of each call. -/
structure Setting (ω σ π α κ ρ : Type) where
  lock : Lock ω σ
  hooks : Hooks ω α
  code : κ → Routine π α ρ

/-- How a thread chooses its next call, from its calls so far with their endings, the latest first;
nothing when it is done. -/
abbrev Plan (κ ρ : Type) := List (κ × Ending ρ) → Option κ

namespace Plan

variable {κ ρ : Type}

/-- The given calls in order, whatever comes of them. -/
def inOrder (calls : List κ) : Plan κ ρ := fun history => calls[history.length]?

/-- One call again and again until it does not succeed. -/
def untilFailure (call : κ) : Plan κ ρ
  | (_, .error _) :: _ => none
  | (_, .panicked _) :: _ => none
  | _ => some call

end Plan

/-- A thread: its plan, its past, and the call that it is making. -/
structure Thread (π α κ ρ : Type) where
  plan : Plan κ ρ
  /-- The finished calls, the latest first. -/
  history : List (κ × Ending ρ) := []
  /-- The call under way and what is left of its routine. -/
  running : Option (κ × Routine π α ρ) := none

/-- What a thread does in one move. -/
inductive Move (π α κ ρ : Type) where
  | began (call : κ)
  | made (call : κ) (event : Event π α)
  | ended (call : κ) (ending : Ending ρ)

/-- The threads, the lock with the value behind it, and the memory that all share. -/
structure Pool (ω σ π α κ ρ : Type) where
  cell : Cell σ π
  memory : ω
  threads : List (Thread π α κ ρ)

namespace Thread

variable {ω σ π α κ ρ : Type} [Journal ω]

/-- Whether the thread has made all its calls. -/
def isDone (thread : Thread π α κ ρ) : Bool :=
  thread.running.isNone && (thread.plan thread.history).isNone

/-- The next move of a thread: to begin a call, to have one request answered, or to end the call. -/
def step (setting : Setting ω σ π α κ ρ) (thread : Thread π α κ ρ) (cell : Cell σ π) (memory : ω) :
    Option (Move π α κ ρ × Thread π α κ ρ × Cell σ π × ω) :=
  match thread.running with
  | none =>
    (thread.plan thread.history).map fun call =>
      (.began call, { thread with running := some (call, setting.code call) }, cell, memory)
  | some (call, .finish ending) =>
    some (.ended call ending,
      { thread with history := (call, ending) :: thread.history, running := none }, cell, memory)
  | some (call, routine) =>
    (routine.step setting.lock setting.hooks cell memory).map fun advance =>
      (.made call advance.event, { thread with running := some (call, advance.rest) },
        advance.cell, advance.memory)

end Thread

namespace Pool

variable {ω σ π α κ ρ : Type} [Journal ω]

/-- A move of the thread at `index`, if there is such a thread and it can move. -/
def step (setting : Setting ω σ π α κ ρ) (index : Nat) (pool : Pool ω σ π α κ ρ) :
    Option (Move π α κ ρ × Pool ω σ π α κ ρ) :=
  match pool.threads[index]? with
  | none => none
  | some thread =>
    (thread.step setting pool.cell pool.memory).map fun (move, thread, cell, memory) =>
      (move, { cell, memory, threads := pool.threads.set index thread })

/-- Gives every thread a turn, the first one first; a thread that cannot move loses its turn. -/
def round (setting : Setting ω σ π α κ ρ) (pool : Pool ω σ π α κ ρ) : Pool ω σ π α κ ρ :=
  (List.range pool.threads.length).foldl
    (fun pool index => ((pool.step setting index).map Prod.snd).getD pool) pool

/-- Goes round until all threads are done, at most `rounds` times. -/
def settle (setting : Setting ω σ π α κ ρ) : Nat → Pool ω σ π α κ ρ → Pool ω σ π α κ ρ
  | 0, pool => pool
  | rounds + 1, pool =>
    if pool.threads.all Thread.isDone then pool else settle setting rounds (pool.round setting)

end Pool

end GuardedList
