import GuardedList.Proofs.Restoring
import GuardedList.Proofs.Trace

/-!
# Lock discipline

How a list uses its lock, read off the trace of a session whose hooks call the list as deep as they
like (`Disciplined`): each grant is followed by one release, the lock is free between the steps of
the user, nobody asks twice, and a hook runs under the lock just when a `get` or an `update` is
open.

A trace is `Sound` if each occurrence was allowed by those before it, and a sound trace shows all of
that (`Sound.disciplined`). What a routine adds to a trace is allowed, whatever its hooks do
(`Routine.running_of_run`), and the hooks find the list `Settled` and leave it so.
-/

namespace GuardedList

variable {ω σ π α β ρ : Type}

namespace Occurrence

/-- Whether somebody holds the lock afterwards, if it is known whether somebody did before. -/
def heldAfter (held : Bool) : Occurrence α → Bool
  | granted => true
  | released => false
  | _ => held

/-- Whether the lock was granted or given up. -/
def isGuard : Occurrence α → Bool
  | granted | released => true
  | _ => false

/-- Whether it happened to the lock. -/
def isLock : Occurrence α → Bool
  | granted | refused | released | destroyed => true
  | _ => false

end Occurrence

/-- An operation that has begun and not ended, and how often it has itself tried to take the lock so
far. -/
structure OpenCall (α : Type) where
  operation : Operation α
  attempts : Nat

/-- The open calls, the latest first, after one more occurrence. Whoever asks for the lock is the
latest of them. -/
def OpenCall.track : List (OpenCall α) → Occurrence α → List (OpenCall α)
  | calls, .began operation => ⟨operation, 0⟩ :: calls
  | calls, .ended => calls.tail
  | call :: outer, .granted => ⟨call.operation, call.attempts + 1⟩ :: outer
  | call :: outer, .refused => ⟨call.operation, call.attempts + 1⟩ :: outer
  | calls, _ => calls

/-- The calls that are open at the end of a trace, the latest first. -/
def openCalls (trace : List (Occurrence α)) : List (OpenCall α) := trace.foldl OpenCall.track []

/-- Whether the lock is held at the end of a trace. -/
def lockHeld (trace : List (Occurrence α)) : Bool := trace.foldl Occurrence.heldAfter false

/-- One of the calls is a `get` or an `update`. -/
def UnderLock (calls : List (OpenCall α)) : Prop :=
  ∃ call ∈ calls, call.operation.callsUnderLock = true

/-- What a trace shows of a list that uses its lock as it should. -/
structure Disciplined (trace : List (Occurrence α)) : Prop where
  /-- After every grant the lock is given up once before it is granted again. -/
  guards : ∃ count, trace.filter Occurrence.isGuard =
    (List.replicate count [.granted, .released]).flatten
  /-- Whenever no operation is open the lock is free. -/
  returned : ∀ front back, trace = front ++ back → openCalls front = [] → lockHeld front = false
  /-- No call ever tries to take the lock twice, and some operations never do. -/
  attempts : ∀ front back, trace = front ++ back → ∀ call ∈ openCalls front,
    call.attempts ≤ if call.operation.asksForLock then 1 else 0
  /-- A hook is called under the lock just when a `get` or an `update` is open. -/
  hooks : ∀ front back, trace = front ++ .hook :: back →
    (lockHeld front = true ↔ UnderLock (openCalls front))
  /-- The lock is taken down while it is free, and nothing happens to it any more. -/
  destroyed : ∀ front back, trace = front ++ .destroyed :: back →
    lockHeld front = false ∧ ∀ occurrence ∈ back, occurrence.isLock = false

section Sound

variable {trace front back : List (Occurrence α)} {next : Occurrence α}

@[simp] theorem openCalls_nil : openCalls ([] : List (Occurrence α)) = [] := rfl

@[simp] theorem lockHeld_nil : lockHeld ([] : List (Occurrence α)) = false := rfl

@[simp] theorem openCalls_append_singleton :
    openCalls (trace ++ [next]) = OpenCall.track (openCalls trace) next := by
  simp [openCalls]

@[simp] theorem lockHeld_append_singleton :
    lockHeld (trace ++ [next]) = next.heldAfter (lockHeld trace) := by
  simp [lockHeld]

/-- The latest call asks for the lock for the first time. -/
def FirstAttempt (calls : List (OpenCall α)) : Prop :=
  ∃ operation outer, calls = ⟨operation, 0⟩ :: outer ∧ operation.asksForLock = true

/-- What may happen after a trace. -/
def Allowed (front : List (Occurrence α)) : Occurrence α → Prop
  | .began _ => True
  | .ended => (openCalls front).tail = [] → lockHeld front = false
  | .hook => lockHeld front = true ↔ UnderLock (openCalls front)
  | .granted => .destroyed ∉ front ∧ lockHeld front = false ∧ FirstAttempt (openCalls front)
  | .refused => .destroyed ∉ front ∧ FirstAttempt (openCalls front)
  | .released => .destroyed ∉ front ∧ lockHeld front = true
  | .destroyed => .destroyed ∉ front ∧ lockHeld front = false

/-- A trace of which every occurrence was allowed. -/
inductive Sound : List (Occurrence α) → Prop
  | nil : Sound []
  | snoc {front : List (Occurrence α)} {next : Occurrence α} (h : Sound front)
      (hnext : Allowed front next) : Sound (front ++ [next])

/-- What comes first in a sound trace is sound. -/
theorem Sound.of_append (h : Sound (front ++ back)) : Sound front := by
  generalize htrace : front ++ back = trace at h
  -- A trace grows at its end, so it is the last occurrence of `back` that the cases take off.
  induction h generalizing back with
  | nil =>
    obtain ⟨rfl, -⟩ := List.append_eq_nil_iff.1 htrace
    exact .nil
  | snoc h hnext ih =>
    rcases List.eq_nil_or_concat back with rfl | ⟨back, last, rfl⟩
    · rw [List.append_nil] at htrace
      rw [htrace]
      exact h.snoc hnext
    · rw [List.concat_eq_append, ← List.append_assoc] at htrace
      exact ih (List.append_inj_left' htrace rfl)

theorem Sound.allowed (h : Sound (front ++ next :: back)) : Allowed front next := by
  rw [List.append_cons] at h
  have hfront := h.of_append
  generalize htrace : front ++ [next] = trace at hfront
  cases hfront with
  | nil => simp at htrace
  | snoc _ hnext =>
    obtain ⟨rfl, hlast⟩ := List.append_inj' htrace rfl
    cases hlast
    exact hnext

theorem Sound.guards (h : Sound trace) :
    ∃ count, trace.filter Occurrence.isGuard =
      (List.replicate count [.granted, .released]).flatten ++
        if lockHeld trace then [.granted] else [] := by
  induction h with
  | nil => exact ⟨0, rfl⟩
  | @snoc front next _ hnext ih =>
    obtain ⟨count, hcount⟩ := ih
    rw [List.filter_append, hcount, lockHeld_append_singleton]
    cases next with
    | granted => exact ⟨count, by simp [hnext.2.1, Occurrence.heldAfter, Occurrence.isGuard]⟩
    | released =>
      refine ⟨count + 1, ?_⟩
      simp [hnext.2, Occurrence.heldAfter, Occurrence.isGuard, List.replicate_succ']
    | _ => exact ⟨count, List.append_nil _⟩

theorem Sound.returned (h : Sound trace) (hcalls : openCalls trace = []) :
    lockHeld trace = false := by
  induction h with
  | nil => rfl
  | @snoc front next _ hnext ih =>
    rw [openCalls_append_singleton] at hcalls
    rw [lockHeld_append_singleton]
    cases next with
    | began operation => cases hcalls
    | ended => exact hnext hcalls
    | granted =>
      obtain ⟨-, -, operation, outer, hfirst, -⟩ := hnext
      rw [hfirst] at hcalls
      cases hcalls
    | refused =>
      obtain ⟨-, operation, outer, hfirst, -⟩ := hnext
      rw [hfirst] at hcalls
      cases hcalls
    | released => rfl
    | hook => exact ih hcalls
    | destroyed => exact hnext.2

theorem Sound.attempts (h : Sound trace) :
    ∀ call ∈ openCalls trace, call.attempts ≤ if call.operation.asksForLock then 1 else 0 := by
  induction h with
  | nil => simp
  | @snoc front next _ hnext ih =>
    rw [openCalls_append_singleton]
    have hattempt : FirstAttempt (openCalls front) →
        ∀ call ∈ OpenCall.track (openCalls front) .granted,
          call.attempts ≤ if call.operation.asksForLock then 1 else 0 := by
      rintro ⟨operation, outer, hfirst, hasks⟩
      rw [hfirst] at ih ⊢
      rw [OpenCall.track, List.forall_mem_cons]
      exact ⟨by simp [hasks], fun call hcall => ih call (List.mem_cons_of_mem _ hcall)⟩
    cases next with
    | began operation =>
      rw [OpenCall.track, List.forall_mem_cons]
      exact ⟨Nat.zero_le _, ih⟩
    | ended => exact fun call hcall => ih call (List.mem_of_mem_tail hcall)
    | granted => exact hattempt hnext.2.2
    | refused =>
      have h := hattempt hnext.2
      obtain ⟨-, operation, outer, hfirst, hasks⟩ := hnext
      rw [hfirst] at h ⊢
      exact h
    | released => simpa [OpenCall.track] using ih
    | hook => simpa [OpenCall.track] using ih
    | destroyed => simpa [OpenCall.track] using ih

/-- A sound trace that leaves the lock free shows everything that is asked for. -/
theorem Sound.disciplined (h : Sound trace) (hheld : lockHeld trace = false) :
    Disciplined trace where
  guards := by
    obtain ⟨count, hcount⟩ := h.guards
    rw [hheld] at hcount
    exact ⟨count, hcount.trans (List.append_nil _)⟩
  returned front back htrace hcalls := by
    rw [htrace] at h
    exact h.of_append.returned hcalls
  attempts front back htrace := by
    rw [htrace] at h
    exact h.of_append.attempts
  hooks front back htrace := by
    rw [htrace] at h
    exact h.allowed
  destroyed front back htrace := by
    rw [htrace] at h
    refine ⟨h.allowed.2, fun occurrence hmem => ?_⟩
    obtain ⟨middle, later, rfl⟩ := List.append_of_mem hmem
    rw [← List.cons_append, ← List.append_assoc] at h
    have hgone : .destroyed ∈ front ++ .destroyed :: middle := by simp
    have hallowed := h.allowed
    cases occurrence with
    | granted => exact absurd hgone hallowed.1
    | refused => exact absurd hgone hallowed.1
    | released => exact absurd hgone hallowed.1
    | destroyed => exact absurd hgone hallowed.1
    | _ => rfl

end Sound

/-- The list in use between two things that its user or a hook does: the lock is held just when a
`get` or an `update` is open. -/
structure Settled (held : σ → Prop) (trace : List (Occurrence α)) (state : σ) : Prop where
  sound : Sound trace
  present : .destroyed ∉ trace
  lock : lockHeld trace = true ↔ held state
  under : lockHeld trace = true ↔ UnderLock (openCalls trace)

/-- What is known of the lock in a phase of a call that others enclose. -/
def Phase.Knows (outer : List (OpenCall α)) (call : OpenCall α) (lockHeld : Bool) : Phase → Prop
  | outside => call.attempts = 0 ∧ (lockHeld = true ↔ UnderLock outer)
  | inside => lockHeld = true ∧ ¬ UnderLock outer
  | past => lockHeld = true ↔ UnderLock outer

/-- The list while a call is carried out. -/
structure Running (held : σ → Prop) (outer : List (OpenCall α)) (call : OpenCall α) (phase : Phase)
    (trace : List (Occurrence α)) (state : σ) : Prop where
  sound : Sound trace
  present : .destroyed ∉ trace
  lock : lockHeld trace = true ↔ held state
  calls : openCalls trace = call :: outer
  knows : phase.Knows outer call (lockHeld trace)

section Steps

variable {held : σ → Prop} {trace : List (Occurrence α)} {state next : σ}
  {outer : List (OpenCall α)} {call : OpenCall α} {phase : Phase}

@[simp] theorem underLock_nil : ¬ UnderLock ([] : List (OpenCall α)) := by
  rintro ⟨call, hcall, -⟩
  cases hcall

@[simp] theorem underLock_cons : UnderLock (call :: outer) ↔
    call.operation.callsUnderLock = true ∨ UnderLock outer := by
  simp [UnderLock]

theorem Settled.began (h : Settled held trace state) (operation : Operation α) :
    Running held (openCalls trace) ⟨operation, 0⟩ .outside (trace ++ [.began operation]) state where
  sound := h.sound.snoc trivial
  present := by simpa using h.present
  lock := by
    rw [lockHeld_append_singleton]
    exact h.lock
  calls := openCalls_append_singleton
  knows := by
    rw [lockHeld_append_singleton]
    exact ⟨rfl, h.under⟩

theorem Running.ended (h : Running held outer call .past trace state) :
    Settled held (trace ++ [.ended]) state ∧ openCalls (trace ++ [.ended]) = outer := by
  have hcalls : openCalls (trace ++ [.ended]) = outer := by
    rw [openCalls_append_singleton, h.calls]
    rfl
  refine ⟨⟨h.sound.snoc ?_, ?_, ?_, ?_⟩, hcalls⟩
  · rw [Allowed, h.calls]
    rintro rfl
    simpa using h.knows.1
  · simpa using h.present
  · rw [lockHeld_append_singleton]
    exact h.lock
  · rw [lockHeld_append_singleton, hcalls]
    exact h.knows

/-- A call that ends without the lock has never had it or has given it up. -/
theorem Running.past (h : Running held outer call phase trace state) (hphase : phase ≠ .inside) :
    Running held outer call .past trace state where
  sound := h.sound
  present := h.present
  lock := h.lock
  calls := h.calls
  knows := by
    cases phase with
    | outside => exact h.knows.2
    | inside => exact absurd rfl hphase
    | past => exact h.knows

theorem Running.hook (h : Running held outer call phase trace state)
    (hphase : phase = .inside ↔ call.operation.callsUnderLock = true) :
    Settled held (trace ++ [.hook]) state ∧ openCalls (trace ++ [.hook]) = call :: outer := by
  have hcalls : openCalls (trace ++ [.hook]) = call :: outer := by
    rw [openCalls_append_singleton, h.calls]
    rfl
  have hunder : lockHeld trace = true ↔ UnderLock (call :: outer) := by
    have hknows := h.knows
    rw [underLock_cons, ← hphase]
    cases phase with
    | outside => simpa using hknows.2
    | inside => simpa using hknows.1
    | past => simpa using show lockHeld trace = true ↔ UnderLock outer from hknows
  refine ⟨⟨h.sound.snoc ?_, ?_, ?_, ?_⟩, hcalls⟩
  · rw [Allowed, h.calls]
    exact hunder
  · simpa using h.present
  · rw [lockHeld_append_singleton]
    exact h.lock
  · rw [lockHeld_append_singleton, hcalls]
    exact hunder

/-- Once a hook is done the call goes on where it was. -/
theorem Running.resume (h : Running held outer call phase trace state)
    {trace' : List (Occurrence α)} (hsettled : Settled held trace' next)
    (hcalls : openCalls trace' = call :: outer)
    (hphase : phase = .inside ↔ call.operation.callsUnderLock = true) :
    Running held outer call phase trace' next where
  sound := hsettled.sound
  present := hsettled.present
  lock := hsettled.lock
  calls := hcalls
  knows := by
    have hsame : lockHeld trace' = lockHeld trace := by
      obtain ⟨hbefore, hopen⟩ := h.hook hphase
      have hunder := hbefore.under
      rw [hopen, lockHeld_append_singleton, ← hcalls, ← hsettled.under] at hunder
      exact (Bool.eq_iff_iff.2 hunder).symm
    rw [hsame]
    exact h.knows

theorem Running.granted (h : Running held outer call .outside trace state)
    (hasks : call.operation.asksForLock = true) (hfree : ¬ held state) (hheld : held next) :
    Running held outer ⟨call.operation, call.attempts + 1⟩ .inside (trace ++ [.granted]) next := by
  obtain ⟨operation, attempts⟩ := call
  obtain ⟨rfl, hunder⟩ := h.knows
  have hlock : lockHeld trace = false := by simpa [hfree] using h.lock
  refine ⟨h.sound.snoc ⟨h.present, hlock, operation, outer, h.calls, hasks⟩, ?_, ?_, ?_, ?_⟩
  · simpa using h.present
  · simpa [Occurrence.heldAfter] using hheld
  · rw [openCalls_append_singleton, h.calls]
    rfl
  · rw [lockHeld_append_singleton]
    exact ⟨rfl, by simpa [hlock] using hunder⟩

theorem Running.refused (h : Running held outer call .outside trace state)
    (hasks : call.operation.asksForLock = true) (hnext : held next ↔ held state) :
    Running held outer ⟨call.operation, call.attempts + 1⟩ .past (trace ++ [.refused]) next := by
  obtain ⟨operation, attempts⟩ := call
  obtain ⟨rfl, hunder⟩ := h.knows
  refine ⟨h.sound.snoc ⟨h.present, operation, outer, h.calls, hasks⟩, ?_, ?_, ?_, ?_⟩
  · simpa using h.present
  · rw [lockHeld_append_singleton, hnext]
    exact h.lock
  · rw [openCalls_append_singleton, h.calls]
    rfl
  · rw [lockHeld_append_singleton]
    exact hunder

theorem Running.released (h : Running held outer call .inside trace state) (hfree : ¬ held next) :
    Running held outer call .past (trace ++ [.released]) next := by
  obtain ⟨hlock, hunder⟩ := h.knows
  refine ⟨h.sound.snoc ⟨h.present, hlock⟩, ?_, ?_, ?_, ?_⟩
  · simpa using h.present
  · simpa [Occurrence.heldAfter] using hfree
  · rw [openCalls_append_singleton, h.calls]
    rfl
  · rw [lockHeld_append_singleton]
    simpa [Occurrence.heldAfter, Phase.Knows] using hunder

end Steps

/-- Operations that leave the lock as they found it, and do on the way what they may do. -/
def Server.Heeds (held : σ → Prop) (server : Server (Traced α ω) α (Cell σ π)) : Prop :=
  ∀ {operation outer cell memory outcome},
    Running held outer ⟨operation, 0⟩ .outside memory.trace cell.lock →
      server operation cell memory = some outcome →
        ∃ attempts,
          Running held outer ⟨operation, attempts⟩ .past outcome.memory.trace outcome.target.lock

/-- A hook leaves the lock and the open calls as it found them. -/
theorem Dialogue.settled_of_run {held : σ → Prop} {server : Server (Traced α ω) α (Cell σ π)}
    (hserver : server.Heeds held) (dialogue : Dialogue ω α ρ) {trace : List (Occurrence α)}
    {cell : Cell σ π} {outcome : Outcome ρ (Cell σ π) (Traced α ω)}
    (h : Settled held trace cell.lock)
    (hrun : (dialogue.traced trace).run server cell = some outcome) :
    Settled held outcome.memory.trace outcome.target.lock ∧
      openCalls outcome.memory.trace = openCalls trace := by
  induction dialogue generalizing trace cell with
  | finish memory result =>
    cases hrun
    exact ⟨h, rfl⟩
  | call memory operation next ih =>
    rw [traced, run] at hrun
    split at hrun
    · cases hrun
    · case h_2 answer hserve =>
      obtain ⟨attempts, hpast⟩ := hserver (h.began operation) hserve
      obtain ⟨hended, hcalls⟩ := hpast.ended
      obtain ⟨hsettled, hopen⟩ := ih _ _ hended hrun
      exact ⟨hsettled, hopen.trans hcalls⟩

/-- A call whose hook was run is where it was. While the hook ran the call was open, so it was one
of those that enclose whatever the hook called. -/
theorem Running.of_hook {held : σ → Prop} {server : Server (Traced α ω) α (Cell σ π)}
    {outer : List (OpenCall α)} {call : OpenCall α} {phase : Phase} {trace : List (Occurrence α)}
    {cell : Cell σ π} (h : Running held outer call phase trace cell.lock)
    (hserver : server.Heeds held)
    (hphase : phase = .inside ↔ call.operation.callsUnderLock = true) {hook : Dialogue ω α ρ}
    {done : Outcome ρ (Cell σ π) (Traced α ω)}
    (hrun : (hook.traced (trace ++ [.hook])).run server cell = some done) :
    Running held outer call phase done.memory.trace done.target.lock := by
  obtain ⟨hsettled, hopen⟩ := h.hook hphase
  obtain ⟨hafter, hcalls⟩ := hook.settled_of_run hserver hsettled hrun
  exact h.resume hafter (hcalls.trans hopen) hphase

section Run

variable [Journal ω] {lock : Lock ω σ} {held : σ → Prop} (proper : lock.Proper held)
  (hooks : Hooks ω α) {outer : List (OpenCall α)}

include proper

/-- What a routine does from any of its phases on is allowed, and at the end the lock is as it was
when the call began. -/
theorem Routine.running_of_run {server : Server (Traced α ω) α (Cell σ π)}
    (hserver : server.Heeds held) {routine : Routine π α β} {phase : Phase}
    {operation : Operation α} (hroutine : routine.Heeds operation phase) {attempts : Nat}
    {cell : Cell σ π}
    {memory : Traced α ω} {outcome : Outcome (Ending β) (Cell σ π) (Traced α ω)}
    (h : Running held outer ⟨operation, attempts⟩ phase memory.trace cell.lock)
    (hrun : routine.run lock.traced hooks.traced server cell memory = some outcome) :
    ∃ attempts,
      Running held outer ⟨operation, attempts⟩ .past outcome.memory.trace outcome.target.lock := by
  induction routine generalizing phase attempts cell memory with
  | finish ending =>
    cases hrun
    exact ⟨attempts, h.past hroutine⟩
  | acquire next ih =>
    obtain ⟨rfl, hasks, hrefused, hgranted⟩ := hroutine
    rcases hattempt : lock.acquire cell.lock memory.rest with ⟨state | ⟨cause, state⟩ | _, rest⟩
    · obtain ⟨hfree, hheld⟩ := proper.granted hattempt
      simp only [run, Lock.traced, hattempt] at hrun
      exact ih _ hgranted (h.granted hasks hfree hheld) hrun
    · have hsame := proper.refused_iff hattempt
      simp only [run, Lock.traced, hattempt] at hrun
      exact ih _ (hrefused cause) (h.refused hasks hsame) hrun
    · simp [run, Lock.traced, hattempt] at hrun
  | release manner next ih =>
    obtain ⟨rfl, hnext⟩ := hroutine
    have hfree := proper.released manner memory.rest (h.lock.1 h.knows.1)
    exact ih hnext (h.released hfree) hrun
  | load next ih => exact ih _ (hroutine.2 _) h hrun
  | store value next ih =>
    have hkept : Running held outer ⟨operation, attempts⟩ phase memory.trace
        (Cell.mk cell.lock value).lock := h
    exact ih hroutine.2 hkept hrun
  | copy source next ih =>
    obtain ⟨hphase, hnext⟩ := hroutine
    rw [run] at hrun
    split at hrun
    · cases hrun
    · case h_2 done hdone => exact ih _ (hnext _) (h.of_hook hserver hphase hdone) hrun
  | dispose value next ih =>
    obtain ⟨hphase, hnext⟩ := hroutine
    rw [run] at hrun
    split at hrun
    · cases hrun
    · case h_2 done hdone => exact ih _ (hnext _) (h.of_hook hserver hphase hdone) hrun
  | log message next ih =>
    have hkept : Running held outer ⟨operation, attempts⟩ phase
        (Journal.record message memory).trace cell.lock := h
    exact ih hroutine hkept hrun

/-- However deep its hooks call the list, what an operation adds to the trace is allowed. -/
theorem Operation.heeds_serve (size depth : Nat) :
    (Operation.serve lock.traced hooks.traced size depth).Heeds held := by
  induction depth with
  | zero =>
    intro operation outer cell memory outcome h hserve
    cases hserve
  | succ depth ih =>
    intro operation outer cell memory outcome h hserve
    exact Routine.running_of_run proper hooks ih (operation.heeds_routine size) h hserve

end Run

/-- A destruction takes the lock down and then calls hooks. -/
theorem Sound.destroy {trace : List (Occurrence α)} (h : Sound trace)
    (hpresent : .destroyed ∉ trace) (hcalls : openCalls trace = []) (count : Nat) :
    Sound (trace ++ [.destroyed] ++ List.replicate count .hook) ∧
      openCalls (trace ++ [.destroyed] ++ List.replicate count .hook) = [] := by
  induction count with
  | zero =>
    rw [List.replicate_zero, List.append_nil, openCalls_append_singleton, hcalls]
    exact ⟨h.snoc ⟨hpresent, h.returned hcalls⟩, rfl⟩
  | succ count ih =>
    obtain ⟨hsound, hopen⟩ := ih
    rw [List.replicate_succ', ← List.append_assoc, openCalls_append_singleton, hopen]
    refine ⟨hsound.snoc ?_, rfl⟩
    rw [Allowed, hopen, hsound.returned hopen]
    simp

/-- A traced list between the steps of its user. -/
inductive Resting (lock : Lock ω σ) (held : σ → Prop) (hooks : Hooks ω α) (size : Nat) :
    GuardedList (Traced α ω) σ α → List (Occurrence α) → Prop
  | live {cell : Cell σ (Chain α)} {trace : List (Occurrence α)}
      (hsettled : Settled held trace cell.lock) (hcalls : openCalls trace = []) :
      Resting lock held hooks size ⟨size, lock.traced, some cell, some hooks.traced⟩ trace
  | gone {trace : List (Occurrence α)} (hooks? : Option (Hooks (Traced α ω) α))
      (hsound : Sound trace) (hcalls : openCalls trace = []) :
      Resting lock held hooks size ⟨size, lock.traced, none, hooks?⟩ trace

namespace Resting

variable {lock : Lock ω σ} {held : σ → Prop} {hooks : Hooks ω α} {size : Nat}
  {list : GuardedList (Traced α ω) σ α} {trace : List (Occurrence α)}

theorem sound (h : Resting lock held hooks size list trace) : Sound trace := by
  cases h with
  | live hsettled hcalls => exact hsettled.sound
  | gone hooks? hsound hcalls => exact hsound

theorem free (h : Resting lock held hooks size list trace) : lockHeld trace = false := by
  apply h.sound.returned
  cases h with
  | live hsettled hcalls => exact hcalls
  | gone hooks? hsound hcalls => exact hcalls

variable [Journal ω]

theorem serve (proper : lock.Proper held) (h : Resting lock held hooks size list trace)
    {depth : Nat} {operation : Operation α} {memory : ω}
    {outcome : Outcome (Ending (Reply α)) (GuardedList (Traced α ω) σ α) (Traced α ω)}
    (hserve : Server.traced (GuardedList.serve depth) operation list ⟨trace, memory⟩ =
      some outcome) :
    Resting lock held hooks size outcome.target outcome.memory.trace := by
  cases h with
  | @live cell trace hsettled hcalls =>
    simp only [Server.traced, GuardedList.serve, Option.map_map, Option.map_eq_some_iff] at hserve
    obtain ⟨done, hdone, rfl⟩ := hserve
    obtain ⟨attempts, hpast⟩ :=
      Operation.heeds_serve proper hooks size (depth + 1) (hsettled.began operation) hdone
    obtain ⟨hended, hopen⟩ := hpast.ended
    exact .live hended (hopen.trans hcalls)
  | gone hooks? hsound hcalls =>
    cases hserve
    have hopen : openCalls (trace ++ [.began operation] ++ [.ended]) = [] := by
      rw [openCalls_append_singleton, openCalls_append_singleton, hcalls]
      rfl
    have hbegun : Sound (trace ++ [.began operation]) := hsound.snoc trivial
    refine .gone hooks? (hbegun.snoc fun _ => ?_) hopen
    rw [lockHeld_append_singleton]
    exact hsound.returned hcalls

theorem destroy (h : Resting lock held hooks size list trace) {memory : ω}
    {outcome : Outcome (Ending Unit) (GuardedList (Traced α ω) σ α) (Traced α ω)}
    (hdestroy : list.destroy ⟨trace, memory⟩ = some outcome) :
    Resting lock held hooks size outcome.target outcome.memory.trace := by
  cases h with
  | @live cell trace hsettled hcalls =>
    obtain ⟨count, htraced⟩ :=
      GuardedList.destroy_traced ⟨size, lock, some cell, some hooks⟩ trace memory
    obtain ⟨done, hdone, rfl⟩ := Option.map_eq_some_iff.1 (htraced.symm.trans hdestroy)
    obtain ⟨hooks?, htarget⟩ := target_of_destroy hdone
    obtain ⟨hsound, hopen⟩ := hsettled.sound.destroy hsettled.present hcalls count
    rw [List.append_assoc] at hsound hopen
    dsimp only
    rw [htarget]
    exact .gone _ hsound hopen
  | gone hooks? hsound hcalls =>
    cases hdestroy
    exact .gone none hsound hcalls

theorem play (proper : lock.Proper held) (h : Resting lock held hooks size list trace) {depth : Nat}
    {steps : List (Step α)} {memory : ω} {results : List (Ending (Reply α))}
    {last : GuardedList (Traced α ω) σ α} {left : Traced α ω}
    (hplay : GuardedList.play (Server.traced (GuardedList.serve depth)) steps list ⟨trace, memory⟩ =
      some (results, last, left)) :
    Resting lock held hooks size last left.trace := by
  induction steps generalizing list trace memory results with
  | nil =>
    cases hplay
    exact h
  | cons step steps ih =>
    cases step with
    | call operation =>
      simp only [GuardedList.play, Option.bind_eq_some_iff, Option.map_eq_some_iff] at hplay
      obtain ⟨outcome, hserve, ⟨later, _⟩, hrest, hresults⟩ := hplay
      cases hresults
      exact ih (h.serve proper hserve) hrest
    | destroy =>
      simp only [GuardedList.play, Option.bind_eq_some_iff, Option.map_eq_some_iff] at hplay
      obtain ⟨outcome, hdestroy, ⟨later, _⟩, hrest, hresults⟩ := hplay
      cases hresults
      exact ih (h.destroy hdestroy) hrest

end Resting

/-- However deep hooks call the list that runs them, and wherever they panic, the list is
disciplined in its use of the lock: every session has a trace that shows it. -/
theorem disciplined_of_create [Journal ω] {lock : Lock ω σ} {held : σ → Prop}
    (proper : lock.Proper held) {hooks : Hooks ω α} {size : Nat} {start begun : ω}
    {list last : GuardedList ω σ α} (hcreate : create lock hooks size start = (.ok list, begun))
    {depth : Nat} {steps : List (Step α)} {results : List (Ending (Reply α))} {left : ω}
    (hplay : play (serve depth) steps list begun = some (results, last, left)) :
    (∀ cell, last.cell = some cell → ¬ held cell.lock) ∧
      ∃ trace, play (Server.traced (serve depth)) steps list.traced ⟨[], begun⟩ =
          some (results, last.traced, ⟨trace, left⟩) ∧
        Disciplined trace := by
  obtain ⟨trace, htrace⟩ := play_traced depth steps hplay []
  have hbegun : Resting lock held hooks size list.traced [] := by
    unfold create at hcreate
    split at hcreate
    · cases hcreate
    · unfold Cell.create at hcreate
      rcases hmake : lock.make start with ⟨_ | state, made⟩
      · simp [hmake, Except.map] at hcreate
      · simp only [hmake, Except.map, Prod.mk.injEq, Except.ok.injEq] at hcreate
        obtain ⟨rfl, rfl⟩ := hcreate
        refine .live ⟨.nil, List.not_mem_nil, ?_, ?_⟩ rfl
        · simpa using proper.made hmake
        · simp
  have hresting := hbegun.play proper htrace
  refine ⟨fun cell hcell => ?_, trace, htrace, hresting.sound.disciplined hresting.free⟩
  have hfree := hresting.free
  have hlast : last.traced.cell = some cell := hcell
  generalize last.traced = traced at hresting hlast
  cases hresting with
  | live hsettled hcalls =>
    cases hlast
    rw [← hsettled.lock, hfree]
    exact Bool.false_ne_true
  | gone hooks? hsound hcalls => cases hlast

/-- Hooks that add all smaller numbers to the list before they have copied a number. -/
def Hooks.nesting : Hooks Unit Nat where
  copy source memory :=
    match source with
    | 0 => .finish memory (.value 0)
    | smaller + 1 =>
      .call memory (.add smaller) fun memory _ => .finish memory (.value (smaller + 1))

/-- An addition whose copy hook adds to the list, a copy from the list whose hook is turned away
when it tries to, and the end of the list. -/
theorem disciplined_of_create_nesting :
    let fresh := ⟨8, Lock.trying, some ⟨{}, .empty⟩, some Hooks.nesting⟩
    let steps := [.call (.add 1), .call (.get 1), .destroy]
    let trace := [
      .began (.add 1), .hook,
        .began (.add 0), .hook, .granted, .released, .ended,
      .granted, .released, .ended,
      .began (.get 1), .granted, .hook,
        .began (.add 0), .hook, .refused, .hook, .ended,
      .released, .ended,
      .destroyed, .hook, .hook]
    create Lock.trying Hooks.nesting 8 () = (.ok fresh, ()) ∧
      ∃ results last, play (serve 1) steps fresh () = some (results, last, ()) ∧
        play (Server.traced (serve 1)) steps fresh.traced ⟨[], ()⟩ =
          some (results, last.traced, ⟨trace, ()⟩) ∧
        Disciplined trace := by
  intro fresh steps trace
  have hcreate : create Lock.trying Hooks.nesting 8 () = (.ok fresh, ()) := rfl
  obtain ⟨⟨results, last, left⟩, hplay⟩ : ∃ outcome, play (serve 1) steps fresh () = some outcome :=
    Option.isSome_iff_exists.1 rfl
  obtain ⟨-, trace', htrace, hdisciplined⟩ :=
    disciplined_of_create Lock.proper_trying hcreate hplay
  have hsame : (play (Server.traced (serve 1)) steps fresh.traced ⟨[], ()⟩).map (·.2.2.trace) =
      some trace := rfl
  rw [htrace] at hsame
  obtain rfl : trace' = trace := Option.some.inj hsame
  exact ⟨hcreate, results, last, hplay, htrace, hdisciplined⟩

end GuardedList
