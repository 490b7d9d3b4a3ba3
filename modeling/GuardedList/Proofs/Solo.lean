import GuardedList.Proofs.Strategy

/-!
# Routines on their own

What comes of a routine when nobody else touches the guarded value, the hooks follow a strategy, and
it is known how the lock answers (`Routine.solo`). That is a function of the routine, the value and
the answer alone.

Every routine of an operation asks for the lock once at most, touches the guarded value only while
it has the lock, and gives it up on every way out (`Outside`, `Inside`, `Past`). For such a routine
a run on any lock is the run on its own with the answer that the lock gives (`run_of_outside`), and
the lock goes through one use (`Lock.Use`).
-/

namespace GuardedList

variable {ω σ π α β γ : Type}

namespace Event

/-- The hook call that an event is, if it is one. -/
def hookCall? : Event π α → Option (HookCall α)
  | copied source ending => some (.copied source ending)
  | disposed value residue => some (.disposed value residue)
  | _ => none

/-- Whether the event is one of the lock. -/
def isLock : Event π α → Bool
  | granted | refused _ | released _ => true
  | _ => false

/-- The event of a lock that gives an answer. -/
def ofAnswer : Except LockError Unit → Event π α
  | .ok () => granted
  | .error cause => refused cause

end Event

/-- What comes of a routine on its own: its ending, the guarded value that it leaves, and the
requests that were answered. -/
structure Solo (π α β : Type) where
  ending : Ending β
  value : π
  events : List (Event π α)

namespace Solo

/-- The same with one more request answered in front. -/
def after (event : Event π α) (solo : Solo π α β) : Solo π α β :=
  { solo with events := event :: solo.events }

/-- The hook calls. -/
def calls (solo : Solo π α β) : List (HookCall α) := solo.events.filterMap Event.hookCall?

/-- What happened to the lock. -/
def lockEvents (solo : Solo π α β) : List (Event π α) := solo.events.filter Event.isLock

variable (event : Event π α) (solo : Solo π α β)

@[simp] theorem ending_after : (solo.after event).ending = solo.ending := rfl

@[simp] theorem value_after : (solo.after event).value = solo.value := rfl

@[simp] theorem events_after : (solo.after event).events = event :: solo.events := rfl

@[simp] theorem calls_nil (ending : Ending β) (value : π) :
    (⟨ending, value, []⟩ : Solo π α β).calls = [] := rfl

@[simp] theorem calls_after :
    (solo.after event).calls = event.hookCall?.toList ++ solo.calls := by
  unfold calls
  rw [events_after, List.filterMap_cons]
  cases event.hookCall? <;> rfl

@[simp] theorem lockEvents_after :
    (solo.after event).lockEvents =
      if event.isLock then event :: solo.lockEvents else solo.lockEvents := by
  unfold lockEvents
  rw [events_after, List.filter_cons]

end Solo

namespace Routine

/-- Runs a routine on its own, after the hook calls in `past`, with the answer that the lock gives.
-/
def solo (strategy : Strategy α) (answer : Except LockError Unit) :
    Routine π α β → π → List (HookCall α) → Solo π α β
  | finish ending, value, _ => ⟨ending, value, []⟩
  | acquire next, value, past =>
    ((next answer).solo strategy answer value past).after (.ofAnswer answer)
  | release manner next, value, past =>
    (next.solo strategy answer value past).after (.released manner)
  | load next, value, past => ((next value).solo strategy answer value past).after (.loaded value)
  | store new next, _, past => (next.solo strategy answer new past).after (.stored new)
  | copy source next, value, past =>
    ((next (strategy.copy past source)).solo strategy answer value
      (past ++ [.copied source (strategy.copy past source)])).after
        (.copied source (strategy.copy past source))
  | dispose old next, value, past =>
    ((next (strategy.dispose past old)).solo strategy answer value
      (past ++ [.disposed old (strategy.dispose past old)])).after
        (.disposed old (strategy.dispose past old))
  | log message next, value, past =>
    (next.solo strategy answer value past).after (.logged message)

/-- Code that has no more to do with the lock or the guarded value. -/
def Past : Routine π α β → Prop
  | finish _ => True
  | copy _ next => ∀ ending, (next ending).Past
  | dispose _ next => ∀ residue, (next residue).Past
  | log _ next => next.Past
  | _ => False

/-- Code of a holder, which gives the lock up on every way out; while unwinding just when the panic
is all that is left. -/
def Inside : Routine π α β → Prop
  | release manner next =>
    next.Past ∧ (manner = .unwinding ↔ ∃ text, next = finish (.panicked text))
  | load next => ∀ value, (next value).Inside
  | store _ next => next.Inside
  | copy _ next => ∀ ending, (next ending).Inside
  | dispose _ next => ∀ residue, (next residue).Inside
  | log _ next => next.Inside
  | _ => False

/-- Code that does not hold the lock, and asks for it once at most. -/
def Outside : Routine π α β → Prop
  | finish _ => True
  | acquire next => (∀ cause, (next (.error cause)).Past) ∧ (next (.ok ())).Inside
  | copy _ next => ∀ ending, (next ending).Outside
  | dispose _ next => ∀ residue, (next residue).Outside
  | log _ next => next.Outside
  | _ => False

theorem Past.outside {routine : Routine π α β} (h : routine.Past) : routine.Outside := by
  induction routine with
  | finish ending => trivial
  | copy source next ih =>
    intro ending
    exact ih ending (h ending)
  | dispose value next ih =>
    intro residue
    exact ih residue (h residue)
  | log message next ih => exact ih h
  | _ => exact h.elim

/-- Past the lock nothing depends on the guarded value or on the lock's answer. -/
theorem Past.solo_eq {routine : Routine π α β} (h : routine.Past) (strategy : Strategy α)
    (answer answer' : Except LockError Unit) (value value' : π) (past : List (HookCall α)) :
    routine.solo strategy answer value past =
      { routine.solo strategy answer' value' past with value } := by
  induction routine generalizing past with
  | finish ending => rfl
  | copy source next ih =>
    rw [solo, ih _ (h _)]
    rfl
  | dispose old next ih =>
    rw [solo, ih _ (h _)]
    rfl
  | log message next ih =>
    rw [solo, ih h]
    rfl
  | _ => exact h.elim

theorem Past.solo_value {routine : Routine π α β} (h : routine.Past) (strategy : Strategy α)
    (answer : Except LockError Unit) (value : π) (past : List (HookCall α)) :
    (routine.solo strategy answer value past).value = value := by
  rw [h.solo_eq strategy answer answer value value]

theorem Past.lockEvents_solo {routine : Routine π α β} (h : routine.Past) (strategy : Strategy α)
    (answer : Except LockError Unit) (value : π) (past : List (HookCall α)) :
    (routine.solo strategy answer value past).lockEvents = [] := by
  induction routine generalizing past with
  | finish ending => rfl
  | copy source next ih => simpa [solo, Event.isLock] using ih _ (h _) _
  | dispose old next ih => simpa [solo, Event.isLock] using ih _ (h _) _
  | log message next ih => simpa [solo, Event.isLock] using ih h _
  | _ => exact h.elim

/-- A holder gives the lock up once, and while unwinding only if it panics. -/
theorem Inside.lockEvents_solo {routine : Routine π α β} (h : routine.Inside)
    (strategy : Strategy α) (answer : Except LockError Unit) (value : π)
    (past : List (HookCall α)) :
    ∃ manner, (routine.solo strategy answer value past).lockEvents = [.released manner] ∧
      (manner = .unwinding →
        ∃ text, (routine.solo strategy answer value past).ending = .panicked text) := by
  induction routine generalizing value past with
  | release manner next _ =>
    obtain ⟨hnext, hmanner⟩ := h
    refine ⟨manner, ?_, ?_⟩
    · simp [solo, Event.isLock, hnext.lockEvents_solo]
    · intro hunwinding
      obtain ⟨text, rfl⟩ := hmanner.1 hunwinding
      exact ⟨text, rfl⟩
  | load next ih => simpa [solo, Event.isLock] using ih _ (h _) _ _
  | store new next ih => simpa [solo, Event.isLock] using ih h _ _
  | copy source next ih => simpa [solo, Event.isLock] using ih _ (h _) _ _
  | dispose old next ih => simpa [solo, Event.isLock] using ih _ (h _) _ _
  | log message next ih => simpa [solo, Event.isLock] using ih h _ _
  | _ => exact h.elim

/-- A routine that unwinds past a guard ends in a panic. -/
theorem Outside.panicked_of_unwinding {routine : Routine π α β} (h : routine.Outside)
    (strategy : Strategy α) (answer : Except LockError Unit) (value : π) (past : List (HookCall α))
    (hunwinding : .released .unwinding ∈ (routine.solo strategy answer value past).lockEvents) :
    ∃ text, (routine.solo strategy answer value past).ending = .panicked text := by
  induction routine generalizing past with
  | finish ending => simp [solo, Solo.lockEvents] at hunwinding
  | acquire next _ =>
    cases answer with
    | ok =>
      obtain ⟨manner, hevents, hmanner⟩ := h.2.lockEvents_solo strategy (.ok ()) value past
      have hsame : Manner.unwinding = manner := by
        simpa [solo, Event.ofAnswer, Event.isLock, hevents] using hunwinding
      exact hmanner hsame.symm
    | error cause =>
      simp [solo, Event.ofAnswer, Event.isLock, (h.1 cause).lockEvents_solo] at hunwinding
  | copy source next ih => exact ih _ (h _) _ (by simpa [solo, Event.isLock] using hunwinding)
  | dispose old next ih => exact ih _ (h _) _ (by simpa [solo, Event.isLock] using hunwinding)
  | log message next ih => exact ih h _ (by simpa [solo, Event.isLock] using hunwinding)
  | _ => exact h.elim

end Routine

/-- What one routine does to the state of a lock: it never asks for it, is turned away, or gets it
and gives it up in some manner. -/
inductive Lock.Use (lock : Lock ω σ) (state : σ) : List (Event π α) → σ → Prop
  | unasked : lock.Use state [] state
  | refused {cause : LockError} {next : σ} {before after : ω}
      (h : lock.acquire state before = (.refused cause next, after)) :
      lock.Use state [.refused cause] next
  | granted {next : σ} {before after : ω} (manner : Manner) (last : ω)
      (h : lock.acquire state before = (.granted next, after)) :
      lock.Use state [.granted, .released manner] (lock.release manner next last).1

namespace Routine

variable [Journal ω] (server : Server (Recorded α ω) α (Cell σ π))

section Requests

variable (lock : Lock (Recorded α ω) σ) (strategy : Strategy α) (cell : Cell σ π)
  (past : List (HookCall α)) (memory : ω)

/-- Hooks that follow a strategy add their calls to the record and change nothing else. -/
theorem run_copy (source : α) (next : Ending α → Routine π α β) :
    (copy source next).run lock strategy.hooks server cell ⟨past, memory⟩ =
      (next (strategy.copy past source)).run lock strategy.hooks server cell
        ⟨past ++ [.copied source (strategy.copy past source)], memory⟩ := rfl

theorem run_dispose (old : α) (next : Residue α → Routine π α β) :
    (dispose old next).run lock strategy.hooks server cell ⟨past, memory⟩ =
      (next (strategy.dispose past old)).run lock strategy.hooks server cell
        ⟨past ++ [.disposed old (strategy.dispose past old)], memory⟩ := rfl

theorem run_log (message : Message) (next : Routine π α β) :
    (log message next).run lock strategy.hooks server cell ⟨past, memory⟩ =
      next.run lock strategy.hooks server cell ⟨past, Journal.record message memory⟩ := rfl

end Requests

/-- Past the lock a run is the run on its own, and lock and value stay as they are. -/
theorem run_of_past {routine : Routine π α β} (h : routine.Past) (lock : Lock ω σ)
    (strategy : Strategy α) (answer : Except LockError Unit) (cell : Cell σ π)
    (past : List (HookCall α)) (memory : ω) :
    let solo := routine.solo strategy answer cell.value past
    ∃ rest, routine.run lock.recorded strategy.hooks server cell ⟨past, memory⟩ =
      some ⟨solo.ending, cell, ⟨past ++ solo.calls, rest⟩⟩ := by
  induction routine generalizing past memory with
  | finish ending => exact ⟨memory, by simp [run, solo]⟩
  | copy source next ih =>
    obtain ⟨rest, hrest⟩ := ih _ (h _) (past ++ [.copied source (strategy.copy past source)]) memory
    refine ⟨rest, ?_⟩
    rw [run_copy]
    simpa [solo, Event.hookCall?] using hrest
  | dispose old next ih =>
    obtain ⟨rest, hrest⟩ :=
      ih _ (h _) (past ++ [.disposed old (strategy.dispose past old)]) memory
    refine ⟨rest, ?_⟩
    rw [run_dispose]
    simpa [solo, Event.hookCall?] using hrest
  | log message next ih =>
    obtain ⟨rest, hrest⟩ := ih h past (Journal.record message memory)
    refine ⟨rest, ?_⟩
    rw [run_log]
    simpa [solo, Event.hookCall?] using hrest
  | _ => exact h.elim

/-- A run of a holder is the run on its own, and then the lock has been given up. -/
theorem run_of_inside {routine : Routine π α β} (h : routine.Inside) (lock : Lock ω σ)
    (strategy : Strategy α) (answer : Except LockError Unit) (cell : Cell σ π)
    (past : List (HookCall α)) (memory : ω) :
    let solo := routine.solo strategy answer cell.value past
    ∃ manner last rest, solo.lockEvents = [.released manner] ∧
      routine.run lock.recorded strategy.hooks server cell ⟨past, memory⟩ =
        some ⟨solo.ending, ⟨(lock.release manner cell.lock last).1, solo.value⟩,
          ⟨past ++ solo.calls, rest⟩⟩ := by
  induction routine generalizing cell past memory with
  | release manner next _ =>
    obtain ⟨rest, hrest⟩ := run_of_past server h.1 lock strategy answer
      { cell with lock := (lock.release manner cell.lock memory).1 } past
      (lock.release manner cell.lock memory).2
    refine ⟨manner, memory, rest, ?_, ?_⟩
    · simp [solo, Event.isLock, h.1.lockEvents_solo]
    · rw [run]
      simpa [Lock.recorded, solo, Event.hookCall?, h.1.solo_value] using hrest
  | load next ih =>
    obtain ⟨manner, last, rest, hmanner, hrest⟩ := ih _ (h _) cell past memory
    refine ⟨manner, last, rest, by simpa [solo, Event.isLock] using hmanner, ?_⟩
    rw [run]
    simpa [solo, Event.hookCall?] using hrest
  | store new next ih =>
    obtain ⟨manner, last, rest, hmanner, hrest⟩ := ih h { cell with value := new } past memory
    refine ⟨manner, last, rest, by simpa [solo, Event.isLock] using hmanner, ?_⟩
    rw [run]
    simpa [solo, Event.hookCall?] using hrest
  | copy source next ih =>
    obtain ⟨manner, last, rest, hmanner, hrest⟩ :=
      ih _ (h _) cell (past ++ [.copied source (strategy.copy past source)]) memory
    refine ⟨manner, last, rest, by simpa [solo, Event.isLock] using hmanner, ?_⟩
    rw [run_copy]
    simpa [solo, Event.hookCall?] using hrest
  | dispose old next ih =>
    obtain ⟨manner, last, rest, hmanner, hrest⟩ :=
      ih _ (h _) cell (past ++ [.disposed old (strategy.dispose past old)]) memory
    refine ⟨manner, last, rest, by simpa [solo, Event.isLock] using hmanner, ?_⟩
    rw [run_dispose]
    simpa [solo, Event.hookCall?] using hrest
  | log message next ih =>
    obtain ⟨manner, last, rest, hmanner, hrest⟩ :=
      ih h cell past (Journal.record message memory)
    refine ⟨manner, last, rest, by simpa [solo, Event.isLock] using hmanner, ?_⟩
    rw [run_log]
    simpa [solo, Event.hookCall?] using hrest
  | _ => exact h.elim

/-- On a lock that answers if it is asked, a run is the run on its own with the answer that the lock
gives. -/
theorem run_of_outside {routine : Routine π α β} (h : routine.Outside) (lock : Lock ω σ)
    (strategy : Strategy α) (cell : Cell σ π) (past : List (HookCall α)) (memory : ω)
    (hanswers : (routine.solo strategy (.ok ()) cell.value past).lockEvents ≠ [] →
      ∀ memory, (lock.acquire cell.lock memory).1 ≠ .blocked) :
    ∃ answer state rest,
      let solo := routine.solo strategy answer cell.value past
      (answer = .ok () ∨ ∃ cause, answer = .error cause ∧ solo.lockEvents = [.refused cause]) ∧
      lock.Use cell.lock solo.lockEvents state ∧
      routine.run lock.recorded strategy.hooks server cell ⟨past, memory⟩ =
        some ⟨solo.ending, ⟨state, solo.value⟩, ⟨past ++ solo.calls, rest⟩⟩ := by
  induction routine generalizing past memory with
  | finish ending =>
    exact ⟨.ok (), cell.lock, memory, .inl rfl, .unasked, by simp [run, solo]⟩
  | acquire next ih =>
    cases hattempt : lock.acquire cell.lock memory with
    | mk attempt left =>
      cases attempt with
      | granted state =>
        obtain ⟨manner, last, rest, hmanner, hrest⟩ := run_of_inside server h.2 lock
          strategy (.ok ()) { cell with lock := state } past left
        refine ⟨.ok (), (lock.release manner state last).1, rest, .inl rfl, ?_, ?_⟩
        · have hevents : ((acquire next).solo strategy (.ok ()) cell.value past).lockEvents =
              [.granted, .released manner] := by
            simpa [solo, Event.ofAnswer, Event.isLock] using hmanner
          rw [hevents]
          exact .granted manner last hattempt
        · rw [run]
          simpa [Lock.recorded, hattempt, solo, Event.ofAnswer, Event.hookCall?] using hrest
      | refused cause state =>
        obtain ⟨rest, hrest⟩ := run_of_past server (h.1 cause) lock strategy
          (.error cause) { cell with lock := state } past left
        have hevents : ((acquire next).solo strategy (.error cause) cell.value past).lockEvents =
            [.refused cause] := by
          simp [solo, Event.ofAnswer, Event.isLock, (h.1 cause).lockEvents_solo]
        refine ⟨.error cause, state, rest, .inr ⟨cause, rfl, hevents⟩, ?_, ?_⟩
        · rw [hevents]
          exact .refused hattempt
        · rw [run]
          simpa [Lock.recorded, hattempt, solo, Event.ofAnswer, Event.hookCall?,
            (h.1 cause).solo_value] using hrest
      | blocked =>
        have hasked : ((acquire next).solo strategy (.ok ()) cell.value past).lockEvents ≠ [] := by
          simp [solo, Event.ofAnswer, Event.isLock]
        exact absurd (congrArg Prod.fst hattempt) (hanswers hasked memory)
  | copy source next ih =>
    obtain ⟨answer, state, rest, hanswer, huse, hrest⟩ :=
      ih _ (h _) (past ++ [.copied source (strategy.copy past source)]) memory
        (by simpa [solo, Event.isLock] using hanswers)
    refine ⟨answer, state, rest, by simpa [solo, Event.isLock] using hanswer,
      by simpa [solo, Event.isLock] using huse, ?_⟩
    rw [run_copy]
    simpa [solo, Event.hookCall?] using hrest
  | dispose old next ih =>
    obtain ⟨answer, state, rest, hanswer, huse, hrest⟩ :=
      ih _ (h _) (past ++ [.disposed old (strategy.dispose past old)]) memory
        (by simpa [solo, Event.isLock] using hanswers)
    refine ⟨answer, state, rest, by simpa [solo, Event.isLock] using hanswer,
      by simpa [solo, Event.isLock] using huse, ?_⟩
    rw [run_dispose]
    simpa [solo, Event.hookCall?] using hrest
  | log message next ih =>
    obtain ⟨answer, state, rest, hanswer, huse, hrest⟩ :=
      ih h past (Journal.record message memory) (by simpa [solo, Event.isLock] using hanswers)
    refine ⟨answer, state, rest, by simpa [solo, Event.isLock] using hanswer,
      by simpa [solo, Event.isLock] using huse, ?_⟩
    rw [run_log]
    simpa [solo, Event.hookCall?] using hrest
  | _ => exact h.elim

end Routine

end GuardedList
