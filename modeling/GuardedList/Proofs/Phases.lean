import GuardedList.Pool
import GuardedList.Proofs.Solo

/-!
# One request at a time

A call passes through three phases: it has not asked for the lock yet (`Outside`), it holds the lock
(`Inside`), and it has no more to do with the lock (`Past`). For each phase, all that one answered
request can do is listed: to the cell, to the phase, and to what the routine comes to on its own.

What a routine comes to on its own does not change while it runs, as long as nobody else touches the
guarded value; each answered request is one event taken off the front of it. The hooks are taken to
answer by the value alone (`Strategy.Steady`), so that it does not matter which hook calls others
make.
-/

namespace GuardedList

variable {ω σ π α β : Type}

/-- Calls that came before do not matter to steady hooks. -/
theorem Routine.solo_of_steady {strategy : Strategy α} (steady : strategy.Steady)
    (routine : Routine π α β) (answer : Except LockError Unit) (value : π)
    (past past' : List (HookCall α)) :
    routine.solo strategy answer value past = routine.solo strategy answer value past' := by
  induction routine generalizing value past past' with
  | finish ending => rfl
  | acquire next ih => rw [solo, solo, ih]
  | release manner next ih => rw [solo, solo, ih]
  | load next ih => rw [solo, solo, ih]
  | store new next ih => rw [solo, solo, ih]
  | copy source next ih =>
    rw [solo, solo, steady.copy past past', ih]
  | dispose old next ih =>
    rw [solo, solo, steady.dispose past past', ih]
  | log message next ih => rw [solo, solo, ih]

/-- The same with more requests answered in front. -/
def Solo.afterAll (events : List (Event π α)) (solo : Solo π α β) : Solo π α β :=
  { solo with events := events ++ solo.events }

theorem Solo.afterAll_append_singleton (events : List (Event π α)) (event : Event π α)
    (solo : Solo π α β) :
    solo.afterAll (events ++ [event]) = (solo.after event).afterAll events := by
  simp [afterAll, after]

@[simp] theorem Solo.calls_afterAll (events : List (Event π α)) (solo : Solo π α β) :
    (solo.afterAll events).calls = events.filterMap Event.hookCall? ++ solo.calls := by
  simp [afterAll, calls]

@[simp] theorem Solo.lockEvents_afterAll (events : List (Event π α)) (solo : Solo π α β) :
    (solo.afterAll events).lockEvents = events.filter Event.isLock ++ solo.lockEvents := by
  simp [afterAll, lockEvents]

namespace Routine

section Advance

variable (lock : Lock ω σ) (strategy : Strategy α) (routine : Routine π α β) (cell : Cell σ π)

/-- What a request can do that is answered before the lock was asked for. -/
inductive OutsideAdvance : Advance (Recorded α ω) σ π α β → Prop
  | quiet {event : Event π α} {rest : Routine π α β} {left : Recorded α ω}
      (hevent : event.isLock = false) (hrest : rest.Outside)
      (hsolo : ∀ answer value, routine.solo strategy answer value [] =
        (rest.solo strategy answer value []).after event) :
      OutsideAdvance ⟨event, rest, cell, left⟩
  | granted {next : σ} {before after : ω} {rest : Routine π α β} {left : Recorded α ω}
      (hacquire : lock.acquire cell.lock before = (.granted next, after)) (hrest : rest.Inside)
      (hsolo : ∀ value, routine.solo strategy (.ok ()) value [] =
        (rest.solo strategy (.ok ()) value []).after .granted) :
      OutsideAdvance ⟨.granted, rest, { cell with lock := next }, left⟩
  | refused {cause : LockError} {next : σ} {before after : ω} {rest : Routine π α β}
      {left : Recorded α ω}
      (hacquire : lock.acquire cell.lock before = (.refused cause next, after))
      (hrest : rest.Past)
      (hsolo : ∀ value, routine.solo strategy (.error cause) value [] =
        (rest.solo strategy (.error cause) value []).after (.refused cause)) :
      OutsideAdvance ⟨.refused cause, rest, { cell with lock := next }, left⟩

/-- What a request of the holder can do. -/
inductive InsideAdvance : Advance (Recorded α ω) σ π α β → Prop
  | quiet {event : Event π α} {rest : Routine π α β} {value : π} {left : Recorded α ω}
      (hevent : event.isLock = false) (hrest : rest.Inside)
      (hsolo : ∀ answer, routine.solo strategy answer cell.value [] =
        (rest.solo strategy answer value []).after event) :
      InsideAdvance ⟨event, rest, { cell with value }, left⟩
  | released {manner : Manner} {rest : Routine π α β} {last : ω} {left : Recorded α ω}
      (hrest : rest.Past)
      (hsolo : ∀ answer, routine.solo strategy answer cell.value [] =
        (rest.solo strategy answer cell.value []).after (.released manner)) :
      InsideAdvance
        ⟨.released manner, rest, { cell with lock := (lock.release manner cell.lock last).1 }, left⟩

/-- What a request can do after the lock was given up or refused. -/
inductive PastAdvance : Advance (Recorded α ω) σ π α β → Prop
  | quiet {event : Event π α} {rest : Routine π α β} {left : Recorded α ω}
      (hevent : event.isLock = false) (hrest : rest.Past)
      (hsolo : ∀ answer value, routine.solo strategy answer value [] =
        (rest.solo strategy answer value []).after event) :
      PastAdvance ⟨event, rest, cell, left⟩

end Advance

variable [Journal ω] {lock : Lock ω σ} {strategy : Strategy α} {routine : Routine π α β}
  {cell : Cell σ π} {memory : Recorded α ω} {next : Advance (Recorded α ω) σ π α β}

/-- The event of a copy is the one that the routine has on its own. -/
theorem solo_copy_of_steady (steady : strategy.Steady) (source : α)
    (next : Ending α → Routine π α β) (past : List (HookCall α))
    (answer : Except LockError Unit) (value : π) :
    (copy source next).solo strategy answer value [] =
      ((next (strategy.copy past source)).solo strategy answer value []).after
        (.copied source (strategy.copy past source)) := by
  rw [solo, steady.copy [] past, solo_of_steady steady (next _) _ _ _ []]

theorem solo_dispose_of_steady (steady : strategy.Steady) (old : α)
    (next : Residue α → Routine π α β) (past : List (HookCall α))
    (answer : Except LockError Unit) (value : π) :
    (dispose old next).solo strategy answer value [] =
      ((next (strategy.dispose past old)).solo strategy answer value []).after
        (.disposed old (strategy.dispose past old)) := by
  rw [solo, steady.dispose [] past, solo_of_steady steady (next _) _ _ _ []]

theorem Outside.advance (h : routine.Outside) (steady : strategy.Steady)
    (hstep : routine.step lock.recorded strategy.hooks cell memory = some next) :
    OutsideAdvance lock strategy routine cell next := by
  cases routine with
  | finish ending => cases hstep
  | acquire next =>
    simp only [step, Lock.recorded] at hstep
    rcases hattempt : lock.acquire cell.lock memory.rest with ⟨state | ⟨cause, state⟩ | _, after⟩
    · simp only [hattempt, Option.some.injEq] at hstep
      subst hstep
      exact .granted hattempt h.2 fun value => rfl
    · simp only [hattempt, Option.some.injEq] at hstep
      subst hstep
      exact .refused hattempt (h.1 cause) fun value => rfl
    · simp [hattempt] at hstep
  | copy source next =>
    obtain rfl := Option.some.inj hstep
    exact .quiet rfl (h _) fun answer value =>
      solo_copy_of_steady steady source next memory.calls answer value
  | dispose old next =>
    obtain rfl := Option.some.inj hstep
    exact .quiet rfl (h _) fun answer value =>
      solo_dispose_of_steady steady old next memory.calls answer value
  | log message next =>
    obtain rfl := Option.some.inj hstep
    exact .quiet rfl h fun answer value => rfl
  | _ => exact h.elim

theorem Inside.advance (h : routine.Inside) (steady : strategy.Steady)
    (hstep : routine.step lock.recorded strategy.hooks cell memory = some next) :
    InsideAdvance lock strategy routine cell next := by
  cases routine with
  | release manner next =>
    obtain rfl := Option.some.inj hstep
    exact .released h.1 fun answer => rfl
  | load next =>
    obtain rfl := Option.some.inj hstep
    exact .quiet rfl (h _) fun answer => rfl
  | store new next =>
    obtain rfl := Option.some.inj hstep
    exact .quiet rfl h fun answer => rfl
  | copy source next =>
    obtain rfl := Option.some.inj hstep
    exact .quiet rfl (h _) fun answer =>
      solo_copy_of_steady steady source next memory.calls answer cell.value
  | dispose old next =>
    obtain rfl := Option.some.inj hstep
    exact .quiet rfl (h _) fun answer =>
      solo_dispose_of_steady steady old next memory.calls answer cell.value
  | log message next =>
    obtain rfl := Option.some.inj hstep
    exact .quiet rfl h fun answer => rfl
  | _ => exact h.elim

theorem Past.advance (h : routine.Past) (steady : strategy.Steady)
    (hstep : routine.step lock.recorded strategy.hooks cell memory = some next) :
    PastAdvance strategy routine cell next := by
  cases routine with
  | finish ending => cases hstep
  | copy source next =>
    obtain rfl := Option.some.inj hstep
    exact .quiet rfl (h _) fun answer value =>
      solo_copy_of_steady steady source next memory.calls answer value
  | dispose old next =>
    obtain rfl := Option.some.inj hstep
    exact .quiet rfl (h _) fun answer value =>
      solo_dispose_of_steady steady old next memory.calls answer value
  | log message next =>
    obtain rfl := Option.some.inj hstep
    exact .quiet rfl h fun answer value => rfl
  | _ => exact h.elim

end Routine

/-- Code that never asks for the lock, and leaves the guarded value alone. -/
def Solo.Unasked (solo : Except LockError Unit → π → Solo π α β) : Prop :=
  ∀ answer answer' value, solo answer value = solo answer' value ∧
    (solo answer value).lockEvents = [] ∧ (solo answer value).value = value

/-- Code that asks for the lock, and gives it up again if it gets it. -/
structure Solo.Asks (solo : Except LockError Unit → π → Solo π α β) : Prop where
  refused (cause : LockError) (value : π) :
    (solo (.error cause) value).lockEvents = [.refused cause]
  granted (value : π) : ∃ manner, (solo (.ok ()) value).lockEvents = [.granted, .released manner]

theorem Solo.unasked_or_asks_after {event : Event π α} (hevent : event.isLock = false)
    {solo : Except LockError Unit → π → Solo π α β} (h : Unasked solo ∨ Asks solo) :
    Unasked (fun answer value => (solo answer value).after event) ∨
      Asks fun answer value => (solo answer value).after event := by
  rcases h with hnever | hasks
  · left
    intro answer answer' value
    obtain ⟨hsame, hnone, hvalue⟩ := hnever answer answer' value
    refine ⟨congrArg (after event) hsame, ?_, hvalue⟩
    rw [lockEvents_after, hevent]
    exact hnone
  · right
    refine ⟨fun cause value => ?_, fun value => ?_⟩
    · rw [lockEvents_after, hevent]
      exact hasks.refused cause value
    · rw [lockEvents_after, hevent]
      exact hasks.granted value

/-- Whether a routine asks for the lock depends neither on the guarded value nor on the answer. -/
theorem Routine.Outside.unasked_or_asks {routine : Routine π α β} (h : routine.Outside)
    (strategy : Strategy α) (past : List (HookCall α)) :
    Solo.Unasked (fun answer value => routine.solo strategy answer value past) ∨
      Solo.Asks fun answer value => routine.solo strategy answer value past := by
  induction routine generalizing past with
  | finish ending => exact .inl fun answer answer' value => ⟨rfl, rfl, rfl⟩
  | acquire next _ =>
    right
    refine ⟨fun cause value => ?_, fun value => ?_⟩
    · simp [solo, Event.ofAnswer, Event.isLock, (h.1 cause).lockEvents_solo]
    · obtain ⟨manner, hevents, -⟩ := h.2.lockEvents_solo strategy (.ok ()) value past
      exact ⟨manner, by simp [solo, Event.ofAnswer, Event.isLock, hevents]⟩
  | copy source next ih => exact Solo.unasked_or_asks_after rfl (ih _ (h _) _)
  | dispose old next ih => exact Solo.unasked_or_asks_after rfl (ih _ (h _) _)
  | log message next ih => exact Solo.unasked_or_asks_after rfl (ih h past)
  | _ => exact h.elim

end GuardedList
