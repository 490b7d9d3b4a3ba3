import GuardedList.Ending

/-!
# Mutexes

What locks are made of. Whoever locks a mutex gets a guard, and when the guard goes the mutex is
free again. A plain mutex (`PlainMutex`) knows nothing of panics. One that can be poisoned
(`PoisonableMutex`) remembers for good that a guard went in a panic; it hands out guards as before,
but inside an error.

Mutexes are made elsewhere. What is known of one is what it promises (`PlainMutex.Lawful`,
`PoisonableMutex.Lawful`), and the three that are given here keep their promises.
-/

namespace GuardedList

/-- A mutex with states in `σ` that knows nothing of panics. -/
structure PlainMutex (σ : Type) where
  /-- A new mutex. -/
  fresh : σ
  /-- One attempt to lock it: the mutex with its guard handed out, or nothing while somebody has the
  guard. Who wants the mutex tries until it works. -/
  lock? : σ → Option σ
  /-- The guard goes. -/
  unlock : σ → σ

/-- What a plain mutex promises when `held` and `free` tell its states apart: a new one is free, a
free one can be locked, one that somebody holds cannot, and the end of the guard frees it. -/
structure PlainMutex.Lawful {σ : Type} (mutex : PlainMutex σ) (held free : σ → Prop) : Prop where
  fresh : free mutex.fresh
  distinct {state : σ} : held state → ¬ free state
  lockable {state : σ} : free state → ∃ locked, mutex.lock? state = some locked
  locked {state locked : σ} : mutex.lock? state = some locked → ¬ held state ∧ held locked
  unlocked {state : σ} : held state → free (mutex.unlock state)

/-- A mutex with states in `σ` that a panic can poison. -/
structure PoisonableMutex (σ : Type) where
  /-- A new mutex. -/
  fresh : σ
  /-- One attempt to lock it. With the error comes a guard as well. -/
  lock? : σ → Option (Except σ σ)
  /-- The guard goes, in this manner. -/
  unlock : Manner → σ → σ
  /-- Takes the mutex down. What it guarded is handed over by `Cell.destroy`, and here is only told
  whether it comes inside an error. -/
  dismantle : σ → Except Unit Unit

/-- What a mutex hands over, inside an error if it is poisoned. -/
def PoisonableMutex.handOver {β : Type} (poisoned : Bool) (content : β) : Except β β :=
  if poisoned then .error content else .ok content

/-- What such a mutex promises when `held` and `free` tell its states apart, the poisoned ones from
the others too: there is one guard at a time, and the mutex is poisoned by a guard that goes in a
panic, and by nothing else, for good. -/
structure PoisonableMutex.Lawful {σ : Type} (mutex : PoisonableMutex σ)
    (held free : Bool → σ → Prop) : Prop where
  fresh : free false mutex.fresh
  excluded {poisoned : Bool} {state : σ} : held poisoned state → mutex.lock? state = none
  locked {poisoned : Bool} {state : σ} : free poisoned state →
    ∃ locked, mutex.lock? state = some (handOver poisoned locked) ∧ held poisoned locked
  unlocked {poisoned : Bool} {state : σ} (manner : Manner) : held poisoned state →
    free (poisoned || manner == .unwinding) (mutex.unlock manner state)
  dismantled {poisoned : Bool} {state : σ} : free poisoned state →
    mutex.dismantle state = handOver poisoned ()

/-- A mutex that somebody holds is not free, poisoned or not. -/
theorem PoisonableMutex.Lawful.distinct {σ : Type} {mutex : PoisonableMutex σ}
    {held free : Bool → σ → Prop} (lawful : mutex.Lawful held free) {poisoned poisoned' : Bool}
    {state : σ} (hheld : held poisoned state) : ¬ free poisoned' state := by
  intro hfree
  obtain ⟨locked, hlock, -⟩ := lawful.locked hfree
  rw [lawful.excluded hheld] at hlock
  cases hlock

/-- The state of a mutex that is spun on. -/
structure Spin where
  held : Bool := false
  deriving DecidableEq

/-- The state of a mutex with tickets: the ticket to be drawn next and the one being served. The
mutex is free when these are the same. -/
structure Ticket where
  next : Nat := 0
  serving : Nat := 0
  deriving DecidableEq

/-- The state of a mutex that can be poisoned. -/
structure Poisoning where
  held : Bool := false
  poisoned : Bool := false
  deriving DecidableEq

namespace PlainMutex

/-- A flag that says whether somebody has the guard. -/
def flag : PlainMutex Spin where
  fresh := {}
  lock? state := if state.held then none else some { held := true }
  unlock _ := { held := false }

/-- A ticket is drawn when its turn has come. Who waits for it has none yet, so this leaves open in
which order those who wait are served. -/
def tickets : PlainMutex Ticket where
  fresh := {}
  lock? state :=
    if state.next = state.serving then some { state with next := state.next + 1 } else none
  unlock state := { state with serving := state.serving + 1 }

theorem lawful_flag : flag.Lawful (·.held = true) (·.held = false) where
  fresh := rfl
  distinct hheld := by simp [hheld]
  lockable hfree := by simp [flag, hfree]
  locked {state _} h := by
    cases hheld : state.held with
    | true => simp [flag, hheld] at h
    | false =>
      simp only [flag, hheld, Bool.false_eq_true, if_false, Option.some.injEq] at h
      simp [← h]
  unlocked _ := rfl

/-- While somebody has the guard, one ticket more was drawn than has been served. -/
theorem lawful_tickets : tickets.Lawful (fun state => state.next = state.serving + 1)
    (fun state => state.next = state.serving) where
  fresh := rfl
  distinct hheld := by omega
  lockable hfree := by simp [tickets, hfree]
  locked {state _} h := by
    by_cases hfree : state.next = state.serving
    · simp only [tickets, hfree, if_true, Option.some.injEq] at h
      subst h
      exact ⟨by omega, rfl⟩
    · simp [tickets, hfree] at h
  unlocked hheld := hheld

end PlainMutex

namespace PoisonableMutex

/-- A flag for the guard and one for the poison. -/
def flags : PoisonableMutex Poisoning where
  fresh := {}
  lock? state :=
    if state.held then none else some (handOver state.poisoned { state with held := true })
  unlock manner state :=
    { held := false, poisoned := state.poisoned || manner == .unwinding }
  dismantle state := handOver state.poisoned ()

theorem lawful_flags : flags.Lawful (fun poisoned state => state = ⟨true, poisoned⟩)
    (fun poisoned state => state = ⟨false, poisoned⟩) where
  fresh := rfl
  excluded h := by
    subst h
    rfl
  locked h := by
    subst h
    exact ⟨_, rfl, rfl⟩
  unlocked manner h := by
    subst h
    rfl
  dismantled h := by
    subst h
    rfl

end PoisonableMutex

end GuardedList
