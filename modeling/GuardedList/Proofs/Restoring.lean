import GuardedList.Proofs.Exclusion
import GuardedList.Proofs.Turn

/-!
# A lock left as it was found

What an operation does to a lock when its hooks may call the list, and so get in between anywhere.
It goes through three phases (`Phase`), asks for the lock in the first only, and gives it up when it
leaves the second. Which phase it calls its hooks in depends on the operation alone
(`Routine.Heeds`).

So whoever is called inside a hook finds the lock held or free and leaves it so, and the operation
goes on with the lock that it had (`Operation.restores_serve`). All that this takes of a lock is
that one can tell whether it is held (`Lock.Proper`).
-/

namespace GuardedList

variable {ω σ π α β ρ : Type}

/-- A lock for which `held` says when somebody holds it: it is free when it is made and after it was
given up, is granted to nobody while it is held, and stays held or free when it refuses somebody. It
may refuse at any time, for any reason. -/
structure Lock.Proper (lock : Lock ω σ) (held : σ → Prop) : Prop extends lock.Exclusive held where
  made {state : σ} {memory memory' : ω} : lock.make memory = (.ok state, memory') → ¬ held state
  spared {state next : σ} {cause : LockError} {memory memory' : ω} : ¬ held state →
    lock.acquire state memory = (.refused cause next, memory') → ¬ held next
  released {state : σ} (manner : Manner) (memory : ω) : held state →
    ¬ held (lock.release manner state memory).1

theorem Lock.Proper.refused_iff {lock : Lock ω σ} {held : σ → Prop} (proper : lock.Proper held)
    {state next : σ} {cause : LockError} {memory after : ω}
    (hattempt : lock.acquire state memory = (.refused cause next, after)) :
    held next ↔ held state := by
  constructor
  · intro hnext
    by_cases hstate : held state
    · exact hstate
    · exact absurd hnext (proper.spared hstate hattempt)
  · intro hstate
    exact proper.refused hstate hattempt

namespace Lock

theorem proper_ofPlain {mutex : PlainMutex σ} {held free : σ → Prop}
    (lawful : mutex.Lawful held free) : (ofPlain mutex : Lock ω σ).Proper held where
  toExclusive := (serial_ofPlain lawful).toExclusive
  made h hheld := by
    cases h
    exact lawful.distinct hheld lawful.fresh
  spared _ h := absurd h acquire_ofPlain_ne_refused
  released _ _ hheld hstill := lawful.distinct hstill (lawful.unlocked hheld)

theorem proper_poisoning [Journal ω] : (poisoning : Lock ω Poisoning).Proper (·.held = true) where
  toExclusive := serial_poisoning.toExclusive
  made h := by
    cases h
    exact Bool.false_ne_true
  spared {state _ _ _ _} hfree h := by
    obtain ⟨held, poisoned⟩ := state
    cases held <;> cases poisoned <;> simp at h hfree
    simp [← h.1]
  released _ _ _ := by simp

/-- A flag that says whether somebody holds the lock, and turns everybody else away meanwhile. -/
def trying : Lock ω Spin where
  make memory := (.ok {}, memory)
  acquire state memory :=
    (if state.held then .refused .poisoned state else .granted { held := true }, memory)
  release _ _ memory := ({ held := false }, memory)
  destroy _ memory := memory

theorem proper_trying : (trying : Lock ω Spin).Proper (·.held = true) where
  granted {state next _ _} h := by
    obtain ⟨held⟩ := state
    cases held <;> simp [trying] at h
    obtain ⟨rfl, -⟩ := h
    simp
  refused {state _ _ _ _} hheld h := by
    simp only [trying, hheld, if_true, Prod.mk.injEq, Attempt.refused.injEq] at h
    obtain ⟨⟨-, rfl⟩, -⟩ := h
    exact hheld
  made h := by cases h; simp
  spared {state _ _ _ _} hfree h := by simp [trying, hfree] at h
  released _ _ _ := by simp [trying]

end Lock

/-- Whether the operation asks for the lock. -/
def Operation.asksForLock : Operation α → Bool
  | add _ | remove _ | get _ | update _ _ | length | isEmpty => true
  | releaseValue _ | isInitialized | elementSize => false

/-- Whether the operation calls its hooks under the lock. -/
def Operation.callsUnderLock : Operation α → Bool
  | get _ | update _ _ => true
  | _ => false

/-- Where a call stands with the lock. -/
inductive Phase where
  | outside
  | inside
  | past
  deriving DecidableEq

/-- Code of an operation that goes through the phases in their order, calls its hooks in the phases
in which the operation may call them, and asks for the lock only if the operation does. -/
def Routine.Heeds (operation : Operation α) : Routine π α β → Phase → Prop
  | finish _, phase => phase ≠ .inside
  | acquire next, phase => phase = .outside ∧ operation.asksForLock = true ∧
    (∀ cause, (next (.error cause)).Heeds operation .past) ∧ (next (.ok ())).Heeds operation .inside
  | release _ next, phase => phase = .inside ∧ next.Heeds operation .past
  | load next, phase => phase = .inside ∧ ∀ value, (next value).Heeds operation phase
  | store _ next, phase => phase = .inside ∧ next.Heeds operation phase
  | copy _ next, phase => (phase = .inside ↔ operation.callsUnderLock = true) ∧
    ∀ ending, (next ending).Heeds operation phase
  | dispose _ next, phase => (phase = .inside ↔ operation.callsUnderLock = true) ∧
    ∀ residue, (next residue).Heeds operation phase
  | log _ next, phase => next.Heeds operation phase

attribute [simp] Routine.Heeds

/-- The routine of every operation goes through the phases as the operation should. -/
theorem Operation.heeds_routine (operation : Operation α) (size : Nat) :
    (operation.routine size).Heeds operation .outside := by
  cases operation with
  | add value =>
    refine ⟨by simp [callsUnderLock], fun ending => ?_⟩
    cases ending with
    | value stored =>
      refine ⟨rfl, rfl, fun cause => ⟨by simp [callsUnderLock], ?_⟩, ?_⟩
      · rintro ⟨left, _ | text⟩ <;> simp [Residue.ending]
      · simp
    | error cause => simp
    | panicked text => simp
  | remove index =>
    refine ⟨rfl, rfl, by simp, rfl, fun chain => ?_⟩
    dsimp only [Routine.bind]
    cases chain.unlink? index with
    | none => simp
    | some detached =>
      refine ⟨rfl, rfl, by simp [callsUnderLock], ?_⟩
      rintro ⟨left, _ | text⟩ <;> simp [Residue.ending]
  | get index =>
    refine ⟨rfl, rfl, by simp, rfl, fun chain => ?_⟩
    dsimp only [Routine.bind]
    cases chain.node? index with
    | none => simp
    | some node =>
      refine ⟨by simp [callsUnderLock], fun ending => ?_⟩
      cases ending <;> simp
  | update index value =>
    refine ⟨rfl, rfl, by simp, rfl, fun chain => ?_⟩
    dsimp only [Routine.bind]
    cases chain.focus? index with
    | none => simp
    | some position =>
      refine ⟨by simp [callsUnderLock], fun ending => ?_⟩
      cases ending with
      | value replacement =>
        refine ⟨by simp [callsUnderLock], ?_⟩
        rintro ⟨left, _ | text⟩ <;> simp [Residue.ending]
      | error cause => simp
      | panicked text => simp
  | length => exact ⟨rfl, rfl, by simp, rfl, by simp⟩
  | isEmpty => exact ⟨rfl, rfl, by simp, rfl, by simp⟩
  | releaseValue value =>
    refine ⟨by simp [callsUnderLock], ?_⟩
    rintro ⟨left, _ | text⟩ <;> simp [Residue.ending]
  | isInitialized => simp [routine]
  | elementSize => simp [routine]

/-- Operations that leave the lock held if it was held before, and free otherwise. -/
def Server.Restores (held : σ → Prop) (server : Server ω α (Cell σ π)) : Prop :=
  ∀ {operation cell memory outcome}, server operation cell memory = some outcome →
    (held outcome.target.lock ↔ held cell.lock)

theorem Dialogue.restores_of_run {held : σ → Prop} {server : Server ω α (Cell σ π)}
    (hserver : server.Restores held) {dialogue : Dialogue ω α ρ} {cell : Cell σ π}
    {outcome : Outcome ρ (Cell σ π) ω} (hrun : dialogue.run server cell = some outcome) :
    held outcome.target.lock ↔ held cell.lock := by
  induction dialogue generalizing cell with
  | finish memory result =>
    cases hrun
    exact Iff.rfl
  | call memory operation next ih =>
    rw [run] at hrun
    split at hrun
    · cases hrun
    · case h_2 answer hserve => exact (ih _ _ hrun).trans (hserver hserve)

section Restores

variable [Journal ω] {lock : Lock ω σ} {held : σ → Prop} (proper : lock.Proper held)
  {hooks : Hooks ω α}

include proper

/-- A routine is done with the lock when it ends, and gives it up if it had it at the start. -/
theorem Routine.restores_of_run {server : Server ω α (Cell σ π)} (hserver : server.Restores held)
    {routine : Routine π α β} {operation : Operation α} {phase : Phase}
    (hroutine : routine.Heeds operation phase) {cell : Cell σ π}
    (hinside : phase = .inside → held cell.lock) {memory : ω}
    {outcome : Outcome (Ending β) (Cell σ π) ω}
    (hrun : routine.run lock hooks server cell memory = some outcome) :
    held outcome.target.lock ↔ phase ≠ .inside ∧ held cell.lock := by
  induction routine generalizing phase cell memory with
  | finish ending =>
    cases hrun
    exact (and_iff_right hroutine).symm
  | acquire next ih =>
    obtain ⟨rfl, -, hrefused, hgranted⟩ := hroutine
    rcases hattempt : lock.acquire cell.lock memory with ⟨state | ⟨cause, state⟩ | _, rest⟩
    · obtain ⟨hfree, hheld⟩ := proper.granted hattempt
      simp only [run, hattempt] at hrun
      simpa [hfree] using ih _ hgranted (fun _ => hheld) hrun
    · have hpast : Phase.past = .inside → held state := by
        intro hphase
        cases hphase
      simp only [run, hattempt] at hrun
      simpa [proper.refused_iff hattempt] using ih _ (hrefused cause) hpast hrun
    · simp [run, hattempt] at hrun
  | release manner next ih =>
    obtain ⟨rfl, hnext⟩ := hroutine
    have hfree := proper.released manner memory (hinside rfl)
    have hpast : Phase.past = .inside → held (lock.release manner cell.lock memory).1 := by
      intro hphase
      cases hphase
    rw [run] at hrun
    simpa [hfree] using ih hnext hpast hrun
  | load next ih => exact ih _ (hroutine.2 _) hinside hrun
  | store value next ih =>
    have hkept : phase = .inside → held (Cell.mk cell.lock value).lock := hinside
    rw [run] at hrun
    have hstored := ih hroutine.2 hkept hrun
    exact hstored
  | copy source next ih =>
    rw [run] at hrun
    split at hrun
    · cases hrun
    · case h_2 done hdone =>
      have hsame := Dialogue.restores_of_run hserver hdone
      rw [← hsame]
      exact ih _ (hroutine.2 _) (fun hphase => hsame.2 (hinside hphase)) hrun
  | dispose value next ih =>
    rw [run] at hrun
    split at hrun
    · cases hrun
    · case h_2 done hdone =>
      have hsame := Dialogue.restores_of_run hserver hdone
      rw [← hsame]
      exact ih _ (hroutine.2 _) (fun hphase => hsame.2 (hinside hphase)) hrun
  | log message next ih =>
    rw [run] at hrun
    exact ih hroutine hinside hrun

/-- However deep its hooks call the list, an operation leaves the lock as it found it. -/
theorem Operation.restores_serve (size depth : Nat) :
    (Operation.serve lock hooks size depth).Restores held := by
  induction depth with
  | zero =>
    intro operation cell memory outcome hserve
    cases hserve
  | succ depth ih =>
    intro operation cell memory outcome hserve
    have houtside : Phase.outside ≠ .inside := by
      intro hphase
      cases hphase
    have hinside : Phase.outside = .inside → held cell.lock := fun hphase => absurd hphase houtside
    rw [Routine.restores_of_run proper ih (operation.heeds_routine size) hinside hserve]
    exact and_iff_right houtside

end Restores

end GuardedList
