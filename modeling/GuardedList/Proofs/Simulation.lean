import GuardedList.Basic

/-!
# Runs side by side

The same operations may be carried out in two memories that differ, as long as neither the lock nor
the hooks nor the log make anything of the difference. Which differences are meant is left to a
relation `R` between the memories. When everybody acts alike in memories that `R` relates
(`Lock.Alike`, `Hooks.Alike`, `Journal.Alike`), every operation does so too, however deep the calls
of its hooks go (`Operation.serve_alike`), and so does every program of a client
(`Dialogue.Alike.run`).
-/

namespace GuardedList

variable {ω ω' σ π α β ρ κ τ τ' : Type}

/-- Two computations that make the same calls and end with the same result, whatever the answers
are, in memories that `R` relates. -/
inductive Dialogue.Alike (R : ω → ω' → Prop) : Dialogue ω α ρ → Dialogue ω' α ρ → Prop
  | finish {memory : ω} {memory' : ω'} (hmemory : R memory memory') (result : ρ) :
      Alike R (.finish memory result) (.finish memory' result)
  | call {memory : ω} {memory' : ω'} {next : ω → Ending (Reply α) → Dialogue ω α ρ}
      {next' : ω' → Ending (Reply α) → Dialogue ω' α ρ} (hmemory : R memory memory')
      (operation : Operation α)
      (hnext : ∀ left left' answer, R left left' →
        Alike R (next left answer) (next' left' answer)) :
      Alike R (.call memory operation next) (.call memory' operation next')

/-- Two outcomes with the same result, with targets that `T` relates and memories that `R` relates.
-/
structure Outcome.Alike (T : τ → τ' → Prop) (R : ω → ω' → Prop) (outcome : Outcome ρ τ ω)
    (outcome' : Outcome ρ τ' ω') : Prop where
  result : outcome.result = outcome'.result
  target : T outcome.target outcome'.target
  memory : R outcome.memory outcome'.memory

/-- Two ways to carry out operations that always come to the same. -/
def Server.Alike (T : τ → τ' → Prop) (R : ω → ω' → Prop) (server : Server ω α τ)
    (server' : Server ω' α τ') : Prop :=
  ∀ operation target target' memory memory', T target target' → R memory memory' →
    Option.Rel (Outcome.Alike T R) (server operation target memory)
      (server' operation target' memory')

/-- Two locks that go through the same states. -/
structure Lock.Alike (R : ω → ω' → Prop) (lock : Lock ω σ) (lock' : Lock ω' σ) : Prop where
  acquire {memory : ω} {memory' : ω'} (state : σ) : R memory memory' →
    (lock.acquire state memory).1 = (lock'.acquire state memory').1 ∧
      R (lock.acquire state memory).2 (lock'.acquire state memory').2
  release {memory : ω} {memory' : ω'} (manner : Manner) (state : σ) : R memory memory' →
    (lock.release manner state memory).1 = (lock'.release manner state memory').1 ∧
      R (lock.release manner state memory).2 (lock'.release manner state memory').2
  destroy {memory : ω} {memory' : ω'} (state : σ) : R memory memory' →
    R (lock.destroy state memory) (lock'.destroy state memory')

/-- Hooks that do the same. -/
structure Hooks.Alike (R : ω → ω' → Prop) (hooks : Hooks ω α) (hooks' : Hooks ω' α) : Prop where
  copy {memory : ω} {memory' : ω'} (source : α) : R memory memory' →
    Dialogue.Alike R (hooks.copy source memory) (hooks'.copy source memory')
  dispose {memory : ω} {memory' : ω'} (value : α) : R memory memory' →
    Dialogue.Alike R (hooks.dispose value memory) (hooks'.dispose value memory')

/-- Logs that take a message alike. -/
def Journal.Alike [Journal ω] [Journal ω'] (R : ω → ω' → Prop) : Prop :=
  ∀ message memory memory', R memory memory' → R (record message memory) (record message memory')

/-- Either both come to nothing, or both to something. -/
theorem none_or_some_of_rel {A B : Type} {r : A → B → Prop} {a? : Option A} {b? : Option B}
    (h : Option.Rel r a? b?) :
    (a? = none ∧ b? = none) ∨ ∃ a b, a? = some a ∧ b? = some b ∧ r a b := by
  cases h with
  | none => exact .inl ⟨rfl, rfl⟩
  | some h => exact .inr ⟨_, _, rfl, rfl, h⟩

theorem exists_of_rel {A B : Type} {r : A → B → Prop} {a? : Option A} {b? : Option B}
    (h : Option.Rel r a? b?) {a : A} (ha : a? = some a) : ∃ b, b? = some b ∧ r a b := by
  cases h with
  | none => cases ha
  | some h =>
    cases ha
    exact ⟨_, rfl, h⟩

variable {T : τ → τ' → Prop} {R : ω → ω' → Prop}

/-- Two computations that are alike come to the same when those who serve them do. -/
theorem Dialogue.Alike.run {server : Server ω α τ} {server' : Server ω' α τ'}
    (hserver : server.Alike T R server') {dialogue : Dialogue ω α ρ} {dialogue' : Dialogue ω' α ρ}
    (h : dialogue.Alike R dialogue') {target : τ} {target' : τ'} (htarget : T target target') :
    Option.Rel (Outcome.Alike T R) (dialogue.run server target)
      (dialogue'.run server' target') := by
  induction h generalizing target target' with
  | finish hmemory result => exact .some ⟨rfl, htarget, hmemory⟩
  | @call memory memory' next next' hmemory operation _ ih =>
    have hanswer := hserver operation target target' memory memory' htarget hmemory
    rcases none_or_some_of_rel hanswer with
      ⟨hnone, hnone'⟩ | ⟨answer, answer', hsome, hsome', halike⟩
    · simp only [Dialogue.run, hnone, hnone']
      exact .none
    · simp only [Dialogue.run, hsome, hsome', halike.result]
      exact ih _ _ _ halike.memory halike.target

section Run

variable [Journal ω] [Journal ω'] {lock : Lock ω σ} {lock' : Lock ω' σ} {hooks : Hooks ω α}
  {hooks' : Hooks ω' α} (hlock : lock.Alike R lock') (hhooks : hooks.Alike R hooks')
  (hrecord : Journal.Alike R)

include hlock hhooks hrecord

/-- A routine comes to the same wherever lock, hooks and log act alike. -/
theorem Routine.run_alike {server : Server ω α (Cell σ π)} {server' : Server ω' α (Cell σ π)}
    (hserver : server.Alike Eq R server') (routine : Routine π α β) (cell : Cell σ π) {memory : ω}
    {memory' : ω'} (hmemory : R memory memory') :
    Option.Rel (Outcome.Alike Eq R) (routine.run lock hooks server cell memory)
      (routine.run lock' hooks' server' cell memory') := by
  induction routine generalizing cell memory memory' with
  | finish ending => exact .some ⟨rfl, rfl, hmemory⟩
  | acquire next ih =>
    obtain ⟨hattempt, hafter⟩ := hlock.acquire cell.lock hmemory
    rcases hfirst : lock.acquire cell.lock memory with ⟨attempt, after⟩
    rcases hsecond : lock'.acquire cell.lock memory' with ⟨attempt', after'⟩
    rw [hfirst, hsecond] at hattempt hafter
    cases hattempt
    simp only [run, hfirst, hsecond]
    cases attempt with
    | granted state => exact ih _ _ hafter
    | refused cause state => exact ih _ _ hafter
    | blocked => exact .none
  | release manner next ih =>
    obtain ⟨hstate, hafter⟩ := hlock.release manner cell.lock hmemory
    simp only [run, hstate]
    exact ih _ hafter
  | load next ih => exact ih _ _ hmemory
  | store value next ih => exact ih _ hmemory
  | copy source next ih =>
    have hrun := (hhooks.copy source hmemory).run hserver (Eq.refl cell)
    rcases none_or_some_of_rel hrun with
      ⟨hnone, hnone'⟩ | ⟨outcome, outcome', hsome, hsome', halike⟩
    · simp only [run, hnone, hnone']
      exact .none
    · simp only [run, hsome, hsome', halike.result, halike.target]
      exact ih _ _ halike.memory
  | dispose value next ih =>
    have hrun := (hhooks.dispose value hmemory).run hserver (Eq.refl cell)
    rcases none_or_some_of_rel hrun with
      ⟨hnone, hnone'⟩ | ⟨outcome, outcome', hsome, hsome', halike⟩
    · simp only [run, hnone, hnone']
      exact .none
    · simp only [run, hsome, hsome', halike.result, halike.target]
      exact ih _ _ halike.memory
  | log message next ih => exact ih _ (hrecord message _ _ hmemory)

/-- An operation comes to the same wherever lock, hooks and log act alike, and so do the operations
that its hooks call, and so on. -/
theorem Operation.serve_alike (size depth : Nat) :
    Server.Alike Eq R (Operation.serve lock hooks size depth)
      (Operation.serve lock' hooks' size depth) := by
  induction depth with
  | zero =>
    intro operation cell cell' memory memory' hcell hmemory
    exact .none
  | succ depth ih =>
    rintro operation cell _ memory memory' rfl hmemory
    exact Routine.run_alike hlock hhooks hrecord ih (operation.routine size) cell hmemory

end Run

namespace Lock

theorem alike_ofPlain (R : ω → ω' → Prop) (mutex : PlainMutex σ) :
    (ofPlain mutex : Lock ω σ).Alike R (ofPlain mutex) where
  acquire _ hmemory := ⟨rfl, hmemory⟩
  release _ _ hmemory := ⟨rfl, hmemory⟩
  destroy _ hmemory := hmemory

theorem alike_poisoning [Journal ω] [Journal ω'] {R : ω → ω' → Prop} (hrecord : Journal.Alike R) :
    (poisoning : Lock ω Poisoning).Alike R poisoning where
  acquire state hmemory := by
    obtain ⟨held, poisoned⟩ := state
    cases held with
    | true => exact ⟨rfl, hmemory⟩
    | false =>
      cases poisoned with
      | true => exact ⟨rfl, hrecord _ _ _ hmemory⟩
      | false => exact ⟨rfl, hmemory⟩
  release _ _ hmemory := ⟨rfl, hmemory⟩
  destroy state hmemory := by
    obtain ⟨held, poisoned⟩ := state
    cases poisoned with
    | true => exact hrecord _ _ _ hmemory
    | false => exact hmemory

end Lock

end GuardedList
