import GuardedList.Proofs.Lifecycle
import GuardedList.Proofs.Script

/-!
# Progress

Threads that share a list on a lock for one holder at a time (`Lock.Mutex`) cannot get stuck. By its
moves every thread knows whether it holds the lock (`holds`), and at most one does (`Orderly`); the
holder waits for nobody, and while there is no holder nobody has to wait. However an operation ends,
by success, by an error, by a panic of a hook or turned away by the lock, it ends without the lock.
So when all threads are done the lock is free, and the elements are those of the calls made one
after another.
-/

namespace GuardedList

variable {ω σ π α β κ ρ : Type}

/-- A lock for one holder at a time, when `held` and `free` tell its states apart: somebody who
finds it free is answered at once, a refusal leaves it free, and so does its holder. -/
structure Lock.Mutex (lock : Lock ω σ) (held free : σ → Prop) : Prop extends lock.Serial held where
  distinct {state : σ} : held state → ¬ free state
  answered {state : σ} (memory : ω) : free state → (lock.acquire state memory).1 ≠ .blocked
  spared {state next : σ} {cause : LockError} {memory memory' : ω} : free state →
    lock.acquire state memory = (.refused cause next, memory') → free next
  released {state : σ} (manner : Manner) (memory : ω) : held state →
    free (lock.release manner state memory).1

namespace Lock

theorem mutex_ofPlain {mutex : PlainMutex σ} {held free : σ → Prop}
    (lawful : mutex.Lawful held free) : (ofPlain mutex : Lock ω σ).Mutex held free where
  toSerial := serial_ofPlain lawful
  distinct := lawful.distinct
  answered memory hfree := (unpoisoned_ofPlain lawful).answered hfree memory
  spared _ h := absurd h acquire_ofPlain_ne_refused
  released _ _ hheld := lawful.unlocked hheld

theorem mutex_poisoning [Journal ω] :
    (poisoning : Lock ω Poisoning).Mutex (·.held = true) (·.held = false) where
  toSerial := serial_poisoning
  distinct hheld := by simp [hheld]
  answered memory hfree := lawful_poisoning.answered hfree memory
  spared {state _ _ _ _} hfree h := by
    obtain ⟨held, poisoned⟩ := state
    cases hfree
    cases poisoned <;> simp at h
    obtain ⟨⟨-, rfl⟩, -⟩ := h
    rfl
  released _ _ _ := rfl

/-- What a request can do to the state of a lock, asked by somebody who holds it or does not hold
it, before and afterwards. -/
inductive Turns (lock : Lock ω σ) : Bool → σ → Bool → σ → Prop
  | same (holding : Bool) (state : σ) : Turns lock holding state holding state
  | granted {state next : σ} {memory memory' : ω}
      (hacquire : lock.acquire state memory = (.granted next, memory')) :
      Turns lock false state true next
  | refused {state next : σ} {cause : LockError} {memory memory' : ω}
      (hacquire : lock.acquire state memory = (.refused cause next, memory')) :
      Turns lock false state false next
  | released (manner : Manner) (state : σ) (memory : ω) :
      Turns lock true state false (lock.release manner state memory).1

section Turns

variable {lock : Lock ω σ} {held free : σ → Prop} {state after : σ} {holding : Bool}

/-- While somebody else holds the lock nothing can be done to it. -/
theorem Turns.same_of_held (serial : lock.Serial held)
    (hturns : lock.Turns false state holding after) (hheld : held state) :
    holding = false ∧ after = state := by
  cases hturns with
  | same => exact ⟨rfl, rfl⟩
  | @granted _ _ memory _ hacquire =>
    have hblocked := serial.blocked memory hheld
    rw [hacquire] at hblocked
    cases hblocked
  | @refused _ _ _ memory _ hacquire =>
    have hblocked := serial.blocked memory hheld
    rw [hacquire] at hblocked
    cases hblocked

/-- Who comes out as the holder has the lock held. -/
theorem Turns.held_after (exclusive : lock.Exclusive held)
    (hturns : lock.Turns holding state true after) (hheld : holding = true → held state) :
    held after := by
  cases hturns with
  | same => exact hheld rfl
  | granted hacquire => exact (exclusive.granted hacquire).2

/-- Who does not come out as the holder leaves a lock free that nobody else holds. -/
theorem Turns.free_after (mutex : lock.Mutex held free)
    (hturns : lock.Turns holding state false after) (hheld : holding = true → held state)
    (hfree : holding = false → free state) : free after := by
  cases hturns with
  | same => exact hfree rfl
  | refused hacquire => exact mutex.spared (hfree rfl) hacquire
  | released manner _ memory => exact mutex.released manner memory (hheld rfl)

end Turns

end Lock

/-- Whether somebody holds the lock after an event of his. -/
def Event.holding (event : Event π α) (before : Bool) : Bool :=
  match event with
  | granted => true
  | released _ => false
  | _ => before

/-- Whether a thread holds the lock after a move of its own. -/
def Move.holding (move : Move π α κ ρ) (before : Bool) : Bool :=
  match move with
  | made _ event => event.holding before
  | _ => before

/-- Whether the thread at `index` was granted the lock in these moves and has not given it up
since. -/
def holds (moves : List (Nat × Move π α κ ρ)) (index : Nat) : Bool :=
  moves.foldl (fun before entry => if entry.1 = index then entry.2.holding before else before) false

theorem holds_append_self (moves : List (Nat × Move π α κ ρ)) (index : Nat) (move : Move π α κ ρ) :
    holds (moves ++ [(index, move)]) index = move.holding (holds moves index) := by
  simp [holds]

theorem holds_append_of_ne (moves : List (Nat × Move π α κ ρ)) {index other : Nat}
    (hother : other ≠ index) (move : Move π α κ ρ) :
    holds (moves ++ [(index, move)]) other = holds moves other := by
  simp [holds, Ne.symm hother]

/-- How the call under way in a thread stands to the lock, and whether the thread holds it. -/
inductive Thread.Phase : Option (κ × Routine π α ρ) → Bool → Prop
  | idle : Phase none false
  | outside {call : κ} {routine : Routine π α ρ} (h : routine.Outside) :
      Phase (some (call, routine)) false
  | inside {call : κ} {routine : Routine π α ρ} (h : routine.Inside) :
      Phase (some (call, routine)) true

section Step

variable [Journal ω] {lock : Lock ω σ} {hooks : Hooks ω α} {cell : Cell σ π} {memory : ω}

/-- A request of somebody who does not hold the lock. -/
theorem Routine.Outside.turns {routine : Routine π α ρ} (h : routine.Outside) {call : κ}
    {next : Advance ω σ π α ρ} (hstep : routine.step lock hooks cell memory = some next) :
    Thread.Phase (some (call, next.rest)) (next.event.holding false) ∧
      lock.Turns false cell.lock (next.event.holding false) next.cell.lock := by
  cases routine with
  | acquire rest =>
    rcases hattempt : lock.acquire cell.lock memory with ⟨state | ⟨cause, state⟩ | _, left⟩
    · simp only [step, hattempt, Option.some.injEq] at hstep
      subst hstep
      exact ⟨.inside h.2, .granted hattempt⟩
    · simp only [step, hattempt, Option.some.injEq] at hstep
      subst hstep
      exact ⟨.outside (h.1 cause).outside, .refused hattempt⟩
    · simp [step, hattempt] at hstep
  | copy source rest =>
    simp only [step, Option.map_eq_some_iff] at hstep
    obtain ⟨⟨left, ending⟩, -, rfl⟩ := hstep
    exact ⟨.outside (h ending), .same false cell.lock⟩
  | dispose value rest =>
    simp only [step, Option.map_eq_some_iff] at hstep
    obtain ⟨⟨left, residue⟩, -, rfl⟩ := hstep
    exact ⟨.outside (h residue), .same false cell.lock⟩
  | log message rest =>
    cases hstep
    exact ⟨.outside h, .same false cell.lock⟩
  | finish ending => cases hstep
  | _ => exact h.elim

/-- A request of the holder. -/
theorem Routine.Inside.turns {routine : Routine π α ρ} (h : routine.Inside) {call : κ}
    {next : Advance ω σ π α ρ} (hstep : routine.step lock hooks cell memory = some next) :
    Thread.Phase (some (call, next.rest)) (next.event.holding true) ∧
      lock.Turns true cell.lock (next.event.holding true) next.cell.lock := by
  cases routine with
  | release manner rest =>
    cases hstep
    exact ⟨.outside h.1.outside, .released manner cell.lock memory⟩
  | load rest =>
    cases hstep
    exact ⟨.inside (h cell.value), .same true cell.lock⟩
  | store value rest =>
    cases hstep
    exact ⟨.inside h, .same true cell.lock⟩
  | copy source rest =>
    simp only [step, Option.map_eq_some_iff] at hstep
    obtain ⟨⟨left, ending⟩, -, rfl⟩ := hstep
    exact ⟨.inside (h ending), .same true cell.lock⟩
  | dispose value rest =>
    simp only [step, Option.map_eq_some_iff] at hstep
    obtain ⟨⟨left, residue⟩, -, rfl⟩ := hstep
    exact ⟨.inside (h residue), .same true cell.lock⟩
  | log message rest =>
    cases hstep
    exact ⟨.inside h, .same true cell.lock⟩
  | _ => exact h.elim

variable {code : κ → Routine π α ρ}

/-- A move leaves its thread in the phase that the move tells. -/
theorem Thread.Phase.turns {thread thread' : Thread π α κ ρ} {cell' : Cell σ π} {memory' : ω}
    {move : Move π α κ ρ} {holding : Bool} (hcode : ∀ call, (code call).Outside)
    (h : Phase thread.running holding)
    (hmoves : thread.Moves ⟨lock, hooks, code⟩ cell memory move thread' cell' memory') :
    Phase thread'.running (move.holding holding) ∧
      lock.Turns holding cell.lock (move.holding holding) cell'.lock := by
  cases hmoves with
  | @began call hidle hplan =>
    rw [hidle] at h
    cases h
    exact ⟨.outside (hcode call), .same false cell.lock⟩
  | ended hrunning =>
    rw [hrunning] at h
    cases h with
    | outside h => exact ⟨.idle, .same false cell.lock⟩
    | inside h => exact h.elim
  | made hrunning hstep =>
    rw [hrunning] at h
    cases h with
    | outside h => exact h.turns hstep
    | inside h => exact h.turns hstep

end Step

/-- The invariant of threads that share a lock: those that hold it by their moves are one at most,
and the lock is held just while there is one. -/
structure Orderly (held free : σ → Prop) (moves : List (Nat × Move π α κ ρ))
    (pool : Pool ω σ π α κ ρ) : Prop where
  phase {index : Nat} {thread : Thread π α κ ρ} : pool.threads[index]? = some thread →
    Thread.Phase thread.running (holds moves index)
  present {index : Nat} : holds moves index = true → index < pool.threads.length
  unique {index other : Nat} : holds moves index = true → holds moves other = true → index = other
  held {index : Nat} : holds moves index = true → held pool.cell.lock
  free : (∀ index, holds moves index = false) → free pool.cell.lock

section Pool

variable [Journal ω] {lock : Lock ω σ} {hooks : Hooks ω α} {held free : σ → Prop}
  {code : κ → Routine π α ρ} {pool next : Pool ω σ π α κ ρ} {moves : List (Nat × Move π α κ ρ)}
  {index : Nat} {move : Move π α κ ρ}

omit [Journal ω] in
theorem Orderly.initial {start : Cell σ π} {memory : ω} (hfree : free start.lock)
    (plans : List (Plan κ ρ)) :
    Orderly held free [] (Pool.ofPlans start memory plans : Pool ω σ π α κ ρ) where
  phase hthread := by
    simp only [Pool.ofPlans, List.getElem?_map, Option.map_eq_some_iff] at hthread
    obtain ⟨plan, -, rfl⟩ := hthread
    exact .idle
  present hholds := absurd hholds Bool.false_ne_true
  unique hholds := absurd hholds Bool.false_ne_true
  held hholds := absurd hholds Bool.false_ne_true
  free _ := hfree

/-- One move of any thread keeps the order. -/
theorem Orderly.step (mutex : lock.Mutex held free) (hcode : ∀ call, (code call).Outside)
    (h : Orderly held free moves pool)
    (hstep : pool.step ⟨lock, hooks, code⟩ index = some (move, next)) :
    Orderly held free (moves ++ [(index, move)]) next := by
  obtain ⟨thread, thread', hthread, hmoves, hthreads⟩ := Pool.moves_of_step hstep
  obtain ⟨hphase, hturns⟩ := (h.phase hthread).turns hcode hmoves
  have hindex : index < pool.threads.length := (List.getElem?_eq_some_iff.1 hthread).1
  rw [← holds_append_self] at hphase hturns
  have hothers : ∀ other, other ≠ index →
      holds (moves ++ [(index, move)]) other = holds moves other := by
    intro other hother
    exact holds_append_of_ne moves hother move
  -- Another holder keeps this thread away from the lock.
  have hkept : ∀ other, other ≠ index → holds moves other = true →
      holds (moves ++ [(index, move)]) index = false ∧ next.cell.lock = pool.cell.lock := by
    intro other hother hholds
    have hnot : holds moves index = false := by
      apply Bool.eq_false_iff.2
      intro hself
      exact hother (h.unique hholds hself)
    rw [hnot] at hturns
    exact hturns.same_of_held mutex.toSerial (h.held hholds)
  constructor
  · intro other thread₀ hthread₀
    rw [hthreads, List.getElem?_set] at hthread₀
    by_cases hother : index = other
    · subst hother
      rw [if_pos rfl, if_pos hindex, Option.some.injEq] at hthread₀
      rw [← hthread₀]
      exact hphase
    · rw [if_neg hother] at hthread₀
      rw [hothers other (Ne.symm hother)]
      exact h.phase hthread₀
  · intro other hholds
    rw [hthreads, List.length_set]
    by_cases hother : other = index
    · rw [hother]
      exact hindex
    · rw [hothers other hother] at hholds
      exact h.present hholds
  · intro first second hfirst hsecond
    by_cases hone : first = index
    · by_cases htwo : second = index
      · rw [hone, htwo]
      · rw [hothers second htwo] at hsecond
        rw [hone, (hkept second htwo hsecond).1] at hfirst
        cases hfirst
    · rw [hothers first hone] at hfirst
      by_cases htwo : second = index
      · rw [htwo, (hkept first hone hfirst).1] at hsecond
        cases hsecond
      · rw [hothers second htwo] at hsecond
        exact h.unique hfirst hsecond
  · intro other hholds
    by_cases hother : other = index
    · rw [hother] at hholds
      rw [hholds] at hturns
      exact hturns.held_after mutex.toExclusive h.held
    · rw [hothers other hother] at hholds
      rw [(hkept other hother hholds).2]
      exact h.held hholds
  · intro hnobody
    rw [hnobody index] at hturns
    apply hturns.free_after mutex h.held
    intro hself
    apply h.free
    intro other
    by_cases hother : other = index
    · rw [hother]
      exact hself
    · rw [← hothers other hother]
      exact hnobody other

theorem Orderly.follow (mutex : lock.Mutex held free) (hcode : ∀ call, (code call).Outside)
    {schedule : List Nat} {last : Pool ω σ π α κ ρ} {later : List (Nat × Move π α κ ρ)}
    (h : Orderly held free moves pool)
    (hfollow : pool.follow ⟨lock, hooks, code⟩ schedule = some (later, last)) :
    Orderly held free (moves ++ later) last := by
  induction schedule generalizing pool moves later with
  | nil =>
    cases hfollow
    rw [List.append_nil]
    exact h
  | cons index schedule ih =>
    simp only [Pool.follow, Option.bind_eq_some_iff, Option.map_eq_some_iff, Prod.mk.injEq]
      at hfollow
    obtain ⟨⟨move, next⟩, hstep, ⟨rest, _⟩, hrest, rfl, rfl⟩ := hfollow
    have hlast := ih (h.step mutex hcode hstep) hrest
    rw [List.append_assoc] at hlast
    exact hlast

omit [Journal ω] in
/-- The lock is held just while somebody holds it. -/
theorem Orderly.held_iff (mutex : lock.Mutex held free) (h : Orderly held free moves pool) :
    held pool.cell.lock ↔ ∃ index, holds moves index = true := by
  constructor
  · intro hheld
    apply Classical.byContradiction
    intro hnobody
    apply mutex.distinct hheld
    apply h.free
    intro index
    exact Bool.eq_false_iff.2 fun hholds => hnobody ⟨index, hholds⟩
  · rintro ⟨index, hholds⟩
    exact h.held hholds

end Pool

/-- Hooks that make no calls. -/
structure Hooks.Silent (hooks : Hooks ω α) : Prop where
  copy (source : α) (memory : ω) : (hooks.copy source memory).silent?.isSome
  dispose (value : α) (memory : ω) : (hooks.dispose value memory).silent?.isSome

section Progress

variable [Journal ω] {lock : Lock ω σ} {hooks : Hooks ω α} {held free : σ → Prop}
  {code : κ → Routine π α ρ} {pool : Pool ω σ π α κ ρ} {moves : List (Nat × Move π α κ ρ)}
  {cell : Cell σ π} {memory : ω}

/-- A holder waits for nobody. -/
theorem Routine.Inside.isSome_step {routine : Routine π α ρ} (h : routine.Inside)
    (silent : hooks.Silent) : (routine.step lock hooks cell memory).isSome := by
  cases routine with
  | release manner rest => rfl
  | load rest => rfl
  | store value rest => rfl
  | copy source rest =>
    rw [step, Option.isSome_map]
    exact silent.copy source memory
  | dispose value rest =>
    rw [step, Option.isSome_map]
    exact silent.dispose value memory
  | log message rest => rfl
  | _ => exact h.elim

/-- Somebody else waits for the lock at most. -/
theorem Routine.Outside.isSome_step {routine : Routine π α ρ} (h : routine.Outside)
    (silent : hooks.Silent) (hanswered : (lock.acquire cell.lock memory).1 ≠ .blocked) :
    (∃ ending, routine = .finish ending) ∨ (routine.step lock hooks cell memory).isSome := by
  cases routine with
  | finish ending => exact .inl ⟨ending, rfl⟩
  | acquire rest =>
    rcases hattempt : lock.acquire cell.lock memory with ⟨state | ⟨cause, state⟩ | _, left⟩
    · simp [step, hattempt]
    · simp [step, hattempt]
    · rw [hattempt] at hanswered
      exact absurd rfl hanswered
  | copy source rest =>
    right
    rw [step, Option.isSome_map]
    exact silent.copy source memory
  | dispose value rest =>
    right
    rw [step, Option.isSome_map]
    exact silent.dispose value memory
  | log message rest => exact .inr rfl
  | _ => exact h.elim

/-- A thread that has work left waits for the lock at most, and a holder waits for nobody. -/
theorem Thread.Phase.isSome_step {thread : Thread π α κ ρ} {holding : Bool}
    (h : Phase thread.running holding) (silent : hooks.Silent)
    (hanswered : holding = false → (lock.acquire cell.lock memory).1 ≠ .blocked)
    (hwork : holding = true ∨ thread.isDone = false) :
    (thread.step ⟨lock, hooks, code⟩ cell memory).isSome := by
  obtain ⟨plan, history, running⟩ := thread
  cases h with
  | idle =>
    have hplan : plan history ≠ none := by
      intro hnone
      simp [isDone, hnone] at hwork
    simp only [step, Option.isSome_map]
    exact Option.isSome_iff_ne_none.2 hplan
  | @outside call routine h =>
    rcases h.isSome_step silent (hanswered rfl) with ⟨ending, rfl⟩ | hstep
    · rfl
    · cases routine with
      | finish ending => rfl
      | _ =>
        simp only [step, Option.isSome_map]
        exact hstep
  | @inside call routine h =>
    have hstep : (routine.step lock hooks cell memory).isSome := h.isSome_step silent
    cases routine with
    | finish ending => exact h.elim
    | _ =>
      simp only [step, Option.isSome_map]
      exact hstep

theorem Pool.exists_step {index : Nat} {thread : Thread π α κ ρ}
    (hthread : pool.threads[index]? = some thread)
    (hstep : (thread.step ⟨lock, hooks, code⟩ pool.cell pool.memory).isSome) :
    ∃ move next, pool.step ⟨lock, hooks, code⟩ index = some (move, next) := by
  obtain ⟨⟨move, thread', cell, memory⟩, hstep⟩ := Option.isSome_iff_exists.1 hstep
  refine ⟨move, ⟨cell, memory, pool.threads.set index thread'⟩, ?_⟩
  simp only [Pool.step, hthread, hstep, Option.map_some]

/-- The holder can go on. -/
theorem Orderly.holder_steps (h : Orderly held free moves pool) (silent : hooks.Silent)
    {index : Nat} (hholds : holds moves index = true) :
    ∃ move next, pool.step ⟨lock, hooks, code⟩ index = some (move, next) := by
  have hthread := List.getElem?_eq_getElem (h.present hholds)
  have hphase := h.phase hthread
  apply Pool.exists_step hthread
  apply hphase.isSome_step silent
  · intro hnot
    rw [hholds] at hnot
    cases hnot
  · exact .inl hholds

/-- As long as there is work left somebody can go on. -/
theorem Orderly.some_steps (mutex : lock.Mutex held free) (h : Orderly held free moves pool)
    (silent : hooks.Silent) {thread : Thread π α κ ρ} (hmember : thread ∈ pool.threads)
    (hwork : thread.isDone = false) :
    ∃ index move next, pool.step ⟨lock, hooks, code⟩ index = some (move, next) := by
  by_cases hholder : ∃ index, holds moves index = true
  · obtain ⟨index, hholds⟩ := hholder
    exact ⟨index, h.holder_steps silent hholds⟩
  · have hfree : free pool.cell.lock := by
      apply h.free
      intro index
      exact Bool.eq_false_iff.2 fun hholds => hholder ⟨index, hholds⟩
    obtain ⟨index, hthread⟩ := List.getElem?_of_mem hmember
    refine ⟨index, Pool.exists_step hthread ?_⟩
    apply (h.phase hthread).isSome_step silent
    · intro _
      exact mutex.answered pool.memory hfree
    · exact .inr hwork

end Progress

section Lists

variable [Journal ω] {hooks : Hooks ω α}

/-- Silent hooks do not call out while a list is destroyed, so its destruction comes to an end. -/
theorem exists_destroy_of_silent (silent : hooks.Silent) {list : GuardedList ω σ α}
    {cell : Cell σ (Chain α)} (hcell : list.cell = some cell) (hhooks : list.hooks = some hooks)
    (memory : ω) : ∃ outcome, list.destroy memory = some outcome ∧
      TornDown hooks list cell memory (some outcome) := by
  have htorn := tornDown_destroy hooks hcell hhooks memory
  cases hdestroy : list.destroy memory with
  | some outcome =>
    rw [hdestroy] at htorn
    exact ⟨outcome, rfl, htorn⟩
  | none =>
    rw [hdestroy] at htorn
    cases htorn with
    | outside hcalls =>
      obtain ⟨_, value, _, middle, -, -, hnone⟩ := hcalls
      have hsome := silent.dispose value middle
      rw [hnone] at hsome
      cases hsome

/-- What is true of threads that share a list, at every moment: `moves` are their moves so far, and
they began when the list was at `start`. -/
structure Unhindered (held free : σ → Prop)
    (setting : Setting ω σ (Chain α) α (Operation α) (Reply α)) (size : Nat)
    (start : Cell σ (Chain α)) (moves : List (Nat × Move (Chain α) α (Operation α) (Reply α)))
    (pool : Pool ω σ (Chain α) α (Operation α) (Reply α)) : Prop where
  /-- One thread at most was granted the lock and has not given it up. -/
  exclusive {index other : Nat} : holds moves index = true → holds moves other = true →
    index = other
  /-- The lock is held just while there is such a thread, -/
  held_iff : held pool.cell.lock ↔ ∃ index, holds moves index = true
  /-- and that thread can go on. -/
  holder_steps {index : Nat} : holds moves index = true →
    ∃ move next, pool.step setting index = some (move, next)
  /-- As long as a thread has work left some thread can go on. -/
  some_steps : (∃ thread ∈ pool.threads, thread.isDone = false) →
    ∃ index move next, pool.step setting index = some (move, next)
  /-- When all threads are done the lock is free and no call is under way that could keep a node. A
  destruction then finds the elements that a session of all calls leaves, in the order in which they
  took effect and with hooks that answer as they did. -/
  settled : (∀ thread ∈ pool.threads, thread.isDone = true) →
    free pool.cell.lock ∧ (∀ thread ∈ pool.threads, thread.running = none) ∧
    (∃ script, (∀ call ∈ script, MadeIn moves call) ∧
      Linearizes setting.lock (.replay script) size start pool.cell (Log.ofMoves moves)
        pool.threads.length) ∧
    let list : GuardedList ω σ α := ⟨size, setting.lock, some pool.cell, some setting.hooks⟩
    ∃ outcome, list.destroy pool.memory = some outcome ∧
      TornDown setting.hooks list pool.cell pool.memory (some outcome)

/-- Threads that share a list never hinder each other for good, whatever their calls come to and
whichever way they alternate. -/
theorem unhindered_of_follow {lock : Lock ω σ} {held free : σ → Prop}
    (mutex : lock.Mutex held free) (silent : hooks.Silent) {size : Nat} {start : Cell σ (Chain α)}
    (hfree : free start.lock) {memory : ω} {plans : List (Plan (Operation α) (Reply α))}
    {schedule : List Nat} {moves : List (Nat × Move (Chain α) α (Operation α) (Reply α))}
    {pool : Pool ω σ (Chain α) α (Operation α) (Reply α)}
    (hfollow : (Pool.ofPlans start memory plans).follow ⟨lock, hooks, Operation.routine size⟩
      schedule = some (moves, pool)) :
    Unhindered held free ⟨lock, hooks, Operation.routine size⟩ size start moves pool := by
  have hcode : ∀ call : Operation α, (call.routine size).Outside := by
    intro call
    exact call.outside_routine size
  have horderly : Orderly held free moves pool :=
    (Orderly.initial hfree plans).follow mutex hcode hfollow
  constructor
  · exact horderly.unique
  · exact horderly.held_iff mutex
  · exact horderly.holder_steps silent
  · rintro ⟨thread, hmember, hwork⟩
    exact horderly.some_steps mutex silent hmember hwork
  · intro hdone
    have hidle : ∀ thread ∈ pool.threads, thread.running = none := by
      intro thread hmember
      exact Thread.idle_of_isDone (hdone thread hmember)
    refine ⟨?_, hidle, ?_, exists_destroy_of_silent silent rfl rfl pool.memory⟩
    · apply horderly.free
      intro index
      apply Bool.eq_false_iff.2
      intro hholds
      have hphase := horderly.phase (List.getElem?_eq_getElem (horderly.present hholds))
      rw [hidle _ (List.getElem_mem _), hholds] at hphase
      cases hphase
    · rw [length_threads_ofPlans hfollow]
      obtain ⟨script, hmade, hlinear⟩ := exists_linearizes_of_follow mutex.toSerial hfollow hidle
      exact ⟨script, hmade, hlinear _ (Strategy.gives_replay [] script)⟩

omit [Journal ω] in
/-- Hooks that answer by a strategy make no calls. -/
theorem Strategy.silent_hooks (strategy : Strategy α) :
    (strategy.hooks : Hooks (Recorded α ω) α).Silent :=
  ⟨fun _ _ => rfl, fun _ _ => rfl⟩

/-- An update panics while an addition is under way; the addition is turned away and gives its copy
up, and the update's thread makes one more call. -/
theorem unhindered_of_follow_brittle :
    (Lock.poisoning : Lock (Recorded Nat (List Message)) Poisoning).Mutex (·.held = true)
      (·.held = false) ∧
    let start : Cell Poisoning (Chain Nat) := ⟨{}, .link 3 .empty⟩
    let memory : Recorded Nat (List Message) := ⟨[], []⟩
    let setting : Setting (Recorded Nat (List Message)) Poisoning (Chain Nat) Nat (Operation Nat)
      (Reply Nat) := ⟨Lock.poisoning, Strategy.brittle.hooks, Operation.routine 8⟩
    let plans : List (Plan (Operation Nat) (Reply Nat)) :=
      [.inOrder [.update 0 6, .releaseValue 8], .inOrder [.add 4]]
    ∃ moves pool, (Pool.ofPlans start memory plans).follow setting
        [0, 1, 1, 0, 0, 0, 0, 0, 0, 1, 0, 1, 0, 0, 1, 0, 1] = some (moves, pool) ∧
      (∀ thread ∈ pool.threads, thread.isDone = true) ∧ pool.cell.value.toList = [0] ∧
      Unhindered (·.held = true) (·.held = false) setting 8 start moves pool := by
  have mutex : (Lock.poisoning : Lock (Recorded Nat (List Message)) Poisoning).Mutex
      (·.held = true) (·.held = false) := Lock.mutex_poisoning
  refine ⟨mutex, ?_⟩
  intro start memory setting plans
  have hrun : ((Pool.ofPlans start memory plans).follow setting
      [0, 1, 1, 0, 0, 0, 0, 0, 0, 1, 0, 1, 0, 0, 1, 0, 1]).map (fun (_, pool) =>
        (pool.threads.all Thread.isDone, pool.cell.value.toList)) = some (true, [0]) := by
    decide +kernel
  simp only [Option.map_eq_some_iff, Prod.mk.injEq] at hrun
  obtain ⟨⟨moves, pool⟩, hfollow, hdone, hvalue⟩ := hrun
  refine ⟨moves, pool, hfollow, List.all_eq_true.1 hdone, hvalue, ?_⟩
  exact unhindered_of_follow mutex Strategy.brittle.silent_hooks rfl hfollow

end Lists

end GuardedList
