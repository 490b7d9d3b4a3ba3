import GuardedList.Proofs.Failure
import GuardedList.Proofs.TurnTaking

/-!
# Draining a list

Threads that each take the first element of a list that they share, until there is none left
(`drained_of_follow`). How often a thread is successful depends on the others, but together they
take every element once, and each of them is told once that the list is empty. A thread disposes of
what it took when it has given up the lock, so the disposals come in any order; in the end every
element has been disposed of once.
-/

namespace GuardedList

variable {ω σ π α κ ρ : Type}

section Insist

theorem Plan.untilFailure_eq_some {call next : κ} {history : List (κ × Ending ρ)}
    (h : untilFailure call history = some next) :
    next = call ∧ ∀ entry ∈ history.head?, entry.2.succeeded = true := by
  cases history with
  | nil =>
    cases h
    exact ⟨rfl, by simp⟩
  | cons entry history =>
    obtain ⟨made, ending⟩ := entry
    cases ending with
    | value result =>
      cases h
      exact ⟨rfl, by simp [Ending.succeeded]⟩
    | error cause => cases h
    | panicked text => cases h

theorem Plan.untilFailure_eq_none {call : κ} {history : List (κ × Ending ρ)}
    (h : untilFailure call history = none) :
    ∃ entry ∈ history.head?, entry.2.succeeded = false := by
  cases history with
  | nil => cases h
  | cons entry history =>
    obtain ⟨made, ending⟩ := entry
    cases ending with
    | value result => cases h
    | error cause => exact ⟨_, rfl, rfl⟩
    | panicked text => exact ⟨_, rfl, rfl⟩

/-- The thread makes one call again and again, and no other one once it has not succeeded. -/
structure Thread.Insists (call : κ) (thread : Thread π α κ ρ) : Prop where
  plan : thread.plan = .untilFailure call
  calls : ∀ entry ∈ thread.history, entry.1 = call
  earlier : ∀ entry ∈ thread.history.tail, entry.2.succeeded = true
  busy {other : κ} {routine : Routine π α ρ} : thread.running = some (other, routine) →
    other = call ∧ ∀ entry ∈ thread.history, entry.2.succeeded = true

variable {call : κ} {thread thread' : Thread π α κ ρ}

/-- No call fails where all succeed. -/
theorem countP_failed_eq_zero {history : List (κ × Ending ρ)}
    (h : ∀ entry ∈ history, entry.2.succeeded = true) :
    history.countP (fun entry => !entry.2.succeeded) = 0 := by
  rw [List.countP_eq_zero]
  intro entry hentry
  rw [h entry hentry]
  exact Bool.false_ne_true

/-- At most one of its calls did not succeed. -/
theorem Thread.Insists.countP_le (h : thread.Insists call) :
    thread.history.countP (fun entry => !entry.2.succeeded) ≤ 1 := by
  have htail := countP_failed_eq_zero h.earlier
  generalize thread.history = history at htail
  cases history with
  | nil => exact Nat.zero_le 1
  | cons entry history =>
    rw [List.tail_cons] at htail
    rw [List.countP_cons, htail]
    split <;> omega

/-- When it is done its last call did not succeed. -/
theorem Thread.Insists.exists_of_isDone (h : thread.Insists call) (hdone : thread.isDone = true) :
    ∃ entry earlier, thread.history = entry :: earlier ∧ entry.2.succeeded = false ∧
      ∀ entry ∈ earlier, entry.2.succeeded = true := by
  rw [isDone, Bool.and_eq_true, h.plan, Option.isNone_iff_eq_none, Option.isNone_iff_eq_none]
    at hdone
  obtain ⟨entry, hentry, hfailed⟩ := Plan.untilFailure_eq_none hdone.2
  obtain ⟨earlier, hhistory⟩ := List.head?_eq_some_iff.1 hentry
  refine ⟨entry, earlier, hhistory, hfailed, ?_⟩
  have hearlier := h.earlier
  rwa [hhistory, List.tail_cons] at hearlier

variable [Journal ω] {setting : Setting ω σ π α κ ρ}

theorem Thread.Insists.moves {cell cell' : Cell σ π} {memory memory' : ω} {move : Move π α κ ρ}
    (hmoves : thread.Moves setting cell memory move thread' cell' memory')
    (h : thread.Insists call) : thread'.Insists call := by
  obtain ⟨hplan, hcalls, hearlier, hbusy⟩ := h
  cases hmoves with
  | began hidle hnext =>
    rw [hplan] at hnext
    obtain ⟨rfl, hlatest⟩ := Plan.untilFailure_eq_some hnext
    refine ⟨hplan, hcalls, hearlier, ?_⟩
    intro other routine hrunning
    cases hrunning
    refine ⟨rfl, ?_⟩
    intro entry hentry
    generalize thread.history = history at hlatest hearlier hentry
    cases history with
    | nil => cases hentry
    | cons first history =>
      rcases List.mem_cons.1 hentry with rfl | htail
      · exact hlatest entry rfl
      · exact hearlier entry htail
  | ended hrunning =>
    obtain ⟨rfl, hhistory⟩ := hbusy hrunning
    refine ⟨hplan, ?_, hhistory, fun hnone => by cases hnone⟩
    intro entry hentry
    rcases List.mem_cons.1 hentry with rfl | hrest
    · rfl
    · exact hcalls entry hrest
  | made hrunning hstep =>
    refine ⟨hplan, hcalls, hearlier, ?_⟩
    intro other routine hrest
    cases hrest
    exact hbusy hrunning

/-- Threads that all plan to make one call until it fails do so. -/
theorem insists_of_follow {workers : Nat} {start : Cell σ π} {memory : ω} {schedule : List Nat}
    {moves : List (Nat × Move π α κ ρ)} {pool : Pool ω σ π α κ ρ}
    (hfollow : (Pool.ofPlans start memory (List.replicate workers (.untilFailure call))).follow
      setting schedule = some (moves, pool)) (hmember : thread ∈ pool.threads) :
    thread.Insists call := by
  obtain ⟨index, hthread⟩ := List.getElem?_of_mem hmember
  refine Pool.follow_induction (fun _ thread => thread.Insists call) (fun hmoves h => h.moves hmoves)
    hfollow ?_ hthread
  intro index first hfirst
  simp only [Pool.ofPlans, List.map_replicate] at hfirst
  obtain rfl := List.eq_of_mem_replicate (List.mem_of_getElem? hfirst)
  exact ⟨rfl, by simp, by simp, fun hnone => by cases hnone⟩

end Insist

section Machine

/-- What comes of so many turns that each take the first one of the elements. -/
structure TakesFirst (elements : List α) (count : Nat)
    (turns : List (Commit (Operation α) × Turn α)) : Prop where
  results : turns.map (·.2.result) =
    List.replicate (min count elements.length) (.value .done) ++
      List.replicate (count - elements.length) (.error .outOfRange)
  left : elementsAfter elements turns = elements.drop count
  disposed : (turns.flatMap (·.2.calls)).filterMap HookCall.disposed? = elements.take count

/-- As long as there are elements the first one is taken and disposed of; then there is none. -/
theorem takesFirst_takeTurns {strategy : Strategy α} (calm : strategy.Calm) (size : Nat)
    {commits : List (Commit (Operation α))} (hcalls : ∀ commit ∈ commits, commit.call = .remove 0)
    (past : List (HookCall α)) (elements : List α) :
    TakesFirst elements commits.length (takeTurns strategy size commits past elements) := by
  induction commits generalizing past elements with
  | nil =>
    refine ⟨?_, rfl, rfl⟩
    simp [takeTurns]
  | cons commit commits ih =>
    have hlater : ∀ commit ∈ commits, commit.call = .remove 0 := fun other hother =>
      hcalls other (List.mem_cons_of_mem commit hother)
    have hcall := hcalls commit List.mem_cons_self
    cases elements with
    | nil =>
      have hturn : commit.call.turn strategy size (.ok ()) past [] =
          ⟨.error .outOfRange, [], []⟩ := by
        rw [hcall]
        rfl
      obtain ⟨hresults, hleft, hdisposed⟩ := ih hlater (past ++ []) []
      rw [takeTurns, hturn]
      refine ⟨?_, ?_, ?_⟩
      · rw [List.map_cons, hresults]
        simp [List.replicate_succ]
      · rw [List.drop_nil] at hleft ⊢
        exact hleft
      · rw [List.take_nil] at hdisposed ⊢
        exact hdisposed
    | cons value elements =>
      let disposal := HookCall.disposed value (strategy.dispose past value)
      have hturn : commit.call.turn strategy size (.ok ()) past (value :: elements) =
          ⟨.value .done, elements, [disposal]⟩ := by
        have hremoved : commit.call.turn strategy size (.ok ()) past (value :: elements) =
            ⟨(strategy.dispose past value).followedBy (.value .done), elements, [disposal]⟩ := by
          rw [hcall]
          rfl
        rw [hremoved, Residue.followedBy_of_calm (calm.dispose past value)]
      obtain ⟨hresults, hleft, hdisposed⟩ := ih hlater (past ++ [disposal]) elements
      rw [takeTurns, hturn]
      refine ⟨?_, ?_, ?_⟩
      · rw [List.map_cons, hresults, List.length_cons, List.length_cons, Nat.add_min_add_right,
          Nat.add_sub_add_right, List.replicate_succ, List.cons_append]
      · rw [elementsAfter, List.foldl_cons, ← elementsAfter, hleft, List.length_cons,
          List.drop_succ_cons]
      · rw [List.flatMap_cons, List.filterMap_append, hdisposed, List.length_cons,
          List.take_succ_cons]
        rfl

variable {elements : List α} {count : Nat} {turns : List (Commit (Operation α) × Turn α)}

theorem TakesFirst.countP_succeeded (h : TakesFirst elements count turns) :
    turns.countP (·.2.result.succeeded) = min count elements.length := by
  have hcount := congrArg (List.countP Ending.succeeded) h.results
  rw [List.countP_map, List.countP_append, List.countP_replicate, List.countP_replicate] at hcount
  exact hcount

/-- A turn is successful, or it finds no element. -/
theorem TakesFirst.result_of_mem (h : TakesFirst elements count turns)
    {pair : Commit (Operation α) × Turn α} (hpair : pair ∈ turns) :
    pair.2.result = if pair.2.result.succeeded then .value .done else .error .outOfRange := by
  have hmember := List.mem_map_of_mem (f := (·.2.result)) hpair
  rw [h.results, List.mem_append, List.mem_replicate, List.mem_replicate] at hmember
  rcases hmember with ⟨-, hresult⟩ | ⟨-, hresult⟩
  · rw [hresult]
    rfl
  · rw [hresult]
    rfl

end Machine

/-- What has become of a list of `elements`, and of the calls of so many threads, when the threads
have drained it. -/
structure Drained (elements : List α) (workers : Nat)
    (moves : List (Nat × Move (Chain α) α (Operation α) (Reply α)))
    (pool : Pool ω σ (Chain α) α (Operation α) (Reply α)) : Prop where
  total : (pool.threads.flatMap Thread.history).length = elements.length + workers
  succeeded : (pool.threads.flatMap Thread.history).countP (·.2.succeeded) = elements.length
  history : ∀ thread ∈ pool.threads, ∃ count, thread.history =
    (.remove 0, .error .outOfRange) :: List.replicate count (.remove 0, .value .done)
  empty : pool.cell.value.toList = []
  disposed : ((hookCalls moves).filterMap HookCall.disposed?).Perm elements

section Threads

variable [Journal ω] {lock : Lock ω σ} {hooks : Hooks ω α} {held free intact : σ → Prop}
  {size workers : Nat} {start : Cell σ (Chain α)} {memory : ω} {schedule : List Nat}
  {moves : List (Nat × Move (Chain α) α (Operation α) (Reply α))}
  {pool : Pool ω σ (Chain α) α (Operation α) (Reply α)}
  {turns : List (Commit (Operation α) × Turn α)}

/-- Threads at rest are explained by turns that each take the first element. -/
theorem exists_takesFirst_of_follow (working : lock.Working held free intact)
    (hintact : intact start.lock) (answers : hooks.Answers (·.panic? = none))
    (hfollow : (Pool.ofPlans start memory (List.replicate workers
      (.untilFailure (.remove 0)))).follow ⟨lock, hooks, Operation.routine size⟩ schedule =
        some (moves, pool))
    (hidle : ∀ thread ∈ pool.threads, thread.running = none) :
    ∃ turns, InTurns start.value.toList turns moves pool ∧
      TakesFirst start.value.toList (pool.threads.flatMap Thread.history).length turns := by
  obtain ⟨script, hscript, hturns⟩ :=
    exists_inTurns_of_follow working hintact answers (fun _ h => h) hfollow hidle
  refine ⟨_, hturns, ?_⟩
  have hcalls : ∀ commit ∈ (Log.ofMoves moves).commits, commit.call = .remove 0 := by
    intro commit hcommit
    obtain ⟨pair, hpair, rfl⟩ :=
      exists_turn_of_mem (.replay script) size [] start.value.toList hcommit
    have hmade := hturns.perm_history.mem_iff.2 (List.mem_map_of_mem hpair)
    obtain ⟨thread, hmember, hentry⟩ := List.mem_flatMap.1 hmade
    exact (insists_of_follow hfollow hmember).calls _ hentry
  have hlength := hturns.perm_history.length_eq
  have hcommits := congrArg List.length (map_fst_takeTurns (.replay script) size
    (Log.ofMoves moves).commits [] start.value.toList)
  rw [List.length_map] at hlength hcommits
  rw [hlength, hcommits]
  exact takesFirst_takeTurns (Strategy.calm_replay hscript) size hcalls [] start.value.toList

/-- The calls that fail, thread by thread. -/
theorem countP_failed (threads : List (Thread π α κ ρ)) :
    (threads.flatMap Thread.history).countP (fun entry => !entry.2.succeeded) =
      (threads.map fun thread => thread.history.countP fun entry => !entry.2.succeeded).sum :=
  List.countP_flatMap

/-- Every thread is told once at most that there is no element left. -/
theorem countP_failed_le {setting : Setting ω σ π α κ ρ} {start : Cell σ π} {call : κ}
    {moves : List (Nat × Move π α κ ρ)} {pool : Pool ω σ π α κ ρ}
    (hfollow : (Pool.ofPlans start memory (List.replicate workers (.untilFailure call))).follow
      setting schedule = some (moves, pool)) :
    (pool.threads.flatMap Thread.history).countP (fun entry => !entry.2.succeeded) ≤ workers := by
  have hsum := List.sum_le_card_nsmul
    (pool.threads.map fun thread => thread.history.countP fun entry => !entry.2.succeeded) 1 (by
      intro count hcount
      obtain ⟨thread, hmember, rfl⟩ := List.mem_map.1 hcount
      exact (insists_of_follow hfollow hmember).countP_le)
  rwa [List.length_map, length_threads_ofPlans hfollow, List.length_replicate,
    Nat.nsmul_eq_mul, Nat.mul_one, ← countP_failed] at hsum

/-- When the threads are done every one of them has been told so. -/
theorem countP_failed_of_isDone {setting : Setting ω σ π α κ ρ} {start : Cell σ π} {call : κ}
    {moves : List (Nat × Move π α κ ρ)} {pool : Pool ω σ π α κ ρ}
    (hfollow : (Pool.ofPlans start memory (List.replicate workers (.untilFailure call))).follow
      setting schedule = some (moves, pool)) (hdone : ∀ thread ∈ pool.threads, thread.isDone = true) :
    (pool.threads.flatMap Thread.history).countP (fun entry => !entry.2.succeeded) = workers := by
  have hsum := List.sum_eq_card_nsmul
    (pool.threads.map fun thread => thread.history.countP fun entry => !entry.2.succeeded) 1 (by
      intro count hcount
      obtain ⟨thread, hmember, rfl⟩ := List.mem_map.1 hcount
      obtain ⟨entry, earlier, hhistory, hfailed, hearlier⟩ :=
        (insists_of_follow hfollow hmember).exists_of_isDone (hdone thread hmember)
      rw [hhistory, List.countP_cons, countP_failed_eq_zero hearlier, hfailed]
      rfl)
  rwa [List.length_map, length_threads_ofPlans hfollow, List.length_replicate,
    Nat.nsmul_eq_mul, Nat.mul_one, ← countP_failed] at hsum

omit [Journal ω] in
/-- Every call succeeds or fails, and as many succeed as there are elements to take. -/
theorem length_history_eq (h : InTurns start.value.toList turns moves pool)
    (htakes : TakesFirst start.value.toList (pool.threads.flatMap Thread.history).length turns) :
    (pool.threads.flatMap Thread.history).countP (·.2.succeeded) =
      min (pool.threads.flatMap Thread.history).length start.value.toList.length ∧
    (pool.threads.flatMap Thread.history).length =
      (pool.threads.flatMap Thread.history).countP (·.2.succeeded) +
        (pool.threads.flatMap Thread.history).countP fun entry => !entry.2.succeeded := by
  constructor
  · rw [← htakes.countP_succeeded, h.perm_history.countP_eq, List.countP_map]
    rfl
  · have hlength := List.length_eq_countP_add_countP
      (fun entry : Operation α × Ending (Reply α) => entry.2.succeeded)
      (l := pool.threads.flatMap Thread.history)
    simpa only [Bool.not_eq_true, Bool.decide_eq_false] using hlength

/-- Threads that are done have drained the list. -/
theorem drained_of_isDone (working : lock.Working held free intact) (hintact : intact start.lock)
    (answers : hooks.Answers (·.panic? = none)) (hworkers : 0 < workers)
    (hfollow : (Pool.ofPlans start memory (List.replicate workers
      (.untilFailure (.remove 0)))).follow ⟨lock, hooks, Operation.routine size⟩ schedule =
        some (moves, pool))
    (hdone : ∀ thread ∈ pool.threads, thread.isDone = true) :
    Drained start.value.toList workers moves pool := by
  have hidle := Pool.idle_of_isDone hdone
  obtain ⟨turns, hturns, htakes⟩ :=
    exists_takesFirst_of_follow working hintact answers hfollow hidle
  obtain ⟨hsucceeded, htotal⟩ := length_history_eq hturns htakes
  have hfailed := countP_failed_of_isDone hfollow hdone
  have hmade : start.value.toList.length ≤ (pool.threads.flatMap Thread.history).length := by omega
  refine ⟨by omega, by omega, ?_, ?_, ?_⟩
  · intro thread hmember
    have hresult : ∀ entry ∈ thread.history, entry =
        (.remove 0, if entry.2.succeeded then .value .done else .error .outOfRange) := by
      intro entry hentry
      have hcall := (insists_of_follow hfollow hmember).calls entry hentry
      obtain ⟨pair, hpair, rfl⟩ :=
        hturns.exists_turn ⟨thread, hmember, List.suffix_rfl⟩ hentry
      exact Prod.ext hcall (htakes.result_of_mem hpair)
    obtain ⟨entry, earlier, hhistory, hlast, hearlier⟩ :=
      (insists_of_follow hfollow hmember).exists_of_isDone (hdone thread hmember)
    rw [hhistory] at hresult ⊢
    have hentry := hresult entry List.mem_cons_self
    rw [hlast] at hentry
    refine ⟨earlier.length, ?_⟩
    rw [hentry]
    congr 1
    apply List.eq_replicate_of_mem
    intro other hother
    have hother' := hresult other (List.mem_cons_of_mem entry hother)
    rwa [hearlier other hother] at hother'
  · rw [hturns.left, htakes.left]
    exact List.drop_eq_nil_of_le hmade
  · have hcalls := (hturns.perm_hookCalls hfollow hidle).filterMap HookCall.disposed?
    rwa [htakes.disposed, List.take_of_length_le hmade] at hcalls

/-- However threads take turns that each take the first element of a list until there is none, they
come to an end: together they make a call for every element and one more each. When they are done
every element has been taken, every thread has been told so by its last call, and every element has
been disposed of once. -/
theorem drained_of_follow (working : lock.Working held free intact) (hintact : intact start.lock)
    (silent : hooks.Silent) (answers : hooks.Answers (·.panic? = none)) (hworkers : 0 < workers)
    (hfollow : (Pool.ofPlans start memory (List.replicate workers
      (.untilFailure (.remove 0)))).follow ⟨lock, hooks, Operation.routine size⟩ schedule =
        some (moves, pool)) :
    ComesToEnd ⟨lock, hooks, Operation.routine size⟩
      (10 * (start.value.toList.length + workers)) moves pool ∧
    ((∀ thread ∈ pool.threads, thread.isDone = true) →
      Drained start.value.toList workers moves pool) := by
  refine ⟨?_, drained_of_isDone working hintact answers hworkers hfollow⟩
  -- When all calls that were begun have ended they can be counted.
  obtain ⟨longer, moves', last, hlast, hbegun, hidle, -⟩ :=
    exists_rest_of_list working hintact silent hfollow
  obtain ⟨turns, hturns, htakes⟩ :=
    exists_takesFirst_of_follow working hintact answers hlast hidle
  obtain ⟨hsucceeded, htotal⟩ := length_history_eq hturns htakes
  have hfailed := countP_failed_le hlast
  have hcalls := begun_eq_length_history (fun call => call.within_routine size) hlast hidle
  exact comesToEnd_of_list working hintact silent hfollow (by omega)

omit [Journal ω] in
/-- Hooks that never panic answer without a panic. -/
theorem Strategy.Calm.answers {strategy : Strategy α} (calm : strategy.Calm) :
    (strategy.hooks : Hooks (Recorded α ω) α).Answers (·.panic? = none) where
  copy {source memory left ending} h := by
    cases h
    cases hending : strategy.copy memory.calls source with
    | value copy => rfl
    | error cause => rfl
    | panicked text => exact absurd hending (calm.copy memory.calls source text)
  dispose {value memory left residue} h := by
    cases h
    exact calm.dispose memory.calls value

/-- Two threads drain a list of three elements. The second one disposes of its element while the
first one, which took one before, has not done so; then it is told that there is none left while the
first one has the last one still in its hands. -/
theorem drained_of_follow_poisoning :
    (Lock.poisoning : Lock (Recorded Nat (List Message)) Poisoning).Working (·.held = true)
      (·.held = false) (· = {}) ∧
    (Strategy.plain.hooks : Hooks (Recorded Nat (List Message)) Nat).Silent ∧
    (Strategy.plain.hooks : Hooks (Recorded Nat (List Message)) Nat).Answers (·.panic? = none) ∧
    let start : Cell Poisoning (Chain Nat) := ⟨{}, .link 7 (.link 8 (.link 9 .empty))⟩
    let memory : Recorded Nat (List Message) := ⟨[], []⟩
    let setting : Setting (Recorded Nat (List Message)) Poisoning (Chain Nat) Nat (Operation Nat)
      (Reply Nat) := ⟨Lock.poisoning, Strategy.plain.hooks, Operation.routine 8⟩
    ∃ moves pool, (Pool.ofPlans start memory (List.replicate 2
        (.untilFailure (.remove 0)))).follow setting
        [0, 0, 0, 0, 0, 1, 1, 1, 1, 1, 1, 0, 1, 1, 0, 0, 0, 0, 0, 0, 0, 1, 1, 1, 1, 1, 0, 0, 0, 0,
          0, 0, 0, 0] = some (moves, pool) ∧
      (∀ thread ∈ pool.threads, thread.isDone = true) ∧
      pool.memory.calls.filterMap HookCall.disposed? = [8, 7, 9] ∧
      Drained [7, 8, 9] 2 moves pool := by
  have working : (Lock.poisoning : Lock (Recorded Nat (List Message)) Poisoning).Working
      (·.held = true) (·.held = false) (· = {}) := Lock.working_poisoning
  have silent : (Strategy.plain.hooks : Hooks (Recorded Nat (List Message)) Nat).Silent :=
    Strategy.plain.silent_hooks
  have answers : (Strategy.plain.hooks : Hooks (Recorded Nat (List Message)) Nat).Answers
      (·.panic? = none) := Strategy.calm_plain.answers
  refine ⟨working, silent, answers, ?_⟩
  intro start memory setting
  have hrun : ((Pool.ofPlans start memory (List.replicate 2
      (.untilFailure (.remove 0)))).follow setting
      [0, 0, 0, 0, 0, 1, 1, 1, 1, 1, 1, 0, 1, 1, 0, 0, 0, 0, 0, 0, 0, 1, 1, 1, 1, 1, 0, 0, 0, 0,
        0, 0, 0, 0]).map (fun (_, pool) => (pool.threads.all Thread.isDone,
          pool.memory.calls.filterMap HookCall.disposed?)) = some (true, [8, 7, 9]) := by
    decide +kernel
  simp only [Option.map_eq_some_iff, Prod.mk.injEq] at hrun
  obtain ⟨⟨moves, pool⟩, hfollow, hdone, hdisposed⟩ := hrun
  refine ⟨moves, pool, hfollow, List.all_eq_true.1 hdone, hdisposed, ?_⟩
  exact (drained_of_follow working rfl silent answers Nat.zero_lt_two hfollow).2
    (List.all_eq_true.1 hdone)

end Threads

end GuardedList
