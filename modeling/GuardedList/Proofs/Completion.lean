import GuardedList.Proofs.Progress
import Mathlib.Algebra.BigOperators.Ring.List
import Mathlib.Algebra.Order.BigOperators.Group.List
import Mathlib.Algebra.Order.Ring.Nat

/-!
# Completion

Threads that share a lock never get stuck, and they come to an end (`ComesToEnd`). Every routine of
a list makes a bounded number of requests (`Routine.Within`), so a pool makes at most so many moves
for every call that was begun (`length_moves_le`). A schedule can therefore be continued until no
call is under way, without a new call (`exists_idle_of_follow`); what is known of threads that rest
is in this way known of all the calls that have ended at any moment.
-/

namespace GuardedList

variable {ω σ π α β κ ρ : Type}

/-- A lock for one holder at a time that refuses nobody as long as no holder panics: `intact` are
its free states before a panic. -/
structure Lock.Working (lock : Lock ω σ) (held free intact : σ → Prop) : Prop where
  mutex : lock.Mutex held free
  unfailing : lock.Unfailing intact
  free {state : σ} : intact state → free state

namespace Lock

theorem working_ofPlain {mutex : PlainMutex σ} {held free : σ → Prop}
    (lawful : mutex.Lawful held free) : (ofPlain mutex : Lock ω σ).Working held free free where
  mutex := mutex_ofPlain lawful
  unfailing := (unpoisoned_ofPlain lawful).mono (fun _ hanswer => hanswer) fun _ _ => trivial
  free hfree := hfree

theorem working_spin :
    (spin : Lock ω Spin).Working (·.held = true) (·.held = false) (·.held = false) :=
  working_ofPlain PlainMutex.lawful_flag

theorem working_ticket :
    (ticket : Lock ω Ticket).Working (fun state => state.next = state.serving + 1)
      (fun state => state.next = state.serving) (fun state => state.next = state.serving) :=
  working_ofPlain PlainMutex.lawful_tickets

theorem working_poisoning [Journal ω] :
    (poisoning : Lock ω Poisoning).Working (·.held = true) (·.held = false) (· = {}) where
  mutex := mutex_poisoning
  unfailing := unfailing_poisoning
  free := by
    rintro _ rfl
    rfl

end Lock

theorem Hooks.silent_clone : (clone : Hooks ω α).Silent := ⟨fun _ _ => rfl, fun _ _ => rfl⟩

section Requests

/-- The routine comes to its end after at most so many requests, however they are answered. -/
def Routine.Within : Routine π α β → Nat → Prop
  | finish _, _ => True
  | acquire next, limit + 1 => ∀ answer, (next answer).Within limit
  | release _ next, limit + 1 => next.Within limit
  | load next, limit + 1 => ∀ value, (next value).Within limit
  | store _ next, limit + 1 => next.Within limit
  | copy _ next, limit + 1 => ∀ ending, (next ending).Within limit
  | dispose _ next, limit + 1 => ∀ residue, (next residue).Within limit
  | log _ next, limit + 1 => next.Within limit
  | _, 0 => False

variable [Journal ω] {lock : Lock ω σ} {hooks : Hooks ω α} {cell : Cell σ π} {memory : ω}

/-- An answered request is one less to come. -/
theorem Routine.Within.step {routine : Routine π α β} {limit : Nat} (h : routine.Within limit)
    {next : Advance ω σ π α β} (hstep : routine.step lock hooks cell memory = some next) :
    ∃ left, limit = left + 1 ∧ next.rest.Within left := by
  cases limit with
  | zero =>
    cases routine with
    | finish ending => cases hstep
    | _ => exact h.elim
  | succ left =>
    refine ⟨left, rfl, ?_⟩
    cases routine with
    | finish ending => cases hstep
    | acquire rest =>
      rcases hattempt : lock.acquire cell.lock memory with ⟨state | ⟨cause, state⟩ | _, after⟩
      · simp only [Routine.step, hattempt, Option.some.injEq] at hstep
        subst hstep
        exact h (.ok ())
      · simp only [Routine.step, hattempt, Option.some.injEq] at hstep
        subst hstep
        exact h (.error cause)
      · simp [Routine.step, hattempt] at hstep
    | release manner rest =>
      cases hstep
      exact h
    | load rest =>
      cases hstep
      exact h cell.value
    | store value rest =>
      cases hstep
      exact h
    | copy source rest =>
      simp only [Routine.step, Option.map_eq_some_iff] at hstep
      obtain ⟨⟨after, ending⟩, -, rfl⟩ := hstep
      exact h ending
    | dispose value rest =>
      simp only [Routine.step, Option.map_eq_some_iff] at hstep
      obtain ⟨⟨after, residue⟩, -, rfl⟩ := hstep
      exact h residue
    | log message rest =>
      cases hstep
      exact h

/-- No operation of a list makes more than eight requests; an update that succeeds makes them. -/
theorem Operation.within_routine (operation : Operation α) (size : Nat) :
    (operation.routine size).Within 8 := by
  cases operation with
  | add value =>
    rintro (stored | cause | text)
    · rintro (cause | _)
      · rintro ⟨left, _ | text⟩ <;> trivial
      · intro chain
        trivial
    · trivial
    · trivial
  | remove index =>
    rintro (cause | _)
    · trivial
    · intro chain
      dsimp only [Routine.bind, Routine.releasing]
      cases chain.unlink? index with
      | none => trivial
      | some detached => rintro ⟨left, _ | text⟩ <;> trivial
  | get index =>
    rintro (cause | _)
    · trivial
    · intro chain
      dsimp only [Routine.bind, Routine.releasing]
      cases chain.node? index with
      | none => trivial
      | some node => rintro (copied | cause | text) <;> trivial
  | update index value =>
    rintro (cause | _)
    · trivial
    · intro chain
      dsimp only [Routine.bind, Routine.releasing]
      cases chain.focus? index with
      | none => trivial
      | some position =>
        rintro (replacement | cause | text)
        · rintro ⟨left, _ | text⟩ <;> trivial
        · trivial
        · trivial
  | length =>
    rintro (cause | _)
    · trivial
    · intro chain
      trivial
  | isEmpty =>
    rintro (cause | _)
    · trivial
    · intro chain
      trivial
  | releaseValue value => rintro ⟨left, _ | text⟩ <;> trivial
  | isInitialized => trivial
  | elementSize => trivial

end Requests

section Own

variable [Journal ω] {setting : Setting ω σ π α κ ρ}

/-- The moves of one thread, one more move later. -/
theorem movesOf_cons_self (moves : List (Nat × Move π α κ ρ)) (index : Nat) (move : Move π α κ ρ) :
    movesOf ((index, move) :: moves) index = move :: movesOf moves index := by
  simp [movesOf]

theorem movesOf_cons_of_ne (moves : List (Nat × Move π α κ ρ)) {index other : Nat}
    (hother : index ≠ other) (move : Move π α κ ρ) :
    movesOf ((index, move) :: moves) other = movesOf moves other := by
  simp [movesOf, hother]

/-- What every move of a thread preserves, told of the thread and its own moves so far, is true at
every moment. -/
theorem Pool.follow_induction_own
    (property : Nat → List (Move π α κ ρ) → Thread π α κ ρ → Prop)
    (hmoves : ∀ {index : Nat} {own : List (Move π α κ ρ)} {thread thread' : Thread π α κ ρ}
      {cell cell' : Cell σ π} {memory memory' : ω} {move : Move π α κ ρ},
      thread.Moves setting cell memory move thread' cell' memory' → property index own thread →
        property index (own ++ [move]) thread')
    {pool last : Pool ω σ π α κ ρ} {schedule : List Nat} {moves : List (Nat × Move π α κ ρ)}
    (hfollow : pool.follow setting schedule = some (moves, last))
    (earlier : Nat → List (Move π α κ ρ))
    (hpool : ∀ {index thread}, pool.threads[index]? = some thread →
      property index (earlier index) thread)
    {index : Nat} {thread : Thread π α κ ρ} (hthread : last.threads[index]? = some thread) :
    property index (earlier index ++ movesOf moves index) thread := by
  induction schedule generalizing pool moves earlier with
  | nil =>
    cases hfollow
    simpa [movesOf] using hpool hthread
  | cons mover schedule ih =>
    simp only [Pool.follow, Option.bind_eq_some_iff, Option.map_eq_some_iff, Prod.mk.injEq]
      at hfollow
    obtain ⟨⟨move, next⟩, hstep, ⟨later, _⟩, hlater, rfl, rfl⟩ := hfollow
    obtain ⟨before, after, hbefore, hmove, hthreads⟩ := Pool.moves_of_step hstep
    have hlast := ih hlater (fun other => earlier other ++ if mover = other then [move] else []) ?_
    · by_cases hindex : mover = index
      · subst hindex
        rw [movesOf_cons_self, ← List.singleton_append, ← List.append_assoc]
        simpa using hlast
      · rw [movesOf_cons_of_ne _ hindex]
        simpa [hindex] using hlast
    · intro other current hcurrent
      rw [hthreads, List.getElem?_set] at hcurrent
      by_cases hother : mover = other
      · subst hother
        have hmover : mover < pool.threads.length := (List.getElem?_eq_some_iff.1 hbefore).1
        rw [if_pos rfl, if_pos hmover, Option.some.injEq] at hcurrent
        subst hcurrent
        rw [if_pos rfl]
        exact hmoves hmove (hpool hbefore)
      · rw [if_neg hother] at hcurrent
        rw [if_neg hother, List.append_nil]
        exact hpool hcurrent

/-- The same of threads that are about to begin. -/
theorem Pool.ofPlans_induction_own
    (property : Nat → List (Move π α κ ρ) → Thread π α κ ρ → Prop)
    (hmoves : ∀ {index : Nat} {own : List (Move π α κ ρ)} {thread thread' : Thread π α κ ρ}
      {cell cell' : Cell σ π} {memory memory' : ω} {move : Move π α κ ρ},
      thread.Moves setting cell memory move thread' cell' memory' → property index own thread →
        property index (own ++ [move]) thread')
    {start : Cell σ π} {memory : ω} {plans : List (Plan κ ρ)}
    (hplans : ∀ {index plan}, plans[index]? = some plan → property index [] { plan })
    {last : Pool ω σ π α κ ρ} {schedule : List Nat} {moves : List (Nat × Move π α κ ρ)}
    (hfollow : (Pool.ofPlans start memory plans).follow setting schedule = some (moves, last))
    {index : Nat} {thread : Thread π α κ ρ} (hthread : last.threads[index]? = some thread) :
    property index (movesOf moves index) thread := by
  refine Pool.follow_induction_own property hmoves hfollow (fun _ => []) ?_ hthread
  intro other first hfirst
  simp only [Pool.ofPlans, List.getElem?_map, Option.map_eq_some_iff] at hfirst
  obtain ⟨plan, hplan, rfl⟩ := hfirst
  exact hplans hplan

/-- A schedule may be taken up where another one ended. -/
theorem Pool.follow_append {pool middle last : Pool ω σ π α κ ρ} {first second : List Nat}
    {moves later : List (Nat × Move π α κ ρ)}
    (hfirst : pool.follow setting first = some (moves, middle))
    (hsecond : middle.follow setting second = some (later, last)) :
    pool.follow setting (first ++ second) = some (moves ++ later, last) := by
  induction first generalizing pool moves with
  | nil =>
    cases hfirst
    exact hsecond
  | cons index first ih =>
    simp only [follow, Option.bind_eq_some_iff, Option.map_eq_some_iff, Prod.mk.injEq] at hfirst
    obtain ⟨⟨move, next⟩, hstep, ⟨rest, _⟩, hrest, rfl, rfl⟩ := hfirst
    simp only [List.cons_append, follow, hstep, Option.bind_some, ih hrest, Option.map_some]

omit [Journal ω] in
theorem Pool.idle_of_isDone {pool : Pool ω σ π α κ ρ}
    (hdone : ∀ thread ∈ pool.threads, thread.isDone = true) :
    ∀ thread ∈ pool.threads, thread.running = none := by
  intro thread hmember
  exact Thread.idle_of_isDone (hdone thread hmember)

/-- There is a thread for every program. -/
theorem index_lt_of_program {start : Cell σ π} {memory : ω} {programs : List (List κ)}
    {schedule : List Nat} {moves : List (Nat × Move π α κ ρ)} {pool : Pool ω σ π α κ ρ}
    (hfollow : (Pool.ofPlans start memory (programs.map Plan.inOrder)).follow setting schedule =
      some (moves, pool)) {index : Nat} {program : List κ}
    (hprogram : programs[index]? = some program) : index < pool.threads.length := by
  rw [length_threads_ofPlans hfollow, List.length_map]
  exact (List.getElem?_eq_some_iff.1 hprogram).1

/-- Nothing is ever struck from a thread's history. -/
theorem history_suffix_of_follow {pool last : Pool ω σ π α κ ρ} {schedule : List Nat}
    {moves : List (Nat × Move π α κ ρ)}
    (hfollow : pool.follow setting schedule = some (moves, last)) {index : Nat}
    {first thread : Thread π α κ ρ} (hfirst : pool.threads[index]? = some first)
    (hthread : last.threads[index]? = some thread) : first.history <:+ thread.history := by
  refine Pool.follow_induction
    (fun index thread => ∀ first, pool.threads[index]? = some first →
      first.history <:+ thread.history) ?_ hfollow ?_ hthread first hfirst
  · intro index thread thread' _ _ _ _ _ hmoves h first hfirst
    have hbefore := h first hfirst
    cases hmoves with
    | began => exact hbefore
    | ended => exact hbefore.trans (List.suffix_cons _ _)
    | made => exact hbefore
  · intro index thread hthread first hfirst
    rw [hthread, Option.some.injEq] at hfirst
    subst hfirst
    exact List.suffix_rfl

end Own

section Shares

/-- What each thread has of a list, put together, is the list in another order. -/
theorem perm_flatMap_filter {γ : Type} (owner : γ → Nat) {count : Nat} {entries : List γ}
    (h : ∀ entry ∈ entries, owner entry < count) :
    ((List.range count).flatMap fun index =>
      entries.filter fun entry => owner entry = index).Perm entries := by
  induction count generalizing entries with
  | zero =>
    cases entries with
    | nil => exact .nil
    | cons entry entries => exact absurd (h entry List.mem_cons_self) (Nat.not_lt_zero _)
  | succ count ih =>
    -- The last thread's share is what is left when those of the others are taken out.
    let others := entries.filter fun entry => owner entry < count
    have hothers : ((List.range count).flatMap fun index =>
        others.filter fun entry => owner entry = index).Perm others := ih fun entry hentry => by
      simpa using (List.mem_filter.1 hentry).2
    have hshares : ∀ index ∈ List.range count,
        (others.filter fun entry => owner entry = index) =
          entries.filter fun entry => owner entry = index := by
      intro index hindex
      rw [List.mem_range] at hindex
      simp only [others, List.filter_filter]
      apply List.filter_congr
      intro entry _
      by_cases howner : owner entry = index
      · simp [howner, hindex]
      · simp [howner]
    have hlast : (entries.filter fun entry => owner entry = count) =
        entries.filter fun entry => !decide (owner entry < count) := by
      apply List.filter_congr
      intro entry hentry
      have hlt := h entry hentry
      by_cases howner : owner entry = count
      · simp [howner]
      · have hbelow : owner entry < count := by omega
        simp [howner, hbelow]
    rw [List.flatMap_congr hshares] at hothers
    rw [List.range_succ, List.flatMap_append, List.flatMap_singleton, hlast]
    exact (hothers.append_right _).trans (List.filter_append_perm _ _)

/-- A list as that of its entries, when they are known by their positions. -/
theorem flatMap_eq_flatMap_range {β γ : Type} {entries : List β} {share : β → List γ}
    {shareOf : Nat → List γ}
    (h : ∀ {index entry}, entries[index]? = some entry → share entry = shareOf index) :
    entries.flatMap share = (List.range entries.length).flatMap shareOf := by
  induction entries generalizing shareOf with
  | nil => rfl
  | cons entry entries ih =>
    have hrest : entries.flatMap share =
        (List.range entries.length).flatMap fun index => shareOf (index + 1) := ih fun hindex =>
      h hindex
    have hfirst : share entry = shareOf 0 := h rfl
    rw [List.flatMap_cons, List.length_cons, List.range_succ_eq_map, List.flatMap_cons, hfirst,
      hrest, List.flatMap_map]

theorem flatten_eq_flatMap_range {β : Type} (lists : List (List β)) :
    lists.flatten = (List.range lists.length).flatMap fun index => lists[index]?.getD [] := by
  rw [← List.flatMap_id]
  apply flatMap_eq_flatMap_range
  intro index list hlist
  rw [hlist, Option.getD_some]
  rfl

end Shares

section Pace

/-- Whether a move is the beginning of a call. -/
def Move.isBeginning : Move π α κ ρ → Bool
  | began _ => true
  | _ => false

/-- The number of calls that were begun in these moves. -/
def begun (moves : List (Nat × Move π α κ ρ)) : Nat := moves.countP fun entry => entry.2.isBeginning

/-- How many moves a thread has made, when it has ended so many calls, and perhaps has one under
way, and no call makes more than `limit` requests. -/
inductive Thread.Paced (limit ended : Nat) (own : List (Move π α κ ρ)) :
    Option (κ × Routine π α ρ) → Prop
  | idle (hbegun : own.countP Move.isBeginning = ended)
      (hmoves : own.length ≤ (limit + 2) * ended) : Paced limit ended own none
  | busy {call : κ} {routine : Routine π α ρ} {left : Nat}
      (hbegun : own.countP Move.isBeginning = ended + 1) (hleft : routine.Within left)
      (hmoves : own.length + left + 1 ≤ (limit + 2) * (ended + 1)) :
      Paced limit ended own (some (call, routine))

variable {limit ended : Nat} {own : List (Move π α κ ρ)} {running : Option (κ × Routine π α ρ)}

theorem Thread.Paced.begun_eq (h : Paced limit ended own running) :
    own.countP Move.isBeginning = ended + running.toList.length := by
  cases h with
  | idle hbegun => exact hbegun
  | busy hbegun => exact hbegun

theorem Thread.Paced.length_le (h : Paced limit ended own running) :
    own.length ≤ (limit + 2) * own.countP Move.isBeginning := by
  cases h with
  | idle hbegun hmoves =>
    rw [hbegun]
    exact hmoves
  | busy hbegun _ hmoves =>
    rw [hbegun]
    omega

variable [Journal ω] {setting : Setting ω σ π α κ ρ}

theorem Thread.Paced.moves (hcode : ∀ call, (setting.code call).Within limit)
    {thread thread' : Thread π α κ ρ} {cell cell' : Cell σ π} {memory memory' : ω}
    {move : Move π α κ ρ}
    (hmoves : thread.Moves setting cell memory move thread' cell' memory')
    (h : Paced limit thread.history.length own thread.running) :
    Paced limit thread'.history.length (own ++ [move]) thread'.running := by
  cases hmoves with
  | @began call hidle hplan =>
    rw [hidle] at h
    cases h with
    | idle hbegun hlength =>
      refine .busy ?_ (hcode call) ?_
      · simp [hbegun, Move.isBeginning]
      · rw [List.length_append, List.length_singleton, Nat.mul_succ]
        dsimp only
        omega
  | ended hrunning =>
    rw [hrunning] at h
    cases h with
    | busy hbegun hleft hlength =>
      refine .idle ?_ ?_
      · simp [hbegun, Move.isBeginning]
      · rw [List.length_append, List.length_singleton, List.length_cons]
        omega
  | made hrunning hstep =>
    rw [hrunning] at h
    cases h with
    | busy hbegun hleft hlength =>
      obtain ⟨fewer, rfl, hrest⟩ := hleft.step hstep
      refine .busy ?_ hrest ?_
      · simp [hbegun, Move.isBeginning]
      · rw [List.length_append, List.length_singleton]
        dsimp only
        omega

variable {start : Cell σ π} {memory : ω} {plans : List (Plan κ ρ)} {schedule : List Nat}
  {moves : List (Nat × Move π α κ ρ)} {pool : Pool ω σ π α κ ρ}

/-- Every thread keeps to the pace, at every moment. -/
theorem paced_of_follow (hcode : ∀ call, (setting.code call).Within limit)
    (hfollow : (Pool.ofPlans start memory plans).follow setting schedule = some (moves, pool))
    {index : Nat} {thread : Thread π α κ ρ} (hthread : pool.threads[index]? = some thread) :
    Thread.Paced limit thread.history.length (movesOf moves index) thread.running := by
  refine Pool.ofPlans_induction_own
    (fun _ own thread => Thread.Paced limit thread.history.length own thread.running) ?_ ?_ hfollow
    hthread
  · intro _ _ _ _ _ _ _ _ _ hmoves h
    exact h.moves hcode hmoves
  · intro _ plan _
    exact .idle rfl (Nat.zero_le _)

/-- The moves of all threads, thread by thread. -/
theorem perm_flatMap_movesOf
    (hfollow : (Pool.ofPlans start memory plans).follow setting schedule = some (moves, pool)) :
    ((List.range plans.length).flatMap fun index => movesOf moves index).Perm
      (moves.map Prod.snd) := by
  have howner : ∀ entry ∈ moves, entry.1 < plans.length := by
    intro entry hentry
    have hindex := index_lt_of_follow hfollow hentry
    rwa [Pool.ofPlans, List.length_map] at hindex
  have hperm := perm_flatMap_filter Prod.fst howner
  have hmap := hperm.map Prod.snd
  rwa [List.map_flatMap] at hmap

/-- What can be counted in each thread's moves can be counted in all. -/
theorem begun_eq_sum
    (hfollow : (Pool.ofPlans start memory plans).follow setting schedule = some (moves, pool)) :
    begun moves = ((List.range plans.length).map fun index =>
      (movesOf moves index).countP Move.isBeginning).sum := by
  have hcount := (perm_flatMap_movesOf hfollow).countP_eq Move.isBeginning
  rw [List.countP_flatMap, List.countP_map] at hcount
  exact hcount.symm

/-- When no call is under way the calls that were begun are those that have ended. -/
theorem begun_eq_length_history (hcode : ∀ call, (setting.code call).Within limit)
    (hfollow : (Pool.ofPlans start memory plans).follow setting schedule = some (moves, pool))
    (hidle : ∀ thread ∈ pool.threads, thread.running = none) :
    begun moves = (pool.threads.flatMap Thread.history).length := by
  have hhistory : pool.threads.flatMap Thread.history = (List.range pool.threads.length).flatMap
      fun index => (pool.threads[index]?.map Thread.history).getD [] := by
    apply flatMap_eq_flatMap_range
    intro index thread hthread
    rw [hthread, Option.map_some, Option.getD_some]
  rw [begun_eq_sum hfollow, hhistory, List.length_flatMap, ← length_threads_ofPlans hfollow]
  congr 1
  apply List.map_congr_left
  intro index hindex
  rw [List.mem_range] at hindex
  have hthread := List.getElem?_eq_getElem hindex
  have hpaced := paced_of_follow hcode hfollow hthread
  rw [hpaced.begun_eq, hidle _ (List.getElem_mem hindex), hthread, Option.map_some,
    Option.getD_some, Option.toList_none, List.length_nil, Nat.add_zero]

/-- A pool makes at most so many moves for each call that was begun. -/
theorem length_moves_le (hcode : ∀ call, (setting.code call).Within limit)
    (hfollow : (Pool.ofPlans start memory plans).follow setting schedule = some (moves, pool)) :
    moves.length ≤ (limit + 2) * begun moves := by
  have hlength := (perm_flatMap_movesOf hfollow).length_eq
  rw [List.length_flatMap, List.length_map] at hlength
  have hsum := List.sum_map_mul_left (List.range plans.length)
    (fun index => (movesOf moves index).countP Move.isBeginning) (limit + 2)
  rw [← hlength, begun_eq_sum hfollow, ← hsum]
  apply List.sum_le_sum
  intro index hindex
  rw [List.mem_range, ← length_threads_ofPlans hfollow] at hindex
  exact (paced_of_follow hcode hfollow (List.getElem?_eq_getElem hindex)).length_le

end Pace

section Idle

variable [Journal ω] {lock : Lock ω σ} {hooks : Hooks ω α} {held free : σ → Prop}
  {code : κ → Routine π α ρ} {start : Cell σ π} {memory : ω} {plans : List (Plan κ ρ)}
  {schedule : List Nat} {moves : List (Nat × Move π α κ ρ)} {pool : Pool ω σ π α κ ρ}

theorem orderly_of_follow (mutex : lock.Mutex held free) (hcode : ∀ call, (code call).Outside)
    (hfree : free start.lock)
    (hfollow : (Pool.ofPlans start memory plans).follow ⟨lock, hooks, code⟩ schedule =
      some (moves, pool)) : Orderly held free moves pool :=
  (Orderly.initial hfree plans).follow mutex hcode hfollow

/-- A thread with a call under way does not begin another one. -/
theorem Pool.not_isBeginning_of_step {setting : Setting ω σ π α κ ρ} {index : Nat}
    {next : Pool ω σ π α κ ρ} {move : Move π α κ ρ} {thread : Thread π α κ ρ}
    (hstep : pool.step setting index = some (move, next))
    (hthread : pool.threads[index]? = some thread) (hrunning : thread.running.isSome) :
    move.isBeginning = false := by
  obtain ⟨mover, after, hmover, hmoves, -⟩ := Pool.moves_of_step hstep
  rw [hthread, Option.some.injEq] at hmover
  subst hmover
  generalize next.cell = cell, next.memory = memory at hmoves
  cases hmoves with
  | began hidle =>
    rw [hidle] at hrunning
    cases hrunning
  | ended => rfl
  | made => rfl

/-- As long as a call is under way some call can go on. -/
theorem Orderly.running_steps (mutex : lock.Mutex held free) (h : Orderly held free moves pool)
    (silent : hooks.Silent) {thread : Thread π α κ ρ} (hmember : thread ∈ pool.threads)
    (hrunning : thread.running.isSome) :
    ∃ index move next, pool.step ⟨lock, hooks, code⟩ index = some (move, next) ∧
      move.isBeginning = false := by
  by_cases hholder : ∃ index, holds moves index = true
  · obtain ⟨index, hholds⟩ := hholder
    obtain ⟨move, next, hstep⟩ := h.holder_steps silent hholds
    obtain ⟨holder, hthread⟩ : ∃ holder, pool.threads[index]? = some holder :=
      ⟨_, List.getElem?_eq_getElem (h.present hholds)⟩
    refine ⟨index, move, next, hstep, Pool.not_isBeginning_of_step hstep hthread ?_⟩
    have hphase := h.phase hthread
    rw [hholds] at hphase
    generalize holder.running = running at hphase
    cases hphase with
    | inside => rfl
  · have hfree : free pool.cell.lock := by
      apply h.free
      intro index
      exact Bool.eq_false_iff.2 fun hholds => hholder ⟨index, hholds⟩
    obtain ⟨index, hthread⟩ := List.getElem?_of_mem hmember
    have hstep : (thread.step ⟨lock, hooks, code⟩ pool.cell pool.memory).isSome := by
      apply (h.phase hthread).isSome_step silent
      · intro _
        exact mutex.answered pool.memory hfree
      · right
        rw [Thread.isDone, Option.isNone_eq_false_iff.2 hrunning, Bool.false_and]
    obtain ⟨move, next, hstep⟩ := Pool.exists_step hthread hstep
    exact ⟨index, move, next, hstep, Pool.not_isBeginning_of_step hstep hthread hrunning⟩

/-- Every schedule can be continued, with no new call, until no call is under way. -/
theorem exists_idle_of_follow (mutex : lock.Mutex held free) (silent : hooks.Silent) {limit : Nat}
    (houtside : ∀ call, (code call).Outside) (hwithin : ∀ call, (code call).Within limit)
    (hfree : free start.lock)
    (hfollow : (Pool.ofPlans start memory plans).follow ⟨lock, hooks, code⟩ schedule =
      some (moves, pool)) :
    ∃ more later last, pool.follow ⟨lock, hooks, code⟩ more = some (later, last) ∧
      begun (moves ++ later) = begun moves ∧ ∀ thread ∈ last.threads, thread.running = none := by
  -- The moves that are left before the calls that were begun have all their moves.
  generalize hleft : (limit + 2) * begun moves - moves.length = left
  induction left generalizing schedule moves pool with
  | zero =>
    refine ⟨[], [], pool, rfl, by rw [List.append_nil], ?_⟩
    intro thread hmember
    by_contra hbusy
    have horderly := orderly_of_follow mutex houtside hfree hfollow
    obtain ⟨index, move, next, hstep, hmove⟩ : ∃ index move next,
        pool.step ⟨lock, hooks, code⟩ index = some (move, next) ∧ move.isBeginning = false :=
      horderly.running_steps mutex silent hmember (Option.isSome_iff_ne_none.2 hbusy)
    have hone : pool.follow ⟨lock, hooks, code⟩ [index] = some ([(index, move)], next) := by
      simp [Pool.follow, hstep]
    have hlength := length_moves_le hwithin (Pool.follow_append hfollow hone)
    rw [begun, List.countP_append, List.length_append, List.length_singleton] at hlength
    simp only [List.countP_singleton, hmove, Bool.false_eq_true, if_false, Nat.add_zero] at hlength
    rw [begun] at hleft
    omega
  | succ left ih =>
    by_cases hidle : ∀ thread ∈ pool.threads, thread.running = none
    · exact ⟨[], [], pool, rfl, by rw [List.append_nil], hidle⟩
    · push Not at hidle
      obtain ⟨thread, hmember, hbusy⟩ := hidle
      have horderly := orderly_of_follow mutex houtside hfree hfollow
      obtain ⟨index, move, next, hstep, hmove⟩ : ∃ index move next,
          pool.step ⟨lock, hooks, code⟩ index = some (move, next) ∧ move.isBeginning = false :=
        horderly.running_steps mutex silent hmember (Option.isSome_iff_ne_none.2 hbusy)
      have hone : pool.follow ⟨lock, hooks, code⟩ [index] = some ([(index, move)], next) := by
        simp [Pool.follow, hstep]
      have hbegun : begun (moves ++ [(index, move)]) = begun moves := by
        simp [begun, hmove]
      obtain ⟨more, later, last, hmore, hsame, hlast⟩ := ih (Pool.follow_append hfollow hone) (by
        rw [hbegun, List.length_append, List.length_singleton]
        omega)
      refine ⟨[index] ++ more, [(index, move)] ++ later, last, Pool.follow_append hone hmore, ?_,
        hlast⟩
      rw [← List.append_assoc, hsame, hbegun]

/-- A pool, and the same pool at a later moment: what has ended by now is history then. -/
def Pool.Precedes (pool later : Pool ω σ π α κ ρ) : Prop :=
  ∀ (index : Nat) (thread : Thread π α κ ρ), pool.threads[index]? = some thread →
    ∃ grown : Thread π α κ ρ, later.threads[index]? = some grown ∧
      thread.history <:+ grown.history

omit [Journal ω] in
theorem Pool.Precedes.exists_grown {later : Pool ω σ π α κ ρ} (h : pool.Precedes later)
    {thread : Thread π α κ ρ} (hmember : thread ∈ pool.threads) :
    ∃ grown ∈ later.threads, thread.history <:+ grown.history := by
  obtain ⟨index, hthread⟩ := List.getElem?_of_mem hmember
  obtain ⟨grown, hgrown, hhistory⟩ := h index thread hthread
  exact ⟨grown, List.mem_of_getElem? hgrown, hhistory⟩

/-- So there is always a moment of rest to come, with the calls that were begun by now. -/
theorem exists_rest_of_follow (mutex : lock.Mutex held free) (silent : hooks.Silent) {limit : Nat}
    (houtside : ∀ call, (code call).Outside) (hwithin : ∀ call, (code call).Within limit)
    (hfree : free start.lock)
    (hfollow : (Pool.ofPlans start memory plans).follow ⟨lock, hooks, code⟩ schedule =
      some (moves, pool)) :
    ∃ longer moves' last,
      (Pool.ofPlans start memory plans).follow ⟨lock, hooks, code⟩ longer = some (moves', last) ∧
      begun moves' = begun moves ∧ (∀ thread ∈ last.threads, thread.running = none) ∧
      pool.Precedes last := by
  obtain ⟨more, later, last, hmore, hbegun, hidle⟩ :=
    exists_idle_of_follow mutex silent houtside hwithin hfree hfollow
  refine ⟨schedule ++ more, moves ++ later, last, Pool.follow_append hfollow hmore, hbegun, hidle,
    ?_⟩
  intro index thread hthread
  have hindex : index < last.threads.length := by
    rw [length_threads_of_follow hmore]
    exact (List.getElem?_eq_some_iff.1 hthread).1
  have hlater := List.getElem?_eq_getElem hindex
  exact ⟨_, hlater, history_suffix_of_follow hmore hthread hlater⟩

end Idle

section Ends

variable [Journal ω] {lock : Lock ω σ} {hooks : Hooks ω α} {held free : σ → Prop}
  {code : κ → Routine π α ρ} {start : Cell σ π} {memory : ω} {schedule : List Nat}
  {moves : List (Nat × Move π α κ ρ)} {pool : Pool ω σ π α κ ρ} {limit : Nat}

/-- What is true at every moment of threads that come to an end whichever way they take turns: they
never make more than `bound` moves, and they stop only when all are done. -/
structure ComesToEnd (setting : Setting ω σ π α κ ρ) (bound : Nat)
    (moves : List (Nat × Move π α κ ρ)) (pool : Pool ω σ π α κ ρ) : Prop where
  bounded : moves.length ≤ bound
  some_steps : (∃ thread ∈ pool.threads, thread.isDone = false) →
    ∃ index move next, pool.step setting index = some (move, next)

/-- Threads that begin so many calls at most come to an end. -/
theorem comesToEnd_of_begun_le {plans : List (Plan κ ρ)} {calls : Nat}
    (mutex : lock.Mutex held free) (silent : hooks.Silent) (houtside : ∀ call, (code call).Outside)
    (hwithin : ∀ call, (code call).Within limit) (hfree : free start.lock)
    (hfollow : (Pool.ofPlans start memory plans).follow ⟨lock, hooks, code⟩ schedule =
      some (moves, pool)) (hbegun : begun moves ≤ calls) :
    ComesToEnd ⟨lock, hooks, code⟩ ((limit + 2) * calls) moves pool where
  bounded := (length_moves_le hwithin hfollow).trans (Nat.mul_le_mul_left _ hbegun)
  some_steps := by
    rintro ⟨thread, hmember, hwork⟩
    have horderly := orderly_of_follow mutex houtside hfree hfollow
    exact horderly.some_steps mutex silent hmember hwork

/-- Threads with programs begin no more calls than are in their programs. -/
theorem begun_le_of_programs {setting : Setting ω σ π α κ ρ} {programs : List (List κ)}
    (hwithin : ∀ call, (setting.code call).Within limit)
    (hfollow : (Pool.ofPlans start memory (programs.map Plan.inOrder)).follow setting schedule =
      some (moves, pool)) : begun moves ≤ programs.flatten.length := by
  rw [begun_eq_sum hfollow, flatten_eq_flatMap_range, List.length_flatMap, List.length_map]
  apply List.sum_le_sum
  intro index hindex
  rw [List.mem_range] at hindex
  have hcalls := List.getElem?_eq_getElem hindex
  have hthreads := index_lt_of_program hfollow hcalls
  have hthread := List.getElem?_eq_getElem hthreads
  have hpaced := paced_of_follow hwithin hfollow hthread
  have hlength := (executes_of_follow hfollow hcalls hthread).begun.length_le
  rw [hpaced.begun_eq, hcalls, Option.getD_some]
  generalize pool.threads[index].running = running at hlength
  cases running <;> simpa using hlength

theorem comesToEnd_of_programs {programs : List (List κ)} (mutex : lock.Mutex held free)
    (silent : hooks.Silent) (houtside : ∀ call, (code call).Outside)
    (hwithin : ∀ call, (code call).Within limit) (hfree : free start.lock)
    (hfollow : (Pool.ofPlans start memory (programs.map Plan.inOrder)).follow ⟨lock, hooks, code⟩
      schedule = some (moves, pool)) :
    ComesToEnd ⟨lock, hooks, code⟩ ((limit + 2) * programs.flatten.length) moves pool :=
  comesToEnd_of_begun_le mutex silent houtside hwithin hfree hfollow
    (begun_le_of_programs hwithin hfollow)

end Ends

section Lists

variable [Journal ω] {lock : Lock ω σ} {hooks : Hooks ω α} {held free intact : σ → Prop}
  {size : Nat} {start : Cell σ (Chain α)} {memory : ω} {schedule : List Nat}
  {moves : List (Nat × Move (Chain α) α (Operation α) (Reply α))}
  {pool : Pool ω σ (Chain α) α (Operation α) (Reply α)}

/-- Threads that share a list come to rest. -/
theorem exists_rest_of_list {plans : List (Plan (Operation α) (Reply α))}
    (working : lock.Working held free intact) (hintact : intact start.lock) (silent : hooks.Silent)
    (hfollow : (Pool.ofPlans start memory plans).follow ⟨lock, hooks, Operation.routine size⟩
      schedule = some (moves, pool)) :
    ∃ longer moves' last,
      (Pool.ofPlans start memory plans).follow ⟨lock, hooks, Operation.routine size⟩ longer =
        some (moves', last) ∧
      begun moves' = begun moves ∧ (∀ thread ∈ last.threads, thread.running = none) ∧
      pool.Precedes last :=
  exists_rest_of_follow working.mutex silent (fun call => call.outside_routine size)
    (fun call => call.within_routine size) (working.free hintact) hfollow

theorem comesToEnd_of_list {plans : List (Plan (Operation α) (Reply α))} {calls : Nat}
    (working : lock.Working held free intact) (hintact : intact start.lock) (silent : hooks.Silent)
    (hfollow : (Pool.ofPlans start memory plans).follow ⟨lock, hooks, Operation.routine size⟩
      schedule = some (moves, pool)) (hbegun : begun moves ≤ calls) :
    ComesToEnd ⟨lock, hooks, Operation.routine size⟩ (10 * calls) moves pool :=
  comesToEnd_of_begun_le working.mutex silent (fun call => call.outside_routine size)
    (fun call => call.within_routine size) (working.free hintact) hfollow hbegun

theorem comesToEnd_of_list_programs {programs : List (List (Operation α))}
    (working : lock.Working held free intact) (hintact : intact start.lock) (silent : hooks.Silent)
    (hfollow : (Pool.ofPlans start memory (programs.map Plan.inOrder)).follow
      ⟨lock, hooks, Operation.routine size⟩ schedule = some (moves, pool)) :
    ComesToEnd ⟨lock, hooks, Operation.routine size⟩ (10 * programs.flatten.length) moves pool :=
  comesToEnd_of_list working hintact silent hfollow
    (begun_le_of_programs (fun call => call.within_routine size) hfollow)

end Lists

end GuardedList
