import GuardedList.Proofs.Phases

/-!
# Schedules

A pool of threads follows a schedule, one move after another (`Pool.follow`), and a log is kept of
the moves (`Log.read`): what each thread has had done for it, and the order in which the calls take
effect. A call that asks for the lock takes effect when the lock answers it, by a grant or a
refusal; a call that never asks takes effect when it ends.

Beside the pool stand the same calls made one after another, in the order in which they took effect
(`inTurn`).
-/

namespace GuardedList

variable {ω σ π α κ ρ : Type}

namespace Pool

/-- Threads that are about to begin, and the cell that they are going to share. -/
def ofPlans (cell : Cell σ π) (memory : ω) (plans : List (Plan κ ρ)) : Pool ω σ π α κ ρ :=
  ⟨cell, memory, plans.map fun plan => { plan }⟩

variable [Journal ω]

/-- Lets the threads move in the order of a schedule: the moves, each with its thread, and the pool
afterwards. There is nothing if a thread cannot move when its turn comes. -/
def follow (setting : Setting ω σ π α κ ρ) : List Nat → Pool ω σ π α κ ρ →
    Option (List (Nat × Move π α κ ρ) × Pool ω σ π α κ ρ)
  | [], pool => some ([], pool)
  | index :: schedule, pool =>
    (pool.step setting index).bind fun (move, next) =>
      (follow setting schedule next).map fun (moves, last) => ((index, move) :: moves, last)

end Pool

/-- The answer of the lock that an event is, if it is one. -/
def Event.answer? : Event π α → Option (Except LockError Unit)
  | granted => some (.ok ())
  | refused cause => some (.error cause)
  | _ => none

theorem Event.answer?_of_not_isLock {event : Event π α} (h : event.isLock = false) :
    event.answer? = none := by
  cases event <;> first | rfl | cases h

/-- A call that takes effect: whose it is, and what the lock answered, if it was asked. -/
structure Commit (κ : Type) where
  thread : Nat
  call : κ
  answer : Option (Except LockError Unit)

/-- What can be told of a call when it is over: how it ended, and its hook calls in order. -/
structure Performance (α κ ρ : Type) where
  call : κ
  ending : Ending ρ
  calls : List (HookCall α)

/-- What a thread's moves tell. -/
structure Transcript (α κ ρ : Type) where
  /-- The calls that have ended, the first one first. -/
  finished : List (Performance α κ ρ) := []
  /-- Whether the lock has answered the call under way. -/
  asked : Bool := false
  /-- The hook calls of the call under way. -/
  calls : List (HookCall α) := []

/-- The history of a thread with this transcript. -/
def Transcript.history (transcript : Transcript α κ ρ) : List (κ × Ending ρ) :=
  (transcript.finished.map fun performance => (performance.call, performance.ending)).reverse

/-- The transcript after one more move of its thread. -/
def Transcript.read (transcript : Transcript α κ ρ) : Move π α κ ρ → Transcript α κ ρ
  | .began _ => { transcript with asked := false, calls := [] }
  | .made _ event =>
    { transcript with
      asked := transcript.asked || event.answer?.isSome
      calls := transcript.calls ++ event.hookCall?.toList }
  | .ended call ending => { finished := transcript.finished ++ [⟨call, ending, transcript.calls⟩] }

/-- What is known of all moves so far. -/
structure Log (α κ ρ : Type) where
  /-- The calls in the order in which they take effect. -/
  commits : List (Commit κ) := []
  transcript : Nat → Transcript α κ ρ := fun _ => {}

namespace Log

/-- The call whose request for the lock is answered with a move. -/
def answered? : Nat × Move π α κ ρ → Option (Commit κ)
  | (index, .made call event) => event.answer?.map fun answer => ⟨index, call, some answer⟩
  | _ => none

/-- The call that takes effect with a move. -/
def commit? (log : Log α κ ρ) (index : Nat) : Move π α κ ρ → Option (Commit κ)
  | .began _ => none
  | .made call event => event.answer?.map fun answer => ⟨index, call, some answer⟩
  | .ended call _ => if (log.transcript index).asked then none else some ⟨index, call, none⟩

/-- The log after one more move. -/
def read (log : Log α κ ρ) (entry : Nat × Move π α κ ρ) : Log α κ ρ where
  commits := log.commits ++ (log.commit? entry.1 entry.2).toList
  transcript index :=
    if index = entry.1 then (log.transcript index).read entry.2 else log.transcript index

/-- The log of a list of moves. -/
def ofMoves (moves : List (Nat × Move π α κ ρ)) : Log α κ ρ := moves.foldl read {}

variable (log : Log α κ ρ) (index : Nat) (move : Move π α κ ρ)

@[simp] theorem transcript_read_self :
    (log.read (index, move)).transcript index = (log.transcript index).read move := by
  simp [read]

theorem transcript_read_of_ne {other : Nat} (h : other ≠ index) :
    (log.read (index, move)).transcript other = log.transcript other := by
  simp [read, h]

theorem commits_read_of_none (h : log.commit? index move = none) :
    (log.read (index, move)).commits = log.commits := by
  simp [read, h]

theorem commits_read_of_some {commit : Commit κ} (h : log.commit? index move = some commit) :
    (log.read (index, move)).commits = log.commits ++ [commit] := by
  simp [read, h]

theorem thread_of_commit? {commit : Commit κ} (h : log.commit? index move = some commit) :
    commit.thread = index := by
  cases move with
  | began call => cases h
  | made call event =>
    simp only [commit?, Option.map_eq_some_iff] at h
    obtain ⟨answer, -, rfl⟩ := h
    rfl
  | ended call ending =>
    simp only [commit?, Option.ite_none_left_eq_some, Option.some.injEq] at h
    rw [← h.2]

/-- What has taken effect comes before all that is still to come. -/
theorem commits_prefix_foldl (moves : List (Nat × Move π α κ ρ)) :
    log.commits <+: (moves.foldl read log).commits := by
  induction moves generalizing log with
  | nil => exact List.prefix_rfl
  | cons entry moves ih =>
    have hfirst : log.commits <+: (log.read entry).commits := List.prefix_append _ _
    exact hfirst.trans (ih (log.read entry))

theorem filter_answer_commit? :
    (log.commit? index move).toList.filter (·.answer.isSome) =
      (answered? (index, move)).toList := by
  cases move with
  | began call => rfl
  | made call event => cases h : event.answer? <;> simp [commit?, answered?, h]
  | ended call ending => by_cases h : (log.transcript index).asked <;> simp [commit?, answered?, h]

/-- The calls that ask for the lock take effect in the order in which they are answered. -/
theorem filter_answer_foldl (moves : List (Nat × Move π α κ ρ)) :
    (moves.foldl read log).commits.filter (·.answer.isSome) =
      log.commits.filter (·.answer.isSome) ++ moves.filterMap answered? := by
  induction moves generalizing log with
  | nil => simp
  | cons entry moves ih =>
    have hentry := filter_answer_commit? log entry.1 entry.2
    rw [List.foldl_cons, ih, read, List.filter_append, hentry, List.append_assoc,
      List.filterMap_cons]
    cases answered? (entry.1, entry.2) <;> rfl

end Log

section InTurn

variable (code : κ → Routine π α ρ) (strategy : Strategy α)

/-- What a call comes to on its own. -/
def Commit.solo (commit : Commit κ) (value : π) : Solo π α ρ :=
  (code commit.call).solo strategy (commit.answer.getD (.ok ())) value []

/-- Calls made one after another, each with what it comes to. -/
def inTurn : List (Commit κ) → π → List (Commit κ × Solo π α ρ)
  | [], _ => []
  | commit :: commits, value =>
    (commit, commit.solo code strategy value) ::
      inTurn commits (commit.solo code strategy value).value

/-- The guarded value after calls made one after another. -/
def valueAfter (commits : List (Commit κ)) (value : π) : π :=
  commits.foldl (fun value commit => (commit.solo code strategy value).value) value

/-- What a thread sees of calls made one after another. -/
def performances (commits : List (Commit κ)) (value : π) (index : Nat) :
    List (Performance α κ ρ) :=
  ((inTurn code strategy commits value).filter fun pair => pair.1.thread = index).map
    fun (commit, solo) => ⟨commit.call, solo.ending, solo.calls⟩

variable (commits : List (Commit κ)) (commit : Commit κ) (value : π)

theorem valueAfter_append_singleton :
    valueAfter code strategy (commits ++ [commit]) value =
      (commit.solo code strategy (valueAfter code strategy commits value)).value := by
  simp [valueAfter]

theorem inTurn_append_singleton :
    inTurn code strategy (commits ++ [commit]) value =
      inTurn code strategy commits value ++
        [(commit, commit.solo code strategy (valueAfter code strategy commits value))] := by
  induction commits generalizing value with
  | nil => rfl
  | cons first commits ih =>
    rw [List.cons_append, inTurn, ih, inTurn, List.cons_append]
    rfl

theorem performances_append_of_ne {index : Nat} (h : commit.thread ≠ index) :
    performances code strategy (commits ++ [commit]) value index =
      performances code strategy commits value index := by
  simp [performances, inTurn_append_singleton, h]

theorem performances_append_self :
    performances code strategy (commits ++ [commit]) value commit.thread =
      performances code strategy commits value commit.thread ++
        [⟨commit.call, (commit.solo code strategy (valueAfter code strategy commits value)).ending,
          (commit.solo code strategy (valueAfter code strategy commits value)).calls⟩] := by
  simp [performances, inTurn_append_singleton]

theorem map_call_performances (index : Nat) :
    (performances code strategy commits value index).map Performance.call =
      (commits.filter fun commit => commit.thread = index).map Commit.call := by
  induction commits generalizing value with
  | nil => rfl
  | cons commit commits ih =>
    have hrest := ih (commit.solo code strategy value).value
    simp only [performances, List.map_map] at hrest
    by_cases hcommit : commit.thread = index
    · simp [performances, inTurn, hcommit, hrest]
    · simp [performances, inTurn, hcommit, hrest]

end InTurn

section Moves

variable [Journal ω]

/-- The moves that a thread can make. -/
inductive Thread.Moves (setting : Setting ω σ π α κ ρ) (thread : Thread π α κ ρ) (cell : Cell σ π)
    (memory : ω) : Move π α κ ρ → Thread π α κ ρ → Cell σ π → ω → Prop
  | began {call : κ} (hidle : thread.running = none)
      (hplan : thread.plan thread.history = some call) :
      Moves setting thread cell memory (.began call)
        { thread with running := some (call, setting.code call) } cell memory
  | ended {call : κ} {ending : Ending ρ} (hrunning : thread.running = some (call, .finish ending)) :
      Moves setting thread cell memory (.ended call ending)
        { thread with history := (call, ending) :: thread.history, running := none } cell memory
  | made {call : κ} {routine : Routine π α ρ} {next : Advance ω σ π α ρ}
      (hrunning : thread.running = some (call, routine))
      (hstep : routine.step setting.lock setting.hooks cell memory = some next) :
      Moves setting thread cell memory (.made call next.event)
        { thread with running := some (call, next.rest) } next.cell next.memory

theorem Thread.moves_of_step {setting : Setting ω σ π α κ ρ} {thread thread' : Thread π α κ ρ}
    {cell cell' : Cell σ π} {memory memory' : ω} {move : Move π α κ ρ}
    (h : thread.step setting cell memory = some (move, thread', cell', memory')) :
    thread.Moves setting cell memory move thread' cell' memory' := by
  unfold step at h
  split at h
  · rename_i hidle
    simp only [Option.map_eq_some_iff, Prod.mk.injEq] at h
    obtain ⟨call, hplan, rfl, rfl, rfl, rfl⟩ := h
    exact .began hidle hplan
  · rename_i call ending hrunning
    simp only [Option.some.injEq, Prod.mk.injEq] at h
    obtain ⟨rfl, rfl, rfl, rfl⟩ := h
    exact .ended hrunning
  · rename_i call routine _ hrunning
    simp only [Option.map_eq_some_iff, Prod.mk.injEq] at h
    obtain ⟨next, hstep, rfl, rfl, rfl, rfl⟩ := h
    exact .made hrunning hstep

/-- A move of the pool is a move of one thread, and leaves the other threads as they are. -/
theorem Pool.moves_of_step {setting : Setting ω σ π α κ ρ} {index : Nat}
    {pool next : Pool ω σ π α κ ρ} {move : Move π α κ ρ}
    (h : pool.step setting index = some (move, next)) :
    ∃ thread thread', pool.threads[index]? = some thread ∧
      thread.Moves setting pool.cell pool.memory move thread' next.cell next.memory ∧
      next.threads = pool.threads.set index thread' := by
  unfold step at h
  split at h
  · cases h
  · rename_i thread hthread
    simp only [Option.map_eq_some_iff, Prod.mk.injEq] at h
    obtain ⟨⟨_, thread', _, _⟩, hstep, rfl, rfl⟩ := h
    exact ⟨thread, thread', hthread, Thread.moves_of_step hstep, rfl⟩

/-- A schedule may be broken off anywhere. -/
theorem follow_take {setting : Setting ω σ π α κ ρ} {schedule : List Nat}
    {pool last : Pool ω σ π α κ ρ} {moves : List (Nat × Move π α κ ρ)}
    (hfollow : pool.follow setting schedule = some (moves, last)) (count : Nat) :
    ∃ middle, pool.follow setting (schedule.take count) = some (moves.take count, middle) := by
  induction schedule generalizing pool moves count with
  | nil =>
    simp only [Pool.follow, Option.some.injEq, Prod.mk.injEq] at hfollow
    obtain ⟨rfl, rfl⟩ := hfollow
    exact ⟨pool, by simp [Pool.follow]⟩
  | cons index schedule ih =>
    cases count with
    | zero => exact ⟨pool, by simp [Pool.follow]⟩
    | succ count =>
      simp only [Pool.follow, Option.bind_eq_some_iff, Option.map_eq_some_iff, Prod.mk.injEq]
        at hfollow
      obtain ⟨⟨move, next⟩, hstep, ⟨later, _⟩, hlater, rfl, rfl⟩ := hfollow
      obtain ⟨middle, hmiddle⟩ := ih hlater count
      exact ⟨middle, by simp [Pool.follow, hstep, hmiddle]⟩

/-- No move adds a thread or takes one away. -/
theorem length_threads_of_follow {setting : Setting ω σ π α κ ρ} {schedule : List Nat}
    {pool last : Pool ω σ π α κ ρ} {moves : List (Nat × Move π α κ ρ)}
    (hfollow : pool.follow setting schedule = some (moves, last)) :
    last.threads.length = pool.threads.length := by
  induction schedule generalizing pool moves with
  | nil =>
    simp only [Pool.follow, Option.some.injEq, Prod.mk.injEq] at hfollow
    rw [hfollow.2]
  | cons index schedule ih =>
    simp only [Pool.follow, Option.bind_eq_some_iff, Option.map_eq_some_iff, Prod.mk.injEq]
      at hfollow
    obtain ⟨⟨move, next⟩, hstep, ⟨later, _⟩, hlater, -, rfl⟩ := hfollow
    obtain ⟨before, after, -, -, hthreads⟩ := Pool.moves_of_step hstep
    rw [ih hlater, hthreads, List.length_set]

theorem length_threads_ofPlans {setting : Setting ω σ π α κ ρ} {cell : Cell σ π} {memory : ω}
    {plans : List (Plan κ ρ)} {schedule : List Nat} {last : Pool ω σ π α κ ρ}
    {moves : List (Nat × Move π α κ ρ)}
    (hfollow : (Pool.ofPlans cell memory plans).follow setting schedule = some (moves, last)) :
    last.threads.length = plans.length := by
  rw [length_threads_of_follow hfollow, Pool.ofPlans, List.length_map]

theorem Thread.Moves.history_read {setting : Setting ω σ π α κ ρ} {thread thread' : Thread π α κ ρ}
    {cell cell' : Cell σ π} {memory memory' : ω} {move : Move π α κ ρ}
    {transcript : Transcript α κ ρ}
    (hmoves : thread.Moves setting cell memory move thread' cell' memory')
    (h : thread.history = transcript.history) :
    thread'.history = (transcript.read move).history := by
  cases hmoves with
  | began => exact h
  | ended => simp [Transcript.read, Transcript.history, h]
  | made => exact h

/-- The history of a thread is what the log tells of it. -/
theorem history_of_follow {setting : Setting ω σ π α κ ρ} {schedule : List Nat}
    {pool last : Pool ω σ π α κ ρ} {moves : List (Nat × Move π α κ ρ)} {log : Log α κ ρ}
    (hlog : ∀ {index thread}, pool.threads[index]? = some thread →
      thread.history = (log.transcript index).history)
    (hfollow : pool.follow setting schedule = some (moves, last)) {index : Nat}
    {thread : Thread π α κ ρ} (hthread : last.threads[index]? = some thread) :
    thread.history = ((moves.foldl Log.read log).transcript index).history := by
  induction schedule generalizing pool moves log with
  | nil =>
    simp only [Pool.follow, Option.some.injEq, Prod.mk.injEq] at hfollow
    obtain ⟨rfl, rfl⟩ := hfollow
    exact hlog hthread
  | cons mover schedule ih =>
    simp only [Pool.follow, Option.bind_eq_some_iff, Option.map_eq_some_iff, Prod.mk.injEq]
      at hfollow
    obtain ⟨⟨move, next⟩, hstep, ⟨later, _⟩, hlater, rfl, rfl⟩ := hfollow
    rw [List.foldl_cons]
    apply ih _ hlater
    intro other current hcurrent
    obtain ⟨before, after, hbefore, hmoves, hthreads⟩ := Pool.moves_of_step hstep
    rw [hthreads] at hcurrent
    by_cases hother : other = mover
    · subst hother
      have hlength := (List.getElem?_eq_some_iff.1 hbefore).1
      rw [List.getElem?_set_self hlength] at hcurrent
      obtain rfl := Option.some.inj hcurrent
      rw [Log.transcript_read_self]
      exact hmoves.history_read (hlog hbefore)
    · rw [List.getElem?_set_ne (Ne.symm hother)] at hcurrent
      rw [Log.transcript_read_of_ne _ _ _ hother]
      exact hlog hcurrent

theorem history_of_follow_ofPlans {setting : Setting ω σ π α κ ρ} {cell : Cell σ π} {memory : ω}
    {plans : List (Plan κ ρ)} {schedule : List Nat} {last : Pool ω σ π α κ ρ}
    {moves : List (Nat × Move π α κ ρ)}
    (hfollow : (Pool.ofPlans cell memory plans).follow setting schedule = some (moves, last))
    {index : Nat} {thread : Thread π α κ ρ} (hthread : last.threads[index]? = some thread) :
    thread.history = ((Log.ofMoves moves).transcript index).history := by
  refine history_of_follow ?_ hfollow hthread
  intro other first hfirst
  simp only [Pool.ofPlans, List.getElem?_map, Option.map_eq_some_iff] at hfirst
  obtain ⟨plan, -, rfl⟩ := hfirst
  rfl

end Moves

section Programs

variable [Journal ω] {setting : Setting ω σ π α κ ρ}

/-- What a thread's moves preserve is true of the thread at every moment. -/
theorem Pool.follow_induction (property : Nat → Thread π α κ ρ → Prop)
    (hmoves : ∀ {index : Nat} {thread thread' : Thread π α κ ρ} {cell cell' : Cell σ π}
      {memory memory' : ω} {move : Move π α κ ρ},
      thread.Moves setting cell memory move thread' cell' memory' → property index thread →
        property index thread')
    {pool last : Pool ω σ π α κ ρ} {schedule : List Nat} {moves : List (Nat × Move π α κ ρ)}
    (hfollow : pool.follow setting schedule = some (moves, last))
    (hpool : ∀ {index thread}, pool.threads[index]? = some thread → property index thread)
    {index : Nat} {thread : Thread π α κ ρ} (hthread : last.threads[index]? = some thread) :
    property index thread := by
  induction schedule generalizing pool moves with
  | nil =>
    cases hfollow
    exact hpool hthread
  | cons mover schedule ih =>
    simp only [Pool.follow, Option.bind_eq_some_iff, Option.map_eq_some_iff, Prod.mk.injEq]
      at hfollow
    obtain ⟨⟨move, next⟩, hstep, ⟨later, _⟩, hlater, rfl, rfl⟩ := hfollow
    obtain ⟨before, after, hbefore, hmove, hthreads⟩ := Pool.moves_of_step hstep
    apply ih hlater
    intro other current hcurrent
    rw [hthreads, List.getElem?_set] at hcurrent
    by_cases hother : mover = other
    · subst hother
      have hmover : mover < pool.threads.length := (List.getElem?_eq_some_iff.1 hbefore).1
      rw [if_pos rfl, if_pos hmover, Option.some.injEq] at hcurrent
      subst hcurrent
      exact hmoves hmove (hpool hbefore)
    · rw [if_neg hother] at hcurrent
      exact hpool hcurrent

/-- The thread makes the calls of a program in order. -/
structure Thread.Executes (calls : List κ) (thread : Thread π α κ ρ) : Prop where
  plan : thread.plan = Plan.inOrder calls
  begun : thread.history.reverse.map Prod.fst ++ (thread.running.map Prod.fst).toList <+: calls

theorem Thread.Executes.moves {calls : List κ} {thread thread' : Thread π α κ ρ}
    {cell cell' : Cell σ π} {memory memory' : ω} {move : Move π α κ ρ}
    (hmoves : thread.Moves setting cell memory move thread' cell' memory')
    (h : thread.Executes calls) : thread'.Executes calls := by
  obtain ⟨hplan, hbegun⟩ := h
  cases hmoves with
  | @began call hidle hnext =>
    refine ⟨hplan, ?_⟩
    rw [hplan, Plan.inOrder] at hnext
    rw [hidle, Option.map_none, Option.toList_none, List.append_nil] at hbegun
    have htake := List.prefix_iff_eq_take.1 hbegun
    rw [List.length_map, List.length_reverse] at htake
    rw [htake, Option.map_some, Option.toList_some, ← Option.toList_some, ← hnext,
      ← List.take_add_one]
    exact List.take_prefix _ _
  | ended hrunning =>
    refine ⟨hplan, ?_⟩
    simpa [hrunning] using hbegun
  | made hrunning hstep =>
    refine ⟨hplan, ?_⟩
    simpa [hrunning] using hbegun

theorem Thread.idle_of_isDone {thread : Thread π α κ ρ} (h : thread.isDone = true) :
    thread.running = none := by
  rw [isDone, Bool.and_eq_true] at h
  exact Option.isNone_iff_eq_none.1 h.1

/-- A thread that is done has made the calls of its program. -/
theorem Thread.Executes.calls_of_isDone {calls : List κ} {thread : Thread π α κ ρ}
    (h : thread.Executes calls) (hdone : thread.isDone = true) :
    thread.history.reverse.map Prod.fst = calls := by
  obtain ⟨hplan, hbegun⟩ := h
  rw [Thread.isDone, Bool.and_eq_true, hplan, Plan.inOrder] at hdone
  obtain ⟨hidle, hnext⟩ := hdone
  rw [Option.isNone_iff_eq_none] at hidle hnext
  rw [hidle, Option.map_none, Option.toList_none, List.append_nil] at hbegun
  apply hbegun.eq_of_length_le
  rw [List.length_map, List.length_reverse]
  exact List.getElem?_eq_none_iff.1 hnext

/-- A thread with a program makes the calls of its program, at every moment. -/
theorem executes_of_follow {start : Cell σ π} {memory : ω} {programs : List (List κ)}
    {schedule : List Nat} {moves : List (Nat × Move π α κ ρ)} {pool : Pool ω σ π α κ ρ}
    (hfollow : (Pool.ofPlans start memory (programs.map Plan.inOrder)).follow setting schedule =
      some (moves, pool))
    {index : Nat} {calls : List κ} (hcalls : programs[index]? = some calls)
    {thread : Thread π α κ ρ} (hthread : pool.threads[index]? = some thread) :
    thread.Executes calls := by
  have hexecutes := Pool.follow_induction
    (fun index thread => ∀ calls, programs[index]? = some calls → thread.Executes calls)
    (fun hmoves h calls hcalls => (h calls hcalls).moves hmoves) hfollow
  refine hexecutes ?_ hthread calls hcalls
  intro index thread hthread calls hcalls
  simp only [Pool.ofPlans, List.map_map, List.getElem?_map, hcalls, Option.map_some,
    Option.some.injEq] at hthread
  subst hthread
  exact ⟨rfl, List.nil_prefix⟩

/-- When threads with programs are done, each has made the calls of its program. -/
theorem calls_of_follow {start : Cell σ π} {memory : ω} {programs : List (List κ)}
    {schedule : List Nat} {moves : List (Nat × Move π α κ ρ)} {pool : Pool ω σ π α κ ρ}
    (hfollow : (Pool.ofPlans start memory (programs.map Plan.inOrder)).follow setting schedule =
      some (moves, pool))
    {index : Nat} {calls : List κ} (hcalls : programs[index]? = some calls)
    {thread : Thread π α κ ρ} (hthread : pool.threads[index]? = some thread)
    (hdone : thread.isDone = true) : thread.history.reverse.map Prod.fst = calls :=
  (executes_of_follow hfollow hcalls hthread).calls_of_isDone hdone

end Programs

end GuardedList
