import GuardedList.Proofs.Interleaving
import GuardedList.Proofs.Session

/-!
# Linearization

Threads that share a list cannot tell whether the calls of the others alternate with theirs. What
they see, and what is left of the list in the end, is what a session of all calls gives, made one
after another in the order in which they took effect.

The session is one on a lock that gives the same answers again (`Lock.answering`). If the list's own
lock is serial, it is a session on that lock too: it finds the lock poisoned just where the threads
did.
-/

namespace GuardedList

variable {ω σ σ' α : Type}

section Session

variable [Journal ω] {lock : Lock ω σ} {strategy : Strategy α} {size : Nat}

/-- On a lock that is sure to answer as it does here, an operation is its routine on its own with
that answer. -/
theorem serve_eq_solo_of_sure (depth : Nat) (operation : Operation α) (cell : Cell σ (Chain α))
    (past : List (HookCall α)) (memory : ω) (answer : Except LockError Unit) {next : σ}
    (hsure : lock.Sure cell.lock
      ((operation.routine size).solo strategy answer cell.value past).lockEvents next) :
    ∃ rest, let solo := (operation.routine size).solo strategy answer cell.value past
      serve depth operation ⟨size, lock.recorded, some cell, some strategy.hooks⟩ ⟨past, memory⟩ =
        some ⟨solo.ending, ⟨size, lock.recorded, some ⟨next, solo.value⟩, some strategy.hooks⟩,
          ⟨past ++ solo.calls, rest⟩⟩ := by
  have houtside := operation.outside_routine size
  rcases houtside.unasked_or_asks strategy past with hnever | hasks
  · obtain ⟨-, hnone, -⟩ := hnever (.ok ()) answer cell.value
    obtain ⟨answer', state, rest, -, huse, hserve⟩ := serve_eq_solo lock strategy size depth
      operation cell past memory fun hasked => absurd hnone hasked
    obtain ⟨hsame, -, -⟩ := hnever answer' answer cell.value
    dsimp only at hsame
    rw [hsame] at huse hserve
    rw [hsure.next_unique huse] at hserve
    exact ⟨rest, hserve⟩
  · have hevents : ∀ answer, ∃ later,
        ((operation.routine size).solo strategy answer cell.value past).lockEvents =
          .ofAnswer answer :: later := by
      intro answer
      cases answer with
      | ok =>
        obtain ⟨manner, hevents⟩ := hasks.granted cell.value
        exact ⟨_, hevents⟩
      | error cause => exact ⟨_, hasks.refused cause cell.value⟩
    obtain ⟨later, hlater⟩ := hevents answer
    have hanswered : ∀ memory, (lock.acquire cell.lock memory).1 ≠ .blocked := by
      rw [hlater] at hsure
      exact hsure.not_blocked
    obtain ⟨answer', state, rest, -, huse, hserve⟩ := serve_eq_solo lock strategy size depth
      operation cell past memory fun _ => hanswered
    obtain ⟨later', hlater'⟩ := hevents answer'
    have hanswer : answer' = answer := by
      rw [hlater] at hsure
      rw [hlater'] at huse
      exact hsure.answer_unique huse
    subst hanswer
    rw [hsure.next_unique huse] at hserve
    exact ⟨rest, hserve⟩

/-- A session of calls that a lock is sure to answer, each as it was answered when it took effect.
-/
theorem session_of_sureUses (steady : strategy.Steady) (depth : Nat)
    {commits : List (Commit (Operation α))} {cell : Cell σ (Chain α)} {next : σ}
    (hsure : lock.SureUses cell.lock
      ((inTurn (Operation.routine size) strategy commits cell.value).map (·.2.lockEvents)) next)
    (past : List (HookCall α)) (memory : ω) :
    ∃ episodes left,
      session depth (commits.map fun commit => .call commit.call)
          ⟨size, lock.recorded, some cell, some strategy.hooks⟩ ⟨past, memory⟩ =
        some (episodes, ⟨size, lock.recorded,
          some ⟨next, valueAfter (Operation.routine size) strategy commits cell.value⟩,
          some strategy.hooks⟩, left) ∧
      episodes.map (fun episode => (episode.result, episode.calls)) =
        (inTurn (Operation.routine size) strategy commits cell.value).map
          fun pair => (pair.2.ending, pair.2.calls) := by
  induction commits generalizing cell past memory with
  | nil =>
    cases hsure
    exact ⟨[], _, rfl, rfl⟩
  | cons commit commits ih =>
    rw [inTurn, List.map_cons] at hsure
    cases hsure with
    | cons huse hrest =>
      rename_i state
      -- In its turn the call comes after other hook calls than it came after among the threads.
      have hsolo := Routine.solo_of_steady steady (commit.call.routine size)
        (commit.answer.getD (.ok ())) cell.value past []
      have huse' : lock.Sure cell.lock ((commit.call.routine size).solo strategy
          (commit.answer.getD (.ok ())) cell.value past).lockEvents state := by
        rw [hsolo]
        exact huse
      obtain ⟨middle, hserve⟩ := serve_eq_solo_of_sure depth commit.call cell past memory
        (commit.answer.getD (.ok ())) huse'
      rw [hsolo] at hserve
      let solo := commit.solo (Operation.routine size) strategy cell.value
      let after : Cell σ (Chain α) := ⟨state, solo.value⟩
      have hafter : lock.SureUses after.lock ((inTurn (Operation.routine size) strategy commits
          after.value).map (·.2.lockEvents)) next := hrest
      obtain ⟨episodes, left, hsession, hepisodes⟩ := ih hafter (past ++ solo.calls) middle
      refine ⟨⟨.call commit.call, some cell.value.toList, solo.ending, solo.calls,
        some solo.value.toList⟩ :: episodes, left, ?_, ?_⟩
      · rw [List.map_cons, session, perform, hserve]
        change (session depth _ ⟨size, lock.recorded, some after, some strategy.hooks⟩
          ⟨past ++ solo.calls, middle⟩).map _ = _
        rw [hsession]
        simp only [Option.map_some, List.drop_left]
        rfl
      · rw [List.map_cons, hepisodes]
        rfl

end Session

section Pool

variable {π κ ρ : Type} {code : κ → Routine π α ρ} {strategy : Strategy α} {lock : Lock ω σ}

/-- Calls that did not ask for the lock do nothing to it. -/
theorem sureUses_of_answered {pairs : List (Commit κ × Solo π α ρ)}
    (hanswered : ∀ pair ∈ pairs, Answered pair.1 pair.2) {first last : σ}
    (h : lock.SureUses first (pairs.filterMap fun (commit, solo) =>
      commit.answer.map fun _ => solo.lockEvents) last) :
    lock.SureUses first (pairs.map (·.2.lockEvents)) last := by
  induction pairs generalizing first with
  | nil => exact h
  | cons pair pairs ih =>
    obtain ⟨⟨thread, call, answer⟩, solo⟩ := pair
    have hpair := hanswered _ (.head _)
    have hpairs : ∀ pair ∈ pairs, Answered pair.1 pair.2 :=
      fun pair hpair => hanswered pair (.tail _ hpair)
    rw [List.map_cons]
    cases answer with
    | none =>
      have hnone : solo.lockEvents = [] := hpair
      rw [hnone]
      exact .cons .unasked (ih hpairs h)
    | some answer =>
      change lock.SureUses first (solo.lockEvents :: pairs.filterMap _) last at h
      cases h with
      | cons huse hrest => exact .cons huse (ih hpairs hrest)

/-- A lock that gives the same answers again is sure to be put to the same uses. -/
theorem sureUses_answering (hcode : ∀ call, (code call).Outside) {commits : List (Commit κ)}
    {value : π}
    (hanswered : ∀ pair ∈ inTurn code strategy commits value, Answered pair.1 pair.2) :
    (Lock.answering : Lock ω _).SureUses (commits.filterMap Commit.answer)
      ((inTurn code strategy commits value).map (·.2.lockEvents)) [] := by
  induction commits generalizing value with
  | nil => exact .nil
  | cons commit commits ih =>
    have hfirst : Answered commit (commit.solo code strategy value) := hanswered _ (.head _)
    have hrest := ih fun pair hpair => hanswered pair (.tail _ hpair)
    obtain ⟨thread, call, answer⟩ := commit
    rw [inTurn, List.map_cons]
    cases answer with
    | none =>
      have hnone : (Commit.solo code strategy ⟨thread, call, none⟩ value).lockEvents = [] := hfirst
      dsimp only
      rw [hnone]
      exact .cons .unasked hrest
    | some answer =>
      change Lock.answering.SureUses (answer :: commits.filterMap Commit.answer) _ _
      obtain ⟨later, hlater⟩ := hfirst
      rcases (hcode call).unasked_or_asks strategy [] with hnever | hasks
      · have hnone := (hnever answer answer value).2.1
        dsimp only at hnone
        simp only [Commit.solo, Option.getD_some] at hlater
        rw [hnone] at hlater
        cases hlater
      · refine .cons ?_ hrest
        cases answer with
        | ok =>
          obtain ⟨manner, hevents⟩ := hasks.granted value
          simp only [Commit.solo, Option.getD_some, hevents]
          exact .granted manner (fun _ => rfl) fun _ => rfl
        | error cause =>
          have hevents := hasks.refused cause value
          simp only [Commit.solo, Option.getD_some, hevents]
          exact .refused fun _ => rfl

/-- What the log tells of a thread at some moment: its history, and that of its calls those have
taken effect that have ended, and perhaps the one under way. -/
structure Logged (log : Log α κ ρ) (index : Nat) (thread : Thread π α κ ρ) : Prop where
  history : thread.history = (log.transcript index).history
  effects : ∃ pending : List κ,
    (log.commits.filter fun commit => commit.thread = index).map Commit.call =
      (log.transcript index).finished.map Performance.call ++ pending ∧
    (pending = [] ∨ ∃ call routine, thread.running = some (call, routine) ∧ pending = [call])

theorem Interleaved.logged {held : σ → Prop} {start : Cell σ π} {log : Log α κ ρ}
    {pool : Pool (Recorded α ω) σ π α κ ρ} {holder : Option Nat}
    (h : Interleaved code strategy lock held start log pool holder) {index : Nat}
    {thread : Thread π α κ ρ} (hthread : pool.threads[index]? = some thread)
    (hhistory : thread.history = (log.transcript index).history) :
    Logged log index thread where
  history := hhistory
  effects := by
    rw [← map_call_performances code strategy log.commits start.value index]
    exact (h.standing hthread).effects

variable [Journal ω]

/-- At every moment of every schedule. -/
theorem logged_of_follow {held : σ → Prop} (exclusive : lock.Exclusive held)
    (steady : strategy.Steady) (hcode : ∀ call, (code call).Outside) {start : Cell σ π}
    {memory : Recorded α ω} {plans : List (Plan κ ρ)} {schedule : List Nat}
    {moves : List (Nat × Move π α κ ρ)} {pool : Pool (Recorded α ω) σ π α κ ρ}
    (hfollow : (Pool.ofPlans start memory plans).follow ⟨lock.recorded, strategy.hooks, code⟩
      schedule = some (moves, pool)) {index : Nat} {thread : Thread π α κ ρ}
    (hthread : pool.threads[index]? = some thread) : Logged (Log.ofMoves moves) index thread := by
  obtain ⟨holder, hlast⟩ := Interleaved.of_follow exclusive steady hcode hfollow
  exact hlast.logged hthread (history_of_follow_ofPlans hfollow hthread)

end Pool

section Lists

/-- What a thread sees of a session of the calls in `commits`. -/
def seenBy (index : Nat) (commits : List (Commit (Operation α))) (episodes : List (Episode α)) :
    List (Performance α (Operation α) (Reply α)) :=
  ((commits.zip episodes).filter fun pair => pair.1.thread = index).map
    fun (commit, episode) => ⟨commit.call, episode.result, episode.calls⟩

variable {strategy : Strategy α} {size : Nat}

theorem performances_eq_seenBy {commits : List (Commit (Operation α))} {value : Chain α}
    {episodes : List (Episode α)}
    (h : episodes.map (fun episode => (episode.result, episode.calls)) =
      (inTurn (Operation.routine size) strategy commits value).map
        fun pair => (pair.2.ending, pair.2.calls)) (index : Nat) :
    performances (Operation.routine size) strategy commits value index =
      seenBy index commits episodes := by
  induction commits generalizing value episodes with
  | nil => rfl
  | cons commit commits ih =>
    cases episodes with
    | nil => cases h
    | cons episode episodes =>
      rw [inTurn, List.map_cons, List.map_cons, List.cons.injEq, Prod.mk.injEq] at h
      obtain ⟨⟨hresult, hcalls⟩, hrest⟩ := h
      have hrest := ih hrest
      rw [performances, seenBy] at hrest
      by_cases hcommit : commit.thread = index
      · simp [performances, seenBy, inTurn, hcommit, hresult, hcalls, hrest]
      · simp [performances, seenBy, inTurn, hcommit, hrest]

variable [Journal ω]

/-- A session of the calls in the log, on a list that is at `first`, leaves the list at `last` and
shows every thread what the log tells of it. -/
def Linearizes (lock : Lock ω σ) (strategy : Strategy α) (size : Nat)
    (first last : Cell σ (Chain α)) (log : Log α (Operation α) (Reply α)) (threads : Nat) : Prop :=
  ∀ depth memory, ∃ episodes left,
    session depth (log.commits.map fun commit => .call commit.call)
        ⟨size, lock.recorded, some first, some strategy.hooks⟩ ⟨[], memory⟩ =
      some (episodes, ⟨size, lock.recorded, some last, some strategy.hooks⟩, left) ∧
    ∀ index < threads, (log.transcript index).finished = seenBy index log.commits episodes

theorem linearizes_of_sureUses {lock : Lock ω σ} (steady : strategy.Steady)
    {first last : Cell σ (Chain α)} {log : Log α (Operation α) (Reply α)} {threads : Nat}
    (hsure : lock.SureUses first.lock ((inTurn (Operation.routine size) strategy log.commits
      first.value).map (·.2.lockEvents)) last.lock)
    (hvalue : last.value = valueAfter (Operation.routine size) strategy log.commits first.value)
    (hfinished : ∀ index < threads, performances (Operation.routine size) strategy log.commits
      first.value index = (log.transcript index).finished) :
    Linearizes lock strategy size first last log threads := by
  intro depth memory
  obtain ⟨episodes, left, hsession, hepisodes⟩ := session_of_sureUses steady depth hsure [] memory
  rw [← hvalue] at hsession
  refine ⟨episodes, left, hsession, ?_⟩
  intro index hindex
  rw [← hfinished index hindex, performances_eq_seenBy hepisodes]

/-- Every way in which threads can share a list is explained by the order in which their calls take
effect. Those that ask for the lock are in the order of its answers. At every moment the calls of a
thread that have taken effect are those that have ended, and perhaps the one under way. Once no call
is under way, a session of all calls in that order, with the same answers of the lock, leaves the
same elements and shows every thread what it has seen; and so does a session on the lock itself, if
that is serial. -/
theorem linearizes_of_follow {lock : Lock ω σ} {held : σ → Prop} (exclusive : lock.Exclusive held)
    (steady : strategy.Steady) {cell : Cell σ (Chain α)} {memory : Recorded α ω}
    {plans : List (Plan (Operation α) (Reply α))} {schedule : List Nat}
    {moves : List (Nat × Move (Chain α) α (Operation α) (Reply α))}
    {pool : Pool (Recorded α ω) σ (Chain α) α (Operation α) (Reply α)}
    (hfollow : (Pool.ofPlans cell memory plans).follow
      ⟨lock.recorded, strategy.hooks, Operation.routine size⟩ schedule = some (moves, pool)) :
    let log := Log.ofMoves moves
    log.commits.filter (·.answer.isSome) = moves.filterMap Log.answered? ∧
    (∀ count, ∃ middle, (Pool.ofPlans cell memory plans).follow
        ⟨lock.recorded, strategy.hooks, Operation.routine size⟩ (schedule.take count) =
          some (moves.take count, middle) ∧
      (Log.ofMoves (moves.take count)).commits <+: log.commits ∧
      ∀ index < plans.length, ∃ thread, middle.threads[index]? = some thread ∧
        Logged (Log.ofMoves (moves.take count)) index thread) ∧
    ((∀ thread ∈ pool.threads, thread.running = none) →
      Linearizes (Lock.answering : Lock ω _) strategy size
        ⟨log.commits.filterMap Commit.answer, cell.value⟩ ⟨[], pool.cell.value⟩ log plans.length ∧
      (lock.Serial held → Linearizes lock strategy size cell pool.cell log plans.length)) := by
  have hcode : ∀ call : Operation α, (call.routine size).Outside :=
    fun call => call.outside_routine size
  intro log
  refine ⟨Log.filter_answer_foldl {} moves, ?_, ?_⟩
  · intro count
    obtain ⟨middle, hmiddle⟩ := follow_take hfollow count
    refine ⟨middle, hmiddle, ?_, ?_⟩
    · have hprefix := (Log.ofMoves (moves.take count)).commits_prefix_foldl (moves.drop count)
      rw [Log.ofMoves, ← List.foldl_append, List.take_append_drop] at hprefix
      exact hprefix
    · intro index hindex
      rw [← length_threads_ofPlans hmiddle] at hindex
      have hthread := List.getElem?_eq_getElem hindex
      exact ⟨_, hthread, logged_of_follow exclusive steady hcode hmiddle hthread⟩
  · intro hidle
    obtain ⟨holder, hlast⟩ := Interleaved.of_follow exclusive steady hcode hfollow
    obtain ⟨hrest, hfinished⟩ := hlast.idle hidle
    rw [length_threads_ofPlans hfollow] at hfinished
    constructor
    · have hsure := sureUses_answering (ω := ω) hcode hlast.answered
      exact linearizes_of_sureUses steady hsure hrest.value hfinished
    · intro serial
      have hsure := serial.sureUses (hrest.uses serial)
      exact linearizes_of_sureUses steady (sureUses_of_answered hlast.answered hsure) hrest.value
        hfinished

theorem Strategy.steady_brittle : brittle.Steady := ⟨fun _ _ _ => rfl, fun _ _ _ => rfl⟩

/-- An addition copies its value while an update is under way, is refused because the update
panicked, and gives its copy up while its rival makes one more call. -/
theorem linearizes_of_follow_brittle :
    (Lock.poisoning : Lock (List Message) Poisoning).Serial (·.held = true) ∧
    Strategy.brittle.Steady ∧
    let start : Cell Poisoning (Chain Nat) := ⟨{}, .link 3 .empty⟩
    let plans : List (Plan (Operation Nat) (Reply Nat)) :=
      [.inOrder [.update 0 6, .releaseValue 8], .inOrder [.add 4]]
    let memory : Recorded Nat (List Message) := ⟨[], []⟩
    ∃ moves pool, (Pool.ofPlans start memory plans).follow
        ⟨Lock.poisoning.recorded, Strategy.brittle.hooks, Operation.routine 8⟩
        [0, 1, 1, 0, 0, 0, 0, 0, 0, 1, 0, 1, 0, 0, 1, 0, 1] = some (moves, pool) ∧
      (∀ thread ∈ pool.threads, thread.running = none) ∧
      pool.cell.value.toList = [0] ∧
      (Log.ofMoves moves).commits.map (fun commit =>
          (commit.thread, commit.answer.map Except.isOk)) =
        [(0, some true), (1, some false), (0, none)] ∧
      Linearizes (Lock.poisoning : Lock (List Message) _) .brittle 8 start pool.cell
        (Log.ofMoves moves) 2 := by
  have serial : (Lock.poisoning : Lock (List Message) Poisoning).Serial (·.held = true) :=
    Lock.serial_poisoning
  refine ⟨serial, Strategy.steady_brittle, ?_⟩
  intro start plans memory
  have hrun : ((Pool.ofPlans start memory plans).follow
      ⟨Lock.poisoning.recorded, Strategy.brittle.hooks, Operation.routine 8⟩
      [0, 1, 1, 0, 0, 0, 0, 0, 0, 1, 0, 1, 0, 0, 1, 0, 1]).map (fun (moves, pool) =>
        (pool.threads.all (·.running.isNone), pool.cell.value.toList,
          (Log.ofMoves moves).commits.map fun commit =>
            (commit.thread, commit.answer.map Except.isOk))) =
      some (true, [0], [(0, some true), (1, some false), (0, none)]) := by decide +kernel
  simp only [Option.map_eq_some_iff, Prod.mk.injEq] at hrun
  obtain ⟨⟨moves, pool⟩, hfollow, hall, hvalue, hcommits⟩ := hrun
  have hidle : ∀ thread ∈ pool.threads, thread.running = none := by
    intro thread hthread
    exact Option.isNone_iff_eq_none.1 (List.all_eq_true.1 hall thread hthread)
  obtain ⟨-, -, hlinear⟩ := linearizes_of_follow serial.toExclusive Strategy.steady_brittle hfollow
  exact ⟨moves, pool, hfollow, hidle, hvalue, hcommits, (hlinear hidle).2 serial⟩

end Lists

end GuardedList
