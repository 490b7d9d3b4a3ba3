import GuardedList.Proofs.Exclusion
import GuardedList.Proofs.Schedule

/-!
# Interleaved calls

Threads that make calls on one guarded value, whichever way their moves alternate, see what they
would see if the calls were made one after another in the order in which they take effect
(`inTurn`).

The invariant (`Interleaved`) has a part for each thread (`Standing`) and one for the cell. While
nobody holds the lock the guarded value is the one after all calls made so far (`AtRest`); while
somebody holds it, that value is the one that the holder is going to leave (`InHands`). It rests on
nothing but mutual exclusion.
-/

namespace GuardedList

variable {ω σ π α κ ρ : Type}

section Invariant

variable (code : κ → Routine π α ρ) (strategy : Strategy α)

/-- Where a thread stands: what it sees of the calls made one after another (`performed`) against
what its transcript tells so far. The flag says whether it holds the lock. -/
inductive Standing (value : π) (performed : List (Performance α κ ρ))
    (transcript : Transcript α κ ρ) : Bool → Option (κ × Routine π α ρ) → Prop
  | idle (hasked : transcript.asked = false) (hperformed : performed = transcript.finished) :
      Standing value performed transcript false none
  /-- The call under way has not taken effect. -/
  | outside {call : κ} {routine : Routine π α ρ} (done : List (Event π α))
      (houtside : routine.Outside) (hasked : transcript.asked = false)
      (hperformed : performed = transcript.finished)
      (hcalls : done.filterMap Event.hookCall? = transcript.calls)
      (hdone : done.filter Event.isLock = [])
      (hsolo : ∀ answer value, (code call).solo strategy answer value [] =
        (routine.solo strategy answer value []).afterAll done) :
      Standing value performed transcript false (some (call, routine))
  /-- The call under way has taken effect and works on the guarded value. -/
  | inside {call : κ} {routine : Routine π α ρ} (hinside : routine.Inside)
      (hasked : transcript.asked = true)
      (hperformed : performed = transcript.finished ++
        [⟨call, (routine.solo strategy (.ok ()) value []).ending,
          transcript.calls ++ (routine.solo strategy (.ok ()) value []).calls⟩]) :
      Standing value performed transcript true (some (call, routine))
  /-- The call under way has taken effect, and nothing can change what it comes to. -/
  | past {call : κ} {routine : Routine π α ρ} (hpast : routine.Past)
      (hasked : transcript.asked = true)
      (hperformed : ∀ answer value, performed = transcript.finished ++
        [⟨call, (routine.solo strategy answer value []).ending,
          transcript.calls ++ (routine.solo strategy answer value []).calls⟩]) :
      Standing value performed transcript false (some (call, routine))

/-- What happened to the lock in the calls that asked for it, when calls are made one after another.
-/
def lockUses (commits : List (Commit κ)) (value : π) : List (List (Event π α)) :=
  (inTurn code strategy commits value).filterMap fun (commit, solo) =>
    commit.answer.map fun _ => solo.lockEvents

/-- A call made in its turn asks for the lock just if it did so when it took effect. -/
def Answered (commit : Commit κ) (solo : Solo π α ρ) : Prop :=
  match commit.answer with
  | none => solo.lockEvents = []
  | some answer => ∃ later, solo.lockEvents = .ofAnswer answer :: later

variable (lock : Lock ω σ) (held : σ → Prop) (start : Cell σ π) (commits : List (Commit κ))

/-- The cell while nobody holds the lock. -/
structure AtRest (cell : Cell σ π) : Prop where
  value : cell.value = valueAfter code strategy commits start.value
  uses : lock.Serial held →
    lock.Uses start.lock (lockUses code strategy commits start.value) cell.lock

/-- The cell while somebody holds the lock and still has `routine` to do. -/
structure InHands (cell : Cell σ π) (routine : Routine π α ρ) : Prop where
  holds : held cell.lock
  value : (routine.solo strategy (.ok ()) cell.value []).value =
    valueAfter code strategy commits start.value
  uses : lock.Serial held → ∃ earlier state before after,
    lockUses code strategy commits start.value =
      earlier ++ [.granted :: (routine.solo strategy (.ok ()) cell.value []).lockEvents] ∧
    lock.Uses start.lock earlier state ∧ lock.acquire state before = (.granted cell.lock, after)

/-- The invariant of threads that share a cell: the log fits the pool, and `holder` has the lock. -/
structure Interleaved (log : Log α κ ρ) (pool : Pool (Recorded α ω) σ π α κ ρ)
    (holder : Option Nat) : Prop where
  standing {index : Nat} {thread : Thread π α κ ρ} : pool.threads[index]? = some thread →
    Standing code strategy pool.cell.value
      (performances code strategy log.commits start.value index) (log.transcript index)
      (decide (holder = some index)) thread.running
  rest : holder = none → AtRest code strategy lock held start log.commits pool.cell
  hands {index : Nat} : holder = some index → ∃ thread call routine,
    pool.threads[index]? = some thread ∧ thread.running = some (call, routine) ∧
    InHands code strategy lock held start log.commits pool.cell routine
  answered : ∀ pair ∈ inTurn code strategy log.commits start.value, Answered pair.1 pair.2

end Invariant

section Commits

variable {code : κ → Routine π α ρ} {strategy : Strategy α} {lock : Lock ω σ} {held : σ → Prop}
  {start cell : Cell σ π} {commits : List (Commit κ)} {commit : Commit κ}

theorem lockUses_append_of_none (h : commit.answer = none) (value : π) :
    lockUses code strategy (commits ++ [commit]) value = lockUses code strategy commits value := by
  simp [lockUses, inTurn_append_singleton, h]

theorem lockUses_append_of_some {answer : Except LockError Unit} (h : commit.answer = some answer)
    (value : π) :
    lockUses code strategy (commits ++ [commit]) value = lockUses code strategy commits value ++
      [(commit.solo code strategy (valueAfter code strategy commits value)).lockEvents] := by
  simp [lockUses, inTurn_append_singleton, h]

/-- Only the holder's standing depends on the guarded value. -/
theorem Standing.of_not_holding {value value' : π} {performed : List (Performance α κ ρ)}
    {transcript : Transcript α κ ρ} {running : Option (κ × Routine π α ρ)}
    (h : Standing code strategy value performed transcript false running) :
    Standing code strategy value' performed transcript false running := by
  cases h with
  | idle hasked hperformed => exact .idle hasked hperformed
  | outside done houtside hasked hperformed hcalls hdone hsolo =>
    exact .outside done houtside hasked hperformed hcalls hdone hsolo
  | past hpast hasked hperformed => exact .past hpast hasked hperformed

/-- Of a thread's calls those have taken effect that have ended, and perhaps the one under way. -/
theorem Standing.effects {value : π} {performed : List (Performance α κ ρ)}
    {transcript : Transcript α κ ρ} {flag : Bool} {running : Option (κ × Routine π α ρ)}
    (h : Standing code strategy value performed transcript flag running) :
    ∃ pending : List κ,
      performed.map Performance.call = transcript.finished.map Performance.call ++ pending ∧
      (pending = [] ∨ ∃ call routine, running = some (call, routine) ∧ pending = [call]) := by
  cases h with
  | idle _ hperformed => exact ⟨[], by simp [hperformed], .inl rfl⟩
  | outside _ _ _ hperformed => exact ⟨[], by simp [hperformed], .inl rfl⟩
  | @inside call routine _ _ hperformed =>
    exact ⟨[call], by simp [hperformed], .inr ⟨call, routine, rfl, rfl⟩⟩
  | @past call routine _ _ hperformed =>
    exact ⟨[call], by simp [hperformed (.ok ()) value], .inr ⟨call, routine, rfl, rfl⟩⟩

/-- A call that never asks for the lock changes nothing. -/
theorem AtRest.append_unasked (h : AtRest code strategy lock held start commits cell)
    (hanswer : commit.answer = none)
    (hvalue : ∀ value, (commit.solo code strategy value).value = value) :
    AtRest code strategy lock held start (commits ++ [commit]) cell where
  value := by
    rw [valueAfter_append_singleton, hvalue]
    exact h.value
  uses serial := by
    rw [lockUses_append_of_none hanswer]
    exact h.uses serial

theorem InHands.append_unasked {routine : Routine π α ρ}
    (h : InHands code strategy lock held start commits cell routine)
    (hanswer : commit.answer = none)
    (hvalue : ∀ value, (commit.solo code strategy value).value = value) :
    InHands code strategy lock held start (commits ++ [commit]) cell routine where
  holds := h.holds
  value := by
    rw [valueAfter_append_singleton, hvalue]
    exact h.value
  uses serial := by
    rw [lockUses_append_of_none hanswer]
    exact h.uses serial

/-- A call that is refused changes nothing but the lock. -/
theorem AtRest.append_refused (h : AtRest code strategy lock held start commits cell)
    {cause : LockError} {next : σ} {before after : ω}
    (hanswer : commit.answer = some (.error cause))
    (hacquire : lock.acquire cell.lock before = (.refused cause next, after))
    (hvalue : ∀ value, (commit.solo code strategy value).value = value)
    (hevents : ∀ value, (commit.solo code strategy value).lockEvents = [.refused cause]) :
    AtRest code strategy lock held start (commits ++ [commit]) { cell with lock := next } where
  value := by
    rw [valueAfter_append_singleton, hvalue]
    exact h.value
  uses serial := by
    rw [lockUses_append_of_some hanswer, hevents]
    exact (h.uses serial).snoc (.refused hacquire)

theorem InHands.append_refused {routine : Routine π α ρ}
    (h : InHands code strategy lock held start commits cell routine)
    (exclusive : lock.Exclusive held) {cause : LockError} {next : σ} {before after : ω}
    (hacquire : lock.acquire cell.lock before = (.refused cause next, after))
    (hvalue : ∀ value, (commit.solo code strategy value).value = value) :
    InHands code strategy lock held start (commits ++ [commit]) { cell with lock := next }
      routine where
  holds := exclusive.refused h.holds hacquire
  value := by
    rw [valueAfter_append_singleton, hvalue]
    exact h.value
  uses serial := by
    have hblocked := serial.blocked before h.holds
    rw [hacquire] at hblocked
    cases hblocked

/-- The lock is granted. -/
theorem AtRest.append_granted (h : AtRest code strategy lock held start commits cell)
    (exclusive : lock.Exclusive held) {next : σ} {before after : ω} {routine : Routine π α ρ}
    (hanswer : commit.answer = some (.ok ()))
    (hacquire : lock.acquire cell.lock before = (.granted next, after))
    (hvalue : (commit.solo code strategy cell.value).value =
      (routine.solo strategy (.ok ()) cell.value []).value)
    (hevents : (commit.solo code strategy cell.value).lockEvents =
      .granted :: (routine.solo strategy (.ok ()) cell.value []).lockEvents) :
    InHands code strategy lock held start (commits ++ [commit]) { cell with lock := next }
      routine where
  holds := (exclusive.granted hacquire).2
  value := by
    rw [valueAfter_append_singleton, ← h.value]
    exact hvalue.symm
  uses serial := by
    refine ⟨_, cell.lock, before, after, ?_, h.uses serial, hacquire⟩
    rw [lockUses_append_of_some hanswer, ← h.value, hevents]

/-- The holder goes on. -/
theorem InHands.quiet {routine rest : Routine π α ρ}
    (h : InHands code strategy lock held start commits cell routine) {event : Event π α} {value : π}
    (hevent : event.isLock = false)
    (hsolo : routine.solo strategy (.ok ()) cell.value [] =
      (rest.solo strategy (.ok ()) value []).after event) :
    InHands code strategy lock held start commits { cell with value } rest where
  holds := h.holds
  value := by
    rw [← h.value, hsolo]
    rfl
  uses serial := by
    have huses := h.uses serial
    rw [hsolo, Solo.lockEvents_after, hevent] at huses
    exact huses

/-- The holder gives the lock up. -/
theorem InHands.released {routine rest : Routine π α ρ}
    (h : InHands code strategy lock held start commits cell routine) {manner : Manner} (last : ω)
    (hrest : rest.Past)
    (hsolo : routine.solo strategy (.ok ()) cell.value [] =
      (rest.solo strategy (.ok ()) cell.value []).after (.released manner)) :
    AtRest code strategy lock held start commits
      { cell with lock := (lock.release manner cell.lock last).1 } where
  value := by
    rw [← h.value, hsolo, Solo.value_after, hrest.solo_value]
  uses serial := by
    obtain ⟨earlier, state, before, after, huses, hearlier, hacquire⟩ := h.uses serial
    rw [huses, hsolo, Solo.lockEvents_after, hrest.lockEvents_solo]
    exact hearlier.snoc (.granted manner last hacquire)

end Commits

section Step

variable {code : κ → Routine π α ρ} {strategy : Strategy α} {lock : Lock ω σ} {held : σ → Prop}
  {start : Cell σ π} {log : Log α κ ρ} {pool : Pool (Recorded α ω) σ π α κ ρ}
  {holder holder' : Option Nat} {index : Nat} {thread thread' : Thread π α κ ρ}
  {cell : Cell σ π} {memory : Recorded α ω} {move : Move π α κ ρ}

theorem Interleaved.initial (plans : List (Plan κ ρ)) :
    Interleaved code strategy lock held start {} (Pool.ofPlans start memory plans) none where
  standing hthread := by
    simp only [Pool.ofPlans, List.getElem?_map, Option.map_eq_some_iff] at hthread
    obtain ⟨plan, -, rfl⟩ := hthread
    exact .idle rfl rfl
  rest _ := ⟨rfl, fun _ => .nil⟩
  hands h := by cases h
  answered := by simp [inTurn]

/-- What has to be shown of a move of one thread: the rest of the invariant concerns others. -/
theorem Interleaved.rebuild (h : Interleaved code strategy lock held start log pool holder)
    (hthread : pool.threads[index]? = some thread)
    (hholder : ∀ other, other ≠ index → (holder' = some other ↔ holder = some other))
    (hvalue : holder ≠ some index → cell.value = pool.cell.value)
    (hstanding : Standing code strategy cell.value
      (performances code strategy (log.read (index, move)).commits start.value index)
      ((log.transcript index).read move) (decide (holder' = some index)) thread'.running)
    (hrest : holder' = none →
      AtRest code strategy lock held start (log.read (index, move)).commits cell)
    (hself : holder' = some index → ∃ call routine, thread'.running = some (call, routine) ∧
      InHands code strategy lock held start (log.read (index, move)).commits cell routine)
    (hothers : holder ≠ some index → ∀ routine,
      InHands code strategy lock held start log.commits pool.cell routine →
      InHands code strategy lock held start (log.read (index, move)).commits cell routine)
    (hanswered : ∀ commit, log.commit? index move = some commit →
      Answered commit
        (commit.solo code strategy (valueAfter code strategy log.commits start.value))) :
    Interleaved code strategy lock held start (log.read (index, move))
      ⟨cell, memory, pool.threads.set index thread'⟩ holder' where
  standing := by
    intro other current hcurrent
    by_cases hother : other = index
    · subst hother
      have hlength := (List.getElem?_eq_some_iff.1 hthread).1
      rw [List.getElem?_set_self hlength] at hcurrent
      obtain rfl := Option.some.inj hcurrent
      rw [Log.transcript_read_self]
      exact hstanding
    · -- Another thread sees no new call, and the value matters to it only if it holds the lock.
      rw [List.getElem?_set_ne (Ne.symm hother)] at hcurrent
      have hcurrent := h.standing hcurrent
      rw [Log.transcript_read_of_ne log index move hother]
      have hperformances : performances code strategy (log.read (index, move)).commits start.value
          other = performances code strategy log.commits start.value other := by
        cases hcommit : log.commit? index move with
        | none => rw [Log.commits_read_of_none log index move hcommit]
        | some commit =>
          rw [Log.commits_read_of_some log index move hcommit]
          apply performances_append_of_ne
          rw [Log.thread_of_commit? log index move hcommit]
          exact Ne.symm hother
      rw [hperformances, decide_eq_decide.2 (hholder other hother)]
      by_cases hholds : holder = some other
      · have hself : holder ≠ some index := by
          rw [hholds]
          simpa using hother
        rw [hvalue hself]
        exact hcurrent
      · rw [decide_eq_false hholds] at hcurrent ⊢
        exact hcurrent.of_not_holding
  rest := hrest
  hands := by
    intro other hother
    by_cases hindex : other = index
    · subst hindex
      obtain ⟨call, routine, hrunning, hhands⟩ := hself hother
      have hlength := (List.getElem?_eq_some_iff.1 hthread).1
      exact ⟨thread', call, routine, List.getElem?_set_self hlength, hrunning, hhands⟩
    · have hholds := (hholder other hindex).1 hother
      obtain ⟨current, call, routine, hcurrent, hrunning, hhands⟩ := h.hands hholds
      refine ⟨current, call, routine, ?_, hrunning, hothers ?_ routine hhands⟩
      · rw [List.getElem?_set_ne (Ne.symm hindex)]
        exact hcurrent
      · rw [hholds]
        simpa using hindex
  answered := by
    cases hcommit : log.commit? index move with
    | none =>
      rw [Log.commits_read_of_none log index move hcommit]
      exact h.answered
    | some commit =>
      rw [Log.commits_read_of_some log index move hcommit, inTurn_append_singleton]
      intro pair hpair
      rcases List.mem_append.1 hpair with hpair | hpair
      · exact h.answered pair hpair
      · rw [List.mem_singleton.1 hpair]
        exact hanswered commit hcommit

/-- A move that lets no call take effect. Only the holder can change the cell with it. -/
theorem Interleaved.rebuild_of_none (h : Interleaved code strategy lock held start log pool holder)
    (hthread : pool.threads[index]? = some thread) (hcommit : log.commit? index move = none)
    (hholder : ∀ other, other ≠ index → (holder' = some other ↔ holder = some other))
    (hcell : holder ≠ some index → cell = pool.cell)
    (hstanding : Standing code strategy cell.value
      (performances code strategy log.commits start.value index)
      ((log.transcript index).read move) (decide (holder' = some index)) thread'.running)
    (hrest : holder' = none → AtRest code strategy lock held start log.commits cell)
    (hself : holder' = some index → ∃ call routine, thread'.running = some (call, routine) ∧
      InHands code strategy lock held start log.commits cell routine) :
    Interleaved code strategy lock held start (log.read (index, move))
      ⟨cell, memory, pool.threads.set index thread'⟩ holder' := by
  have hcommits := Log.commits_read_of_none log index move hcommit
  rw [← hcommits] at hstanding hrest hself
  refine h.rebuild hthread hholder ?_ hstanding hrest hself ?_ ?_
  · intro hother
    rw [hcell hother]
  · intro hother routine hhands
    rw [hcommits, hcell hother]
    exact hhands
  · intro commit hsome
    rw [hcommit] at hsome
    cases hsome

/-- A move with which a call takes effect. -/
theorem Interleaved.rebuild_of_some (h : Interleaved code strategy lock held start log pool holder)
    (hthread : pool.threads[index]? = some thread) {commit : Commit κ}
    (hcommit : log.commit? index move = some commit)
    (hholder : ∀ other, other ≠ index → (holder' = some other ↔ holder = some other))
    (hvalue : cell.value = pool.cell.value)
    (hstanding : Standing code strategy cell.value
      (performances code strategy (log.commits ++ [commit]) start.value index)
      ((log.transcript index).read move) (decide (holder' = some index)) thread'.running)
    (hrest : holder' = none →
      AtRest code strategy lock held start (log.commits ++ [commit]) cell)
    (hself : holder' = some index → ∃ call routine, thread'.running = some (call, routine) ∧
      InHands code strategy lock held start (log.commits ++ [commit]) cell routine)
    (hothers : ∀ routine, InHands code strategy lock held start log.commits pool.cell routine →
      InHands code strategy lock held start (log.commits ++ [commit]) cell routine)
    (hanswered : Answered commit
      (commit.solo code strategy (valueAfter code strategy log.commits start.value))) :
    Interleaved code strategy lock held start (log.read (index, move))
      ⟨cell, memory, pool.threads.set index thread'⟩ holder' := by
  rw [← Log.commits_read_of_some log index move hcommit] at hstanding hrest hself hothers
  refine h.rebuild hthread hholder (fun _ => hvalue) hstanding hrest hself (fun _ => hothers) ?_
  intro other hother
  rw [hcommit] at hother
  obtain rfl := Option.some.inj hother
  exact hanswered

/-- A move of somebody who does not hold the lock, with which no call takes effect. -/
theorem Interleaved.rebuild_quiet (h : Interleaved code strategy lock held start log pool holder)
    (hthread : pool.threads[index]? = some thread) (hholds : holder ≠ some index)
    (hcommit : log.commit? index move = none)
    (hstanding : Standing code strategy pool.cell.value
      (performances code strategy log.commits start.value index)
      ((log.transcript index).read move) false thread'.running) :
    Interleaved code strategy lock held start (log.read (index, move))
      ⟨pool.cell, memory, pool.threads.set index thread'⟩ holder := by
  rw [← decide_eq_false hholds] at hstanding
  exact h.rebuild_of_none hthread hcommit (fun _ _ => Iff.rfl) (fun _ => rfl) hstanding h.rest
    (fun hself => absurd hself hholds)

/-- A thread begins a call. -/
theorem Interleaved.began (h : Interleaved code strategy lock held start log pool holder)
    (hthread : pool.threads[index]? = some thread) (hidle : thread.running = none) {call : κ}
    (hcode : (code call).Outside) :
    Interleaved code strategy lock held start (log.read (index, (.began call : Move π α κ ρ)))
      ⟨pool.cell, memory, pool.threads.set index
        { thread with running := some (call, code call) }⟩ holder := by
  have hstanding := h.standing hthread
  rw [hidle] at hstanding
  generalize hflag : decide (holder = some index) = flag at hstanding
  cases hstanding with
  | idle hasked hperformed =>
    exact h.rebuild_quiet hthread (of_decide_eq_false hflag) rfl
      (.outside [] hcode rfl hperformed rfl rfl fun _ _ => rfl)

/-- A call ends. If it has not asked for the lock, it takes effect now. -/
theorem Interleaved.ended (h : Interleaved code strategy lock held start log pool holder)
    (hthread : pool.threads[index]? = some thread) {call : κ} {ending : Ending ρ}
    (hrunning : thread.running = some (call, .finish ending)) :
    Interleaved code strategy lock held start
      (log.read (index, (.ended call ending : Move π α κ ρ)))
      ⟨pool.cell, memory, pool.threads.set index
        { thread with history := (call, ending) :: thread.history, running := none }⟩ holder := by
  have hstanding := h.standing hthread
  rw [hrunning] at hstanding
  generalize hflag : decide (holder = some index) = flag at hstanding
  cases hstanding with
  | outside done houtside hasked hperformed hcalls hdone hsolo =>
    have hholds : holder ≠ some index := of_decide_eq_false hflag
    let commit : Commit κ := ⟨index, call, none⟩
    have hcommit : log.commit? index (.ended call ending : Move π α κ ρ) = some commit := by
      simp [Log.commit?, hasked, commit]
    have hself : ∀ value, commit.solo code strategy value =
        (⟨ending, value, []⟩ : Solo π α ρ).afterAll done := fun value => hsolo (.ok ()) value
    have hvalue : ∀ value, (commit.solo code strategy value).value = value := by
      intro value
      rw [hself]
      rfl
    refine h.rebuild_of_some hthread hcommit (fun _ _ => Iff.rfl) rfl ?_ ?_ ?_ ?_ ?_
    · rw [decide_eq_false hholds]
      refine .idle rfl ?_
      have happend := performances_append_self code strategy log.commits commit start.value
      rw [happend, hself, hperformed, Solo.calls_afterAll, hcalls]
      simp [Transcript.read, commit, Solo.afterAll]
    · intro hfree
      exact (h.rest hfree).append_unasked rfl hvalue
    · intro hself
      exact absurd hself hholds
    · intro _ hhands
      exact hhands.append_unasked rfl hvalue
    · change (commit.solo code strategy _).lockEvents = []
      rw [hself, Solo.lockEvents_afterAll, hdone]
      rfl
  | inside hinside => exact hinside.elim
  | past hpast hasked hperformed =>
    have hcommit : log.commit? index (.ended call ending : Move π α κ ρ) = none := by
      simp [Log.commit?, hasked]
    refine h.rebuild_quiet hthread (of_decide_eq_false hflag) hcommit (.idle rfl ?_)
    rw [hperformed (.ok ()) pool.cell.value]
    simp [Transcript.read, Routine.solo]

/-- A call that has not taken effect has a request answered. With an answer of the lock it takes
effect. -/
theorem Interleaved.made_outside (h : Interleaved code strategy lock held start log pool holder)
    (exclusive : lock.Exclusive held) (hthread : pool.threads[index]? = some thread) {call : κ}
    {routine : Routine π α ρ} {done : List (Event π α)} {next : Advance (Recorded α ω) σ π α ρ}
    (hnext : Routine.OutsideAdvance lock strategy routine pool.cell next)
    (hholds : holder ≠ some index) (hasked : (log.transcript index).asked = false)
    (hperformed : performances code strategy log.commits start.value index =
      (log.transcript index).finished)
    (hcalls : done.filterMap Event.hookCall? = (log.transcript index).calls)
    (hdone : done.filter Event.isLock = [])
    (hsolo : ∀ answer value, (code call).solo strategy answer value [] =
      (routine.solo strategy answer value []).afterAll done) :
    ∃ holder', Interleaved code strategy lock held start (log.read (index, .made call next.event))
      ⟨next.cell, next.memory, pool.threads.set index
        { thread with running := some (call, next.rest) }⟩ holder' := by
  cases hnext with
  | @quiet event rest left hevent hrest hrestSolo =>
    refine ⟨holder, ?_⟩
    have hanswer := Event.answer?_of_not_isLock hevent
    refine h.rebuild_quiet hthread hholds (by simp [Log.commit?, hanswer]) ?_
    refine .outside (done ++ [event]) hrest ?_ hperformed ?_ ?_ ?_
    · simp [Transcript.read, hasked, hanswer]
    · rw [List.filterMap_append, hcalls]
      cases hcall : event.hookCall? <;> simp [Transcript.read, hcall]
    · simp [List.filter_append, hdone, hevent]
    · intro answer value
      rw [Solo.afterAll_append_singleton, ← hrestSolo, hsolo]
  | @granted state before after rest left hacquire hrest hrestSolo =>
    -- Nobody can have held the lock.
    have hfree : holder = none := by
      cases hholder : holder with
      | none => rfl
      | some other =>
        obtain ⟨_, _, _, -, -, hhands⟩ := h.hands hholder
        exact absurd hhands.holds (exclusive.granted hacquire).1
    let commit : Commit κ := ⟨index, call, some (.ok ())⟩
    have hcommit : log.commit? index (.made call .granted : Move π α κ ρ) = some commit := rfl
    have hself : ∀ value, commit.solo code strategy value =
        ((rest.solo strategy (.ok ()) value []).after .granted).afterAll done := by
      intro value
      rw [← hrestSolo]
      exact hsolo (.ok ()) value
    have hevents : ∀ value, (commit.solo code strategy value).lockEvents =
        .granted :: (rest.solo strategy (.ok ()) value []).lockEvents := by
      intro value
      rw [hself]
      simp [hdone, Event.isLock]
    refine ⟨some index, h.rebuild_of_some hthread hcommit ?_ rfl ?_ ?_ ?_ ?_ ⟨_, hevents _⟩⟩
    · intro other hother
      simp [hfree, Ne.symm hother]
    · rw [decide_eq_true rfl]
      refine .inside hrest ?_ ?_
      · simp [Transcript.read, Event.answer?]
      · have happend := performances_append_self code strategy log.commits commit start.value
        rw [happend, ← (h.rest hfree).value, hself, hperformed, Solo.calls_afterAll, hcalls]
        simp [Transcript.read, commit, Solo.afterAll, Event.hookCall?]
    · intro hnone
      cases hnone
    · intro _
      refine ⟨call, rest, rfl, ?_⟩
      refine (h.rest hfree).append_granted exclusive rfl hacquire ?_ (hevents _)
      rw [hself]
      rfl
    · intro current hhands
      exact absurd hhands.holds (exclusive.granted hacquire).1
  | @refused cause state before after rest left hacquire hrest hrestSolo =>
    let commit : Commit κ := ⟨index, call, some (.error cause)⟩
    have hcommit : log.commit? index (.made call (.refused cause) : Move π α κ ρ) = some commit :=
      rfl
    have hself : ∀ value, commit.solo code strategy value =
        ((rest.solo strategy (.error cause) value []).after (.refused cause)).afterAll done := by
      intro value
      rw [← hrestSolo]
      exact hsolo (.error cause) value
    have hvalue : ∀ value, (commit.solo code strategy value).value = value := by
      intro value
      rw [hself]
      exact hrest.solo_value strategy (.error cause) value []
    have hevents : ∀ value, (commit.solo code strategy value).lockEvents = [.refused cause] := by
      intro value
      rw [hself]
      simp [hdone, Event.isLock, hrest.lockEvents_solo]
    refine ⟨holder, h.rebuild_of_some hthread hcommit (fun _ _ => Iff.rfl) rfl ?_ ?_ ?_ ?_
      ⟨[], hevents _⟩⟩
    · rw [decide_eq_false hholds]
      refine .past hrest ?_ ?_
      · simp [Transcript.read, Event.answer?]
      · intro answer value
        have happend := performances_append_self code strategy log.commits commit start.value
        rw [happend, hself, hperformed, Solo.calls_afterAll, hcalls, hrest.solo_eq strategy
          (.error cause) answer _ value]
        simp [Transcript.read, commit, Solo.afterAll, Event.hookCall?, Solo.calls,
          List.filterMap_cons]
    · intro hfree
      exact (h.rest hfree).append_refused rfl hacquire hvalue hevents
    · intro hself
      exact absurd hself hholds
    · intro _ hhands
      exact hhands.append_refused exclusive hacquire hvalue

/-- The cell is in the hands of the thread that holds the lock. -/
theorem Interleaved.inHands (h : Interleaved code strategy lock held start log pool holder)
    (hthread : pool.threads[index]? = some thread) {call : κ} {routine : Routine π α ρ}
    (hrunning : thread.running = some (call, routine)) (hholds : holder = some index) :
    InHands code strategy lock held start log.commits pool.cell routine := by
  obtain ⟨current, _, _, hcurrent, hrunning', hhands⟩ := h.hands hholds
  rw [hthread] at hcurrent
  obtain rfl := Option.some.inj hcurrent
  rw [hrunning] at hrunning'
  cases hrunning'
  exact hhands

/-- The holder has a request answered. -/
theorem Interleaved.made_inside (h : Interleaved code strategy lock held start log pool holder)
    (hthread : pool.threads[index]? = some thread) {call : κ} {routine : Routine π α ρ}
    {next : Advance (Recorded α ω) σ π α ρ} (hrunning : thread.running = some (call, routine))
    (hnext : Routine.InsideAdvance lock strategy routine pool.cell next)
    (hholds : holder = some index) (hasked : (log.transcript index).asked = true)
    (hperformed : performances code strategy log.commits start.value index =
      (log.transcript index).finished ++
        [⟨call, (routine.solo strategy (.ok ()) pool.cell.value []).ending,
          (log.transcript index).calls ++
            (routine.solo strategy (.ok ()) pool.cell.value []).calls⟩]) :
    ∃ holder', Interleaved code strategy lock held start (log.read (index, .made call next.event))
      ⟨next.cell, next.memory, pool.threads.set index
        { thread with running := some (call, next.rest) }⟩ holder' := by
  have hhands := h.inHands hthread hrunning hholds
  cases hnext with
  | @quiet event rest value left hevent hrest hrestSolo =>
    have hanswer := Event.answer?_of_not_isLock hevent
    have hcommit : log.commit? index (.made call event) = none := by simp [Log.commit?, hanswer]
    refine ⟨holder, h.rebuild_of_none hthread hcommit (fun _ _ => Iff.rfl) ?_ ?_ ?_ ?_⟩
    · intro hother
      exact absurd hholds hother
    · rw [decide_eq_true hholds, hperformed, hrestSolo]
      refine .inside hrest ?_ ?_
      · simp [Transcript.read, hasked]
      · simp [Transcript.read]
    · intro hnone
      rw [hholds] at hnone
      cases hnone
    · intro _
      exact ⟨call, rest, rfl, hhands.quiet hevent (hrestSolo (.ok ()))⟩
  | @released manner rest last left hrest hrestSolo =>
    have hcommit : log.commit? index (.made call (.released manner) : Move π α κ ρ) = none := rfl
    refine ⟨none, h.rebuild_of_none hthread hcommit ?_ ?_ ?_ ?_ ?_⟩
    · intro other hother
      simp [hholds, Ne.symm hother]
    · intro hother
      exact absurd hholds hother
    · rw [hperformed, hrestSolo]
      refine .past hrest ?_ ?_
      · simp [Transcript.read, hasked]
      · intro answer value
        rw [hrest.solo_eq strategy (.ok ()) answer _ value]
        simp [Transcript.read, Event.hookCall?, Solo.calls, List.filterMap_cons, Solo.after]
    · intro _
      exact hhands.released last hrest (hrestSolo (.ok ()))
    · intro hnone
      cases hnone

/-- A call that is done with the lock has a request answered. -/
theorem Interleaved.made_past (h : Interleaved code strategy lock held start log pool holder)
    (hthread : pool.threads[index]? = some thread) {call : κ} {routine : Routine π α ρ}
    {next : Advance (Recorded α ω) σ π α ρ}
    (hnext : Routine.PastAdvance strategy routine pool.cell next)
    (hholds : holder ≠ some index) (hasked : (log.transcript index).asked = true)
    (hperformed : ∀ answer value, performances code strategy log.commits start.value index =
      (log.transcript index).finished ++
        [⟨call, (routine.solo strategy answer value []).ending,
          (log.transcript index).calls ++ (routine.solo strategy answer value []).calls⟩]) :
    Interleaved code strategy lock held start (log.read (index, .made call next.event))
      ⟨next.cell, next.memory, pool.threads.set index
        { thread with running := some (call, next.rest) }⟩ holder := by
  cases hnext with
  | @quiet event rest left hevent hrest hrestSolo =>
    have hanswer := Event.answer?_of_not_isLock hevent
    refine h.rebuild_quiet hthread hholds (by simp [Log.commit?, hanswer]) (.past hrest ?_ ?_)
    · simp [Transcript.read, hasked]
    · intro answer value
      rw [hperformed answer value, hrestSolo]
      simp [Transcript.read]

/-- When no call is under way nobody holds the lock, and every thread has seen what it would see of
the calls made one after another. -/
theorem Interleaved.idle (h : Interleaved code strategy lock held start log pool holder)
    (hidle : ∀ thread ∈ pool.threads, thread.running = none) :
    AtRest code strategy lock held start log.commits pool.cell ∧
    ∀ index < pool.threads.length, performances code strategy log.commits start.value index =
      (log.transcript index).finished := by
  constructor
  · apply h.rest
    cases holder with
    | none => rfl
    | some index =>
      obtain ⟨thread, call, routine, hthread, hrunning, -⟩ := h.hands rfl
      have hnone := hidle thread (List.mem_of_getElem? hthread)
      rw [hnone] at hrunning
      cases hrunning
  · intro index hindex
    have hstanding := h.standing (List.getElem?_eq_getElem hindex)
    rw [hidle _ (List.getElem_mem hindex)] at hstanding
    generalize decide (holder = some index) = flag at hstanding
    cases hstanding with
    | idle _ hperformed => exact hperformed

variable [Journal ω]

/-- Every move of the pool keeps the invariant. -/
theorem Interleaved.step (h : Interleaved code strategy lock held start log pool holder)
    (exclusive : lock.Exclusive held) (steady : strategy.Steady)
    (hcode : ∀ call, (code call).Outside) {next : Pool (Recorded α ω) σ π α κ ρ}
    (hstep : pool.step ⟨lock.recorded, strategy.hooks, code⟩ index = some (move, next)) :
    ∃ holder', Interleaved code strategy lock held start (log.read (index, move)) next holder' := by
  obtain ⟨thread, thread', hthread, hmoves, hthreads⟩ := Pool.moves_of_step hstep
  obtain ⟨cell, memory, threads⟩ := next
  cases hthreads
  cases hmoves with
  | began hidle hplan => exact ⟨holder, h.began hthread hidle (hcode _)⟩
  | ended hrunning => exact ⟨holder, h.ended hthread hrunning⟩
  | @made call routine next hrunning hnext =>
    have hstanding := h.standing hthread
    rw [hrunning] at hstanding
    generalize hflag : decide (holder = some index) = flag at hstanding
    cases hstanding with
    | outside done houtside hasked hperformed hcalls hdone hsolo =>
      exact h.made_outside exclusive hthread (houtside.advance steady hnext)
        (of_decide_eq_false hflag) hasked hperformed hcalls hdone hsolo
    | inside hinside hasked hperformed =>
      exact h.made_inside hthread hrunning (hinside.advance steady hnext)
        (of_decide_eq_true hflag) hasked hperformed
    | past hpast hasked hperformed =>
      exact ⟨holder, h.made_past hthread (hpast.advance steady hnext) (of_decide_eq_false hflag)
        hasked hperformed⟩

/-- And so does every schedule. -/
theorem Interleaved.follow (h : Interleaved code strategy lock held start log pool holder)
    (exclusive : lock.Exclusive held) (steady : strategy.Steady)
    (hcode : ∀ call, (code call).Outside) {schedule : List Nat}
    {moves : List (Nat × Move π α κ ρ)} {last : Pool (Recorded α ω) σ π α κ ρ}
    (hfollow : pool.follow ⟨lock.recorded, strategy.hooks, code⟩ schedule = some (moves, last)) :
    ∃ holder', Interleaved code strategy lock held start (moves.foldl Log.read log) last
      holder' := by
  induction schedule generalizing log pool holder moves with
  | nil =>
    simp only [Pool.follow, Option.some.injEq, Prod.mk.injEq] at hfollow
    obtain ⟨rfl, rfl⟩ := hfollow
    exact ⟨holder, h⟩
  | cons index schedule ih =>
    simp only [Pool.follow, Option.bind_eq_some_iff, Option.map_eq_some_iff, Prod.mk.injEq]
      at hfollow
    obtain ⟨⟨move, next⟩, hstep, ⟨later, _⟩, hlater, rfl, rfl⟩ := hfollow
    obtain ⟨holder', hnext⟩ := h.step exclusive steady hcode hstep
    exact ih hnext hlater

/-- So threads that have just been made are never out of step with their log. -/
theorem Interleaved.of_follow (exclusive : lock.Exclusive held) (steady : strategy.Steady)
    (hcode : ∀ call, (code call).Outside) {plans : List (Plan κ ρ)} {schedule : List Nat}
    {moves : List (Nat × Move π α κ ρ)} {last : Pool (Recorded α ω) σ π α κ ρ}
    (hfollow : (Pool.ofPlans start memory plans).follow ⟨lock.recorded, strategy.hooks, code⟩
      schedule = some (moves, last)) :
    ∃ holder, Interleaved code strategy lock held start (Log.ofMoves moves) last holder :=
  (Interleaved.initial plans).follow exclusive steady hcode hfollow

end Step

end GuardedList
