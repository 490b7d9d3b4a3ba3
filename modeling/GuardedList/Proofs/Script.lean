import GuardedList.Proofs.Linearization
import Mathlib.Data.List.Induction

/-!
# Hooks that answer at will

When threads share a list, its hooks may answer the same call differently each time, and what they
answer may depend on all that happened before. What they did answer in the end is a list of hook
calls for every call of an operation, its script. A call can be made to follow its script
(`Routine.scripted`), whatever the hooks would answer; then it may as well be made with hooks that
only copy (`Strategy.plain`), and these answer by the value alone.

So to every run of the threads there is one of scripted calls that goes the same way
(`follow_scripted`), and what is known of threads with steady hooks is known of all threads: a
session of their calls, in the order in which they took effect, with hooks that answer as they did
(`Strategy.replay`), leaves the same elements and shows every thread what it has seen
(`exists_linearizes_of_follow`).
-/

namespace GuardedList

variable {ω σ π α β κ ρ : Type}

/-- Hooks that copy everything and dispose of nothing. -/
def Strategy.plain : Strategy α where
  copy _ source := .value source
  dispose _ value := { value }

theorem Strategy.steady_plain : (plain : Strategy α).Steady := ⟨fun _ _ _ => rfl, fun _ _ _ => rfl⟩

namespace HookCall

/-- What a script has the copy hook answer: what it says, if that is about a copy. -/
def ending (source : α) : Option (HookCall α) → Ending α
  | some (copied _ ending) => ending
  | _ => .value source

/-- What a script has the dispose hook leave. -/
def residue (value : α) : Option (HookCall α) → Residue α
  | some (disposed _ residue) => residue
  | _ => { value }

/-- The event of a hook call. -/
def event : HookCall α → Event π α
  | copied source ending => .copied source ending
  | disposed value residue => .disposed value residue

/-- The hook call that a scripted call made in the place of a call of a plain hook. -/
def unscripted : HookCall (HookCall α) → HookCall α
  | copied call _ => call
  | disposed call _ => call

end HookCall

/-- The hooks that give the answers of a script, whoever asks, and plain ones when it has come to
its end. -/
def Strategy.replay (script : List (HookCall α)) : Strategy α where
  copy past source := HookCall.ending source script[past.length]?
  dispose past value := HookCall.residue value script[past.length]?

/-- After the hook calls in `past`, the hooks would take part in these. -/
def Strategy.Gives (strategy : Strategy α) : List (HookCall α) → List (HookCall α) → Prop
  | _, [] => True
  | past, .copied source ending :: calls =>
    strategy.copy past source = ending ∧ strategy.Gives (past ++ [.copied source ending]) calls
  | past, .disposed value residue :: calls =>
    strategy.dispose past value = residue ∧
      strategy.Gives (past ++ [.disposed value residue]) calls

theorem Strategy.gives_replay (past calls : List (HookCall α)) :
    (replay (past ++ calls)).Gives past calls := by
  induction calls generalizing past with
  | nil => trivial
  | cons call calls ih =>
    have hrest := ih (past ++ [call])
    rw [List.append_assoc, List.singleton_append] at hrest
    cases call with
    | copied source ending => exact ⟨by simp [replay, HookCall.ending], hrest⟩
    | disposed value residue => exact ⟨by simp [replay, HookCall.residue], hrest⟩

theorem Strategy.Gives.append {strategy : Strategy α} {past first rest : List (HookCall α)}
    (h : strategy.Gives past (first ++ rest)) :
    strategy.Gives past first ∧ strategy.Gives (past ++ first) rest := by
  induction first generalizing past with
  | nil =>
    refine ⟨trivial, ?_⟩
    rw [List.append_nil]
    exact h
  | cons call first ih =>
    cases call with
    | copied source ending =>
      obtain ⟨hfirst, hrest⟩ := ih h.2
      rw [List.append_assoc, List.singleton_append] at hrest
      exact ⟨⟨h.1, hfirst⟩, hrest⟩
    | disposed value residue =>
      obtain ⟨hfirst, hrest⟩ := ih h.2
      rw [List.append_assoc, List.singleton_append] at hrest
      exact ⟨⟨h.1, hfirst⟩, hrest⟩

/-- What a scripted event stands for. -/
def Event.unscripted : Event π (HookCall α) → Event π α
  | granted => .granted
  | refused cause => .refused cause
  | released manner => .released manner
  | loaded value => .loaded value
  | stored value => .stored value
  | copied call _ => call.event
  | disposed call _ => call.event
  | logged message => .logged message

namespace Event

@[simp] theorem isLock_unscripted (event : Event π (HookCall α)) :
    event.unscripted.isLock = event.isLock := by
  cases event with
  | copied call ending => cases call <;> rfl
  | disposed call residue => cases call <;> rfl
  | _ => rfl

@[simp] theorem answer?_unscripted (event : Event π (HookCall α)) :
    event.unscripted.answer? = event.answer? := by
  cases event with
  | copied call ending => cases call <;> rfl
  | disposed call residue => cases call <;> rfl
  | _ => rfl

@[simp] theorem hookCall?_unscripted (event : Event π (HookCall α)) :
    event.unscripted.hookCall? = event.hookCall?.map HookCall.unscripted := by
  cases event with
  | copied call ending => cases call <;> rfl
  | disposed call residue => cases call <;> rfl
  | _ => rfl

end Event

/-- What scripted code comes to, told as of the code itself. -/
def Solo.unscripted (solo : Solo π (HookCall α) β) : Solo π α β :=
  ⟨solo.ending, solo.value, solo.events.map Event.unscripted⟩

namespace Solo

variable (solo : Solo π (HookCall α) β)

theorem unscripted_after (event : Event π (HookCall α)) :
    (solo.after event).unscripted = solo.unscripted.after event.unscripted := rfl

theorem calls_unscripted : solo.unscripted.calls = solo.calls.map HookCall.unscripted := by
  simp only [unscripted, calls, List.filterMap_map, List.map_filterMap]
  congr 1
  funext event
  exact event.hookCall?_unscripted

theorem lockEvents_unscripted :
    solo.unscripted.lockEvents = solo.lockEvents.map Event.unscripted := by
  simp only [unscripted, lockEvents, List.filter_map]
  congr 1
  apply List.filter_congr
  intro event _
  exact event.isLock_unscripted

end Solo

namespace Routine

/-- The same code with the answers of the hooks taken from a script. Each hook call becomes one of a
hook that is given the whole hook call to copy, so that it stays to be seen. -/
def scripted : Routine π α β → List (HookCall α) → Routine π (HookCall α) β
  | finish ending, _ => finish ending
  | acquire next, script => acquire fun answer => (next answer).scripted script
  | release manner next, script => release manner (next.scripted script)
  | load next, script => load fun value => (next value).scripted script
  | store value next, script => store value (next.scripted script)
  | copy source next, script =>
    let ending := HookCall.ending source script.head?
    copy (.copied source ending) fun _ => (next ending).scripted script.tail
  | dispose value next, script =>
    let residue := HookCall.residue value script.head?
    copy (.disposed value residue) fun _ => (next residue).scripted script.tail
  | log message next, script => log message (next.scripted script)

theorem Past.scripted {routine : Routine π α β} (h : routine.Past) (script : List (HookCall α)) :
    (routine.scripted script).Past := by
  induction routine generalizing script with
  | finish ending => trivial
  | copy source next ih =>
    intro _
    exact ih _ (h _) _
  | dispose value next ih =>
    intro _
    exact ih _ (h _) _
  | log message next ih => exact ih h script
  | _ => exact h.elim

theorem scripted_eq_panicked {routine : Routine π α β} {script : List (HookCall α)}
    {text : String} :
    routine.scripted script = finish (.panicked text) ↔ routine = finish (.panicked text) := by
  cases routine <;> simp [scripted]

theorem Inside.scripted {routine : Routine π α β} (h : routine.Inside)
    (script : List (HookCall α)) : (routine.scripted script).Inside := by
  induction routine generalizing script with
  | release manner next _ =>
    refine ⟨h.1.scripted script, ?_⟩
    simp only [scripted_eq_panicked]
    exact h.2
  | load next ih =>
    intro value
    exact ih value (h value) script
  | store value next ih => exact ih h script
  | copy source next ih =>
    intro _
    exact ih _ (h _) _
  | dispose value next ih =>
    intro _
    exact ih _ (h _) _
  | log message next ih => exact ih h script
  | _ => exact h.elim

theorem Outside.scripted {routine : Routine π α β} (h : routine.Outside)
    (script : List (HookCall α)) : (routine.scripted script).Outside := by
  induction routine generalizing script with
  | finish ending => trivial
  | acquire next _ =>
    refine ⟨?_, h.2.scripted script⟩
    intro cause
    exact (h.1 cause).scripted script
  | copy source next ih =>
    intro _
    exact ih _ (h _) _
  | dispose value next ih =>
    intro _
    exact ih _ (h _) _
  | log message next ih => exact ih h script
  | _ => exact h.elim

/-- With hooks that answer by the script, code comes to what the scripted code comes to. -/
theorem solo_unscripted (strategy : Strategy α) (routine : Routine π α β)
    (script past : List (HookCall α)) (past' : List (HookCall (HookCall α)))
    (answer : Except LockError Unit) (value : π)
    (hgives : strategy.Gives past
      (((routine.scripted script).solo .plain answer value past').calls.map HookCall.unscripted)) :
    routine.solo strategy answer value past =
      ((routine.scripted script).solo .plain answer value past').unscripted := by
  induction routine generalizing script past past' value with
  | finish ending => rfl
  | acquire next ih =>
    rw [scripted, solo, solo, Solo.unscripted_after]
    rw [ih answer script past past' value ?_]
    · cases answer <;> rfl
    · cases answer <;> simpa [scripted, solo, Event.hookCall?, Event.ofAnswer] using hgives
  | release manner next ih =>
    rw [scripted, solo, solo, Solo.unscripted_after, ih script past past' value hgives]
    rfl
  | load next ih =>
    rw [scripted, solo, solo, Solo.unscripted_after, ih value script past past' value hgives]
    rfl
  | store new next ih =>
    rw [scripted, solo, solo, Solo.unscripted_after, ih script past past' new hgives]
    rfl
  | copy source next ih =>
    obtain ⟨hending, hrest⟩ := hgives
    rw [scripted, solo, solo, Solo.unscripted_after, hending, ih _ _ _ _ value hrest]
    rfl
  | dispose old next ih =>
    obtain ⟨hresidue, hrest⟩ := hgives
    rw [scripted, solo, solo, Solo.unscripted_after, hresidue, ih _ _ _ _ value hrest]
    rfl
  | log message next ih =>
    rw [scripted, solo, solo, Solo.unscripted_after, ih script past past' value hgives]
    rfl

end Routine

/-- The code of calls that come with their scripts. -/
def scriptedCode (code : κ → Routine π α ρ) (call : κ × List (HookCall α)) :
    Routine π (HookCall α) ρ :=
  (code call.1).scripted call.2

/-- A lock that is sure of a use of scripted code is sure of it as a use of the code itself. -/
theorem Lock.Sure.unscripted {lock : Lock ω σ} {state next : σ}
    {events : List (Event π (HookCall α))} (h : lock.Sure state events next) :
    lock.Sure state (events.map Event.unscripted) next := by
  cases h with
  | unasked => exact .unasked
  | refused hacquire => exact .refused hacquire
  | granted manner hacquire hrelease => exact .granted manner hacquire hrelease

section Session

variable [Journal ω] {lock : Lock ω σ} {strategy : Strategy α} {size : Nat}

/-- A session of calls that a lock is sure to answer, each with the script that it followed when it
took effect. -/
theorem session_of_scripted (depth : Nat)
    {commits : List (Commit (Operation α × List (HookCall α)))} {cell : Cell σ (Chain α)} {next : σ}
    (hsure : lock.SureUses cell.lock ((inTurn (scriptedCode (Operation.routine size)) .plain commits
      cell.value).map (·.2.lockEvents)) next)
    {past : List (HookCall α)} (memory : ω)
    (hgives : strategy.Gives past ((inTurn (scriptedCode (Operation.routine size)) .plain commits
      cell.value).flatMap fun pair => pair.2.unscripted.calls)) :
    ∃ episodes left,
      session depth (commits.map fun commit => .call commit.call.1)
          ⟨size, lock.recorded, some cell, some strategy.hooks⟩ ⟨past, memory⟩ =
        some (episodes, ⟨size, lock.recorded, some ⟨next, valueAfter
          (scriptedCode (Operation.routine size)) .plain commits cell.value⟩,
          some strategy.hooks⟩, left) ∧
      episodes.map (fun episode => (episode.result, episode.calls)) =
        (inTurn (scriptedCode (Operation.routine size)) .plain commits cell.value).map
          fun pair => (pair.2.ending, pair.2.unscripted.calls) := by
  induction commits generalizing cell past memory with
  | nil =>
    cases hsure
    exact ⟨[], _, rfl, rfl⟩
  | cons commit commits ih =>
    rw [inTurn, List.map_cons] at hsure
    rw [inTurn, List.flatMap_cons] at hgives
    obtain ⟨hfirst, hrest⟩ := hgives.append
    cases hsure with
    | cons huse hlater =>
      rename_i state
      let solo := commit.solo (scriptedCode (Operation.routine size)) .plain cell.value
      have hsolo : (commit.call.1.routine size).solo strategy (commit.answer.getD (.ok ()))
          cell.value past = solo.unscripted := by
        apply Routine.solo_unscripted strategy (commit.call.1.routine size) commit.call.2 past []
        rw [← Solo.calls_unscripted]
        exact hfirst
      have huse' : lock.Sure cell.lock ((commit.call.1.routine size).solo strategy
          (commit.answer.getD (.ok ())) cell.value past).lockEvents state := by
        rw [hsolo, Solo.lockEvents_unscripted]
        exact huse.unscripted
      obtain ⟨middle, hserve⟩ := serve_eq_solo_of_sure depth commit.call.1 cell past memory
        (commit.answer.getD (.ok ())) huse'
      rw [hsolo] at hserve
      let after : Cell σ (Chain α) := ⟨state, solo.value⟩
      have hafter : lock.SureUses after.lock ((inTurn (scriptedCode (Operation.routine size)) .plain
          commits after.value).map (·.2.lockEvents)) next := hlater
      obtain ⟨episodes, left, hsession, hepisodes⟩ := ih hafter middle hrest
      refine ⟨⟨.call commit.call.1, some cell.value.toList, solo.ending, solo.unscripted.calls,
        some solo.value.toList⟩ :: episodes, left, ?_, ?_⟩
      · rw [List.map_cons, session, perform, hserve]
        change (session depth _ ⟨size, lock.recorded, some after, some strategy.hooks⟩
          ⟨past ++ solo.unscripted.calls, middle⟩).map _ = _
        rw [hsession]
        simp only [Option.map_some, List.drop_left]
        rfl
      · rw [List.map_cons, hepisodes]
        rfl

end Session

section Records

/-- A move of a thread that makes scripted calls, told without the scripts. -/
def Move.unscripted : Move π (HookCall α) (κ × List (HookCall α)) ρ → Move π α κ ρ
  | began call => .began call.1
  | made call event => .made call.1 event.unscripted
  | ended call ending => .ended call.1 ending

def Commit.unscripted (commit : Commit (κ × List (HookCall α))) : Commit κ :=
  ⟨commit.thread, commit.call.1, commit.answer⟩

def Performance.unscripted (performance : Performance (HookCall α) (κ × List (HookCall α)) ρ) :
    Performance α κ ρ :=
  ⟨performance.call.1, performance.ending, performance.calls.map HookCall.unscripted⟩

def Transcript.unscripted (transcript : Transcript (HookCall α) (κ × List (HookCall α)) ρ) :
    Transcript α κ ρ :=
  ⟨transcript.finished.map Performance.unscripted, transcript.asked,
    transcript.calls.map HookCall.unscripted⟩

def Log.unscripted (log : Log (HookCall α) (κ × List (HookCall α)) ρ) : Log α κ ρ :=
  ⟨log.commits.map Commit.unscripted, fun index => (log.transcript index).unscripted⟩

theorem Transcript.unscripted_read
    (transcript : Transcript (HookCall α) (κ × List (HookCall α)) ρ)
    (move : Move π (HookCall α) (κ × List (HookCall α)) ρ) :
    (transcript.read move).unscripted = transcript.unscripted.read move.unscripted := by
  cases move with
  | began call => rfl
  | made call event =>
    simp only [unscripted, read, Move.unscripted, Event.answer?_unscripted,
      Event.hookCall?_unscripted, List.map_append]
    cases event.hookCall? <;> rfl
  | ended call ending => simp [unscripted, read, Move.unscripted, Performance.unscripted]

theorem Log.unscripted_commit? (log : Log (HookCall α) (κ × List (HookCall α)) ρ) (index : Nat)
    (move : Move π (HookCall α) (κ × List (HookCall α)) ρ) :
    log.unscripted.commit? index move.unscripted =
      (log.commit? index move).map Commit.unscripted := by
  cases move with
  | began call => rfl
  | made call event =>
    simp only [Move.unscripted, commit?, Event.answer?_unscripted, Option.map_map]
    rfl
  | ended call ending =>
    by_cases hasked : (log.transcript index).asked
    · simp [Move.unscripted, commit?, unscripted, Transcript.unscripted, hasked]
    · simp [Move.unscripted, commit?, unscripted, Transcript.unscripted, hasked, Commit.unscripted]

/-- The log of scripted calls tells the same as the log of the calls. -/
theorem Log.unscripted_read (log : Log (HookCall α) (κ × List (HookCall α)) ρ) (index : Nat)
    (move : Move π (HookCall α) (κ × List (HookCall α)) ρ) :
    (log.read (index, move)).unscripted = log.unscripted.read (index, move.unscripted) := by
  have hcommit := log.unscripted_commit? index move
  simp only [unscripted] at hcommit
  simp only [unscripted, read, hcommit, List.map_append]
  congr 1
  · cases log.commit? index move <;> rfl
  · funext other
    by_cases hother : other = index
    · rw [if_pos hother, if_pos hother]
      exact (log.transcript other).unscripted_read move
    · rw [if_neg hother, if_neg hother]

theorem Log.unscripted_ofMoves
    (moves : List (Nat × Move π (HookCall α) (κ × List (HookCall α)) ρ)) :
    (Log.ofMoves moves).unscripted =
      Log.ofMoves (moves.map fun entry => (entry.1, entry.2.unscripted)) := by
  have hfold : ∀ log : Log (HookCall α) (κ × List (HookCall α)) ρ,
      (moves.foldl read log).unscripted =
        (moves.map fun entry => (entry.1, entry.2.unscripted)).foldl read log.unscripted := by
    induction moves with
    | nil =>
      intro log
      rfl
    | cons entry moves ih =>
      intro log
      rw [List.foldl_cons, ih, List.map_cons, List.foldl_cons, log.unscripted_read]
  exact hfold {}

end Records

section Follow

/-- The hook calls that are still to come in the call under way, if these are the moves that its
thread is going to make. -/
def scriptOf : List (Move π α κ ρ) → List (HookCall α)
  | [] => []
  | .began _ :: moves => scriptOf moves
  | .made _ event :: moves => event.hookCall?.toList ++ scriptOf moves
  | .ended _ _ :: _ => []

/-- The calls that are still to come, each with its script. -/
def scriptedCalls : List (Move π α κ ρ) → List (κ × List (HookCall α))
  | [] => []
  | .began call :: moves => (call, scriptOf moves) :: scriptedCalls moves
  | .made _ _ :: moves => scriptedCalls moves
  | .ended _ _ :: moves => scriptedCalls moves

/-- The moves of one thread. -/
def movesOf (moves : List (Nat × Move π α κ ρ)) (index : Nat) : List (Move π α κ ρ) :=
  (moves.filter fun entry => entry.1 = index).map Prod.snd

/-- A thread that makes its calls as `thread` does, each by its script, if these are the moves that
`thread` is going to make. -/
structure Scripted (moves : List (Move π α κ ρ)) (thread : Thread π α κ ρ)
    (thread' : Thread π (HookCall α) (κ × List (HookCall α)) ρ) : Prop where
  plan : ∃ earlier, thread'.plan = Plan.inOrder (earlier ++ scriptedCalls moves) ∧
    earlier.length = thread'.history.length + thread'.running.toList.length
  running : (thread.running = none ∧ thread'.running = none) ∨ ∃ call script routine,
    thread.running = some (call, routine) ∧
    thread'.running = some ((call, script), routine.scripted (scriptOf moves))

variable [Journal ω] {lock : Lock ω σ} {held : σ → Prop} {hooks : Hooks ω α}
  {code : κ → Routine π α ρ}

/-- One request of scripted code. -/
theorem Routine.step_scripted (serial : lock.Serial held) {routine : Routine π α β}
    {cell : Cell σ π} {memory : ω} {next : Advance ω σ π α β}
    (hstep : routine.step lock hooks cell memory = some next) (script : List (HookCall α))
    (memory' : Recorded (HookCall α) ω) :
    ∃ event left,
      (routine.scripted (next.event.hookCall?.toList ++ script)).step lock.recorded
          Strategy.plain.hooks cell memory' =
        some ⟨event, next.rest.scripted script, next.cell, left⟩ ∧
      event.unscripted = next.event := by
  cases routine with
  | finish ending => cases hstep
  | acquire rest =>
    have hsame := serial.acquire cell.lock memory memory'.rest
    rcases hattempt : lock.acquire cell.lock memory with ⟨state | ⟨cause, state⟩ | _, left⟩
    · rw [hattempt] at hsame
      simp only [step, hattempt, Option.some.injEq] at hstep
      subst hstep
      refine ⟨.granted, ⟨memory'.calls, (lock.acquire cell.lock memory'.rest).2⟩, ?_, rfl⟩
      simp only [scripted, step, Lock.recorded, ← hsame]
      rfl
    · rw [hattempt] at hsame
      simp only [step, hattempt, Option.some.injEq] at hstep
      subst hstep
      refine ⟨.refused cause, ⟨memory'.calls, (lock.acquire cell.lock memory'.rest).2⟩, ?_, rfl⟩
      simp only [scripted, step, Lock.recorded, ← hsame]
      rfl
    · simp [step, hattempt] at hstep
  | release manner rest =>
    have hsame := serial.release manner cell.lock memory memory'.rest
    cases hstep
    refine ⟨.released manner, ⟨memory'.calls, (lock.release manner cell.lock memory'.rest).2⟩, ?_,
      rfl⟩
    simp only [scripted, step, Lock.recorded, ← hsame]
    rfl
  | load rest =>
    cases hstep
    exact ⟨.loaded cell.value, memory', rfl, rfl⟩
  | store value rest =>
    cases hstep
    exact ⟨.stored value, memory', rfl, rfl⟩
  | copy source rest =>
    simp only [step, Option.map_eq_some_iff] at hstep
    obtain ⟨⟨left, ending⟩, -, rfl⟩ := hstep
    exact ⟨_, _, rfl, rfl⟩
  | dispose value rest =>
    simp only [step, Option.map_eq_some_iff] at hstep
    obtain ⟨⟨left, residue⟩, -, rfl⟩ := hstep
    exact ⟨_, _, rfl, rfl⟩
  | log message rest =>
    cases hstep
    exact ⟨.logged message, _, rfl, rfl⟩

theorem Thread.step_of_moves {setting : Setting ω σ π α κ ρ} {thread thread' : Thread π α κ ρ}
    {cell cell' : Cell σ π} {memory memory' : ω} {move : Move π α κ ρ}
    (h : thread.Moves setting cell memory move thread' cell' memory') :
    thread.step setting cell memory = some (move, thread', cell', memory') := by
  obtain ⟨plan, history, running⟩ := thread
  cases h with
  | @began call hidle hplan =>
    cases hidle
    have hplan : plan history = some call := hplan
    simp only [step, hplan, Option.map_some]
  | ended hrunning =>
    cases hrunning
    rfl
  | @made call routine next hrunning hstep =>
    cases hrunning
    cases routine with
    | finish ending => cases hstep
    | _ => simp only [step, hstep, Option.map_some]

/-- One move of a thread that makes scripted calls. -/
theorem Scripted.step (serial : lock.Serial held) {thread next : Thread π α κ ρ}
    {thread' : Thread π (HookCall α) (κ × List (HookCall α)) ρ} {cell after : Cell σ π}
    {memory left : ω} {move : Move π α κ ρ} {moves : List (Move π α κ ρ)}
    (h : Scripted (move :: moves) thread thread')
    (hmoves : thread.Moves ⟨lock, hooks, code⟩ cell memory move next after left)
    (memory' : Recorded (HookCall α) ω) :
    ∃ move' next' left',
      thread'.step ⟨lock.recorded, Strategy.plain.hooks, scriptedCode code⟩ cell memory' =
        some (move', next', after, left') ∧
      move'.unscripted = move ∧ Scripted moves next next' := by
  obtain ⟨⟨earlier, hplan, hearlier⟩, hrunning⟩ := h
  cases hmoves with
  | @began call hidle _ =>
    rcases hrunning with ⟨-, hidle'⟩ | ⟨_, _, _, hbusy, -⟩
    · have hnext : thread'.plan thread'.history = some (call, scriptOf moves) := by
        have hlength : earlier.length = thread'.history.length := by
          simpa [hidle'] using hearlier
        rw [hplan, Plan.inOrder, ← hlength]
        simp [scriptedCalls]
      refine ⟨_, _, _, Thread.step_of_moves (.began hidle' hnext), rfl, ⟨?_, ?_⟩⟩
      · refine ⟨earlier ++ [(call, scriptOf moves)], ?_, ?_⟩
        · rw [List.append_assoc]
          exact hplan
        · simpa [hidle'] using hearlier
      · exact .inr ⟨call, scriptOf moves, code call, rfl, rfl⟩
    · rw [hidle] at hbusy
      cases hbusy
  | @ended call ending hbusy =>
    rcases hrunning with ⟨hidle, -⟩ | ⟨_, script, _, hsame, hbusy'⟩
    · rw [hidle] at hbusy
      cases hbusy
    · rw [hbusy] at hsame
      cases hsame
      refine ⟨_, _, _, Thread.step_of_moves (.ended hbusy'), rfl, ⟨?_, .inl ⟨rfl, rfl⟩⟩⟩
      refine ⟨earlier, hplan, ?_⟩
      simpa [hbusy'] using hearlier
  | @made call routine advance hbusy hstep =>
    rcases hrunning with ⟨hidle, -⟩ | ⟨_, script, _, hsame, hbusy'⟩
    · rw [hidle] at hbusy
      cases hbusy
    · rw [hbusy] at hsame
      cases hsame
      obtain ⟨event, left', hstep', hevent⟩ :=
        Routine.step_scripted serial hstep (scriptOf moves) memory'
      have hmade : thread'.Moves ⟨lock.recorded, Strategy.plain.hooks, scriptedCode code⟩ cell
          memory' _ _ _ _ := .made hbusy' hstep'
      refine ⟨_, _, _, Thread.step_of_moves hmade, ?_, ⟨?_, ?_⟩⟩
      · simp only [Move.unscripted, hevent]
      · refine ⟨earlier, hplan, ?_⟩
        simpa [hbusy'] using hearlier
      · exact .inr ⟨call, script, advance.rest, rfl, rfl⟩

/-- A pool whose threads make the calls of `pool`, each by its script, if these are the moves that
`pool` is going to make. -/
structure ScriptedPool (moves : List (Nat × Move π α κ ρ)) (pool : Pool ω σ π α κ ρ)
    (pool' : Pool (Recorded (HookCall α) ω) σ π (HookCall α) (κ × List (HookCall α)) ρ) :
    Prop where
  cell : pool'.cell = pool.cell
  length : pool'.threads.length = pool.threads.length
  threads {index : Nat} {thread : Thread π α κ ρ} : pool.threads[index]? = some thread →
    ∃ thread', pool'.threads[index]? = some thread' ∧
      Scripted (movesOf moves index) thread thread'

theorem ScriptedPool.step (serial : lock.Serial held) {pool next : Pool ω σ π α κ ρ}
    {pool' : Pool (Recorded (HookCall α) ω) σ π (HookCall α) (κ × List (HookCall α)) ρ}
    {index : Nat} {move : Move π α κ ρ} {moves : List (Nat × Move π α κ ρ)}
    (h : ScriptedPool ((index, move) :: moves) pool pool')
    (hstep : pool.step ⟨lock, hooks, code⟩ index = some (move, next)) :
    ∃ move' next',
      pool'.step ⟨lock.recorded, Strategy.plain.hooks, scriptedCode code⟩ index =
        some (move', next') ∧
      move'.unscripted = move ∧ ScriptedPool moves next next' := by
  obtain ⟨thread, after, hthread, hmoves, hthreads⟩ := Pool.moves_of_step hstep
  obtain ⟨thread', hthread', hscripted⟩ := h.threads hthread
  have hown : movesOf ((index, move) :: moves) index = move :: movesOf moves index := by
    simp [movesOf]
  rw [hown] at hscripted
  obtain ⟨move', after', left, hstep', hmove, hafter⟩ :=
    hscripted.step serial hmoves pool'.memory
  refine ⟨move', ⟨next.cell, left, pool'.threads.set index after'⟩, ?_, hmove, rfl, ?_, ?_⟩
  · simp only [Pool.step, hthread', h.cell, hstep', Option.map_some]
  · rw [hthreads, List.length_set, List.length_set, h.length]
  · intro other current hcurrent
    have hindex : index < pool.threads.length := (List.getElem?_eq_some_iff.1 hthread).1
    rw [hthreads, List.getElem?_set] at hcurrent
    dsimp only
    rw [List.getElem?_set]
    by_cases hother : index = other
    · subst hother
      rw [if_pos rfl, if_pos hindex, Option.some.injEq] at hcurrent
      subst hcurrent
      rw [if_pos rfl, h.length, if_pos hindex]
      exact ⟨after', rfl, hafter⟩
    · rw [if_neg hother] at hcurrent
      obtain ⟨current', hcurrent', hsame⟩ := h.threads hcurrent
      have hskip : movesOf ((index, move) :: moves) other = movesOf moves other := by
        simp [movesOf, hother]
      rw [hskip] at hsame
      rw [if_neg hother]
      exact ⟨current', hcurrent', hsame⟩

/-- Scripted calls can be made in the order in which the calls were made. -/
theorem follow_scripted (serial : lock.Serial held) {pool last : Pool ω σ π α κ ρ}
    {pool' : Pool (Recorded (HookCall α) ω) σ π (HookCall α) (κ × List (HookCall α)) ρ}
    {schedule : List Nat} {moves : List (Nat × Move π α κ ρ)} (h : ScriptedPool moves pool pool')
    (hfollow : pool.follow ⟨lock, hooks, code⟩ schedule = some (moves, last)) :
    ∃ moves' last',
      pool'.follow ⟨lock.recorded, Strategy.plain.hooks, scriptedCode code⟩ schedule =
        some (moves', last') ∧
      moves'.map (fun entry => (entry.1, entry.2.unscripted)) = moves ∧
      ScriptedPool [] last last' := by
  induction schedule generalizing pool pool' moves with
  | nil =>
    cases hfollow
    exact ⟨[], pool', rfl, rfl, h⟩
  | cons index schedule ih =>
    simp only [Pool.follow, Option.bind_eq_some_iff, Option.map_eq_some_iff, Prod.mk.injEq]
      at hfollow
    obtain ⟨⟨move, next⟩, hstep, ⟨later, _⟩, hlater, rfl, rfl⟩ := hfollow
    obtain ⟨move', next', hstep', hmove, hnext⟩ := h.step serial hstep
    obtain ⟨later', last', hlater', hmoves, hlast⟩ := ih hnext hlater
    refine ⟨(index, move') :: later', last', ?_, ?_, hlast⟩
    · simp only [Pool.follow, hstep', Option.bind_some, hlater', Option.map_some]
    · rw [List.map_cons, hmoves, hmove]

omit [Journal ω] in
/-- Threads that are about to begin, with the scripts of the calls that they are going to make. -/
theorem scriptedPool_ofPlans (cell : Cell σ π) (memory : ω) (plans : List (Plan κ ρ))
    (moves : List (Nat × Move π α κ ρ)) :
    ScriptedPool moves (Pool.ofPlans cell memory plans)
      (Pool.ofPlans cell ⟨[], memory⟩ ((List.range plans.length).map fun index =>
        Plan.inOrder (scriptedCalls (movesOf moves index)))) where
  cell := rfl
  length := by simp [Pool.ofPlans]
  threads {index thread} hthread := by
    simp only [Pool.ofPlans, List.getElem?_map, Option.map_eq_some_iff] at hthread
    obtain ⟨plan, hplan, rfl⟩ := hthread
    have hindex : index < plans.length := (List.getElem?_eq_some_iff.1 hplan).1
    refine ⟨{ plan := Plan.inOrder (scriptedCalls (movesOf moves index)) }, ?_, ?_⟩
    · simp [Pool.ofPlans, List.getElem?_range hindex]
    · exact ⟨⟨[], rfl, rfl⟩, .inl ⟨rfl, rfl⟩⟩

end Follow

section Made

/-- The hook call was made in one of these moves. -/
def MadeIn (moves : List (Nat × Move π α κ ρ)) (call : HookCall α) : Prop :=
  ∃ entry ∈ moves, ∃ operation event, entry.2 = .made operation event ∧
    event.hookCall? = some call

theorem MadeIn.append {moves : List (Nat × Move π α κ ρ)} {call : HookCall α}
    (h : MadeIn moves call) (later : List (Nat × Move π α κ ρ)) : MadeIn (moves ++ later) call := by
  obtain ⟨entry, hentry, hmade⟩ := h
  exact ⟨entry, List.mem_append_left later hentry, hmade⟩

theorem Log.ofMoves_append_singleton (moves : List (Nat × Move π α κ ρ))
    (entry : Nat × Move π α κ ρ) :
    Log.ofMoves (moves ++ [entry]) = (Log.ofMoves moves).read entry := by
  simp [ofMoves]

/-- The log tells of no other hook calls than were made. -/
theorem madeIn_of_transcript (moves : List (Nat × Move π α κ ρ)) (index : Nat) :
    let transcript := (Log.ofMoves moves).transcript index
    (∀ performance ∈ transcript.finished, ∀ call ∈ performance.calls, MadeIn moves call) ∧
      ∀ call ∈ transcript.calls, MadeIn moves call := by
  induction moves using List.reverseRecOn with
  | nil => exact ⟨by simp [Log.ofMoves], by simp [Log.ofMoves]⟩
  | append_singleton moves entry ih =>
    obtain ⟨hfinished, hcalls⟩ := ih
    obtain ⟨mover, move⟩ := entry
    rw [Log.ofMoves_append_singleton]
    by_cases hindex : index = mover
    · subst hindex
      rw [Log.transcript_read_self]
      cases move with
      | began call =>
        refine ⟨?_, by simp [Transcript.read]⟩
        intro performance hperformance call hcall
        exact (hfinished performance hperformance call hcall).append _
      | made operation event =>
        constructor
        · intro performance hperformance call hcall
          exact (hfinished performance hperformance call hcall).append _
        · intro call hcall
          rcases List.mem_append.1 hcall with hbefore | hevent
          · exact (hcalls call hbefore).append _
          · exact ⟨(index, .made operation event), by simp, operation, event, rfl,
              Option.mem_toList.1 hevent⟩
      | ended operation ending =>
        refine ⟨?_, by simp [Transcript.read]⟩
        intro performance hperformance call hcall
        rcases List.mem_append.1 hperformance with hbefore | hlast
        · exact (hfinished performance hbefore call hcall).append _
        · rw [List.mem_singleton.1 hlast] at hcall
          exact (hcalls call hcall).append _
    · rw [Log.transcript_read_of_ne _ _ _ hindex]
      constructor
      · intro performance hperformance call hcall
        exact (hfinished performance hperformance call hcall).append _
      · intro call hcall
        exact (hcalls call hcall).append _

theorem madeIn_of_mem_finished {moves : List (Nat × Move π α κ ρ)} {index : Nat}
    {performance : Performance α κ ρ} {call : HookCall α}
    (hperformance : performance ∈ ((Log.ofMoves moves).transcript index).finished)
    (hcall : call ∈ performance.calls) : MadeIn moves call :=
  (madeIn_of_transcript moves index).1 performance hperformance call hcall

/-- A call takes effect with a move of its thread. -/
theorem exists_move_of_mem_commits {moves : List (Nat × Move π α κ ρ)} {commit : Commit κ}
    (hcommit : commit ∈ (Log.ofMoves moves).commits) : ∃ move, (commit.thread, move) ∈ moves := by
  induction moves using List.reverseRecOn with
  | nil => cases hcommit
  | append_singleton moves entry ih =>
    rw [Log.ofMoves_append_singleton] at hcommit
    rcases List.mem_append.1 hcommit with hbefore | hlast
    · obtain ⟨move, hmove⟩ := ih hbefore
      exact ⟨move, List.mem_append_left _ hmove⟩
    · have hthread := (Log.ofMoves moves).thread_of_commit? entry.1 entry.2
        (Option.mem_toList.1 hlast)
      exact ⟨entry.2, by simp [hthread]⟩

theorem commit_mem_of_mem_inTurn {code : κ → Routine π α ρ} {strategy : Strategy α}
    {commits : List (Commit κ)} {value : π} {pair : Commit κ × Solo π α ρ}
    (hpair : pair ∈ inTurn code strategy commits value) : pair.1 ∈ commits := by
  induction commits generalizing value with
  | nil => cases hpair
  | cons commit commits ih =>
    rcases List.mem_cons.1 hpair with rfl | hrest
    · exact List.mem_cons_self
    · exact List.mem_cons_of_mem commit (ih hrest)

theorem performance_mem_of_mem_inTurn {code : κ → Routine π α ρ} {strategy : Strategy α}
    {commits : List (Commit κ)} {value : π} {pair : Commit κ × Solo π α ρ}
    (hpair : pair ∈ inTurn code strategy commits value) :
    ⟨pair.1.call, pair.2.ending, pair.2.calls⟩ ∈
      performances code strategy commits value pair.1.thread := by
  apply List.mem_map.2
  exact ⟨pair, List.mem_filter.2 ⟨hpair, by simp⟩, rfl⟩

/-- Only threads of the pool move. -/
theorem index_lt_of_follow [Journal ω] {setting : Setting ω σ π α κ ρ} {schedule : List Nat}
    {pool last : Pool ω σ π α κ ρ} {moves : List (Nat × Move π α κ ρ)}
    {entry : Nat × Move π α κ ρ}
    (hfollow : pool.follow setting schedule = some (moves, last)) (hentry : entry ∈ moves) :
    entry.1 < pool.threads.length := by
  induction schedule generalizing pool moves with
  | nil =>
    cases hfollow
    cases hentry
  | cons index schedule ih =>
    simp only [Pool.follow, Option.bind_eq_some_iff, Option.map_eq_some_iff, Prod.mk.injEq]
      at hfollow
    obtain ⟨⟨move, next⟩, hstep, ⟨later, _⟩, hlater, rfl, rfl⟩ := hfollow
    obtain ⟨thread, after, hthread, -, hthreads⟩ := Pool.moves_of_step hstep
    rcases List.mem_cons.1 hentry with rfl | hrest
    · exact (List.getElem?_eq_some_iff.1 hthread).1
    · have hindex := ih hlater hrest
      rw [hthreads, List.length_set] at hindex
      exact hindex

/-- The hooks answer so that every call in which they make no calls has the property. -/
structure Hooks.Answers (hooks : Hooks ω α) (property : HookCall α → Prop) : Prop where
  copy {source : α} {memory left : ω} {ending : Ending α} :
    (hooks.copy source memory).silent? = some (left, ending) → property (.copied source ending)
  dispose {value : α} {memory left : ω} {residue : Residue α} :
    (hooks.dispose value memory).silent? = some (left, residue) →
      property (.disposed value residue)

section Answers

variable [Journal ω] {lock : Lock ω σ} {hooks : Hooks ω α} {property : HookCall α → Prop}
  {code : κ → Routine π α ρ} {call : HookCall α}

theorem Hooks.Answers.of_step (answers : hooks.Answers property) {routine : Routine π α β}
    {cell : Cell σ π} {memory : ω} {next : Advance ω σ π α β}
    (hstep : routine.step lock hooks cell memory = some next)
    (hcall : next.event.hookCall? = some call) : property call := by
  cases routine with
  | finish ending => cases hstep
  | acquire rest =>
    rcases hattempt : lock.acquire cell.lock memory with ⟨state | ⟨cause, state⟩ | _, left⟩
    · simp only [Routine.step, hattempt, Option.some.injEq] at hstep
      subst hstep
      cases hcall
    · simp only [Routine.step, hattempt, Option.some.injEq] at hstep
      subst hstep
      cases hcall
    · simp [Routine.step, hattempt] at hstep
  | copy source rest =>
    simp only [Routine.step, Option.map_eq_some_iff] at hstep
    obtain ⟨⟨left, ending⟩, hsilent, rfl⟩ := hstep
    cases hcall
    exact answers.copy hsilent
  | dispose value rest =>
    simp only [Routine.step, Option.map_eq_some_iff] at hstep
    obtain ⟨⟨left, residue⟩, hsilent, rfl⟩ := hstep
    cases hcall
    exact answers.dispose hsilent
  | _ =>
    cases hstep
    cases hcall

theorem Hooks.Answers.of_moves (answers : hooks.Answers property) {thread thread' : Thread π α κ ρ}
    {cell cell' : Cell σ π} {memory memory' : ω} {operation : κ} {event : Event π α}
    (hmoves : thread.Moves ⟨lock, hooks, code⟩ cell memory (.made operation event) thread' cell'
      memory') (hcall : event.hookCall? = some call) : property call := by
  cases hmoves with
  | made hrunning hstep => exact answers.of_step hstep hcall

/-- What is true of every answer of the hooks is true of the hook calls that were made. -/
theorem Hooks.Answers.of_follow (answers : hooks.Answers property) {schedule : List Nat}
    {pool last : Pool ω σ π α κ ρ} {moves : List (Nat × Move π α κ ρ)}
    (hfollow : pool.follow ⟨lock, hooks, code⟩ schedule = some (moves, last))
    (hcall : MadeIn moves call) : property call := by
  obtain ⟨entry, hentry, operation, event, hmade, hevent⟩ := hcall
  induction schedule generalizing pool moves with
  | nil =>
    cases hfollow
    cases hentry
  | cons index schedule ih =>
    simp only [Pool.follow, Option.bind_eq_some_iff, Option.map_eq_some_iff, Prod.mk.injEq]
      at hfollow
    obtain ⟨⟨move, next⟩, hstep, ⟨later, _⟩, hlater, rfl, rfl⟩ := hfollow
    rcases List.mem_cons.1 hentry with rfl | hrest
    · obtain ⟨thread, after, -, hmoves, -⟩ := Pool.moves_of_step hstep
      dsimp only at hmade
      subst hmade
      exact answers.of_moves hmoves hevent
    · exact ih hlater hrest

end Answers

end Made

section Lists

variable {size : Nat}

/-- What a thread sees of scripted calls made one after another is what it sees of the session of
the calls. -/
theorem map_unscripted_performances {strategy : Strategy (HookCall α)}
    {commits : List (Commit (Operation α × List (HookCall α)))} {value : Chain α}
    {episodes : List (Episode α)}
    (h : episodes.map (fun episode => (episode.result, episode.calls)) =
      (inTurn (scriptedCode (Operation.routine size)) strategy commits value).map
        fun pair => (pair.2.ending, pair.2.unscripted.calls)) (index : Nat) :
    (performances (scriptedCode (Operation.routine size)) strategy commits value index).map
        Performance.unscripted =
      seenBy index (commits.map Commit.unscripted) episodes := by
  induction commits generalizing value episodes with
  | nil => rfl
  | cons commit commits ih =>
    cases episodes with
    | nil => cases h
    | cons episode episodes =>
      rw [inTurn, List.map_cons, List.map_cons, List.cons.injEq, Prod.mk.injEq] at h
      obtain ⟨⟨hresult, hcalls⟩, hrest⟩ := h
      have hrest := ih hrest
      rw [performances, seenBy] at hrest
      have hthread : commit.unscripted.thread = commit.thread := rfl
      by_cases hcommit : commit.thread = index
      · simp only [performances, seenBy, inTurn, List.map_cons, List.zip_cons_cons,
          List.filter_cons, hthread, hcommit, decide_true, if_true, hrest, hresult, hcalls,
          Solo.calls_unscripted]
        rfl
      · simp only [performances, seenBy, inTurn, List.map_cons, List.zip_cons_cons,
          List.filter_cons, hthread, hcommit, decide_false, Bool.false_eq_true, if_false, hrest]

variable [Journal ω]

/-- Whatever the hooks answer, a session of all calls in the order in which they took effect, with
hooks that answer as these did, leaves the same elements and the same lock, and shows every thread
what it has seen. -/
theorem exists_linearizes_of_follow {lock : Lock ω σ} {held : σ → Prop}
    (serial : lock.Serial held) {hooks : Hooks ω α} {cell : Cell σ (Chain α)} {memory : ω}
    {plans : List (Plan (Operation α) (Reply α))} {schedule : List Nat}
    {moves : List (Nat × Move (Chain α) α (Operation α) (Reply α))}
    {pool : Pool ω σ (Chain α) α (Operation α) (Reply α)}
    (hfollow : (Pool.ofPlans cell memory plans).follow ⟨lock, hooks, Operation.routine size⟩
      schedule = some (moves, pool))
    (hidle : ∀ thread ∈ pool.threads, thread.running = none) :
    ∃ script : List (HookCall α), (∀ call ∈ script, MadeIn moves call) ∧
      ∀ strategy : Strategy α, strategy.Gives [] script →
        Linearizes lock strategy size cell pool.cell (Log.ofMoves moves) plans.length := by
  have hpool' := scriptedPool_ofPlans cell memory plans moves
  obtain ⟨moves', pool', hfollow', hmoves, hpool⟩ := follow_scripted serial hpool' hfollow
  have hcode : ∀ call, (scriptedCode (Operation.routine (α := α) size) call).Outside :=
    fun call => (call.1.outside_routine size).scripted call.2
  obtain ⟨holder, hinterleaved⟩ :=
    Interleaved.of_follow serial.toExclusive Strategy.steady_plain hcode hfollow'
  have hidle' : ∀ thread ∈ pool'.threads, thread.running = none := by
    intro thread' hmember
    obtain ⟨index, hthread'⟩ := List.getElem?_of_mem hmember
    have hindex : index < pool.threads.length := by
      rw [← hpool.length]
      exact (List.getElem?_eq_some_iff.1 hthread').1
    obtain ⟨same, hsame, hscripted⟩ := hpool.threads (List.getElem?_eq_getElem hindex)
    rw [hthread', Option.some.injEq] at hsame
    subst hsame
    rcases hscripted.running with ⟨-, hnone⟩ | ⟨_, _, _, hbusy, -⟩
    · exact hnone
    · rw [hidle _ (List.getElem_mem hindex)] at hbusy
      cases hbusy
  obtain ⟨hrest, hfinished⟩ := hinterleaved.idle hidle'
  rw [hpool.length, length_threads_ofPlans hfollow] at hfinished
  have hlog : Log.ofMoves moves = (Log.ofMoves moves').unscripted := by
    rw [Log.unscripted_ofMoves, hmoves]
  have hsure := sureUses_of_answered hinterleaved.answered
    (serial.sureUses (hrest.uses serial))
  let script := (inTurn (scriptedCode (Operation.routine size)) .plain
    (Log.ofMoves moves').commits cell.value).flatMap fun pair => pair.2.unscripted.calls
  refine ⟨script, ?_, ?_⟩
  · intro call hcall
    obtain ⟨pair, hpair, hcall⟩ := List.mem_flatMap.1 hcall
    obtain ⟨move, hmove⟩ := exists_move_of_mem_commits (commit_mem_of_mem_inTurn hpair)
    have hindex := index_lt_of_follow hfollow' hmove
    rw [hpool'.length, Pool.ofPlans, List.length_map] at hindex
    have hperformed := performance_mem_of_mem_inTurn hpair
    rw [hfinished _ hindex] at hperformed
    apply madeIn_of_mem_finished
    · rw [hlog]
      exact List.mem_map_of_mem hperformed
    · rw [Solo.calls_unscripted] at hcall
      exact hcall
  · intro strategy hgives depth memory
    obtain ⟨episodes, left, hsession, hepisodes⟩ :=
      session_of_scripted depth hsure memory hgives
    refine ⟨episodes, left, ?_, ?_⟩
    · rw [hlog, Log.unscripted, List.map_map]
      rw [← hrest.value, hpool.cell] at hsession
      exact hsession
    · intro index hindex
      have hseen := map_unscripted_performances hepisodes index
      rw [hfinished index hindex] at hseen
      rw [hlog]
      exact hseen

end Lists

end GuardedList
