import GuardedList.Proofs.Completion
import Mathlib.Data.List.Flatten

/-!
# Taking turns

When nobody is refused the lock and no hook panics, threads that share a list are explained by calls
that take their turns on a plain list of elements (`takeTurns`), in the order in which they take
effect (`InTurns`). Nothing but the order is left to chance: the elements in the end, the endings of
all calls and the calls of the hooks are those of the turns.
-/

namespace GuardedList

variable {ω σ α : Type}

/-- Calls that take their turns on a list of `elements` one after another, after the hook calls in
`past` and on a lock that refuses nobody: each call with its turn. -/
def takeTurns (strategy : Strategy α) (size : Nat) :
    List (Commit (Operation α)) → List (HookCall α) → List α → List (Commit (Operation α) × Turn α)
  | [], _, _ => []
  | commit :: commits, past, elements =>
    let turn := commit.call.turn strategy size (.ok ()) past elements
    (commit, turn) :: takeTurns strategy size commits (past ++ turn.calls) turn.contents

/-- Whether a call has succeeded. -/
def Ending.succeeded {β : Type} : Ending β → Bool
  | value _ => true
  | _ => false

/-- The elements that are left of `elements` after the turns. -/
def elementsAfter (elements : List α) (turns : List (Commit (Operation α) × Turn α)) : List α :=
  turns.foldl (fun _ pair => pair.2.contents) elements

/-- The turns of the calls of one thread. -/
def turnsOf (index : Nat) (turns : List (Commit (Operation α) × Turn α)) :
    List (Commit (Operation α) × Turn α) :=
  turns.filter fun pair => pair.1.thread = index

section Machine

variable (strategy : Strategy α) (size : Nat)

@[simp] theorem map_fst_takeTurns (commits : List (Commit (Operation α)))
    (past : List (HookCall α)) (elements : List α) :
    (takeTurns strategy size commits past elements).map Prod.fst = commits := by
  induction commits generalizing past elements with
  | nil => rfl
  | cons commit commits ih => rw [takeTurns, List.map_cons, ih]

/-- Every call takes its turn. -/
theorem exists_turn_of_mem {commits : List (Commit (Operation α))} (past : List (HookCall α))
    (elements : List α) {commit : Commit (Operation α)} (hcommit : commit ∈ commits) :
    ∃ pair ∈ takeTurns strategy size commits past elements, pair.1 = commit := by
  rw [← map_fst_takeTurns strategy size commits past elements] at hcommit
  exact List.mem_map.1 hcommit

/-- The machine of plain lists leaves the elements that the turns leave. -/
theorem foldl_after_run (commits : List (Commit (Operation α))) (past : List (HookCall α))
    (elements : List α) :
    (ListMachine.run strategy size (commits.map fun commit => (.call commit.call, .ok ())) past
      (some elements)).foldl (fun _ episode => episode.after) (some elements) =
        some (elementsAfter elements (takeTurns strategy size commits past elements)) := by
  induction commits generalizing past elements with
  | nil => rfl
  | cons commit commits ih => exact ih _ _

/-- What a thread sees of the machine of plain lists are the turns of its calls. -/
theorem seenBy_run (commits : List (Commit (Operation α))) (past : List (HookCall α))
    (elements : List α) (index : Nat) :
    seenBy index commits (ListMachine.run strategy size
        (commits.map fun commit => (.call commit.call, .ok ())) past (some elements)) =
      (turnsOf index (takeTurns strategy size commits past elements)).map
        fun pair => ⟨pair.1.call, pair.2.result, pair.2.calls⟩ := by
  induction commits generalizing past elements with
  | nil => rfl
  | cons commit commits ih =>
    let turn := commit.call.turn strategy size (.ok ()) past elements
    have hrest := ih (past ++ turn.calls) turn.contents
    rw [seenBy, turnsOf] at hrest
    rw [List.map_cons, ListMachine.run, takeTurns, seenBy, turnsOf, List.zip_cons_cons]
    by_cases hcommit : commit.thread = index
    · rw [List.filter_cons_of_pos (by simpa using hcommit),
        List.filter_cons_of_pos (by simpa using hcommit), List.map_cons, List.map_cons]
      exact congrArg _ hrest
    · rw [List.filter_cons_of_neg (by simpa using hcommit),
        List.filter_cons_of_neg (by simpa using hcommit)]
      exact hrest

end Machine

/-- Threads at rest, explained by the turns of their calls. -/
structure InTurns (elements : List α) (turns : List (Commit (Operation α) × Turn α))
    (moves : List (Nat × Move (Chain α) α (Operation α) (Reply α)))
    (pool : Pool ω σ (Chain α) α (Operation α) (Reply α)) : Prop where
  left : pool.cell.value.toList = elementsAfter elements turns
  owner : ∀ pair ∈ turns, pair.1.thread < pool.threads.length
  finished {index : Nat} : index < pool.threads.length →
    ((Log.ofMoves moves).transcript index).finished =
      (turnsOf index turns).map fun pair => ⟨pair.1.call, pair.2.result, pair.2.calls⟩
  history {index : Nat} {thread : Thread (Chain α) α (Operation α) (Reply α)} :
    pool.threads[index]? = some thread → thread.history.reverse =
      (turnsOf index turns).map fun pair => (pair.1.call, pair.2.result)

section Plain

/-- The answer that plain hooks give. -/
def HookCall.IsPlain : HookCall α → Prop
  | copied source ending => ending = .value source
  | disposed value residue => residue = { value }

theorem Hooks.answers_clone : (clone : Hooks ω α).Answers HookCall.IsPlain where
  copy h := by
    cases h
    rfl
  dispose h := by
    cases h
    rfl

theorem Strategy.gives_plain {calls : List (HookCall α)} (h : ∀ call ∈ calls, call.IsPlain)
    (past : List (HookCall α)) : plain.Gives past calls := by
  induction calls generalizing past with
  | nil => trivial
  | cons call calls ih =>
    have hcall := h call List.mem_cons_self
    have hcalls : ∀ call ∈ calls, call.IsPlain := by
      intro call hmember
      exact h call (List.mem_cons_of_mem _ hmember)
    cases call with
    | copied source ending =>
      have hending : ending = .value source := hcall
      subst hending
      exact ⟨rfl, ih hcalls _⟩
    | disposed value residue =>
      have hresidue : residue = { value } := hcall
      subst hresidue
      exact ⟨rfl, ih hcalls _⟩

theorem Strategy.calm_plain : (plain : Strategy α).Calm where
  copy past source text := by simp [plain]
  dispose _ _ := rfl

variable [Journal ω]

/-- With plain hooks the session that explains what threads see is one with plain hooks. -/
theorem linearizes_clone_of_follow {lock : Lock ω σ} {held : σ → Prop} (serial : lock.Serial held)
    {size : Nat} {cell : Cell σ (Chain α)} {memory : ω}
    {plans : List (Plan (Operation α) (Reply α))} {schedule : List Nat}
    {moves : List (Nat × Move (Chain α) α (Operation α) (Reply α))}
    {pool : Pool ω σ (Chain α) α (Operation α) (Reply α)}
    (hfollow : (Pool.ofPlans cell memory plans).follow ⟨lock, .clone, Operation.routine size⟩
      schedule = some (moves, pool))
    (hidle : ∀ thread ∈ pool.threads, thread.running = none) :
    Linearizes lock .plain size cell pool.cell (Log.ofMoves moves) plans.length := by
  obtain ⟨script, hmade, hlinear⟩ := exists_linearizes_of_follow serial hfollow hidle
  apply hlinear
  apply Strategy.gives_plain
  intro call hcall
  exact Hooks.answers_clone.of_follow hfollow (hmade call hcall)

end Plain

section Explain

variable [Journal ω] {lock : Lock ω σ} {hooks : Hooks ω α} {held free intact : σ → Prop}
  {size : Nat} {start : Cell σ (Chain α)} {memory : ω}
  {plans : List (Plan (Operation α) (Reply α))} {schedule : List Nat}
  {moves : List (Nat × Move (Chain α) α (Operation α) (Reply α))}
  {pool : Pool ω σ (Chain α) α (Operation α) (Reply α)}

/-- A session on a lock that refuses nobody, with hooks that never panic, is one of turns. -/
theorem inTurns_of_linearizes (keeps : lock.Unfailing intact) (hintact : intact start.lock)
    {strategy : Strategy α} (calm : strategy.Calm)
    (hfollow : (Pool.ofPlans start memory plans).follow ⟨lock, hooks, Operation.routine size⟩
      schedule = some (moves, pool))
    (hlinear : Linearizes lock strategy size start pool.cell (Log.ofMoves moves) plans.length) :
    InTurns start.value.toList
      (takeTurns strategy size (Log.ofMoves moves).commits [] start.value.toList) moves pool := by
  let commits := (Log.ofMoves moves).commits
  obtain ⟨episodes, left, hsession, hseen⟩ := hlinear 0 memory
  obtain ⟨_, _, hgranted⟩ := session_eq_run_of_granted keeps rfl (.inr calm)
    (.live hintact rfl) 0 (commits.map fun commit => .call commit.call) [] memory
  rw [List.map_map] at hgranted
  have hepisodes : episodes = ListMachine.run strategy size
      (commits.map fun commit => (.call commit.call, .ok ())) [] (some start.value.toList) := by
    rw [hsession, Option.some.injEq, Prod.mk.injEq] at hgranted
    exact hgranted.1
  subst hepisodes
  have hcontents := contents_of_session hsession
  have hafter := foldl_after_run strategy size commits [] start.value.toList
  have hthreads := length_threads_ofPlans hfollow
  have hfinished : ∀ {index}, index < pool.threads.length →
      ((Log.ofMoves moves).transcript index).finished =
        (turnsOf index (takeTurns strategy size commits [] start.value.toList)).map
          fun pair => ⟨pair.1.call, pair.2.result, pair.2.calls⟩ := by
    intro index hindex
    rw [hthreads] at hindex
    rw [hseen index hindex]
    exact seenBy_run strategy size commits [] start.value.toList index
  refine ⟨?_, ?_, hfinished, ?_⟩
  · exact Option.some.inj (hcontents.trans hafter)
  · intro pair hpair
    have hcommit : pair.1 ∈ commits := by
      rw [← map_fst_takeTurns strategy size commits [] start.value.toList]
      exact List.mem_map_of_mem hpair
    obtain ⟨move, hmove⟩ := exists_move_of_mem_commits hcommit
    have hindex := index_lt_of_follow hfollow hmove
    rwa [Pool.ofPlans, List.length_map, ← hthreads] at hindex
  · intro index thread hthread
    have hindex := (List.getElem?_eq_some_iff.1 hthread).1
    rw [history_of_follow_ofPlans hfollow hthread, Transcript.history, List.reverse_reverse,
      hfinished hindex, List.map_map]
    rfl

section Replay

variable {script : List (HookCall α)}

/-- What is true of plain copies and of those in a script is true of the copies of hooks that follow
the script. -/
theorem Strategy.copy_replay (endings : Ending α → Prop)
    (hplain : ∀ source, endings (.value source))
    (h : ∀ source ending, .copied source ending ∈ script → endings ending)
    (past : List (HookCall α)) (source : α) : endings ((replay script).copy past source) := by
  dsimp only [replay]
  cases hcall : script[past.length]? with
  | none => exact hplain source
  | some call =>
    cases call with
    | copied earlier ending => exact h earlier ending (List.mem_of_getElem? hcall)
    | disposed value residue => exact hplain source

theorem Strategy.dispose_replay (residues : Residue α → Prop)
    (hplain : ∀ value, residues { value })
    (h : ∀ value residue, .disposed value residue ∈ script → residues residue)
    (past : List (HookCall α)) (value : α) : residues ((replay script).dispose past value) := by
  dsimp only [replay]
  cases hcall : script[past.length]? with
  | none => exact hplain value
  | some call =>
    cases call with
    | copied source ending => exact hplain value
    | disposed earlier residue => exact h earlier residue (List.mem_of_getElem? hcall)

/-- Hooks that follow a script without a panic never panic. -/
theorem Strategy.calm_replay (h : ∀ call ∈ script, call.panic? = none) : (replay script).Calm where
  copy past source text :=
    copy_replay (· ≠ .panicked text) (by simp)
      (fun earlier ending hcall hpanic => by
        have hcalm := h _ hcall
        rw [HookCall.panic?_copied.2 hpanic] at hcalm
        cases hcalm)
      past source
  dispose past value :=
    dispose_replay (·.panic = none) (fun _ => rfl)
      (fun _ _ hcall => h _ hcall) past value

end Replay

/-- Whatever silent hooks answer, as long as they do not panic threads at rest are explained by
turns with hooks that answer as they did. -/
theorem exists_inTurns_of_follow (working : lock.Working held free intact)
    (hintact : intact start.lock) {property : HookCall α → Prop} (answers : hooks.Answers property)
    (hcalm : ∀ call, property call → call.panic? = none)
    (hfollow : (Pool.ofPlans start memory plans).follow ⟨lock, hooks, Operation.routine size⟩
      schedule = some (moves, pool))
    (hidle : ∀ thread ∈ pool.threads, thread.running = none) :
    ∃ script : List (HookCall α), (∀ call ∈ script, property call) ∧
      InTurns start.value.toList (takeTurns (.replay script) size (Log.ofMoves moves).commits []
        start.value.toList) moves pool := by
  obtain ⟨script, hmade, hlinear⟩ :=
    exists_linearizes_of_follow working.mutex.toSerial hfollow hidle
  have hproperty : ∀ call ∈ script, property call := by
    intro call hcall
    exact answers.of_follow hfollow (hmade call hcall)
  have calm : (Strategy.replay script).Calm :=
    Strategy.calm_replay fun call hcall => hcalm call (hproperty call hcall)
  exact ⟨script, hproperty, inTurns_of_linearizes working.unfailing hintact calm hfollow
    (hlinear _ (Strategy.gives_replay [] script))⟩

/-- Threads with plain hooks are explained by turns with plain hooks. -/
theorem inTurns_clone_of_follow (working : lock.Working held free intact)
    (hintact : intact start.lock)
    (hfollow : (Pool.ofPlans start memory plans).follow ⟨lock, .clone, Operation.routine size⟩
      schedule = some (moves, pool))
    (hidle : ∀ thread ∈ pool.threads, thread.running = none) :
    InTurns start.value.toList
      (takeTurns .plain size (Log.ofMoves moves).commits [] start.value.toList) moves pool :=
  inTurns_of_linearizes working.unfailing hintact Strategy.calm_plain hfollow
    (linearizes_clone_of_follow working.mutex.toSerial hfollow hidle)

end Explain

section Hooks

variable {π κ ρ : Type}

/-- The hook call that a move makes. -/
def Move.hookCall? : Move π α κ ρ → Option (HookCall α)
  | made _ event => event.hookCall?
  | _ => none

/-- The hook calls that were made in these moves. -/
def hookCalls (moves : List (Nat × Move π α κ ρ)) : List (HookCall α) :=
  moves.filterMap fun entry => entry.2.hookCall?

/-- The log keeps the moves of every thread apart. -/
theorem transcript_ofMoves (moves : List (Nat × Move π α κ ρ)) (index : Nat) :
    (Log.ofMoves moves).transcript index = (movesOf moves index).foldl Transcript.read {} := by
  induction moves using List.reverseRecOn with
  | nil => rfl
  | append_singleton moves entry ih =>
    obtain ⟨mover, move⟩ := entry
    rw [Log.ofMoves_append_singleton, movesOf, List.filter_append, List.map_append]
    by_cases hindex : index = mover
    · subst hindex
      rw [Log.transcript_read_self, ih, List.filter_singleton, ← movesOf]
      simp
    · rw [Log.transcript_read_of_ne _ _ _ hindex, ih, List.filter_singleton, ← movesOf]
      simp [Ne.symm hindex]

/-- A thread's hook calls are those of the calls that have ended, and of the one under way. -/
structure Thread.Accounted (own : List (Move π α κ ρ)) (thread : Thread π α κ ρ) : Prop where
  calls : own.filterMap Move.hookCall? =
    (own.foldl Transcript.read {}).finished.flatMap Performance.calls ++
      (own.foldl Transcript.read {}).calls
  idle : thread.running = none → (own.foldl Transcript.read {}).calls = []

variable [Journal ω] {setting : Setting ω σ π α κ ρ}

theorem Thread.Accounted.moves {own : List (Move π α κ ρ)} {thread thread' : Thread π α κ ρ}
    {cell cell' : Cell σ π} {memory memory' : ω} {move : Move π α κ ρ}
    (hmoves : thread.Moves setting cell memory move thread' cell' memory')
    (h : thread.Accounted own) : thread'.Accounted (own ++ [move]) := by
  obtain ⟨hcalls, hidle⟩ := h
  cases hmoves with
  | began hrunning =>
    refine ⟨?_, fun _ => by simp [Transcript.read]⟩
    rw [hidle hrunning] at hcalls
    simpa [Transcript.read, Move.hookCall?, List.filterMap_cons] using hcalls
  | ended hrunning =>
    refine ⟨?_, fun _ => by simp [Transcript.read]⟩
    simpa [Transcript.read, Move.hookCall?, List.filterMap_cons] using hcalls
  | made hrunning hstep =>
    refine ⟨?_, fun hnone => by cases hnone⟩
    rw [List.filterMap_append, hcalls, List.foldl_append, List.foldl_cons, List.foldl_nil,
      Transcript.read, List.append_assoc]
    rfl

end Hooks

section Shares

variable {elements : List α} {turns : List (Commit (Operation α) × Turn α)}
  {moves : List (Nat × Move (Chain α) α (Operation α) (Reply α))}
  {pool : Pool ω σ (Chain α) α (Operation α) (Reply α)}

/-- The turns of all threads, thread by thread. -/
theorem InTurns.perm_turnsOf (h : InTurns elements turns moves pool) :
    ((List.range pool.threads.length).flatMap fun index => turnsOf index turns).Perm turns :=
  perm_flatMap_filter (fun pair : Commit (Operation α) × Turn α => pair.1.thread) h.owner

/-- The calls that the threads have made are those of the turns. -/
theorem InTurns.perm_history (h : InTurns elements turns moves pool) :
    (pool.threads.flatMap Thread.history).Perm
      (turns.map fun pair => (pair.1.call, pair.2.result)) := by
  have hreverse : (pool.threads.flatMap fun thread => thread.history.reverse).Perm
      (pool.threads.flatMap Thread.history) := by
    apply List.Perm.flatMap_left
    intro thread _
    exact List.reverse_perm thread.history
  have hshares : (pool.threads.flatMap fun thread => thread.history.reverse) =
      (List.range pool.threads.length).flatMap fun index =>
        (turnsOf index turns).map fun pair => (pair.1.call, pair.2.result) :=
    flatMap_eq_flatMap_range h.history
  have hturns := h.perm_turnsOf.map fun pair => (pair.1.call, pair.2.result)
  rw [List.map_flatMap, ← hshares] at hturns
  exact hreverse.symm.trans hturns

/-- A call that has ended earlier took one of the turns too. -/
theorem InTurns.exists_turn (h : InTurns elements turns moves pool)
    {thread : Thread (Chain α) α (Operation α) (Reply α)}
    (hlater : ∃ later ∈ pool.threads, thread.history <:+ later.history)
    {entry : Operation α × Ending (Reply α)} (hentry : entry ∈ thread.history) :
    ∃ pair ∈ turns, (pair.1.call, pair.2.result) = entry := by
  obtain ⟨later, hmember, hsuffix⟩ := hlater
  have hmade : entry ∈ pool.threads.flatMap Thread.history :=
    List.mem_flatMap_of_mem hmember (hsuffix.mem hentry)
  exact List.mem_map.1 (h.perm_history.mem_iff.1 hmade)

variable [Journal ω] {setting : Setting ω σ (Chain α) α (Operation α) (Reply α)}
  {start : Cell σ (Chain α)} {memory : ω} {programs : List (List (Operation α))}
  {schedule : List Nat}

/-- The calls of one thread that took a turn are the first ones of its program. -/
theorem InTurns.calls_prefix (h : InTurns elements turns moves pool)
    (hfollow : (Pool.ofPlans start memory (programs.map Plan.inOrder)).follow setting schedule =
      some (moves, pool))
    (hidle : ∀ thread ∈ pool.threads, thread.running = none) {index : Nat}
    {program : List (Operation α)} (hprogram : programs[index]? = some program) :
    (turnsOf index turns).map (·.1.call) <+: program := by
  have hindex := index_lt_of_program hfollow hprogram
  have hthread := List.getElem?_eq_getElem hindex
  have hbegun := (executes_of_follow hfollow hprogram hthread).begun
  rw [hidle _ (List.getElem_mem hindex), Option.map_none, Option.toList_none, List.append_nil,
    h.history hthread, List.map_map] at hbegun
  exact hbegun

/-- The calls that took a turn are calls of the programs, each as often at most as it is there. -/
theorem InTurns.subperm_calls (h : InTurns elements turns moves pool)
    (hfollow : (Pool.ofPlans start memory (programs.map Plan.inOrder)).follow setting schedule =
      some (moves, pool))
    (hidle : ∀ thread ∈ pool.threads, thread.running = none) :
    (turns.map (·.1.call)).Subperm programs.flatten := by
  have hcount : pool.threads.length = programs.length := by
    rw [length_threads_ofPlans hfollow, List.length_map]
  have hshares := h.perm_turnsOf.map (·.1.call)
  rw [List.map_flatMap, hcount] at hshares
  refine hshares.symm.subperm.trans (List.Sublist.subperm ?_)
  rw [flatten_eq_flatMap_range]
  apply List.Sublist.flatMap_right
  intro index hindex
  rw [List.mem_range] at hindex
  have hprogram := List.getElem?_eq_getElem hindex
  rw [hprogram, Option.getD_some]
  exact (h.calls_prefix hfollow hidle hprogram).sublist

/-- When all threads are done every call of the programs has taken its turn. -/
theorem InTurns.calls_of_isDone (h : InTurns elements turns moves pool)
    (hfollow : (Pool.ofPlans start memory (programs.map Plan.inOrder)).follow setting schedule =
      some (moves, pool))
    (hdone : ∀ thread ∈ pool.threads, thread.isDone = true) {index : Nat}
    {program : List (Operation α)} (hprogram : programs[index]? = some program) :
    (turnsOf index turns).map (·.1.call) = program := by
  have hindex := index_lt_of_program hfollow hprogram
  have hthread := List.getElem?_eq_getElem hindex
  have hcalls := calls_of_follow hfollow hprogram hthread (hdone _ (List.getElem_mem hindex))
  rw [h.history hthread, List.map_map] at hcalls
  exact hcalls

/-- The hook calls of threads at rest are those of the turns. -/
theorem InTurns.perm_hookCalls (h : InTurns elements turns moves pool)
    {plans : List (Plan (Operation α) (Reply α))}
    (hfollow : (Pool.ofPlans start memory plans).follow setting schedule = some (moves, pool))
    (hidle : ∀ thread ∈ pool.threads, thread.running = none) :
    (hookCalls moves).Perm (turns.flatMap (·.2.calls)) := by
  have hmoves := (perm_flatMap_movesOf hfollow).filterMap Move.hookCall?
  rw [List.filterMap_flatMap, List.filterMap_map, ← length_threads_ofPlans hfollow] at hmoves
  have hturns := h.perm_turnsOf.flatMap_right (·.2.calls)
  rw [List.flatMap_assoc] at hturns
  have hshares : ∀ index ∈ List.range pool.threads.length,
      (movesOf moves index).filterMap Move.hookCall? =
        (turnsOf index turns).flatMap (·.2.calls) := by
    intro index hindex
    rw [List.mem_range] at hindex
    have haccounted : pool.threads[index].Accounted (movesOf moves index) :=
      Pool.ofPlans_induction_own (fun _ own thread => thread.Accounted own)
        (fun hmoves h => h.moves hmoves) (fun _ => ⟨rfl, fun _ => rfl⟩) hfollow
        (List.getElem?_eq_getElem hindex)
    rw [haccounted.calls, haccounted.idle (hidle _ (List.getElem_mem hindex)),
      ← transcript_ofMoves, h.finished hindex, List.append_nil, List.flatMap_map]
  rw [List.flatMap_congr hshares] at hmoves
  exact hmoves.symm.trans hturns

theorem InTurns.perm_calls_of_isDone (h : InTurns elements turns moves pool)
    (hfollow : (Pool.ofPlans start memory (programs.map Plan.inOrder)).follow setting schedule =
      some (moves, pool))
    (hdone : ∀ thread ∈ pool.threads, thread.isDone = true) :
    (turns.map (·.1.call)).Perm programs.flatten := by
  have hcount : pool.threads.length = programs.length := by
    rw [length_threads_ofPlans hfollow, List.length_map]
  have hshares := h.perm_turnsOf.map (·.1.call)
  rw [List.map_flatMap, hcount] at hshares
  refine hshares.symm.trans ?_
  rw [flatten_eq_flatMap_range]
  apply List.Perm.flatMap_left
  intro index hindex
  rw [List.mem_range] at hindex
  have hprogram := List.getElem?_eq_getElem hindex
  rw [hprogram, Option.getD_some, h.calls_of_isDone hfollow hdone hprogram]

end Shares

end GuardedList
