import GuardedList.Proofs.Turn

/-!
# Sessions

Runs of any length of a list, from one step to the next: what every step answers, which hook calls
it makes, and what the list holds before and after it (`GuardedList.session`).

Beside a list stands a machine whose state is a plain list of elements, or nothing once the list is
destroyed (`ListMachine`). On a lock that keeps its promises (`Lock.Keeps`) every session takes
place, step by step as the machine has it, for some answers of the lock (`session_eq_run`).
-/

namespace GuardedList

variable {ω σ α : Type}

/-- What a list may expect of its lock, when somebody who finds the lock in a `free` state gets one
of `answers`, and guards are given up in one of `manners`: a new lock is free, an attempt at a free
lock is answered, and the lock is free again after a refusal and after a guard was given up. -/
structure Lock.Keeps (lock : Lock ω σ) (free : σ → Prop) (answers : Except LockError Unit → Prop)
    (manners : Manner → Prop) : Prop where
  make {memory memory' : ω} {state : σ} :
    lock.make memory = (.ok state, memory') → free state
  answered {state : σ} : free state → ∀ memory, (lock.acquire state memory).1 ≠ .blocked
  granted {state next : σ} {memory memory' : ω} : free state →
    lock.acquire state memory = (.granted next, memory') →
      ∀ manner last, manners manner → free (lock.release manner next last).1
  refused {state next : σ} {cause : LockError} {memory memory' : ω} : free state →
    lock.acquire state memory = (.refused cause next, memory') →
      answers (.error cause) ∧ free next

/-- A lock that is never left held, whatever else becomes of it. -/
abbrev Lock.Lawful (lock : Lock ω σ) (free : σ → Prop) : Prop :=
  lock.Keeps free (fun _ => True) (fun _ => True)

/-- A lock that refuses nobody as long as no guard is given up by a panic. -/
abbrev Lock.Unfailing (lock : Lock ω σ) (free : σ → Prop) : Prop :=
  lock.Keeps free (· = .ok ()) (· = .orderly)

/-- A lock that refuses nobody, also after a panic. -/
abbrev Lock.Unpoisoned (lock : Lock ω σ) (free : σ → Prop) : Prop :=
  lock.Keeps free (· = .ok ()) (fun _ => True)

namespace Lock

variable {lock : Lock ω σ} {free : σ → Prop} {answers answers' : Except LockError Unit → Prop}
  {manners manners' : Manner → Prop}

theorem Keeps.mono (keeps : lock.Keeps free answers manners)
    (hanswers : ∀ answer, answers answer → answers' answer)
    (hmanners : ∀ manner, manners' manner → manners manner) :
    lock.Keeps free answers' manners' where
  make := keeps.make
  answered := keeps.answered
  granted hfree hacquire manner last hmanner :=
    keeps.granted hfree hacquire manner last (hmanners manner hmanner)
  refused hfree hacquire :=
    ⟨hanswers _ (keeps.refused hfree hacquire).1, (keeps.refused hfree hacquire).2⟩

/-- After a use the lock is free again, and an answer that refused was one of those allowed. -/
theorem Keeps.use {π : Type} (keeps : lock.Keeps free answers manners) {state next : σ}
    {events : List (Event π α)} (hfree : free state) (huse : lock.Use state events next)
    (hmanners : ∀ manner, .released manner ∈ events → manners manner) :
    free next ∧ ∀ cause, .refused cause ∈ events → answers (.error cause) := by
  cases huse with
  | unasked => exact ⟨hfree, by simp⟩
  | refused hacquire =>
    obtain ⟨hanswer, hnext⟩ := keeps.refused hfree hacquire
    refine ⟨hnext, fun other hother => ?_⟩
    cases List.mem_singleton.1 hother
    exact hanswer
  | granted manner last hacquire =>
    exact ⟨keeps.granted hfree hacquire manner last (hmanners manner (by simp)), by simp⟩

/-- A lock made of a plain mutex is never left held. -/
theorem unpoisoned_ofPlain {mutex : PlainMutex σ} {held free : σ → Prop}
    (lawful : mutex.Lawful held free) : (ofPlain mutex : Lock ω σ).Unpoisoned free where
  make h := by
    cases h
    exact lawful.fresh
  answered h memory := by
    obtain ⟨locked, hlock⟩ := lawful.lockable h
    simp [ofPlain, hlock]
  granted _ hacquire _ _ _ :=
    lawful.unlocked (lawful.locked (acquire_ofPlain_eq_granted.1 hacquire).1).2
  refused _ hacquire := absurd hacquire acquire_ofPlain_ne_refused

theorem unpoisoned_spin : (spin : Lock ω Spin).Unpoisoned (·.held = false) :=
  unpoisoned_ofPlain PlainMutex.lawful_flag

/-- A lock that can be poisoned is free unless it is held, poisoned or not. -/
theorem lawful_poisoning [Journal ω] : (poisoning : Lock ω Poisoning).Lawful (·.held = false) where
  make h := by cases h; rfl
  answered {state} h memory := by
    obtain ⟨held, poisoned⟩ := state
    cases h
    cases poisoned <;> simp
  granted _ _ _ _ _ := rfl
  refused {state} _ _ _ _ h hacquire := by
    obtain ⟨held, poisoned⟩ := state
    cases h
    cases poisoned <;> simp at hacquire
    simp [← hacquire.1]

theorem unfailing_poisoning [Journal ω] : (poisoning : Lock ω Poisoning).Unfailing fun state =>
    state = {} where
  make h := by cases h; rfl
  answered h memory := by simp [h]
  granted h hacquire manner last hmanner := by
    subst h hmanner
    simp only [acquire_poisoning, Bool.false_eq_true, if_false, Prod.mk.injEq,
      Attempt.granted.injEq] at hacquire
    obtain ⟨rfl, -⟩ := hacquire
    rfl
  refused h hacquire := by simp [h] at hacquire

end Lock

/-- One step of a session. -/
inductive Step (α : Type) where
  | call (operation : Operation α)
  | destroy

/-- What is known of a step after it was taken. -/
structure Episode (α : Type) where
  step : Step α
  /-- The elements before, unless the list was destroyed. -/
  before : Option (List α)
  result : Ending (Reply α)
  /-- The hook calls in order. -/
  calls : List (HookCall α)
  /-- The elements afterwards, unless the list is destroyed. -/
  after : Option (List α)

section Session

variable [Journal ω]

/-- Takes one step. -/
def perform (depth : Nat) (step : Step α) (list : GuardedList (Recorded α ω) σ α)
    (memory : Recorded α ω) :
    Option (Outcome (Ending (Reply α)) (GuardedList (Recorded α ω) σ α) (Recorded α ω)) :=
  match step with
  | .call operation => serve depth operation list memory
  | .destroy => (list.destroy memory).map fun outcome =>
    ⟨outcome.result.map fun _ => .done, outcome.target, outcome.memory⟩

/-- Takes steps one after another and keeps what is known of each. -/
def session (depth : Nat) : List (Step α) → GuardedList (Recorded α ω) σ α → Recorded α ω →
    Option (List (Episode α) × GuardedList (Recorded α ω) σ α × Recorded α ω)
  | [], list, memory => some ([], list, memory)
  | step :: steps, list, memory =>
    (perform depth step list memory).bind fun outcome =>
      (session depth steps outcome.target outcome.memory).map fun (episodes, last) =>
        (⟨step, list.contents?, outcome.result, outcome.memory.calls.drop memory.calls.length,
          outcome.target.contents?⟩ :: episodes, last)

/-- A session leaves the elements that its last step left. -/
theorem contents_of_session {depth : Nat} {steps : List (Step α)}
    {list last : GuardedList (Recorded α ω) σ α} {memory left : Recorded α ω}
    {episodes : List (Episode α)}
    (hsession : session depth steps list memory = some (episodes, last, left)) :
    last.contents? = episodes.foldl (fun _ episode => episode.after) list.contents? := by
  induction steps generalizing list memory episodes with
  | nil =>
    simp only [session, Option.some.injEq, Prod.mk.injEq] at hsession
    obtain ⟨rfl, rfl, rfl⟩ := hsession
    rfl
  | cons step steps ih =>
    simp only [session, Option.bind_eq_some_iff, Option.map_eq_some_iff] at hsession
    obtain ⟨outcome, -, ⟨later, _, _⟩, hlater, heq⟩ := hsession
    simp only [Prod.mk.injEq] at heq
    obtain ⟨rfl, rfl, rfl⟩ := heq
    rw [ih hlater]
    rfl

end Session

/-- Disposes of values from the first to the last, up to a panic: its text, if there is one, and the
hook calls. -/
def Strategy.disposeAll (strategy : Strategy α) :
    List (HookCall α) → List α → Option String × List (HookCall α)
  | _, [] => (none, [])
  | past, value :: values =>
    let residue := strategy.dispose past value
    let disposed := HookCall.disposed value residue
    match residue.panic with
    | none =>
      let (panic, calls) := strategy.disposeAll (past ++ [disposed]) values
      (panic, disposed :: calls)
    | some text => (some text, [disposed])

namespace ListMachine

variable (strategy : Strategy α) (size : Nat)

/-- The step of a machine that holds a plain list of elements, or nothing once it is destroyed. An
operation takes its turn on the elements; destruction disposes of them in order. -/
def episode (answer : Except LockError Unit) (past : List (HookCall α))
    (contents : Option (List α)) (step : Step α) : Episode α :=
  match step, contents with
  | .call operation, some elements =>
    let turn := operation.turn strategy size answer past elements
    ⟨step, contents, turn.result, turn.calls, some turn.contents⟩
  | .call operation, none => ⟨step, contents, operation.afterDestroy size, [], none⟩
  | .destroy, some elements =>
    let (panic, calls) := strategy.disposeAll past elements
    ⟨step, contents, (Residue.mk () panic).followedBy (.value .done), calls, none⟩
  | .destroy, none => ⟨step, contents, .value .done, [], none⟩

/-- An episode of the machine tells the step that was taken and the state that it was taken in. -/
theorem episode_eta (answer : Except LockError Unit) (past : List (HookCall α))
    (contents : Option (List α)) (step : Step α) :
    let episode := episode strategy size answer past contents step
    (⟨step, contents, episode.result, episode.calls, episode.after⟩ : Episode α) = episode := by
  cases step <;> cases contents <;> rfl

/-- Steps of the machine one after another, each with the answer that the lock gives if it is asked
during the step. -/
def run : List (Step α × Except LockError Unit) → List (HookCall α) → Option (List α) →
    List (Episode α)
  | [], _, _ => []
  | (step, answer) :: steps, past, contents =>
    let episode := episode strategy size answer past contents step
    episode :: run steps (past ++ episode.calls) episode.after

end ListMachine

/-- Hooks that never panic. -/
structure Strategy.Calm (strategy : Strategy α) : Prop where
  copy (past : List (HookCall α)) (source : α) (text : String) :
    strategy.copy past source ≠ .panicked text
  dispose (past : List (HookCall α)) (value : α) : (strategy.dispose past value).panic = none

theorem Residue.followedBy_of_calm {β : Type} {residue : Residue α} (h : residue.panic = none)
    (ending : Ending β) : residue.followedBy ending = ending := by
  simp [Residue.followedBy, h]

theorem Strategy.Calm.turn_ne_panicked {strategy : Strategy α} (calm : strategy.Calm)
    (operation : Operation α) (size : Nat) (answer : Except LockError Unit)
    (past : List (HookCall α)) (elements : List α) (text : String) :
    (operation.turn strategy size answer past elements).result ≠ .panicked text := by
  have heffect := operation.effect_turn strategy size answer past elements
  generalize operation.turn strategy size answer past elements = turn at heffect
  have hfollowed : ∀ {past value residue} (ending : Ending (Reply α)),
      strategy.dispose past value = residue → residue.followedBy ending = ending := by
    rintro past value _ ending rfl
    exact Residue.followedBy_of_calm (calm.dispose past value) ending
  cases heffect with
  | idle hcalm => exact hcalm text
  | @stopped _ value stop _ hcopy =>
    have := calm.copy past value text
    cases stop <;> simp_all [Ending.map]
  | added => simp
  | withdrawn _ hdispose => simp [hfollowed _ hdispose]
  | removed _ hdispose => simp [hfollowed _ hdispose]
  | @got _ element ending _ hcopy =>
    have := calm.copy past element text
    cases ending <;> simp_all [Ending.map]
  | replaced => simp
  | spoiled _ _ hdispose hpanic =>
    rw [← hdispose, calm.dispose] at hpanic
    simp at hpanic
  | released hdispose => simp [hfollowed _ hdispose]

/-- The lists that a state of the machine stands for: lists in use with these elements and a free
lock, and lists without a lock once the machine's list is destroyed. -/
inductive Represents (lock : Lock ω σ) (free : σ → Prop) (strategy : Strategy α) (size : Nat) :
    GuardedList (Recorded α ω) σ α → Option (List α) → Prop
  | live {cell : Cell σ (Chain α)} {elements : List α} (hfree : free cell.lock)
      (helements : cell.value.toList = elements) :
      Represents lock free strategy size ⟨size, lock.recorded, some cell, some strategy.hooks⟩
        (some elements)
  | gone (hooks : Option (Hooks (Recorded α ω) α)) :
      Represents lock free strategy size ⟨size, lock.recorded, none, hooks⟩ none

section Run

variable {lock : Lock ω σ} {free : σ → Prop} {answers : Except LockError Unit → Prop}
  {manners : Manner → Prop} {strategy : Strategy α} {size : Nat}

theorem Represents.contents {list : GuardedList (Recorded α ω) σ α} {contents : Option (List α)}
    (h : Represents lock free strategy size list contents) : list.contents? = contents := by
  cases h with
  | live hfree helements => exact congrArg some helements
  | gone hooks => rfl

/-- A new lock is free and guards the value that it was made with. -/
theorem Lock.Keeps.cell_create {π : Type} (keeps : lock.Keeps free answers manners) {value : π}
    {memory memory' : Recorded α ω} {cell : Cell σ π}
    (hcreate : Cell.create lock.recorded value memory = (.ok cell, memory')) :
    free cell.lock ∧ cell.value = value ∧ memory'.calls = memory.calls := by
  simp only [Cell.create, Lock.recorded] at hcreate
  rcases hmake : lock.make memory.rest with ⟨cause | state, rest⟩
  · simp [hmake, Except.map] at hcreate
  · simp only [hmake, Except.map, Prod.mk.injEq, Except.ok.injEq] at hcreate
    obtain ⟨rfl, rfl⟩ := hcreate
    exact ⟨keeps.make hmake, rfl, rfl⟩

/-- A list is created empty and in use, with a lock that is free. -/
theorem represents_create (keeps : lock.Keeps free answers manners) {past : List (HookCall α)}
    {memory : ω} {list : GuardedList (Recorded α ω) σ α} {memory' : Recorded α ω}
    (hcreate : create lock.recorded strategy.hooks size ⟨past, memory⟩ = (.ok list, memory')) :
    Represents lock free strategy size list (some []) ∧ memory'.calls = past := by
  simp only [create] at hcreate
  split at hcreate
  · simp at hcreate
  · rcases hcell : Cell.create lock.recorded (.empty : Chain α) (⟨past, memory⟩ : Recorded α ω)
      with ⟨cause | cell, rest⟩
    · simp [hcell] at hcreate
    · simp only [hcell, Prod.mk.injEq, Except.ok.injEq] at hcreate
      obtain ⟨rfl, rfl⟩ := hcreate
      obtain ⟨hfree, hvalue, hcalls⟩ := keeps.cell_create hcell
      exact ⟨.live hfree (by rw [hvalue]; rfl), hcalls⟩

/-- Disposing of a chain is disposing of its elements in order. -/
theorem freeAll_eq_disposeAll (strategy : Strategy α) (chain : Chain α) (freed : Nat)
    (past : List (HookCall α)) (memory : ω) :
    freeAll (some strategy.hooks) chain freed ⟨past, memory⟩ =
      some ((Residue.mk () (strategy.disposeAll past chain.toList).1).followedBy
          (.value (freed + chain.toList.length)),
        ⟨past ++ (strategy.disposeAll past chain.toList).2, memory⟩) := by
  induction chain generalizing freed past with
  | empty => simp [freeAll, Strategy.disposeAll, Residue.followedBy]
  | link value next ih =>
    rcases hresidue : strategy.dispose past value with ⟨left, _ | text⟩
    · have hnext := ih (freed + 1) (past ++ [.disposed value ⟨left, none⟩])
      have hcount : freed + (next.toList.length + 1) = freed + 1 + next.toList.length := by omega
      simp only [freeAll, Strategy.hooks, Recorded.push, hresidue, Dialogue.silent?] at hnext ⊢
      simp [hnext, Strategy.disposeAll, hresidue, hcount]
    · simp [freeAll, Strategy.hooks, Recorded.push, hresidue, Dialogue.silent?,
        Strategy.disposeAll, Residue.followedBy]

variable [Journal ω]

/-- An operation of a list in use is its routine on its own, with the answer that the lock gives if
it is asked. -/
theorem serve_eq_solo (lock : Lock ω σ) (strategy : Strategy α) (size depth : Nat)
    (operation : Operation α) (cell : Cell σ (Chain α)) (past : List (HookCall α)) (memory : ω)
    (hanswered : ((operation.routine size).solo strategy (.ok ()) cell.value past).lockEvents ≠ [] →
      ∀ memory, (lock.acquire cell.lock memory).1 ≠ .blocked) :
    ∃ answer state rest,
      let solo := (operation.routine size).solo strategy answer cell.value past
      (answer = .ok () ∨ ∃ cause, answer = .error cause ∧ solo.lockEvents = [.refused cause]) ∧
      lock.Use cell.lock solo.lockEvents state ∧
      serve depth operation ⟨size, lock.recorded, some cell, some strategy.hooks⟩ ⟨past, memory⟩ =
        some ⟨solo.ending, ⟨size, lock.recorded, some ⟨state, solo.value⟩, some strategy.hooks⟩,
          ⟨past ++ solo.calls, rest⟩⟩ := by
  obtain ⟨answer, state, rest, hanswer, huse, hrun⟩ :=
    Routine.run_of_outside (Operation.serve lock.recorded strategy.hooks size depth)
      (operation.outside_routine size) lock strategy cell past memory hanswered
  refine ⟨answer, state, rest, hanswer, huse, ?_⟩
  simp only [serve, Operation.serve, hrun]
  rfl

/-- A step of a list is the step of the machine, for some answer of the lock. -/
theorem perform_eq_episode (keeps : lock.Keeps free answers manners)
    (horderly : manners .orderly) (hmanners : manners .unwinding ∨ strategy.Calm)
    {list : GuardedList (Recorded α ω) σ α} {contents : Option (List α)}
    (hlist : Represents lock free strategy size list contents) (depth : Nat) (step : Step α)
    (past : List (HookCall α)) (memory : ω) :
    ∃ answer next rest, (answer = .ok () ∨ answers answer) ∧
      let episode := ListMachine.episode strategy size answer past contents step
      perform depth step list ⟨past, memory⟩ =
        some ⟨episode.result, next, ⟨past ++ episode.calls, rest⟩⟩ ∧
      Represents lock free strategy size next episode.after := by
  cases hlist with
  | gone hooks =>
    refine ⟨.ok (), ?_⟩
    cases step with
    | call operation =>
      exact ⟨_, memory, .inl rfl, by simp [perform, serve, ListMachine.episode], .gone hooks⟩
    | destroy =>
      exact ⟨_, memory, .inl rfl, by simp [perform, destroy, ListMachine.episode, Ending.map],
        .gone none⟩
  | @live cell elements hfree helements =>
    cases helements
    cases step with
    | call operation =>
      obtain ⟨answer, state, rest, hanswer, huse, hserve⟩ :=
        serve_eq_solo lock strategy size depth operation cell past memory
          fun _ => keeps.answered hfree
      have hturn := operation.turn_solo strategy size answer past cell.value
      have hpanicked := (operation.outside_routine size).panicked_of_unwinding
        strategy answer cell.value past
      generalize (operation.routine size).solo strategy answer cell.value past = solo at *
      obtain ⟨hnext, hrefused⟩ := keeps.use hfree huse fun manner hmember => by
        cases manner with
        | orderly => exact horderly
        | unwinding =>
          refine hmanners.resolve_right fun calm => ?_
          obtain ⟨text, htext⟩ := hpanicked hmember
          apply calm.turn_ne_panicked operation size answer past cell.value.toList text
          rw [← hturn]
          exact htext
      refine ⟨answer, ⟨size, lock.recorded, some ⟨state, solo.value⟩, some strategy.hooks⟩, rest,
        ?_, ?_, ?_⟩
      · rcases hanswer with rfl | ⟨cause, rfl, hevents⟩
        · exact .inl rfl
        · exact .inr (hrefused cause (by simp [hevents]))
      · simp only [perform, hserve, ListMachine.episode, ← hturn, Solo.turn]
      · simp only [ListMachine.episode, ← hturn, Solo.turn]
        exact .live hnext rfl
    | destroy =>
      have hfreed :=
        freeAll_eq_disposeAll strategy cell.value 0 past (lock.destroy cell.lock memory)
      refine ⟨.ok (), ?_⟩
      simp only [perform, destroy, Cell.destroy, Lock.recorded, hfreed, ListMachine.episode]
      rcases strategy.disposeAll past cell.value.toList with ⟨_ | text, calls⟩
      · exact ⟨_, _, .inl trivial, rfl, .gone none⟩
      · exact ⟨_, _, .inl trivial, rfl, .gone (some strategy.hooks)⟩

/-- A session is a run of the machine, with the answers that the lock gives. -/
theorem session_eq_run (keeps : lock.Keeps free answers manners)
    (horderly : manners .orderly) (hmanners : manners .unwinding ∨ strategy.Calm)
    {list : GuardedList (Recorded α ω) σ α} {contents : Option (List α)}
    (hlist : Represents lock free strategy size list contents) (depth : Nat)
    (steps : List (Step α)) (past : List (HookCall α)) (memory : ω) :
    ∃ answered : List (Step α × Except LockError Unit), ∃ last rest,
      answered.map Prod.fst = steps ∧
      (∀ pair ∈ answered, pair.2 = .ok () ∨ answers pair.2) ∧
      let episodes := ListMachine.run strategy size answered past contents
      session depth steps list ⟨past, memory⟩ =
        some (episodes, last, ⟨past ++ episodes.flatMap Episode.calls, rest⟩) ∧
      Represents lock free strategy size last last.contents? := by
  induction steps generalizing list contents past memory with
  | nil =>
    refine ⟨[], list, memory, rfl, by simp, by simp [session, ListMachine.run], ?_⟩
    rw [hlist.contents]
    exact hlist
  | cons step steps ih =>
    obtain ⟨answer, next, middle, hanswer, hperform, hnext⟩ :=
      perform_eq_episode keeps horderly hmanners hlist depth step past memory
    obtain ⟨answered, last, rest, hsteps, hanswers, hsession, hlast⟩ :=
      ih hnext (past ++ (ListMachine.episode strategy size answer past contents step).calls) middle
    refine ⟨(step, answer) :: answered, last, rest, by simp [hsteps], ?_, ?_, hlast⟩
    · intro pair hpair
      rcases List.mem_cons.1 hpair with rfl | hpair
      · exact hanswer
      · exact hanswers pair hpair
    · rw [session, hperform, Option.bind_some, hsession]
      have hepisode := ListMachine.episode_eta strategy size answer past contents step
      simp only [Option.map_some, List.drop_left, hlist.contents, hnext.contents, hepisode,
        ListMachine.run, List.flatMap_cons, List.append_assoc]

/-- On a lock that refuses nobody a session is the run of the machine in which nobody is refused. -/
theorem session_eq_run_of_granted (keeps : lock.Keeps free (· = .ok ()) manners)
    (horderly : manners .orderly) (hmanners : manners .unwinding ∨ strategy.Calm)
    {list : GuardedList (Recorded α ω) σ α} {contents : Option (List α)}
    (hlist : Represents lock free strategy size list contents) (depth : Nat)
    (steps : List (Step α)) (past : List (HookCall α)) (memory : ω) :
    ∃ last rest,
      let episodes := ListMachine.run strategy size (steps.map (·, .ok ())) past contents
      session depth steps list ⟨past, memory⟩ =
        some (episodes, last, ⟨past ++ episodes.flatMap Episode.calls, rest⟩) := by
  obtain ⟨answered, last, rest, hsteps, hanswers, hsession, -⟩ :=
    session_eq_run keeps horderly hmanners hlist depth steps past memory
  have hgranted : answered = steps.map (·, .ok ()) := by
    rw [← hsteps, List.map_map]
    refine (List.map_id' answered).symm.trans (List.map_congr_left fun pair hpair => ?_)
    exact Prod.ext rfl ((hanswers pair hpair).elim id id)
  exact ⟨last, rest, hgranted ▸ hsession⟩

end Run

end GuardedList
