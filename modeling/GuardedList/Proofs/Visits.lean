import GuardedList.Section
import Mathlib.Logic.Function.Iterate

/-!
# Sections one after another

Used on its own, section after section, a lock with a value behind it is a register. What a section
reads is what was written last (`latest`), be it by the section itself or by an earlier one, and be
it by one that panicked afterwards. The locks differ only in whom they let in: some mind a panic and
turn everybody away from then on (`Lock.Resting`). Whoever is turned away changes nothing, and the
value can always be recovered (`Lock.KeepsRegister`).

Of the mutex that a lock is made of only its promises are used (`Lock.isRegister_of_lawful`). That a
plain one lets everybody in, and that one that can be poisoned turns people away without staying
held, is what the locks make of them.
-/

namespace GuardedList

variable {ω σ π : Type}

/-- The value after some actions, the latest of them first: the one that the latest change left, or
`start` when nothing was changed. -/
def latest (start : π) : List (Action π) → π
  | [] => start
  | .write value :: _ => value
  | .modify change :: earlier => change (latest start earlier)
  | .read :: earlier => latest start earlier
  | .panic :: earlier => latest start earlier

/-- What is read in the course of some actions that follow those in `past`, the latest of these
first. After a panic nothing is read. -/
def readings (start : π) : List (Action π) → List (Action π) → List π
  | _, [] => []
  | past, .read :: rest => latest start past :: readings start (.read :: past) rest
  | past, .write value :: rest => readings start (.write value :: past) rest
  | past, .modify change :: rest => readings start (.modify change :: past) rest
  | _, .panic :: _ => []

/-- Whether the action is a panic. -/
def Action.isPanic : Action π → Bool
  | panic => true
  | _ => false

namespace Section

/-- Whether the holder panics, if it gets the lock. -/
def panics (job : Section π) : Bool := job.body.any Action.isPanic

/-- What the holder does, if it gets the lock: all up to a panic. -/
def done (job : Section π) : List (Action π) := job.body.takeWhile fun action => !action.isPanic

/-- What is reported of a section that gets the lock after the actions in `past`. -/
def report (start : π) (past : List (Action π)) (job : Section π) : Report π :=
  if job.panics then .holderPanicked (readings start past job.body)
  else .completed (readings start past job.body)

end Section

/-- A section and what came of it. -/
structure Visit (π : Type) where
  job : Section π
  ending : Ending (Report π)

namespace Visit

/-- The holder panicked. -/
def Panicked (visit : Visit π) : Prop := ∃ seen, visit.ending = .value (.holderPanicked seen)

/-- The lock was refused. -/
def turnedAway (visit : Visit π) : Bool :=
  match visit.ending with
  | .value (.refused _) => true
  | _ => false

/-- What was done: nothing if the lock was refused. -/
def done (visit : Visit π) : List (Action π) :=
  match visit.ending with
  | .value (.refused _) => []
  | _ => visit.job.done

section Report

variable (start : π) (past : List (Action π)) (job : Section π)

theorem done_of_report : done ⟨job, .value (job.report start past)⟩ = job.done := by
  simp only [done, Section.report]
  cases job.panics <;> rfl

theorem not_turnedAway_of_report :
    ¬ turnedAway ⟨job, .value (job.report start past)⟩ = true := by
  simp only [turnedAway, Section.report]
  cases job.panics <;> simp

theorem panicked_of_report :
    Panicked ⟨job, .value (job.report start past)⟩ ↔ job.panics = true := by
  simp only [Panicked, Section.report]
  cases job.panics <;> simp

end Report

end Visit

/-- What was done in the course of some visits, the latest action first. -/
def history (visited : List (Visit π)) : List (Action π) := (visited.flatMap Visit.done).reverse

@[simp] theorem history_cons (visit : Visit π) (visited : List (Visit π)) :
    history (visit :: visited) = history visited ++ visit.done.reverse := by
  simp [history]

variable [Journal ω]

/-- Runs sections one after another. -/
def visits (lock : Lock ω σ) :
    List (Section π) → Cell σ π → ω → Option (List (Visit π) × Cell σ π × ω)
  | [], cell, memory => some ([], cell, memory)
  | job :: jobs, cell, memory =>
    (job.run lock cell memory).bind fun outcome =>
      (visits lock jobs outcome.target outcome.memory).map fun (visited, last) =>
        (⟨job, outcome.result⟩ :: visited, last)

/-- Between `before` and `after` this message was logged so many times and nothing else, and it is a
warning. -/
def Warned (message : Message) (times : Nat) (before after : ω) : Prop :=
  message.level = .warn ∧ after = (Journal.record message)^[times] before

/-- In a state of the lock that is `resting false` it is free and lets the next one in; in one that
is `resting true` it is free and turns everybody away, with a warning. It gets there by a panic of a
holder, if it `minds` panics. -/
structure Lock.Resting (lock : Lock ω σ) (minds : Bool) (resting : Bool → σ → Prop) : Prop where
  make (memory : ω) : ∃ state, lock.make memory = (.ok state, memory) ∧ resting false state
  granted {state : σ} : resting false state → ∀ memory, ∃ next,
    lock.acquire state memory = (.granted next, memory) ∧
      ∀ manner last, ∃ left, lock.release manner next last = (left, last) ∧
        resting (minds && manner == .unwinding) left
  refused {state : σ} : resting true state → ∀ memory, ∃ next,
    lock.acquire state memory =
      (.refused .poisoned next, Journal.record .acquireRefused memory) ∧ resting true next
  destroyed {state : σ} : resting false state → ∀ memory, lock.destroy state memory = memory
  recovered {state : σ} : resting true state → ∀ memory,
    lock.destroy state memory = Journal.record .poisonedDestroyed memory

namespace Lock

/-- A lock made of a plain mutex minds nothing. -/
theorem resting_ofPlain {mutex : PlainMutex σ} {held free : σ → Prop}
    (lawful : mutex.Lawful held free) :
    (ofPlain mutex : Lock ω σ).Resting false fun turnsAway state =>
      turnsAway = false ∧ free state where
  make _ := ⟨mutex.fresh, rfl, rfl, lawful.fresh⟩
  granted h memory := by
    obtain ⟨locked, hlock⟩ := lawful.lockable h.2
    refine ⟨locked, acquire_ofPlain_eq_granted.2 ⟨hlock, rfl⟩, fun manner last => ?_⟩
    exact ⟨_, rfl, rfl, lawful.unlocked (lawful.locked hlock).2⟩
  refused h := by cases h.1
  destroyed _ _ := rfl
  recovered h := by cases h.1

/-- A lock made of a mutex that can be poisoned turns everybody away when it is. -/
theorem resting_ofPoisonable {mutex : PoisonableMutex σ} {held free : Bool → σ → Prop}
    (lawful : mutex.Lawful held free) : (ofPoisonable mutex : Lock ω σ).Resting true free where
  make _ := ⟨mutex.fresh, rfl, lawful.fresh⟩
  granted h memory := by
    obtain ⟨locked, hlock, hlocked⟩ := lawful.locked h
    refine ⟨locked, ?_, fun manner last => ⟨_, rfl, lawful.unlocked manner hlocked⟩⟩
    simp [ofPoisonable, hlock, PoisonableMutex.handOver]
  refused h memory := by
    obtain ⟨locked, hlock, hlocked⟩ := lawful.locked h
    -- The guard that came with the error goes without a panic, and the poison stays.
    refine ⟨mutex.unlock .orderly locked, ?_, lawful.unlocked .orderly hlocked⟩
    simp [ofPoisonable, hlock, PoisonableMutex.handOver]
  destroyed h memory := by simp [ofPoisonable, lawful.dismantled h, PoisonableMutex.handOver]
  recovered h memory := by simp [ofPoisonable, lawful.dismantled h, PoisonableMutex.handOver]

end Lock

section Run

variable {lock : Lock ω σ} {minds : Bool} {resting : Bool → σ → Prop}

/-- What a holder does changes the value step by step, and the guard goes at the end, by a panic if
there is one. -/
theorem Section.run_work (lock : Lock ω σ) (server : Server ω Empty (Cell σ π))
    (guardEnd : GuardEnd) (start : π) (body past : List (Action π)) (seen : List π) (state : σ)
    (memory : ω) :
    let panics := body.any Action.isPanic
    let read := seen.reverse ++ readings start past body
    let released := lock.release (if panics then .unwinding else .orderly) state memory
    (work guardEnd body seen).run lock .clone server ⟨state, latest start past⟩ memory =
      some ⟨.value (if panics then .holderPanicked read else .completed read),
        ⟨released.1, latest start ((body.takeWhile fun action => !action.isPanic).reverse ++ past)⟩,
        released.2⟩ := by
  induction body generalizing past seen with
  | nil =>
    simp [work, Routine.run, readings]
  | cons action rest ih =>
    cases action with
    | read =>
      have hrest := ih (.read :: past) (latest start past :: seen)
      simpa [work, Routine.run, readings, latest, Action.isPanic] using hrest
    | write value =>
      have hrest := ih (.write value :: past) seen
      simpa [work, Routine.run, readings, latest, Action.isPanic] using hrest
    | modify change =>
      have hrest := ih (.modify change :: past) seen
      simpa [work, Routine.run, readings, latest, Action.isPanic] using hrest
    | panic => simp [work, Routine.endScope, Routine.run, readings, Action.isPanic]

/-- A section that finds the lock free reads what is there and leaves what it wrote. -/
theorem Section.run_of_free (rests : lock.Resting minds resting) (job : Section π) {state : σ}
    (hstate : resting false state) (start : π) (past : List (Action π)) (memory : ω) :
    ∃ next, job.run lock ⟨state, latest start past⟩ memory =
        some ⟨.value (job.report start past),
          ⟨next, latest start (job.done.reverse ++ past)⟩, memory⟩ ∧
      resting (minds && job.panics) next := by
  obtain ⟨held, hacquire, hrelease⟩ := rests.granted hstate memory
  obtain ⟨next, hnext, hrests⟩ := hrelease (if job.panics then .unwinding else .orderly) memory
  have hwork := run_work lock (fun _ _ _ => none) job.guardEnd start job.body past [] held memory
  rw [panics] at hnext
  simp only [hnext, List.reverse_nil, List.nil_append] at hwork
  refine ⟨next, ?_, ?_⟩
  · simp only [run, routine, Routine.run, hacquire, hwork]
    rfl
  · cases hpanics : job.panics with
    | false => rwa [hpanics] at hrests
    | true => rwa [hpanics] at hrests

/-- A section that is turned away leaves the value as it was, and the lock free for others to be
turned away. -/
theorem Section.run_of_turnedAway (rests : lock.Resting minds resting) (job : Section π) {state : σ}
    (hstate : resting true state) (value : π) (memory : ω) :
    ∃ next, job.run lock ⟨state, value⟩ memory =
        some ⟨.value (.refused .poisoned), ⟨next, value⟩,
          Journal.record .acquireRefused memory⟩ ∧
      resting true next := by
  obtain ⟨next, hacquire, hnext⟩ := rests.refused hstate memory
  exact ⟨next, by simp only [run, routine, Routine.run, hacquire], hnext⟩

/-- Sections one after another leave the value that was written last, and a lock that turns
everybody away if it minds panics and there was one. Every refusal is a warning, and there are no
other messages. -/
theorem visits_of_resting (rests : lock.Resting minds resting) (jobs : List (Section π))
    {turnsAway : Bool} {state : σ} (hstate : resting turnsAway state) (start : π)
    (past : List (Action π)) (memory : ω) :
    ∃ visited next left turnsAway',
      visits lock jobs ⟨state, latest start past⟩ memory =
        some (visited, ⟨next, latest start (history visited ++ past)⟩, left) ∧
      left = (Journal.record .acquireRefused)^[visited.countP Visit.turnedAway] memory ∧
      resting turnsAway' next ∧
      (turnsAway' = true ↔
        turnsAway = true ∨ minds = true ∧ ∃ visit ∈ visited, visit.Panicked) := by
  induction jobs generalizing turnsAway state past memory with
  | nil => exact ⟨[], state, memory, turnsAway, rfl, rfl, hstate, by simp⟩
  | cons job jobs ih =>
    cases turnsAway with
    | true =>
      obtain ⟨middle, hrun, hmiddle⟩ :=
        job.run_of_turnedAway rests hstate (latest start past) memory
      obtain ⟨visited, next, left, turnsAway', hvisits, hleft, hnext, haway⟩ :=
        ih hmiddle past (Journal.record .acquireRefused memory)
      refine ⟨⟨job, .value (.refused .poisoned)⟩ :: visited, next, left, turnsAway', ?_, ?_, hnext,
        ?_⟩
      · rw [visits, hrun]
        simp [hvisits, Visit.done]
      · rw [hleft, List.countP_cons_of_pos rfl, Function.iterate_succ_apply]
      · simpa using haway
    | false =>
      obtain ⟨middle, hrun, hmiddle⟩ := job.run_of_free rests hstate start past memory
      obtain ⟨visited, next, left, turnsAway', hvisits, hleft, hnext, haway⟩ :=
        ih hmiddle (job.done.reverse ++ past) memory
      refine ⟨⟨job, .value (job.report start past)⟩ :: visited, next, left, turnsAway', ?_, ?_,
        hnext, ?_⟩
      · rw [visits, hrun]
        simp [hvisits, Visit.done_of_report]
      · rw [hleft, List.countP_cons_of_neg (Visit.not_turnedAway_of_report start past job)]
      · rw [haway, Bool.and_eq_true, ← and_or_left]
        simp only [Bool.false_eq_true, false_or, List.mem_cons, exists_eq_or_imp,
          Visit.panicked_of_report]

end Run

/-- Where sections have got to that are run one after another on a lock, over a value that was
`start` at first. A lock that minds panics has something against the next one if there was one. -/
structure Lock.KeepsRegister (lock : Lock ω σ) (held : σ → Prop) (minds : Bool) (start : π)
    (visited : List (Visit π)) (cell : Cell σ π) (memory : ω) : Prop where
  /-- Nobody holds the lock, whatever became of the sections. -/
  unheld : ¬ held cell.lock
  value : cell.value = latest start (history visited)
  /-- Each section got the lock and read what had been written last, unless it was turned away. -/
  endings {front back : List (Visit π)} {visit : Visit π} : visited = front ++ visit :: back →
    (¬ (minds = true ∧ ∃ earlier ∈ front, earlier.Panicked) →
      visit.ending = .value (visit.job.report start (history front))) ∧
    (minds = true ∧ (∃ earlier ∈ front, earlier.Panicked) →
      visit.ending = .value (.refused .poisoned))
  /-- The next section gets the lock, and reads what was written last. -/
  admitted : ¬ (minds = true ∧ ∃ visit ∈ visited, visit.Panicked) → ∀ job : Section π, ∃ next,
    job.run lock cell memory = some ⟨.value (job.report start (history visited)), next, memory⟩
  /-- The next section is turned away with a warning, changes nothing and does not hold the lock. -/
  refused : minds = true ∧ (∃ visit ∈ visited, visit.Panicked) → ∀ job : Section π, ∃ next after,
    job.run lock cell memory = some ⟨.value (.refused .poisoned), ⟨next, cell.value⟩, after⟩ ∧
      ¬ held next ∧ Warned .acquireRefused 1 memory after
  destroyed : ¬ (minds = true ∧ ∃ visit ∈ visited, visit.Panicked) →
    cell.destroy lock memory = (latest start (history visited), memory)
  recovered : minds = true ∧ (∃ visit ∈ visited, visit.Panicked) → ∃ after,
    cell.destroy lock memory = (latest start (history visited), after) ∧
      Warned .poisonedDestroyed 1 memory after

/-- Sections one after another, over a new lock, are visits to a register. Each refusal is logged
once, and nothing else is; and it does not matter to the sections how their guards are given up. -/
def Lock.IsRegister (lock : Lock ω σ) (held : σ → Prop) (minds : Bool) (start : π)
    (jobs : List (Section π)) (memory : ω) : Prop :=
  ∃ fresh visited cell left, Cell.create lock start memory = (.ok fresh, memory) ∧
    visits lock jobs fresh memory = some (visited, cell, left) ∧
    visited.map Visit.job = jobs ∧
    lock.KeepsRegister held minds start visited cell left ∧
    Warned .acquireRefused (visited.countP Visit.turnedAway) memory left ∧
    ∀ jobs' : List (Section π), jobs'.map Section.body = jobs.map Section.body →
      ∃ visited', visits lock jobs' fresh memory = some (visited', cell, left) ∧
        visited'.map Visit.ending = visited.map Visit.ending

section Register

variable {lock : Lock ω σ} {held : σ → Prop} {minds : Bool} {resting : Bool → σ → Prop}

/-- However a guard is given up without a panic, the section is the same. -/
theorem Section.run_eq_of_body {job job' : Section π} (hbody : job'.body = job.body)
    (lock : Lock ω σ) (cell : Cell σ π) (memory : ω) :
    job'.run lock cell memory = job.run lock cell memory := by
  have hwork : ∀ (guardEnd : GuardEnd) (body : List (Action π)) (seen : List π),
      work guardEnd body seen = work .handedBack body seen := by
    intro guardEnd body
    induction body with
    | nil =>
      intro seen
      cases guardEnd <;> rfl
    | cons action rest ih =>
      intro seen
      cases action with
      | read => simp only [work, ih]
      | write value => simp only [work, ih]
      | modify change => simp only [work, ih]
      | panic => rfl
  simp only [run, routine, hbody, hwork job'.guardEnd, hwork job.guardEnd]

theorem visits_eq_of_bodies {jobs jobs' : List (Section π)}
    (hbodies : jobs'.map Section.body = jobs.map Section.body) {cell last : Cell σ π}
    {memory left : ω} {visited : List (Visit π)}
    (hvisits : visits lock jobs cell memory = some (visited, last, left)) :
    ∃ visited', visits lock jobs' cell memory = some (visited', last, left) ∧
      visited'.map Visit.ending = visited.map Visit.ending := by
  induction jobs generalizing jobs' cell memory visited with
  | nil =>
    obtain rfl := List.map_eq_nil_iff.1 hbodies
    exact ⟨visited, hvisits, rfl⟩
  | cons job jobs ih =>
    obtain ⟨job', jobs', rfl, hbody, hrest⟩ := List.map_eq_cons_iff.1 hbodies
    simp only [visits, Option.bind_eq_some_iff, Option.map_eq_some_iff] at hvisits
    obtain ⟨outcome, hrun, ⟨later, _, _⟩, hlater, heq⟩ := hvisits
    simp only [Prod.mk.injEq] at heq
    obtain ⟨rfl, rfl, rfl⟩ := heq
    obtain ⟨later', hlater', hendings⟩ := ih hrest hlater
    refine ⟨⟨job', outcome.result⟩ :: later', ?_, by simp [hendings]⟩
    simp only [visits, Section.run_eq_of_body hbody, hrun, Option.bind_some, hlater',
      Option.map_some]

theorem map_job_of_visits {jobs : List (Section π)} {cell last : Cell σ π} {memory left : ω}
    {visited : List (Visit π)}
    (hvisits : visits lock jobs cell memory = some (visited, last, left)) :
    visited.map Visit.job = jobs := by
  induction jobs generalizing cell memory visited with
  | nil =>
    cases hvisits
    rfl
  | cons job jobs ih =>
    simp only [visits, Option.bind_eq_some_iff, Option.map_eq_some_iff] at hvisits
    obtain ⟨outcome, -, ⟨later, _, _⟩, hlater, heq⟩ := hvisits
    simp only [Prod.mk.injEq] at heq
    obtain ⟨rfl, rfl, rfl⟩ := heq
    rw [List.map_cons, ih hlater]

/-- A visit follows on the visits before it. -/
theorem run_of_visits {jobs : List (Section π)} {cell last : Cell σ π} {memory left : ω}
    {front back : List (Visit π)} {visit : Visit π}
    (hvisits : visits lock jobs cell memory = some (front ++ visit :: back, last, left)) :
    ∃ middle between outcome,
      visits lock (front.map Visit.job) cell memory = some (front, middle, between) ∧
      visit.job.run lock middle between = some outcome ∧ visit.ending = outcome.result := by
  induction front generalizing jobs cell memory with
  | nil =>
    cases jobs with
    | nil => cases hvisits
    | cons job jobs =>
      simp only [visits, Option.bind_eq_some_iff, Option.map_eq_some_iff] at hvisits
      obtain ⟨outcome, hrun, ⟨later, _, _⟩, -, heq⟩ := hvisits
      simp only [List.nil_append, Prod.mk.injEq, List.cons.injEq] at heq
      obtain ⟨⟨rfl, -⟩, -⟩ := heq
      exact ⟨cell, memory, outcome, rfl, hrun, rfl⟩
  | cons first front ih =>
    cases jobs with
    | nil => cases hvisits
    | cons job jobs =>
      simp only [visits, Option.bind_eq_some_iff, Option.map_eq_some_iff] at hvisits
      obtain ⟨outcome, hrun, ⟨later, _, _⟩, hlater, heq⟩ := hvisits
      simp only [List.cons_append, Prod.mk.injEq, List.cons.injEq] at heq
      obtain ⟨⟨rfl, rfl⟩, rfl, rfl⟩ := heq
      obtain ⟨middle, between, last, hfront, hvisit⟩ := ih hlater
      refine ⟨middle, between, last, ?_, hvisit⟩
      rw [List.map_cons, visits, hrun, Option.bind_some, hfront]
      rfl

/-- What comes of a section is settled by the sections before it. -/
theorem Lock.Resting.ending_of_visits (rests : lock.Resting minds resting) {fresh : σ}
    (hfresh : resting false fresh) {start : π} {jobs : List (Section π)} {last : Cell σ π}
    {memory left : ω} {front back : List (Visit π)} {visit : Visit π}
    (hvisits : visits lock jobs ⟨fresh, start⟩ memory = some (front ++ visit :: back, last, left)) :
    (¬ (minds = true ∧ ∃ earlier ∈ front, earlier.Panicked) →
      visit.ending = .value (visit.job.report start (history front))) ∧
    (minds = true ∧ (∃ earlier ∈ front, earlier.Panicked) →
      visit.ending = .value (.refused .poisoned)) := by
  obtain ⟨middle, between, outcome, hfront, hrun, hending⟩ := run_of_visits hvisits
  obtain ⟨visited, next, after, turnsAway, hvisited, -, hnext, haway⟩ :=
    visits_of_resting rests (front.map Visit.job) hfresh start [] memory
  rw [List.append_nil] at hvisited
  cases hfront.symm.trans hvisited
  simp only [Bool.false_eq_true, false_or] at haway
  rw [← haway, hending]
  constructor
  · intro hcalm
    rw [Bool.not_eq_true] at hcalm
    rw [hcalm] at hnext
    obtain ⟨state, hadmitted, -⟩ :=
      visit.job.run_of_free rests hnext start (history front) between
    cases hrun.symm.trans hadmitted
    rfl
  · rintro rfl
    obtain ⟨state, hrefused, -⟩ :=
      visit.job.run_of_turnedAway rests hnext (latest start (history front)) between
    cases hrun.symm.trans hrefused
    rfl

theorem Lock.Resting.isRegister (rests : lock.Resting minds resting)
    (hunheld : ∀ turnsAway state, resting turnsAway state → ¬ held state) (start : π)
    (jobs : List (Section π)) (memory : ω) : lock.IsRegister held minds start jobs memory := by
  obtain ⟨fresh, hmake, hfresh⟩ := rests.make memory
  have hcreate : Cell.create lock start memory = (.ok ⟨fresh, start⟩, memory) := by
    simp [Cell.create, hmake, Except.map]
  obtain ⟨visited, next, left, turnsAway, hvisits, hleft, hnext, haway⟩ :=
    visits_of_resting rests jobs hfresh start [] memory
  rw [List.append_nil] at hvisits
  simp only [Bool.false_eq_true, false_or] at haway
  refine ⟨⟨fresh, start⟩, visited, _, left, hcreate, hvisits, map_job_of_visits hvisits, ?_,
    ⟨rfl, hleft⟩, fun jobs' hbodies => visits_eq_of_bodies hbodies hvisits⟩
  have hcalm : ¬ (minds = true ∧ ∃ visit ∈ visited, visit.Panicked) → resting false next := by
    intro hcalm
    rw [← haway, Bool.not_eq_true] at hcalm
    rwa [hcalm] at hnext
  have hspoilt : minds = true ∧ (∃ visit ∈ visited, visit.Panicked) → resting true next := by
    intro hspoilt
    rwa [haway.2 hspoilt] at hnext
  exact {
    unheld := hunheld turnsAway next hnext
    value := rfl
    endings := by
      rintro front back visit rfl
      exact rests.ending_of_visits hfresh hvisits
    admitted := fun h job => by
      obtain ⟨state, hrun, -⟩ := job.run_of_free rests (hcalm h) start (history visited) left
      exact ⟨_, hrun⟩
    refused := fun h job => by
      obtain ⟨state, hrun, hstate⟩ :=
        job.run_of_turnedAway rests (hspoilt h) (latest start (history visited)) left
      exact ⟨state, _, hrun, hunheld true state hstate, rfl, rfl⟩
    destroyed := fun h => congrArg (Prod.mk _) (rests.destroyed (hcalm h) left)
    recovered := fun h =>
      ⟨_, congrArg (Prod.mk _) (rests.recovered (hspoilt h) left), rfl, rfl⟩ }

end Register

/-- Sections on any lock made of a mutex find a register. If the mutex is a plain one, all of them
get in; if it can be poisoned, all those before the first panic and the one that panics. -/
theorem Lock.isRegister_of_lawful {τ : Type} {plain : PlainMutex σ} {held free : σ → Prop}
    (lawful : plain.Lawful held free) {poisonable : PoisonableMutex τ}
    {held' free' : Bool → τ → Prop} (lawful' : poisonable.Lawful held' free') (start : π)
    (jobs : List (Section π)) (memory : ω) :
    (ofPlain plain : Lock ω σ).IsRegister held false start jobs memory ∧
    (ofPoisonable poisonable : Lock ω τ).IsRegister (fun state => ∃ poisoned, held' poisoned state)
      true start jobs memory := by
  refine ⟨(resting_ofPlain lawful).isRegister ?_ start jobs memory,
    (resting_ofPoisonable lawful').isRegister ?_ start jobs memory⟩
  · rintro turnsAway state ⟨-, hfree⟩ hheld
    exact lawful.distinct hheld hfree
  · rintro turnsAway state hfree ⟨poisoned, hheld⟩
    exact lawful'.distinct hheld hfree

/-- The three locks at hand. One section writes, reads and panics, and two more come after it. -/
theorem Lock.isRegister_of_mutexes :
    PlainMutex.flag.Lawful (·.held = true) (·.held = false) ∧
    PlainMutex.tickets.Lawful (fun state => state.next = state.serving + 1)
      (fun state => state.next = state.serving) ∧
    PoisonableMutex.flags.Lawful (fun poisoned state => state = ⟨true, poisoned⟩)
      (fun poisoned state => state = ⟨false, poisoned⟩) ∧
    let jobs : List (Section Nat) :=
      [⟨[.write 3, .read, .modify (· + 1), .panic, .read], .outOfScope⟩,
        ⟨[.read], .outOfScope⟩, ⟨[.modify (· + 1), .read], .handedBack⟩]
    (spin : Lock (List Message) Spin).IsRegister (·.held = true) false 5 jobs [] ∧
    (ticket : Lock (List Message) Ticket).IsRegister (fun state => state.next = state.serving + 1)
      false 5 jobs [] ∧
    (poisoning : Lock (List Message) Poisoning).IsRegister
      (fun state => ∃ poisoned, state = ⟨true, poisoned⟩) true 5 jobs [] := by
  refine ⟨PlainMutex.lawful_flag, PlainMutex.lawful_tickets, PoisonableMutex.lawful_flags, ?_⟩
  intro jobs
  obtain ⟨hspin, hpoisoning⟩ := isRegister_of_lawful (ω := List Message) PlainMutex.lawful_flag
    PoisonableMutex.lawful_flags 5 jobs []
  exact ⟨hspin, (isRegister_of_lawful PlainMutex.lawful_tickets PoisonableMutex.lawful_flags 5 jobs
    []).1, hpoisoning⟩

/-- A section that writes twice, reads in between and panics; the next one is turned away. -/
example : (visits Lock.poisoning [⟨[.write 3, .read, .modify (· + 1), .panic, .read], .outOfScope⟩,
      { body := [.read] }] ⟨{}, 5⟩ ([] : List Message)).map
        (fun (visited, cell, left) => (visited.map Visit.ending, cell.value, left)) =
    some ([.value (.holderPanicked [3]), .value (.refused .poisoned)], 4, [.acquireRefused]) := rfl

end GuardedList
