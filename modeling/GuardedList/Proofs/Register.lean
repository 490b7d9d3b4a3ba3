import GuardedList.Proofs.Completion
import GuardedList.Proofs.Merge
import GuardedList.Section

/-!
# A register behind a lock

Threads that share a lock and the value behind it, and change the value in sections that read it and
overwrite it with a function of what they have read (`Change`). The read and the write are two
steps, and other threads may move in between; but none of them gets in. So what the sections do
follows one after another in the order in which the lock was granted (`inSuccession`), no change is
lost, and the value that the lock's owner gets back has gone through all of them
(`allApplied_of_follow`).
-/

namespace GuardedList

variable {ω σ π α κ ρ : Type}

/-- A change of the guarded value: a section that reads it and overwrites it with a function of what
it has read. -/
structure Change (π : Type) where
  apply : π → π
  guardEnd : GuardEnd := .handedBack

/-- How far the holder of the lock has come. -/
inductive Stage where
  | entered
  | read
  | written

namespace Change

/-- The section that makes the change. -/
def job (change : Change π) : Section π := ⟨[.modify change.apply], change.guardEnd⟩

/-- What is left of the section when the lock is given up. -/
def past : Routine π Empty (Report π) := .finish (.value (.completed []))

/-- What is left of the section of a holder who was granted the lock when the value was `seen`. -/
def rest (change : Change π) (seen : π) : Stage → Routine π Empty (Report π)
  | .entered => .load fun value => .store (change.apply value) (.release .orderly past)
  | .read => .store (change.apply seen) (.release .orderly past)
  | .written => .release .orderly past

/-- What the holder has done so far. -/
def done (change : Change π) (seen : π) : Stage → List (Event π Empty)
  | .entered => [.granted]
  | .read => [.granted, .loaded seen]
  | .written => [.granted, .loaded seen, .stored (change.apply seen)]

/-- The guarded value meanwhile. -/
def value (change : Change π) (seen : π) : Stage → π
  | .entered => seen
  | .read => seen
  | .written => change.apply seen

/-- All that a section does that was granted the lock when the value was `seen`. -/
def story (change : Change π) (seen : π) : List (Event π Empty) :=
  [.granted, .loaded seen, .stored (change.apply seen), .released .orderly]

theorem routine_job (change : Change π) (seen : π) : change.job.routine =
    .acquire fun
      | .error cause => .finish (.value (.refused cause))
      | .ok () => change.rest seen .entered := by
  simp only [job, Section.routine, Section.work, GuardEnd.close_eq]
  rfl

theorem outside_job (change : Change π) : change.job.routine.Outside := by
  refine ⟨fun _ => trivial, fun value => ?_⟩
  simp only [job, Section.work, GuardEnd.close_eq]
  exact ⟨trivial, fun h => (by cases h), fun ⟨_, h⟩ => (by cases h)⟩

theorem within_job (change : Change π) : change.job.routine.Within 4 := by
  rintro (cause | _)
  · trivial
  · intro value
    simp only [job, Section.work, GuardEnd.close_eq]
    trivial

end Change

/-- What changes do that are made one after another, each with the thread that makes it. -/
def inSuccession : List (Nat × Change π) → π → List (Nat × Event π Empty)
  | [], _ => []
  | (index, change) :: order, value =>
    (change.story value).map (index, ·) ++ inSuccession order (change.apply value)

/-- The value after changes made one after another. -/
def applied (order : List (Nat × Change π)) (start : π) : π :=
  order.foldl (fun value entry => entry.2.apply value) start

theorem inSuccession_append (order : List (Nat × Change π)) (index : Nat) (change : Change π)
    (start : π) : inSuccession (order ++ [(index, change)]) start =
      inSuccession order start ++ (change.story (applied order start)).map (index, ·) := by
  induction order generalizing start with
  | nil => simp [inSuccession, applied]
  | cons entry order ih =>
    rw [List.cons_append, inSuccession, inSuccession, ih, List.append_assoc]
    rfl

example : inSuccession [(1, { apply := (· + 1) }), (0, { apply := (· * 2) })] 3 =
    [(1, .granted), (1, .loaded 3), (1, .stored 4), (1, .released .orderly),
      (0, .granted), (0, .loaded 4), (0, .stored 8), (0, .released .orderly)] := rfl

@[simp] theorem applied_append (order : List (Nat × Change π)) (index : Nat) (change : Change π)
    (start : π) : applied (order ++ [(index, change)]) start =
      change.apply (applied order start) := by
  simp [applied]

/-- What a thread has asked for with a move and was given. -/
def Move.event? : Move π α κ ρ → Option (Event π α)
  | made _ event => some event
  | _ => none

/-- The events of these moves, each with its thread. -/
def eventsIn (moves : List (Nat × Move π α κ ρ)) : List (Nat × Event π α) :=
  moves.filterMap fun entry => entry.2.event?.map (entry.1, ·)

/-- The changes that one thread makes. -/
def shareOf (index : Nat) (order : List (Nat × Change π)) : List (Change π) :=
  (order.filter fun entry => entry.1 = index).map Prod.snd

/-- Where a thread stands that has `made` these changes and is `inside` with another one, or with
none. The value was `seen` when the lock was granted. -/
inductive Thread.Standing (seen : π) (thread : Thread π Empty (Change π) (Report π)) :
    List (Change π) → Option (Change π × Stage) → Prop
  | idle (hrunning : thread.running = none) :
      Standing seen thread (thread.history.reverse.map Prod.fst) none
  | waiting {change : Change π} (hrunning : thread.running = some (change, change.job.routine)) :
      Standing seen thread (thread.history.reverse.map Prod.fst) none
  | inside {change : Change π} {stage : Stage}
      (hrunning : thread.running = some (change, change.rest seen stage)) :
      Standing seen thread (thread.history.reverse.map Prod.fst) (some (change, stage))
  | past {change : Change π} (hrunning : thread.running = some (change, Change.past)) :
      Standing seen thread (thread.history.reverse.map Prod.fst ++ [change]) none

/-- Who is not inside does not care for the value. -/
theorem Thread.Standing.of_outside {seen seen' : π} {thread : Thread π Empty (Change π) (Report π)}
    {made : List (Change π)} (h : thread.Standing seen made none) :
    thread.Standing seen' made none := by
  cases h with
  | idle hrunning => exact .idle hrunning
  | waiting hrunning => exact .waiting hrunning
  | past hrunning => exact .past hrunning

/-- The thread that holds the lock, with the change that it makes. -/
structure Holder (π : Type) where
  thread : Nat
  change : Change π
  stage : Stage

/-- What the thread at `index` does inside. -/
def Holder.inside? (holder : Option (Holder π)) (index : Nat) : Option (Change π × Stage) :=
  holder.bind fun holder =>
    if holder.thread = index then some (holder.change, holder.stage) else none

/-- The changes for which the lock was granted, in this order: those that are made, and the one that
the holder makes. -/
def granted (order : List (Nat × Change π)) (holder : Option (Holder π)) :
    List (Nat × Change π) :=
  order ++ (holder.map fun holder => (holder.thread, holder.change)).toList

/-- The lock and the value after these changes, and while the holder makes another one. It got the
lock intact, and this is what makes the lock intact again when it gives it up. -/
inductive Guards (lock : Lock ω σ) (intact : σ → Prop) (seen : π) : Option (Holder π) → Cell σ π →
    Prop
  | free {cell : Cell σ π} (hintact : intact cell.lock) (hvalue : cell.value = seen) :
      Guards lock intact seen none cell
  | held {holder : Holder π} {cell : Cell σ π} {state : σ} {memory memory' : ω}
      (hintact : intact state) (hgranted : lock.acquire state memory = (.granted cell.lock, memory'))
      (hvalue : cell.value = holder.change.value seen holder.stage) :
      Guards lock intact seen (some holder) cell

/-- The invariant of threads that change a value: what they have done is what the changes do that
are made one after another in some `order`, and then what the `holder` has done so far. -/
structure Succession (lock : Lock ω σ) (intact : σ → Prop) (start : π)
    (order : List (Nat × Change π)) (holder : Option (Holder π))
    (moves : List (Nat × Move π Empty (Change π) (Report π)))
    (pool : Pool ω σ π Empty (Change π) (Report π)) : Prop where
  events : eventsIn moves = inSuccession order start ++ holder.elim [] fun holder =>
    (holder.change.done (applied order start) holder.stage).map (holder.thread, ·)
  guards : Guards lock intact (applied order start) holder pool.cell
  owner : ∀ entry ∈ granted order holder, entry.1 < pool.threads.length
  standing {index : Nat} {thread : Thread π Empty (Change π) (Report π)} :
    pool.threads[index]? = some thread → thread.Standing (applied order start)
      (shareOf index order) (Holder.inside? holder index)
  reports {index : Nat} {thread : Thread π Empty (Change π) (Report π)} :
    pool.threads[index]? = some thread →
      ∀ entry ∈ thread.history, entry.2 = .value (.completed [])

section Events

variable (moves : List (Nat × Move π α κ ρ)) (index : Nat)

theorem eventsIn_append_of_none {move : Move π α κ ρ} (h : move.event? = none) :
    eventsIn (moves ++ [(index, move)]) = eventsIn moves := by
  simp [eventsIn, h]

theorem eventsIn_append_made (call : κ) (event : Event π α) :
    eventsIn (moves ++ [(index, .made call event)]) = eventsIn moves ++ [(index, event)] := by
  simp [eventsIn, Move.event?]

end Events

section Holder

variable {holder : Option (Holder π)} {index other : Nat} {change : Change π} {stage : Stage}

@[simp] theorem Holder.inside?_none : inside? (none : Option (Holder π)) index = none := rfl

theorem Holder.inside?_self : inside? (some ⟨index, change, stage⟩) index = some (change, stage) := by
  simp [inside?]

theorem Holder.inside?_of_ne (hother : other ≠ index) :
    inside? (some ⟨index, change, stage⟩) other = none := by
  simp [inside?, Ne.symm hother]

theorem Holder.eq_of_inside? (h : inside? holder index = some (change, stage)) :
    holder = some ⟨index, change, stage⟩ := by
  cases holder with
  | none => cases h
  | some holder =>
    obtain ⟨thread, made, reached⟩ := holder
    simp only [inside?, Option.bind_some, Option.ite_none_right_eq_some, Option.some.injEq,
      Prod.mk.injEq] at h
    obtain ⟨rfl, rfl, rfl⟩ := h
    rfl

end Holder

section Step

variable [Journal ω] {lock : Lock ω σ} {held free intact : σ → Prop} {start : π}
  {order : List (Nat × Change π)} {holder : Option (Holder π)}
  {moves : List (Nat × Move π Empty (Change π) (Report π))}
  {pool next : Pool ω σ π Empty (Change π) (Report π)} {index : Nat}
  {move : Move π Empty (Change π) (Report π)} {thread thread' : Thread π Empty (Change π) (Report π)}

omit [Journal ω] in
/-- Whoever is answered is let in, and nobody is inside by then. -/
theorem Guards.let_in (working : lock.Working held free intact) {seen : π} {cell : Cell σ π}
    (guards : Guards lock intact seen holder cell) {memory left : ω} {attempt : Attempt σ}
    (hattempt : lock.acquire cell.lock memory = (attempt, left)) (hanswered : attempt ≠ .blocked) :
    holder = none ∧ ∃ state, attempt = .granted state := by
  cases guards with
  | free hintact hvalue =>
    -- An intact lock turns nobody away.
    refine ⟨rfl, ?_⟩
    cases attempt with
    | granted state => exact ⟨state, rfl⟩
    | refused cause state =>
      have hrefusal := (working.unfailing.refused hintact hattempt).1
      cases hrefusal
    | blocked => exact absurd rfl hanswered
  | held hintact hgranted hvalue =>
    -- A held one answers nobody.
    have hblocked := working.mutex.blocked memory (working.mutex.granted hgranted).2
    rw [hattempt] at hblocked
    exact absurd hblocked hanswered

omit [Journal ω] in
/-- What is left to show when one thread has moved. -/
theorem Succession.rebuild (h : Succession lock intact start order holder moves pool)
    (hthread : pool.threads[index]? = some thread)
    (hthreads : next.threads = pool.threads.set index thread') {order' : List (Nat × Change π)}
    {holder' : Option (Holder π)}
    (hevents : eventsIn (moves ++ [(index, move)]) = inSuccession order' start ++
      holder'.elim [] fun holder =>
        (holder.change.done (applied order' start) holder.stage).map (holder.thread, ·))
    (hguards : Guards lock intact (applied order' start) holder' next.cell)
    (howner : ∀ entry ∈ granted order' holder', entry ∈ granted order holder ∨ entry.1 = index)
    (hstanding : thread'.Standing (applied order' start) (shareOf index order')
      (Holder.inside? holder' index))
    (hothers : ∀ {other : Nat} {thread : Thread π Empty (Change π) (Report π)}, other ≠ index →
      thread.Standing (applied order start) (shareOf other order) (Holder.inside? holder other) →
        thread.Standing (applied order' start) (shareOf other order')
          (Holder.inside? holder' other))
    (hreports : ∀ entry ∈ thread'.history, entry ∈ thread.history ∨
      entry.2 = .value (.completed [])) :
    Succession lock intact start order' holder' (moves ++ [(index, move)]) next := by
  have hindex : index < pool.threads.length := (List.getElem?_eq_some_iff.1 hthread).1
  refine ⟨hevents, hguards, ?_, ?_, ?_⟩
  · intro entry hentry
    rw [hthreads, List.length_set]
    rcases howner entry hentry with hbefore | hself
    · exact h.owner entry hbefore
    · rw [hself]
      exact hindex
  · intro other current hcurrent
    rw [hthreads, List.getElem?_set] at hcurrent
    by_cases hother : index = other
    · subst hother
      rw [if_pos rfl, if_pos hindex, Option.some.injEq] at hcurrent
      subst hcurrent
      exact hstanding
    · rw [if_neg hother] at hcurrent
      exact hothers (Ne.symm hother) (h.standing hcurrent)
  · intro other current hcurrent entry hentry
    rw [hthreads, List.getElem?_set] at hcurrent
    by_cases hother : index = other
    · subst hother
      rw [if_pos rfl, if_pos hindex, Option.some.injEq] at hcurrent
      subst hcurrent
      rcases hreports entry hentry with hbefore | hcompleted
      · exact h.reports hthread entry hbefore
      · exact hcompleted
    · rw [if_neg hother] at hcurrent
      exact h.reports hcurrent entry hentry

omit [Journal ω] in
theorem Succession.began (h : Succession lock intact start order holder moves pool)
    (hthread : pool.threads[index]? = some thread) (hidle : thread.running = none)
    (change : Change π) :
    Succession lock intact start order holder (moves ++ [(index, .began change)])
      ⟨pool.cell, pool.memory, pool.threads.set index
        { thread with running := some (change, change.job.routine) }⟩ := by
  refine h.rebuild hthread rfl ?_ h.guards (fun _ hentry => .inl hentry) ?_ (fun _ h => h) ?_
  · rw [eventsIn_append_of_none _ _ rfl]
    exact h.events
  · have hstanding := h.standing hthread
    generalize shareOf index order = made, Holder.inside? holder index = inside at hstanding ⊢
    cases hstanding with
    | idle => exact .waiting rfl
    | waiting hrunning => cases hidle.symm.trans hrunning
    | inside hrunning => cases hidle.symm.trans hrunning
    | past hrunning => cases hidle.symm.trans hrunning
  · intro entry hentry
    exact .inl hentry

omit [Journal ω] in
theorem Succession.ended (h : Succession lock intact start order holder moves pool)
    (hthread : pool.threads[index]? = some thread) {change : Change π} {ending : Ending (Report π)}
    (hfinished : thread.running = some (change, .finish ending)) :
    Succession lock intact start order holder (moves ++ [(index, .ended change ending)])
      ⟨pool.cell, pool.memory, pool.threads.set index
        { thread with history := (change, ending) :: thread.history, running := none }⟩ := by
  have hstanding := h.standing hthread
  generalize hshare : shareOf index order = made, hinside : Holder.inside? holder index = inside
    at hstanding
  cases hstanding with
  | idle hrunning => cases hfinished.symm.trans hrunning
  | waiting hrunning => cases hfinished.symm.trans hrunning
  | @inside other stage hrunning => cases stage <;> cases hfinished.symm.trans hrunning
  | past hrunning =>
    obtain ⟨rfl, rfl⟩ : change = _ ∧ ending = .value (.completed []) := by
      have hsame := hfinished.symm.trans hrunning
      simpa [Change.past] using hsame
    refine h.rebuild hthread rfl ?_ h.guards (fun _ hentry => .inl hentry) ?_ (fun _ h => h) ?_
    · rw [eventsIn_append_of_none _ _ rfl]
      exact h.events
    · have hmade : ((change, .value (.completed [])) :: thread.history).reverse.map Prod.fst =
          thread.history.reverse.map Prod.fst ++ [change] := by
        rw [List.reverse_cons, List.map_append]
        rfl
      rw [hshare, hinside, ← hmade]
      exact .idle rfl
    · intro entry hentry
      rcases List.mem_cons.1 hentry with rfl | hbefore
      · exact .inr rfl
      · exact .inl hbefore

variable {hooks : Hooks ω Empty} {advance : Advance ω σ π Empty (Report π)} {change : Change π}

/-- Who has waited for the lock and is answered has it granted and is the only one inside. -/
theorem Succession.entered (working : lock.Working held free intact)
    (h : Succession lock intact start order holder moves pool)
    (hthread : pool.threads[index]? = some thread)
    (hmade : shareOf index order = thread.history.reverse.map Prod.fst)
    (hstep : change.job.routine.step lock hooks pool.cell pool.memory = some advance) :
    Succession lock intact start order (some ⟨index, change, .entered⟩)
      (moves ++ [(index, .made change advance.event)])
      ⟨advance.cell, advance.memory, pool.threads.set index
        { thread with running := some (change, advance.rest) }⟩ := by
  rcases hattempt : lock.acquire pool.cell.lock pool.memory with ⟨attempt, left⟩
  have hanswered : attempt ≠ .blocked := by
    rintro rfl
    simp [change.routine_job (applied order start), Routine.step, hattempt] at hstep
  obtain ⟨rfl, state, rfl⟩ := h.guards.let_in working hattempt hanswered
  simp only [change.routine_job (applied order start), Routine.step, hattempt,
    Option.some.injEq] at hstep
  subst hstep
  refine h.rebuild hthread rfl ?_ ?_ ?_ ?_ ?_ ?_
  · rw [eventsIn_append_made, h.events, Option.elim_none, List.append_nil]
    rfl
  · have hguards := h.guards
    cases hguards with
    | free hintact hvalue => exact .held hintact hattempt hvalue
  · intro entry hentry
    rcases List.mem_append.1 hentry with hbefore | hlast
    · exact .inl (List.mem_append_left _ hbefore)
    · rw [List.mem_singleton.1 hlast]
      exact .inr rfl
  · rw [hmade, Holder.inside?_self]
    exact .inside rfl
  · intro other current hother hstanding
    rw [Holder.inside?_of_ne hother]
    exact hstanding
  · intro entry hentry
    exact .inl hentry

omit [Journal ω] in
/-- The holder comes one stage further. -/
theorem Succession.goes_on {stage later : Stage}
    (h : Succession lock intact start order (some ⟨index, change, stage⟩) moves pool)
    (hthread : pool.threads[index]? = some thread)
    (hmade : shareOf index order = thread.history.reverse.map Prod.fst) {event : Event π Empty}
    {cell : Cell σ π} {memory : ω} {rest : Routine π Empty (Report π)}
    (hdone : change.done (applied order start) later =
      change.done (applied order start) stage ++ [event])
    (hrest : rest = change.rest (applied order start) later)
    (hlock : cell.lock = pool.cell.lock)
    (hvalue : cell.value = change.value (applied order start) later) :
    Succession lock intact start order (some ⟨index, change, later⟩)
      (moves ++ [(index, .made change event)])
      ⟨cell, memory, pool.threads.set index { thread with running := some (change, rest) }⟩ := by
  refine h.rebuild hthread rfl ?_ ?_ (fun _ hentry => .inl hentry) ?_ ?_ ?_
  · rw [eventsIn_append_made, h.events, Option.elim_some, Option.elim_some, hdone, List.map_append,
      List.append_assoc]
    rfl
  · have hguards := h.guards
    cases hguards with
    | held hintact hgranted =>
      rw [← hlock] at hgranted
      exact .held hintact hgranted hvalue
  · rw [hmade, Holder.inside?_self, hrest]
    exact .inside rfl
  · intro other current hother hstanding
    rw [Holder.inside?_of_ne hother] at hstanding ⊢
    exact hstanding
  · intro entry hentry
    exact .inl hentry

/-- The holder gives the lock up, and its change is one of those that are made. -/
theorem Succession.released (working : lock.Working held free intact)
    (h : Succession lock intact start order (some ⟨index, change, .written⟩) moves pool)
    (hthread : pool.threads[index]? = some thread)
    (hmade : shareOf index order = thread.history.reverse.map Prod.fst)
    (hstep : (change.rest (applied order start) .written).step lock hooks pool.cell pool.memory =
      some advance) :
    Succession lock intact start (order ++ [(index, change)]) none
      (moves ++ [(index, .made change advance.event)])
      ⟨advance.cell, advance.memory, pool.threads.set index
        { thread with running := some (change, advance.rest) }⟩ := by
  cases hstep
  refine h.rebuild hthread rfl ?_ ?_ ?_ ?_ ?_ ?_
  · rw [eventsIn_append_made, h.events, inSuccession_append, List.append_assoc, Option.elim_none,
      List.append_nil]
    rfl
  · have hguards := h.guards
    cases hguards with
    | held hintact hgranted hvalue =>
      refine .free ?_ ?_
      -- A holder that does not panic leaves the lock as intact as it found it.
      · exact working.unfailing.granted hintact hgranted _ _ rfl
      · rw [applied_append]
        exact hvalue
  · intro entry hentry
    rw [granted, Option.map_none, Option.toList_none, List.append_nil] at hentry
    exact .inl hentry
  · have hshare : shareOf index (order ++ [(index, change)]) =
        thread.history.reverse.map Prod.fst ++ [change] := by
      rw [← hmade]
      simp [shareOf]
    rw [hshare]
    exact .past rfl
  · intro other current hother hstanding
    have hshare : shareOf other (order ++ [(index, change)]) = shareOf other order := by
      simp [shareOf, Ne.symm hother]
    rw [Holder.inside?_of_ne hother] at hstanding
    rw [hshare]
    exact hstanding.of_outside
  · intro entry hentry
    exact .inl hentry

/-- The holder goes on, and nobody else does while it is inside. -/
theorem Succession.inside (working : lock.Working held free intact) {stage : Stage}
    (h : Succession lock intact start order (some ⟨index, change, stage⟩) moves pool)
    (hthread : pool.threads[index]? = some thread)
    (hmade : shareOf index order = thread.history.reverse.map Prod.fst)
    (hstep : (change.rest (applied order start) stage).step lock hooks pool.cell pool.memory =
      some advance) :
    ∃ order' holder', Succession lock intact start order' holder'
      (moves ++ [(index, .made change advance.event)])
      ⟨advance.cell, advance.memory, pool.threads.set index
        { thread with running := some (change, advance.rest) }⟩ := by
  have hvalue : pool.cell.value = change.value (applied order start) stage := by
    have hguards := h.guards
    cases hguards with
    | held _ _ hvalue => exact hvalue
  cases stage with
  | entered =>
    cases hstep
    -- It reads what those before it have left, for nobody has written since it was let in.
    refine ⟨order, some ⟨index, change, .read⟩, h.goes_on hthread hmade ?_ ?_ rfl hvalue⟩
    · rw [hvalue]
      rfl
    · rw [hvalue]
      rfl
  | read =>
    cases hstep
    exact ⟨order, some ⟨index, change, .written⟩, h.goes_on hthread hmade rfl rfl rfl rfl⟩
  | written => exact ⟨_, none, h.released working hthread hmade hstep⟩

/-- One move of any thread. -/
theorem Succession.step (working : lock.Working held free intact)
    (h : Succession lock intact start order holder moves pool)
    (hstep : pool.step ⟨lock, hooks, fun change => change.job.routine⟩ index = some (move, next)) :
    ∃ order' holder', Succession lock intact start order' holder' (moves ++ [(index, move)]) next := by
  obtain ⟨thread, thread', hthread, hmoves, hthreads⟩ := Pool.moves_of_step hstep
  obtain ⟨cell, memory, threads⟩ := next
  dsimp only at hmoves hthreads
  subst hthreads
  cases hmoves with
  | began hidle hplan => exact ⟨order, holder, h.began hthread hidle _⟩
  | ended hrunning => exact ⟨order, holder, h.ended hthread hrunning⟩
  | @made change routine advance hrunning hadvance =>
    have hstanding := h.standing hthread
    generalize hshare : shareOf index order = made, hinside : Holder.inside? holder index = inside
      at hstanding
    cases hstanding with
    | idle hidle => cases hrunning.symm.trans hidle
    | waiting hwaiting =>
      cases hrunning.symm.trans hwaiting
      exact ⟨order, _, h.entered working hthread hshare hadvance⟩
    | inside hrest =>
      cases hrunning.symm.trans hrest
      obtain rfl := Holder.eq_of_inside? hinside
      exact h.inside working hthread hshare hadvance
    | past hpast =>
      cases hrunning.symm.trans hpast
      cases hadvance

omit [Journal ω] in
theorem Succession.initial {start : Cell σ π} (hintact : intact start.lock) {memory : ω}
    (plans : List (Plan (Change π) (Report π))) :
    Succession lock intact start.value [] none [] (Pool.ofPlans start memory plans) where
  events := rfl
  guards := .free hintact rfl
  owner _ hentry := by cases hentry
  standing hthread := by
    simp only [Pool.ofPlans, List.getElem?_map, Option.map_eq_some_iff] at hthread
    obtain ⟨plan, -, rfl⟩ := hthread
    exact .idle rfl
  reports hthread := by
    simp only [Pool.ofPlans, List.getElem?_map, Option.map_eq_some_iff] at hthread
    obtain ⟨plan, -, rfl⟩ := hthread
    exact fun _ hentry => by cases hentry

/-- All moves of all threads. -/
theorem Succession.follow (working : lock.Working held free intact)
    (h : Succession lock intact start order holder moves pool) {schedule : List Nat}
    {later : List (Nat × Move π Empty (Change π) (Report π))}
    (hfollow : pool.follow ⟨lock, hooks, fun change => change.job.routine⟩ schedule =
      some (later, next)) :
    ∃ order' holder', Succession lock intact start order' holder' (moves ++ later) next := by
  induction schedule generalizing pool moves order holder later with
  | nil =>
    cases hfollow
    rw [List.append_nil]
    exact ⟨order, holder, h⟩
  | cons index schedule ih =>
    simp only [Pool.follow, Option.bind_eq_some_iff, Option.map_eq_some_iff, Prod.mk.injEq]
      at hfollow
    obtain ⟨⟨move, middle⟩, hstep, ⟨rest, _⟩, hrest, rfl, rfl⟩ := hfollow
    obtain ⟨order', holder', hmiddle⟩ := h.step working hstep
    have hlast := ih hmiddle hrest
    rwa [List.append_assoc] at hlast

end Step

section Order

variable {lock : Lock ω σ} {intact : σ → Prop} {start : π} {order : List (Nat × Change π)}
  {holder : Option (Holder π)} {moves : List (Nat × Move π Empty (Change π) (Report π))}
  {pool : Pool ω σ π Empty (Change π) (Report π)}

/-- What a thread has made, and what it does inside, are calls that it has begun. -/
theorem Thread.Standing.made_begun {seen : π} {thread : Thread π Empty (Change π) (Report π)}
    {made : List (Change π)} {inside : Option (Change π × Stage)}
    (h : thread.Standing seen made inside) : made ++ (inside.map Prod.fst).toList <+:
      thread.history.reverse.map Prod.fst ++ (thread.running.map Prod.fst).toList := by
  cases h with
  | idle hrunning => simp
  | waiting hrunning => simp
  | inside hrunning => simp [hrunning]
  | past hrunning => simp [hrunning]

theorem shareOf_granted (index : Nat) (order : List (Nat × Change π))
    (holder : Option (Holder π)) : shareOf index (granted order holder) =
      shareOf index order ++ ((Holder.inside? holder index).map Prod.fst).toList := by
  cases holder with
  | none => simp [granted]
  | some holder =>
    by_cases hindex : holder.thread = index
    · simp [granted, shareOf, Holder.inside?, hindex]
    · simp [granted, shareOf, Holder.inside?, hindex]

/-- Up to any moment, what was done is the beginning of what the changes do for which the lock was
granted. -/
theorem Succession.events_prefix (h : Succession lock intact start order holder moves pool) :
    eventsIn moves <+: inSuccession (granted order holder) start := by
  rw [h.events]
  cases holder with
  | none => simp [granted]
  | some holder =>
    obtain ⟨thread, change, stage⟩ := holder
    have hdone : change.done (applied order start) stage <+: change.story (applied order start) := by
      cases stage with
      | entered => exact ⟨_, rfl⟩
      | read => exact ⟨_, rfl⟩
      | written => exact ⟨_, rfl⟩
    rw [granted, Option.map_some, Option.toList_some, inSuccession_append]
    exact (List.prefix_append_right_inj _).2 (hdone.map _)

/-- Changes that each count one count together. -/
theorem word_applied {width : Nat} {word : π → BitVec width}
    (hcounts : ∀ entry ∈ order, ∀ value, word (entry.2.apply value) = word value + 1) (start : π) :
    word (applied order start) = word start + BitVec.ofNat width order.length := by
  induction order generalizing start with
  | nil => simp [applied]
  | cons entry order ih =>
    have hrest := ih (fun other hother => hcounts other (List.mem_cons_of_mem entry hother))
      (entry.2.apply start)
    rw [hcounts entry List.mem_cons_self] at hrest
    rw [applied, List.foldl_cons, ← applied, hrest, List.length_cons, BitVec.add_assoc,
      Nat.add_comm, BitVec.ofNat_add]
    rfl

end Order

/-- What has become of a value, and what was done on the way, when threads with these programs of
changes are done. -/
structure AllApplied (lock : Lock ω σ) (programs : List (List (Change π))) (start : π)
    (moves : List (Nat × Move π Empty (Change π) (Report π)))
    (pool : Pool ω σ π Empty (Change π) (Report π)) : Prop where
  merged : ∃ order, Merge programs (order.map Prod.snd) ∧
    eventsIn moves = inSuccession order start ∧
    (pool.cell.destroy lock pool.memory).1 = applied order start
  counted {width each : Nat} (word : π → BitVec width) :
    (∀ program ∈ programs, program.length = each ∧
      ∀ change ∈ program, ∀ value, word (change.apply value) = word value + 1) →
    word (pool.cell.destroy lock pool.memory).1 =
      word start + BitVec.ofNat width (programs.length * each)

section Threads

variable [Journal ω] {lock : Lock ω σ} {held free intact : σ → Prop} {start : Cell σ π} {memory : ω}
  {programs : List (List (Change π))} {schedule : List Nat}
  {moves : List (Nat × Move π Empty (Change π) (Report π))}
  {pool : Pool ω σ π Empty (Change π) (Report π)} {order : List (Nat × Change π)}
  {holder : Option (Holder π)}

/-- The lock is granted to every thread in the order of its program. -/
theorem Succession.share_prefix
    (h : Succession lock intact start.value order holder moves pool)
    (hfollow : (Pool.ofPlans start memory (programs.map Plan.inOrder)).follow
      ⟨lock, .clone, fun change => change.job.routine⟩ schedule = some (moves, pool))
    {index : Nat} {program : List (Change π)} (hprogram : programs[index]? = some program) :
    shareOf index (granted order holder) <+: program := by
  have hthread := List.getElem?_eq_getElem (index_lt_of_program hfollow hprogram)
  rw [shareOf_granted]
  exact (h.standing hthread).made_begun.trans
    (executes_of_follow hfollow hprogram hthread).begun

/-- When the threads are done nobody is inside, and every thread has made its changes. -/
theorem Succession.share_eq (h : Succession lock intact start.value order holder moves pool)
    (hfollow : (Pool.ofPlans start memory (programs.map Plan.inOrder)).follow
      ⟨lock, .clone, fun change => change.job.routine⟩ schedule = some (moves, pool))
    (hdone : ∀ thread ∈ pool.threads, thread.isDone = true) :
    holder = none ∧ ∀ {index program}, programs[index]? = some program →
      shareOf index order = program := by
  have houtside : ∀ {index} (hindex : index < pool.threads.length),
      shareOf index order = pool.threads[index].history.reverse.map Prod.fst ∧
        Holder.inside? holder index = none := by
    intro index hindex
    have hidle := Thread.idle_of_isDone (hdone _ (List.getElem_mem hindex))
    have hstanding := h.standing (List.getElem?_eq_getElem hindex)
    generalize shareOf index order = made, Holder.inside? holder index = inside at hstanding ⊢
    cases hstanding with
    | idle => exact ⟨rfl, rfl⟩
    | waiting => exact ⟨rfl, rfl⟩
    | inside hrunning => cases hidle.symm.trans hrunning
    | past hrunning => cases hidle.symm.trans hrunning
  refine ⟨?_, ?_⟩
  · cases holder with
    | none => rfl
    | some holder =>
      have hindex := h.owner (holder.thread, holder.change)
        (List.mem_append_right _ List.mem_cons_self)
      have hinside := (houtside hindex).2
      simp [Holder.inside?] at hinside
  · intro index program hprogram
    have hindex := index_lt_of_program hfollow hprogram
    rw [(houtside hindex).1]
    exact calls_of_follow hfollow hprogram (List.getElem?_eq_getElem hindex)
      (hdone _ (List.getElem_mem hindex))

theorem allApplied_of_isDone (working : lock.Working held free intact)
    (hintact : intact start.lock)
    (hfollow : (Pool.ofPlans start memory (programs.map Plan.inOrder)).follow
      ⟨lock, .clone, fun change => change.job.routine⟩ schedule = some (moves, pool))
    (hdone : ∀ thread ∈ pool.threads, thread.isDone = true) :
    AllApplied lock programs start.value moves pool := by
  obtain ⟨order, holder, h⟩ := (Succession.initial hintact _).follow working hfollow
  rw [List.nil_append] at h
  obtain ⟨rfl, hshares⟩ := h.share_eq hfollow hdone
  have howner : ∀ entry ∈ order, entry.1 < programs.length := by
    intro entry hentry
    have hindex := h.owner entry (List.mem_append_left _ hentry)
    rwa [length_threads_ofPlans hfollow, List.length_map] at hindex
  have hmerge : Merge programs (order.map Prod.snd) := merge_of_shares howner hshares
  have hevents := h.events
  rw [Option.elim_none, List.append_nil] at hevents
  have hvalue : pool.cell.value = applied order start.value := by
    have hguards := h.guards
    cases hguards with
    | free hintact hvalue => exact hvalue
  refine ⟨⟨order, hmerge, hevents, hvalue⟩, ?_⟩
  intro width each word hcounts
  have hlength : order.length = programs.length * each := by
    have hsum := List.sum_eq_card_nsmul (programs.map List.length) each (by
      intro count hcount
      obtain ⟨program, hprogram, rfl⟩ := List.mem_map.1 hcount
      exact (hcounts program hprogram).1)
    have htotal := hmerge.length_eq
    rw [List.length_map] at htotal hsum
    rw [htotal, List.length_flatten, hsum, Nat.nsmul_eq_mul]
  rw [← hlength, ← word_applied (fun entry hentry value => ?_) start.value, ← hvalue]
  · rfl
  · have hchange := hmerge.perm.mem_iff.1 (List.mem_map_of_mem hentry)
    obtain ⟨program, hprogram, hmember⟩ := List.mem_flatten.1 hchange
    exact (hcounts program hprogram).2 entry.2 hmember value

/-- However threads take turns that change a value behind a lock, they come to an end and are never
refused the lock. At every moment what they have done is the beginning of what their changes do one
after another, in an order that keeps to all programs; when they are done it is all of it, and the
value that the lock's owner gets back is the one that all changes have left. -/
theorem allApplied_of_follow (working : lock.Working held free intact) (hintact : intact start.lock)
    (hfollow : (Pool.ofPlans start memory (programs.map Plan.inOrder)).follow
      ⟨lock, .clone, fun change => change.job.routine⟩ schedule = some (moves, pool)) :
    ComesToEnd ⟨lock, .clone, fun change => change.job.routine⟩ (6 * programs.flatten.length)
      moves pool ∧
    (∀ thread ∈ pool.threads, ∀ entry ∈ thread.history, entry.2 = .value (.completed [])) ∧
    (∃ order, eventsIn moves <+: inSuccession order start.value ∧
      ∀ {index : Nat} {program : List (Change π)}, programs[index]? = some program →
        shareOf index order <+: program) ∧
    ((∀ thread ∈ pool.threads, thread.isDone = true) →
      AllApplied lock programs start.value moves pool) := by
  obtain ⟨order, holder, h⟩ := (Succession.initial hintact _).follow working hfollow
  rw [List.nil_append] at h
  refine ⟨?_, ?_, ?_, allApplied_of_isDone working hintact hfollow⟩
  · exact comesToEnd_of_programs working.mutex Hooks.silent_clone Change.outside_job
      Change.within_job (working.free hintact) hfollow
  · intro thread hmember
    obtain ⟨index, hthread⟩ := List.getElem?_of_mem hmember
    exact h.reports hthread
  · exact ⟨granted order holder, h.events_prefix, h.share_prefix hfollow⟩

/-- Two threads count behind each of the locks, in two bits and from the largest number on, and one
of them doubles what it finds at last. The other one, which begins later, has its turn first. -/
theorem allApplied_of_follow_bits :
    let increment : Change (BitVec 2) := { apply := (· + 1), guardEnd := .outOfScope }
    let double : Change (BitVec 2) := { apply := (· * 2) }
    let programs : List (List (Change (BitVec 2))) := [[increment, double], [increment]]
    let schedule := [0, 1, 1, 1, 1, 1, 0, 0, 1, 0, 0, 0, 0, 0, 0, 0, 0, 0]
    ((Lock.spin : Lock (List Message) Spin).Working (·.held = true) (·.held = false)
        (·.held = false) ∧
      ∃ moves pool, (Pool.ofPlans ⟨{}, 3⟩ [] (programs.map Plan.inOrder)).follow
          ⟨(Lock.spin : Lock (List Message) Spin), .clone, fun change => change.job.routine⟩ schedule =
          some (moves, pool) ∧
        (∀ thread ∈ pool.threads, thread.isDone = true) ∧ pool.cell.value = 2 ∧
        AllApplied Lock.spin programs 3 moves pool) ∧
    ((Lock.ticket : Lock (List Message) Ticket).Working
        (fun state => state.next = state.serving + 1) (fun state => state.next = state.serving)
        (fun state => state.next = state.serving) ∧
      ∃ moves pool, (Pool.ofPlans ⟨{}, 3⟩ [] (programs.map Plan.inOrder)).follow
          ⟨(Lock.ticket : Lock (List Message) Ticket), .clone, fun change => change.job.routine⟩
          schedule = some (moves, pool) ∧
        (∀ thread ∈ pool.threads, thread.isDone = true) ∧ pool.cell.value = 2 ∧
        AllApplied Lock.ticket programs 3 moves pool) ∧
    ((Lock.poisoning : Lock (List Message) Poisoning).Working (·.held = true) (·.held = false)
        (· = {}) ∧
      ∃ moves pool, (Pool.ofPlans ⟨{}, 3⟩ [] (programs.map Plan.inOrder)).follow
          ⟨(Lock.poisoning : Lock (List Message) Poisoning), .clone,
            fun change => change.job.routine⟩ schedule = some (moves, pool) ∧
        (∀ thread ∈ pool.threads, thread.isDone = true) ∧ pool.cell.value = 2 ∧
        AllApplied Lock.poisoning programs 3 moves pool) := by
  intro increment double programs schedule
  have hends : ∀ {σ : Type} {lock : Lock (List Message) σ} {held free intact : σ → Prop} {state : σ},
      lock.Working held free intact → intact state →
      ((Pool.ofPlans ⟨state, 3⟩ [] (programs.map Plan.inOrder)).follow
        ⟨lock, .clone, fun change => change.job.routine⟩ schedule).map
          (fun (_, pool) => (pool.threads.all Thread.isDone, pool.cell.value)) = some (true, 2) →
      lock.Working held free intact ∧
        ∃ moves pool, (Pool.ofPlans ⟨state, 3⟩ [] (programs.map Plan.inOrder)).follow
            ⟨lock, .clone, fun change => change.job.routine⟩ schedule = some (moves, pool) ∧
          (∀ thread ∈ pool.threads, thread.isDone = true) ∧ pool.cell.value = 2 ∧
          AllApplied lock programs 3 moves pool := by
    intro σ lock held free intact state working hintact hrun
    simp only [Option.map_eq_some_iff, Prod.mk.injEq] at hrun
    obtain ⟨⟨moves, pool⟩, hfollow, hdone, hvalue⟩ := hrun
    exact ⟨working, moves, pool, hfollow, List.all_eq_true.1 hdone, hvalue,
      (allApplied_of_follow working hintact hfollow).2.2.2 (List.all_eq_true.1 hdone)⟩
  exact ⟨hends Lock.working_spin rfl (by decide +kernel),
    hends Lock.working_ticket rfl (by decide +kernel),
    hends Lock.working_poisoning rfl (by decide +kernel)⟩

end Threads

end GuardedList
