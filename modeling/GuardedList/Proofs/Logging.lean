import GuardedList.Proofs.Exclusion
import GuardedList.Proofs.Trace

/-!
# What is logged

A session in a memory that shows its messages (`Journal.Shows`) can be told with the messages that
each of its steps logged (`chronicle`), and so can the whole life of a list (`life`).

Beside what a lock may have to say, which messages a step logs is a matter of the step and its
result alone (`Step.notes`): the routine of each operation writes them so (`notes_routine`),
whatever the hooks and the lock answer on the way.
-/

namespace GuardedList

variable {ω σ π α β : Type}

/-- A view of a memory that shows the messages recorded in it, the first one first. -/
structure Journal.Shows [Journal ω] (log : ω → List Message) : Prop where
  record (message : Message) (memory : ω) :
    log (Journal.record message memory) = log memory ++ [message]

theorem Journal.shows_reverse : Journal.Shows (List.reverse : List Message → List Message) :=
  ⟨fun _ _ => List.reverse_cons⟩

/-- Between `before` and `after` something was logged, and `messages` are those among it that are
`heeded`. -/
def Gains (log : ω → List Message) (heeded : Message → Bool) (messages : List Message)
    (before after : ω) : Prop :=
  ∃ all, log after = log before ++ all ∧ all.filter heeded = messages

namespace Gains

variable {log : ω → List Message} {heeded : Message → Bool} {messages messages' : List Message}
  {before middle after : ω}

theorem refl (memory : ω) : Gains log heeded [] memory memory := ⟨[], by simp, rfl⟩

theorem trans (h : Gains log heeded messages before middle)
    (h' : Gains log heeded messages' middle after) :
    Gains log heeded (messages ++ messages') before after := by
  obtain ⟨all, hall, rfl⟩ := h
  obtain ⟨all', hall', rfl⟩ := h'
  exact ⟨all ++ all', by rw [hall', hall, List.append_assoc], by rw [List.filter_append]⟩

theorem record [Journal ω] (shows : Journal.Shows log) (heeded : Message → Bool)
    (message : Message) (memory : ω) :
    Gains log heeded ([message].filter heeded) memory (Journal.record message memory) :=
  ⟨[message], shows.record message memory, rfl⟩

/-- The heeded ones among all the messages that were logged. -/
theorem filter_drop (h : Gains log heeded messages before after) :
    ((log after).drop (log before).length).filter heeded = messages := by
  obtain ⟨all, hall, rfl⟩ := h
  rw [hall, List.drop_left]

/-- All messages that were logged, where everything is heeded. -/
theorem drop_eq (h : Gains log (fun _ => true) messages before after) :
    (log after).drop (log before).length = messages := by
  rw [← h.filter_drop, List.filter_eq_self.2 fun _ _ => rfl]

end Gains

/-- A lock that logs nothing that is heeded, if it is asked or taken down while it is free. -/
structure Lock.Discreet (lock : Lock ω σ) (log : ω → List Message) (heeded : Message → Bool)
    (free : σ → Prop) : Prop where
  make (memory : ω) : Gains log heeded [] memory (lock.make memory).2
  acquire {state : σ} : free state →
    ∀ memory, Gains log heeded [] memory (lock.acquire state memory).2
  release (manner : Manner) (state : σ) (memory : ω) :
    Gains log heeded [] memory (lock.release manner state memory).2
  destroy {state : σ} : free state →
    ∀ memory, Gains log heeded [] memory (lock.destroy state memory)

namespace Lock

variable (log : ω → List Message) (heeded : Message → Bool)

theorem discreet_ofPlain (mutex : PlainMutex σ) (free : σ → Prop) :
    (ofPlain mutex : Lock ω σ).Discreet log heeded free where
  make memory := .refl memory
  acquire _ memory := .refl memory
  release _ _ memory := .refl memory
  destroy _ memory := .refl memory

/-- A lock that can be poisoned has something to say only when it is poisoned. -/
theorem discreet_poisoning [Journal ω] {log : ω → List Message} {heeded : Message → Bool}
    (shows : Journal.Shows log) {free : Poisoning → Prop}
    (hfree : ∀ state, free state → state.poisoned = true →
      heeded .acquireRefused = false ∧ heeded .poisonedDestroyed = false) :
    (poisoning : Lock ω Poisoning).Discreet log heeded free where
  make memory := .refl memory
  acquire {state} h memory := by
    obtain ⟨held, poisoned⟩ := state
    cases held with
    | true => exact .refl memory
    | false =>
      cases poisoned with
      | false => exact .refl memory
      | true =>
        have hgains := Gains.record shows heeded .acquireRefused memory
        simpa [(hfree _ h rfl).1] using hgains
  release _ _ memory := .refl memory
  destroy {state} h memory := by
    obtain ⟨held, poisoned⟩ := state
    cases poisoned with
    | false => exact .refl memory
    | true =>
      have hgains := Gains.record shows heeded .poisonedDestroyed memory
      simpa [(hfree _ h rfl).2] using hgains

/-- A lock that gives these answers first, and grants everything from then on. -/
def scripted (answers : List (Except LockError Unit)) : Lock ω (List (Except LockError Unit)) :=
  { answering with make := fun memory => (.ok answers, memory) }

theorem lawful_scripted (answers : List (Except LockError Unit)) :
    (scripted answers : Lock ω _).Lawful (fun _ => True) where
  make _ := trivial
  answered := by rintro (_ | ⟨_ | _, _⟩) - memory <;> exact nofun
  granted _ _ _ _ _ := trivial
  refused _ _ := ⟨trivial, trivial⟩

theorem discreet_scripted (answers : List (Except LockError Unit)) :
    (scripted answers : Lock ω _).Discreet log heeded (fun _ => True) where
  make memory := .refl memory
  acquire := by rintro (_ | ⟨_ | _, _⟩) - memory <;> exact .refl memory
  release _ _ memory := .refl memory
  destroy _ memory := .refl memory

end Lock

/-- The messages that an operation logs when it comes to this end, apart from warnings. -/
def Operation.notes : Operation α → Ending (Reply α) → List Message
  | add _, .value _ => [.appended]
  | remove index, .value _ => [.unlinked index]
  | update index _, .value _ => [.replaced index]
  | _, _ => []

/-- The messages that a step logs on a list that holds the elements `before`, or nothing once it is
destroyed. -/
def Step.notes : Step α → Option (List α) → Ending (Reply α) → List Message
  | call operation, some _, result => operation.notes result
  | destroy, some elements, .value _ => [.freed elements.length]
  | _, _, _ => []

/-- All changes are heeded, and of the lock's refusals only those that cannot occur among `answers`.
-/
structure Heeds (heeded : Message → Bool) (answers : Except LockError Unit → Prop) : Prop where
  granted : answers (.ok ())
  refusals {cause : LockError} : answers (.error cause) → heeded (.additionRefused cause) = false
  changes {message : Message} : message.level ≠ .warn → heeded message = true

/-- Where there are fewer answers there is no more to heed. -/
theorem Heeds.mono {heeded : Message → Bool} {answers answers' : Except LockError Unit → Prop}
    (heeds : Heeds heeded answers) (hgranted : answers' (.ok ()))
    (hanswers : ∀ answer, answers' answer → answers answer) : Heeds heeded answers' where
  granted := hgranted
  refusals h := heeds.refusals (hanswers _ h)
  changes := heeds.changes

namespace Routine

/-- However the lock and the hooks answer the code, it will have logged what `notes` makes of its
ending, and it has logged `noted` of that. -/
def Notes (heeded : Message → Bool) (answers : Except LockError Unit → Prop)
    (notes : Ending β → List Message) : Routine π α β → List Message → Prop
  | finish ending, noted => noted = notes ending
  | acquire next, noted => ∀ answer, answers answer → (next answer).Notes heeded answers notes noted
  | release _ next, noted => next.Notes heeded answers notes noted
  | load next, noted => ∀ value, (next value).Notes heeded answers notes noted
  | store _ next, noted => next.Notes heeded answers notes noted
  | copy _ next, noted => ∀ ending, (next ending).Notes heeded answers notes noted
  | dispose _ next, noted => ∀ residue, (next residue).Notes heeded answers notes noted
  | log message next, noted => next.Notes heeded answers notes (noted ++ [message].filter heeded)

end Routine

namespace Operation

variable {heeded : Message → Bool} {answers : Except LockError Unit → Prop}

theorem notes_add (heeds : Heeds heeded answers) (value : α) (size : Nat) :
    ((add value).routine size).Notes heeded answers (add value).notes [] := by
  have happended : heeded .appended = true := heeds.changes nofun
  intro ending
  cases ending with
  | value stored =>
    intro answer hanswer
    cases answer with
    | ok =>
      intro chain
      simp [Routine.Notes, notes, happended]
    | error cause =>
      rintro ⟨left, _ | text⟩ <;>
      simp [Routine.Notes, notes, Residue.ending, heeds.refusals hanswer]
  | error cause => rfl
  | panicked text => rfl

theorem notes_remove (heeds : Heeds heeded answers) (index : Nat) (size : Nat) :
    ((remove index : Operation α).routine size).Notes heeded answers (remove index).notes [] := by
  have hunlinked : heeded (.unlinked index) = true := heeds.changes nofun
  intro answer hanswer
  cases answer with
  | ok =>
    intro chain
    cases hunlink : chain.unlink? index with
    | none => simp [hunlink, Routine.Notes, notes]
    | some detached =>
      simp only [Routine.bind, hunlink, Routine.put, Routine.pure_eq]
      rintro ⟨left, _ | text⟩ <;>
      simp [Routine.Notes, notes, Residue.ending, hunlinked]
  | error cause => rfl

theorem notes_get (heeded : Message → Bool) (answers : Except LockError Unit → Prop) (index : Nat)
    (size : Nat) :
    ((get index : Operation α).routine size).Notes heeded answers (get index).notes [] := by
  intro answer hanswer
  cases answer with
  | ok =>
    intro chain
    cases hnode : chain.node? index with
    | none => simp [hnode, Routine.Notes, notes]
    | some node =>
      simp only [hnode, Routine.bind, Routine.copyOf, Routine.releasing]
      rintro (_ | _ | _) <;> rfl
  | error cause => rfl

theorem notes_update (heeds : Heeds heeded answers) (index : Nat) (value : α) (size : Nat) :
    ((update index value).routine size).Notes heeded answers (update index value).notes [] := by
  have hreplaced : heeded (.replaced index) = true := heeds.changes nofun
  intro answer hanswer
  cases answer with
  | ok =>
    intro chain
    cases hfocus : chain.focus? index with
    | none => simp [hfocus, Routine.Notes, notes]
    | some position =>
      simp only [hfocus, Routine.bind, Routine.copyOf]
      intro ending
      cases ending with
      | value replacement =>
        rintro ⟨left, _ | text⟩ <;>
        simp [Routine.Notes, notes, Residue.ending, hreplaced]
      | error cause => rfl
      | panicked text => rfl
  | error cause => rfl

/-- The routine of every operation logs what the operation is to log. -/
theorem notes_routine (heeds : Heeds heeded answers) (operation : Operation α) (size : Nat) :
    (operation.routine size).Notes heeded answers operation.notes [] := by
  cases operation with
  | add value => exact notes_add heeds value size
  | remove index => exact notes_remove heeds index size
  | get index => exact notes_get heeded answers index size
  | update index value => exact notes_update heeds index value size
  | length =>
    rintro (_ | _) _
    · rfl
    · intro chain
      rfl
  | isEmpty =>
    rintro (_ | _) _
    · rfl
    · intro chain
      rfl
  | releaseValue value => rintro ⟨left, _ | text⟩ <;> rfl
  | isInitialized => rfl
  | elementSize => rfl

end Operation

section Run

variable [Journal ω] {log : ω → List Message} {heeded : Message → Bool} {lock : Lock ω σ}
  {free : σ → Prop} {answers : Except LockError Unit → Prop} {manners : Manner → Prop}
  {strategy : Strategy α}

/-- Where a routine can stand: past the lock, with the lock, or still without it while the lock is
free. -/
def Routine.Stands (free : σ → Prop) (routine : Routine π α β) (state : σ) : Prop :=
  routine.Past ∨ routine.Inside ∨ routine.Outside ∧ free state

theorem Routine.Stands.copied {source : α} {next : Ending α → Routine π α β} {state : σ}
    (h : (copy source next).Stands free state) (ending : Ending α) :
    (next ending).Stands free state := by
  rcases h with hpast | hinside | ⟨houtside, hfree⟩
  · exact .inl (hpast ending)
  · exact .inr (.inl (hinside ending))
  · exact .inr (.inr ⟨houtside ending, hfree⟩)

theorem Routine.Stands.disposed {value : α} {next : Residue α → Routine π α β} {state : σ}
    (h : (dispose value next).Stands free state) (residue : Residue α) :
    (next residue).Stands free state := by
  rcases h with hpast | hinside | ⟨houtside, hfree⟩
  · exact .inl (hpast residue)
  · exact .inr (.inl (hinside residue))
  · exact .inr (.inr ⟨houtside residue, hfree⟩)

/-- A run gains the messages that its routine is to log. -/
theorem Routine.Notes.gains (shows : Journal.Shows log) (discreet : lock.Discreet log heeded free)
    (keeps : lock.Keeps free answers manners) (hgranted : answers (.ok ()))
    {server : Server (Recorded α ω) α (Cell σ π)} {notes : Ending β → List Message}
    {routine : Routine π α β} {noted : List Message}
    (hnotes : routine.Notes heeded answers notes noted) {cell : Cell σ π}
    (hstands : routine.Stands free cell.lock) {memory : Recorded α ω}
    {outcome : Outcome (Ending β) (Cell σ π) (Recorded α ω)}
    (hrun : routine.run lock.recorded strategy.hooks server cell memory = some outcome) :
    ∃ messages, Gains log heeded messages memory.rest outcome.memory.rest ∧
      noted ++ messages = notes outcome.result := by
  induction routine generalizing noted cell memory with
  | finish ending =>
    cases hrun
    exact ⟨[], .refl _, by rw [List.append_nil]; exact hnotes⟩
  | acquire next ih =>
    -- Only who is still outside asks for the lock, and then it is free and keeps silent.
    obtain ⟨houtside, hfree⟩ := (hstands.resolve_left id).resolve_left id
    have hgains := discreet.acquire hfree memory.rest
    rcases hattempt : lock.acquire cell.lock memory.rest with ⟨state | ⟨cause, state⟩ | _, after⟩
    · simp only [Routine.run, Lock.recorded, hattempt] at hrun hgains
      obtain ⟨messages, hlater, heq⟩ :=
        ih _ (hnotes _ hgranted) (.inr (.inl houtside.2)) hrun
      exact ⟨messages, hgains.trans hlater, heq⟩
    · simp only [Routine.run, Lock.recorded, hattempt] at hrun hgains
      obtain ⟨messages, hlater, heq⟩ :=
        ih _ (hnotes _ (keeps.refused hfree hattempt).1) (.inl (houtside.1 cause)) hrun
      exact ⟨messages, hgains.trans hlater, heq⟩
    · simp [Routine.run, Lock.recorded, hattempt] at hrun
  | release manner next ih =>
    have hinside := (hstands.resolve_left id).resolve_right fun h => h.1
    obtain ⟨messages, hlater, heq⟩ := ih hnotes (.inl hinside.1) hrun
    exact ⟨messages, (discreet.release manner cell.lock memory.rest).trans hlater, heq⟩
  | load next ih =>
    have hinside := (hstands.resolve_left id).resolve_right fun h => h.1
    exact ih _ (hnotes _) (.inr (.inl (hinside _))) hrun
  | store value next ih =>
    have hinside := (hstands.resolve_left id).resolve_right fun h => h.1
    exact ih hnotes (.inr (.inl hinside)) hrun
  | copy source next ih =>
    obtain ⟨past, memory⟩ := memory
    rw [run_copy] at hrun
    have hgains := ih _ (hnotes _) (hstands.copied _) hrun
    exact hgains
  | dispose value next ih =>
    obtain ⟨past, memory⟩ := memory
    rw [run_dispose] at hrun
    have hgains := ih _ (hnotes _) (hstands.disposed _) hrun
    exact hgains
  | log message next ih =>
    obtain ⟨messages, hlater, heq⟩ := ih hnotes hstands hrun
    refine ⟨[message].filter heeded ++ messages, ?_, by rw [← List.append_assoc]; exact heq⟩
    exact (Gains.record shows heeded message memory.rest).trans hlater

/-- A step of a list logs what the step is to log. -/
theorem perform_gains (shows : Journal.Shows log) (discreet : lock.Discreet log heeded free)
    (keeps : lock.Keeps free answers manners) (heeds : Heeds heeded answers) {size depth : Nat}
    {step : Step α} {list : GuardedList (Recorded α ω) σ α} {contents : Option (List α)}
    (hlist : Represents lock free strategy size list contents) {memory : Recorded α ω}
    {outcome : Outcome (Ending (Reply α)) (GuardedList (Recorded α ω) σ α) (Recorded α ω)}
    (hperform : perform depth step list memory = some outcome) :
    Gains log heeded (step.notes contents outcome.result) memory.rest outcome.memory.rest := by
  cases hlist with
  | gone hooks =>
    cases step <;>
    · cases hperform
      exact .refl _
  | @live cell elements hfree helements =>
    cases step with
    | call operation =>
      simp only [perform, serve, Operation.serve, Option.map_eq_some_iff] at hperform
      obtain ⟨outcome, hrun, rfl⟩ := hperform
      obtain ⟨messages, hgains, rfl⟩ := (operation.notes_routine heeds size).gains shows discreet
        keeps heeds.granted (.inr (.inr ⟨operation.outside_routine size, hfree⟩)) hrun
      exact hgains
    | destroy =>
      have hfreed : heeded (.freed elements.length) = true :=
        heeds.changes (by simp [Message.level])
      have hgains := discreet.destroy hfree memory.rest
      have hwalk := freeAll_eq_disposeAll strategy cell.value 0 memory.calls
        (lock.destroy cell.lock memory.rest)
      rw [Nat.zero_add, helements] at hwalk
      simp only [perform, destroy, Cell.destroy, Lock.recorded, hwalk] at hperform
      generalize strategy.disposeAll memory.calls elements = disposed at hperform
      obtain ⟨_ | text, calls⟩ := disposed
      · cases hperform
        have hrecord := Gains.record shows heeded (.freed elements.length)
          (lock.destroy cell.lock memory.rest)
        rw [List.filter_cons_of_pos hfreed] at hrecord
        exact hgains.trans hrecord
      · cases hperform
        exact hgains

end Run

/-- What is known of a step after it was taken, with the messages that it logged. -/
structure Entry (α : Type) extends Episode α where
  messages : List Message

section Chronicle

variable [Journal ω]

/-- Takes steps one after another and keeps what is known of each, with its messages. -/
def chronicle (log : ω → List Message) (depth : Nat) : List (Step α) →
    GuardedList (Recorded α ω) σ α → Recorded α ω →
    Option (List (Entry α) × GuardedList (Recorded α ω) σ α × Recorded α ω)
  | [], list, memory => some ([], list, memory)
  | step :: steps, list, memory =>
    (perform depth step list memory).bind fun outcome =>
      (chronicle log depth steps outcome.target outcome.memory).map fun (entries, last) =>
        (⟨⟨step, list.contents?, outcome.result, outcome.memory.calls.drop memory.calls.length,
          outcome.target.contents?⟩, (log outcome.memory.rest).drop (log memory.rest).length⟩ ::
            entries, last)

/-- The life of a list: it is made, steps are taken, and its owner lets go of it, which is told as
one step more. -/
def life (log : ω → List Message) (lock : Lock ω σ) (strategy : Strategy α) (size depth : Nat)
    (steps : List (Step α)) (start : ω) : Except ListError (Option (List (Entry α))) :=
  match create lock.recorded strategy.hooks size ⟨[], start⟩ with
  | (.error cause, _) => .error cause
  | (.ok list, begun) => .ok <|
    (chronicle log depth steps list begun).bind fun (entries, last, left) =>
      (last.drop left).map fun (ending, rest) =>
        entries ++ [⟨⟨.destroy, last.contents?, ending.map fun _ => .done,
          rest.calls.drop left.calls.length, none⟩, (log rest.rest).drop (log left.rest).length⟩]

variable {log : ω → List Message} {lock : Lock ω σ} {strategy : Strategy α} {size depth : Nat}

/-- A chronicle is the session, told with the messages. -/
theorem session_eq_chronicle (log : ω → List Message) (steps : List (Step α))
    (list : GuardedList (Recorded α ω) σ α) (memory : Recorded α ω) :
    session depth steps list memory =
      (chronicle log depth steps list memory).map fun (entries, last) =>
        (entries.map Entry.toEpisode, last) := by
  induction steps generalizing list memory with
  | nil => rfl
  | cons step steps ih =>
    rw [session, chronicle]
    cases perform depth step list memory with
    | none => rfl
    | some outcome =>
      simp only [Option.bind_some, ih, Option.map_map]
      rfl

@[simp] theorem ListMachine.step_episode (answer : Except LockError Unit)
    (past : List (HookCall α)) (contents : Option (List α)) (step : Step α) :
    (ListMachine.episode strategy size answer past contents step).step = step := by
  cases step <;> cases contents <;> rfl

/-- A chronicle that begins with a step of the machine. -/
theorem chronicle_cons (log : ω → List Message) {free free' : σ → Prop}
    {answer : Except LockError Unit} {step : Step α} {list next : GuardedList (Recorded α ω) σ α}
    {contents : Option (List α)} (hlist : Represents lock free strategy size list contents)
    {past : List (HookCall α)} {memory rest : ω} :
    let episode := ListMachine.episode strategy size answer past contents step
    perform depth step list ⟨past, memory⟩ =
      some ⟨episode.result, next, ⟨past ++ episode.calls, rest⟩⟩ →
    Represents lock free' strategy size next episode.after → ∀ steps,
    chronicle log depth (step :: steps) list ⟨past, memory⟩ =
      (chronicle log depth steps next ⟨past ++ episode.calls, rest⟩).map fun (entries, last) =>
        (⟨episode, (log rest).drop (log memory).length⟩ :: entries, last) := by
  intro episode hperform hnext steps
  have hepisode := ListMachine.episode_eta strategy size answer past contents step
  rw [chronicle, hperform, Option.bind_some]
  simp only [List.drop_left, hlist.contents, hnext.contents]
  rw [hepisode]

theorem chronicle_append (steps later : List (Step α)) (list : GuardedList (Recorded α ω) σ α)
    (memory : Recorded α ω) :
    chronicle log depth (steps ++ later) list memory =
      (chronicle log depth steps list memory).bind fun (entries, last, left) =>
        (chronicle log depth later last left).map fun (added, rest) =>
          (entries ++ added, rest) := by
  induction steps generalizing list memory with
  | nil => simp [chronicle]
  | cons step steps ih =>
    simp only [List.cons_append, chronicle, ih, Option.bind_assoc]
    congr 1
    funext outcome
    rw [Option.map_bind, Option.bind_map]
    congr 1
    funext told
    simp [Option.map_map, Function.comp_def]

/-- To let go of a list is to destroy it. -/
theorem life_eq_chronicle (log : ω → List Message) (depth : Nat) (steps : List (Step α)) {start : ω}
    {list : GuardedList (Recorded α ω) σ α} {begun : Recorded α ω}
    (hcreate : create lock.recorded strategy.hooks size ⟨[], start⟩ = (.ok list, begun)) :
    life log lock strategy size depth steps start =
      .ok ((chronicle log depth (steps ++ [.destroy]) list begun).map Prod.fst) := by
  simp only [life, hcreate, chronicle_append, Option.map_bind, Except.ok.injEq]
  congr 1
  funext ⟨entries, last, left⟩
  simp only [chronicle, perform, drop, Option.map_map, Function.comp_apply]
  cases hdestroy : last.destroy left with
  | none => rfl
  | some outcome =>
    obtain ⟨hooks?, htarget⟩ := target_of_destroy hdestroy
    simp [htarget, contents?]

/-- Behind a lock that is never left held a list lives to its end. -/
theorem life_ne_none {free : σ → Prop} (lawful : lock.Lawful free) (log : ω → List Message)
    (strategy : Strategy α) (size depth : Nat) (steps : List (Step α)) (start : ω) :
    life log lock strategy size depth steps start ≠ .ok none := by
  rcases hcreate : create lock.recorded strategy.hooks size ⟨[], start⟩ with
    ⟨cause | list, ⟨calls, begun⟩⟩
  · simp [life, hcreate]
  · obtain ⟨hlist, rfl⟩ := represents_create lawful hcreate
    obtain ⟨answered, last, rest, -, -, hsession, -⟩ :=
      session_eq_run lawful trivial (.inl trivial) hlist depth (steps ++ [.destroy]) [] begun
    rw [session_eq_chronicle log] at hsession
    rw [life_eq_chronicle log depth steps hcreate]
    intro hnone
    rw [Except.ok.injEq, Option.map_eq_none_iff] at hnone
    rw [hnone] at hsession
    cases hsession

end Chronicle

/-- An account of steps that were taken after the hook calls in `past`, on a list with these
elements. Each is a step of the machine for one of the lock's `answers`, and of what is heeded it
logged just what it is to log. -/
inductive Told (strategy : Strategy α) (size : Nat) (heeded : Message → Bool)
    (answers : Except LockError Unit → Prop) :
    List (HookCall α) → Option (List α) → List (Entry α) → Prop
  | nil (past : List (HookCall α)) (contents : Option (List α)) :
      Told strategy size heeded answers past contents []
  | cons {past : List (HookCall α)} {contents : Option (List α)} {step : Step α}
      {answer : Except LockError Unit} {messages : List Message} {entries : List (Entry α)}
      (hanswer : answers answer)
      (hmessages : messages.filter heeded =
        step.notes contents (ListMachine.episode strategy size answer past contents step).result)
      (hlater : Told strategy size heeded answers
        (past ++ (ListMachine.episode strategy size answer past contents step).calls)
        (ListMachine.episode strategy size answer past contents step).after entries) :
      Told strategy size heeded answers past contents
        (⟨ListMachine.episode strategy size answer past contents step, messages⟩ :: entries)

section Told

variable [Journal ω] {log : ω → List Message} {heeded : Message → Bool} {lock : Lock ω σ}
  {free : σ → Prop} {answers : Except LockError Unit → Prop} {manners : Manner → Prop}
  {strategy : Strategy α} {size : Nat}

/-- Every list can be told of, whatever steps are taken. -/
theorem told_chronicle (shows : Journal.Shows log) (discreet : lock.Discreet log heeded free)
    (keeps : lock.Keeps free answers manners) (heeds : Heeds heeded answers)
    (horderly : manners .orderly) (hmanners : manners .unwinding ∨ strategy.Calm)
    {list : GuardedList (Recorded α ω) σ α} {contents : Option (List α)}
    (hlist : Represents lock free strategy size list contents) (depth : Nat)
    (steps : List (Step α)) (past : List (HookCall α)) (memory : ω) :
    ∃ entries last, chronicle log depth steps list ⟨past, memory⟩ = some (entries, last) ∧
      entries.map (·.step) = steps ∧ Told strategy size heeded answers past contents entries := by
  induction steps generalizing list contents past memory with
  | nil => exact ⟨[], _, rfl, rfl, .nil past contents⟩
  | cons step steps ih =>
    obtain ⟨answer, next, rest, hanswer, hperform, hnext⟩ :=
      perform_eq_episode keeps horderly hmanners hlist depth step past memory
    have hmessages := (perform_gains shows discreet keeps heeds hlist hperform).filter_drop
    obtain ⟨entries, last, hlater, hsteps, htold⟩ := ih hnext _ rest
    rw [chronicle_cons log hlist hperform hnext, hlater, Option.map_some]
    refine ⟨_, last, rfl, ?_, .cons (hanswer.elim (· ▸ heeds.granted) id) hmessages htold⟩
    rw [List.map_cons, hsteps, ListMachine.step_episode]

/-- The life of every list that is created can be told to its end. -/
theorem told_life (shows : Journal.Shows log) (discreet : lock.Discreet log heeded free)
    (keeps : lock.Keeps free answers manners) (heeds : Heeds heeded answers)
    (horderly : manners .orderly) (hmanners : manners .unwinding ∨ strategy.Calm) {start : ω}
    {outcome : Option (List (Entry α))} {depth : Nat} {steps : List (Step α)}
    (hlife : life log lock strategy size depth steps start = .ok outcome) :
    ∃ entries, outcome = some entries ∧ entries.map (·.step) = steps ++ [.destroy] ∧
      Told strategy size heeded answers [] (some []) entries := by
  rcases hcreate : create lock.recorded strategy.hooks size ⟨[], start⟩ with
    ⟨cause | list, calls, begun⟩
  · rw [life, hcreate] at hlife
    cases hlife
  · obtain ⟨hlist, rfl⟩ := represents_create keeps hcreate
    obtain ⟨entries, last, hchronicle, hsteps, htold⟩ := told_chronicle shows discreet keeps heeds
      horderly hmanners hlist depth (steps ++ [.destroy]) [] begun
    rw [life_eq_chronicle log depth steps hcreate, hchronicle] at hlife
    cases hlife
    exact ⟨entries, rfl, hsteps, htold⟩

end Told

end GuardedList
