import GuardedList.Proofs.Trace

/-!
# The life of a list

A list is in use from its creation until its destruction begins, and never again (`Lifecycle`). Its
lock and its hooks are given up at different moments, and a disposal that panics in between leaves
hooks without a lock; a list in that state is as little in use as one that has neither.

While a list is in use the only errors that its operations make up are that an index is out of range
and that the lock was refused (`Operation.copyFails_of_fails`). A destruction disposes of the
elements from the first to the last, up to a disposal that panics (`TornDown`).
-/

namespace GuardedList

variable {ω σ π α β γ : Type}

/-- The copy hook, as the operation calls it, returns an error. -/
inductive Operation.CopyFails (lock : Lock ω σ) (hooks : Hooks ω α)
    (server : Server ω α (Cell σ (Chain α))) (cell : Cell σ (Chain α)) (memory : ω)
    (cause : ListError) : Operation α → Prop
  | adding {value : α} {target : Cell σ (Chain α)} {left : ω}
      (hcopy : (hooks.copy value memory).run server cell = some ⟨.error cause, target, left⟩) :
      CopyFails lock hooks server cell memory cause (.add value)
  | getting {index : Nat} {element : α} {state : σ} {middle left : ω} {target : Cell σ (Chain α)}
      (hacquire : lock.acquire cell.lock memory = (.granted state, middle))
      (helement : cell.value.toList[index]? = some element)
      (hcopy : (hooks.copy element middle).run server ⟨state, cell.value⟩ =
        some ⟨.error cause, target, left⟩) :
      CopyFails lock hooks server cell memory cause (.get index)
  | updating {index : Nat} {value : α} {state : σ} {middle left : ω} {target : Cell σ (Chain α)}
      (hacquire : lock.acquire cell.lock memory = (.granted state, middle))
      (hcopy : (hooks.copy value middle).run server ⟨state, cell.value⟩ =
        some ⟨.error cause, target, left⟩) :
      CopyFails lock hooks server cell memory cause (.update index value)

namespace Routine

variable [Journal ω] (lock : Lock ω σ) (hooks : Hooks ω α) (server : Server ω α (Cell σ π))

/-- The routine runs to its end and returns an error. -/
def Fails (routine : Routine π α β) (cell : Cell σ π) (memory : ω) (cause : ListError) : Prop :=
  ∃ target left, routine.run lock hooks server cell memory = some ⟨.error cause, target, left⟩

variable {lock hooks server} {cell : Cell σ π} {memory : ω} {cause : ListError}

@[simp] theorem fails_finish {ending : Ending β} :
    (finish ending).Fails lock hooks server cell memory cause ↔ ending = .error cause := by
  simp [Fails, run]

@[simp] theorem fails_load {next : π → Routine π α β} :
    (load next).Fails lock hooks server cell memory cause ↔
      (next cell.value).Fails lock hooks server cell memory cause := Iff.rfl

@[simp] theorem fails_store {value : π} {next : Routine π α β} :
    (store value next).Fails lock hooks server cell memory cause ↔
      next.Fails lock hooks server { cell with value } memory cause := Iff.rfl

@[simp] theorem fails_log {message : Message} {next : Routine π α β} :
    (log message next).Fails lock hooks server cell memory cause ↔
      next.Fails lock hooks server cell (Journal.record message memory) cause := Iff.rfl

@[simp] theorem fails_copy {source : α} {next : Ending α → Routine π α β} :
    (copy source next).Fails lock hooks server cell memory cause ↔
      ∃ outcome, (hooks.copy source memory).run server cell = some outcome ∧
        (next outcome.result).Fails lock hooks server outcome.target outcome.memory cause := by
  simp only [Fails, run]
  cases (hooks.copy source memory).run server cell <;> simp

@[simp] theorem fails_dispose {value : α} {next : Residue α → Routine π α β} :
    (dispose value next).Fails lock hooks server cell memory cause ↔
      ∃ outcome, (hooks.dispose value memory).run server cell = some outcome ∧
        (next outcome.result).Fails lock hooks server outcome.target outcome.memory cause := by
  simp only [Fails, run]
  cases (hooks.dispose value memory).run server cell <;> simp

@[simp] theorem fails_acquire {next : Except LockError Unit → Routine π α β} :
    (acquire next).Fails lock hooks server cell memory cause ↔
      (∃ state middle, lock.acquire cell.lock memory = (.granted state, middle) ∧
        (next (.ok ())).Fails lock hooks server ⟨state, cell.value⟩ middle cause) ∨
      ∃ refusal state middle, lock.acquire cell.lock memory = (.refused refusal state, middle) ∧
        (next (.error refusal)).Fails lock hooks server ⟨state, cell.value⟩ middle cause := by
  constructor
  · intro hfails
    rcases hattempt : lock.acquire cell.lock memory with ⟨state | ⟨refusal, state⟩ | _, middle⟩
    · simp only [Fails, run, hattempt] at hfails
      exact .inl ⟨state, middle, rfl, hfails⟩
    · simp only [Fails, run, hattempt] at hfails
      exact .inr ⟨refusal, state, middle, rfl, hfails⟩
    · simp [Fails, run, hattempt] at hfails
  · rintro (⟨state, middle, hattempt, hnext⟩ | ⟨refusal, state, middle, hattempt, hnext⟩)
    · simp only [Fails, run, hattempt]
      exact hnext
    · simp only [Fails, run, hattempt]
      exact hnext

@[simp] theorem fails_release {manner : Manner} {next : Routine π α β} :
    (release manner next).Fails lock hooks server cell memory cause ↔
      next.Fails lock hooks server { cell with lock := (lock.release manner cell.lock memory).1 }
        (lock.release manner cell.lock memory).2 cause := Iff.rfl

/-- Giving the lock up at the end does not change what is returned. -/
@[simp] theorem fails_releasing {body : Routine π α β} :
    body.releasing.Fails lock hooks server cell memory cause ↔
      body.Fails lock hooks server cell memory cause := by
  simp only [Fails, run_releasing]
  rcases body.run lock hooks server cell memory with _ | ⟨result, target, left⟩ <;> simp

/-- An error comes from the first part of the code or from what follows. -/
theorem fails_bind {first : Routine π α β} {rest : β → Routine π α γ} :
    (first.bind rest).Fails lock hooks server cell memory cause ↔
      first.Fails lock hooks server cell memory cause ∨
        ∃ value target left, first.run lock hooks server cell memory =
            some ⟨.value value, target, left⟩ ∧
          (rest value).Fails lock hooks server target left cause := by
  simp only [Fails, run_bind]
  rcases first.run lock hooks server cell memory with _ | ⟨_ | _ | _, target, left⟩ <;>
  simp [and_assoc]

/-- What is made of a result does not matter to an error. -/
theorem fails_of_fails_bind {first : Routine π α β} {rest : β → Routine π α γ}
    (hfails : (first.bind rest).Fails lock hooks server cell memory cause)
    (hrest : ∀ value target left, ¬ (rest value).Fails lock hooks server target left cause) :
    first.Fails lock hooks server cell memory cause := by
  refine (fails_bind.1 hfails).resolve_right ?_
  rintro ⟨value, target, left, -, hlater⟩
  exact hrest value target left hlater

/-- A section that was not refused the lock fails as its body does. -/
theorem fails_of_fails_holding {body : Routine π α β}
    (hfails : body.holding.Fails lock hooks server cell memory cause)
    (hlock : ∀ refusal, cause ≠ .lock refusal) :
    ∃ state middle, lock.acquire cell.lock memory = (.granted state, middle) ∧
      body.Fails lock hooks server ⟨state, cell.value⟩ middle cause := by
  rcases fails_acquire.1 hfails with ⟨state, middle, hacquire, hbody⟩ | ⟨refusal, _, _, -, hrefused⟩
  · exact ⟨state, middle, hacquire, fails_releasing.1 hbody⟩
  · cases fails_finish.1 hrefused
    exact absurd rfl (hlock refusal)

/-- A disposal returns no error, so an error comes from what follows it. -/
theorem fails_of_fails_disposal {value : α} {rest : Residue α → Routine π α β}
    (hfails : ((disposalOf value).bind fun residue =>
      (settle residue).bind fun _ => rest residue).Fails lock hooks server cell memory cause) :
    ∃ residue target left, (rest residue).Fails lock hooks server target left cause := by
  obtain ⟨⟨⟨left, panic⟩, target, after⟩, -, hlater⟩ := fails_dispose.1 hfails
  cases panic with
  | none => exact ⟨_, target, after, hlater⟩
  | some text => cases fails_finish.1 hlater

end Routine

section Errors

variable [Journal ω] {lock : Lock ω σ} {hooks : Hooks ω α}
  {server : Server ω α (Cell σ (Chain α))} {size : Nat} {cell : Cell σ (Chain α)} {memory : ω}

/-- What an operation returns as an error is that its index is out of range, that the lock was
refused, or the error of its copy hook. -/
theorem Operation.copyFails_of_fails {operation : Operation α} {cause : ListError}
    (hfails : (operation.routine size).Fails lock hooks server cell memory cause)
    (hrange : cause ≠ .outOfRange) (hlock : ∀ refusal, cause ≠ .lock refusal) :
    operation.CopyFails lock hooks server cell memory cause := by
  have hreply : ∀ (reply : Reply α) (target : Cell σ (Chain α)) (left : ω),
      ¬ (Routine.finish (.value reply)).Fails lock hooks server target left cause := by
    intro reply target left
    simp
  cases operation with
  | add value =>
    have hadd := Routine.fails_of_fails_bind hfails fun _ => hreply _
    obtain ⟨⟨ending, target, left⟩, hcopy, hrest⟩ := Routine.fails_copy.1 hadd
    cases ending with
    | value stored =>
      rcases Routine.fails_acquire.1 hrest with ⟨_, _, -, hgranted⟩ | ⟨refusal, _, _, -, hrefused⟩
      · simp at hgranted
      · obtain ⟨_, _, _, hfail⟩ := Routine.fails_of_fails_disposal (Routine.fails_log.1 hrefused)
        cases Routine.fails_finish.1 hfail
        exact absurd rfl (hlock refusal)
    | error failure =>
      cases Routine.fails_finish.1 hrest
      exact .adding hcopy
    | panicked text => cases Routine.fails_finish.1 hrest
  | remove index =>
    have hremove := Routine.fails_of_fails_bind hfails fun _ => hreply _
    rcases Routine.fails_bind.1 hremove with hdetach | ⟨detached, _, _, -, hrest⟩
    · obtain ⟨_, _, -, hbody⟩ := Routine.fails_of_fails_holding hdetach hlock
      cases hunlink : cell.value.unlink? index <;> simp [hunlink] at hbody
    · cases detached with
      | none =>
        cases Routine.fails_finish.1 hrest
        exact absurd rfl hrange
      | some node =>
        obtain ⟨_, _, _, hlater⟩ := Routine.fails_of_fails_disposal hrest
        simp at hlater
  | get index =>
    have hget := Routine.fails_of_fails_bind hfails fun _ => hreply _
    obtain ⟨_, _, hacquire, hbody⟩ := Routine.fails_of_fails_holding hget hlock
    have hvalue := cell.value.value_node? index
    simp only [Routine.bind_eq, Routine.guarded, Routine.bind, Routine.fails_load] at hbody
    cases hnode : cell.value.node? index with
    | none =>
      simp only [hnode, Routine.fail, Routine.fails_finish, Ending.error.injEq] at hbody
      exact absurd hbody.symm hrange
    | some node =>
      simp only [hnode, Routine.copyOf, Routine.fails_copy, Routine.fails_finish] at hbody
      obtain ⟨⟨ending, target, left⟩, hcopy, rfl⟩ := hbody
      rw [hnode] at hvalue
      exact .getting hacquire hvalue.symm hcopy
  | update index value =>
    have hupdate := Routine.fails_of_fails_bind hfails fun _ => hreply _
    obtain ⟨_, _, hacquire, hbody⟩ := Routine.fails_of_fails_holding hupdate hlock
    simp only [Routine.bind_eq, Routine.guarded, Routine.bind, Routine.fails_load] at hbody
    cases hfocus : cell.value.focus? index with
    | none =>
      simp only [hfocus, Routine.fail, Routine.fails_finish, Ending.error.injEq] at hbody
      exact absurd hbody.symm hrange
    | some position =>
      simp only [hfocus, Routine.copyOf, Routine.bind, Routine.fails_copy] at hbody
      obtain ⟨⟨ending, target, left⟩, hcopy, hrest⟩ := hbody
      cases ending with
      | value replacement =>
        obtain ⟨⟨⟨left, panic⟩, target, after⟩, -, hlater⟩ := Routine.fails_dispose.1 hrest
        cases panic <;> simp [Residue.ending] at hlater
      | error failure =>
        cases Routine.fails_finish.1 hrest
        exact .updating hacquire hcopy
      | panicked text => cases Routine.fails_finish.1 hrest
  | length =>
    have hlength := Routine.fails_of_fails_bind hfails fun _ => hreply _
    obtain ⟨_, _, -, hbody⟩ := Routine.fails_of_fails_holding hlength hlock
    simp at hbody
  | isEmpty =>
    have hempty := Routine.fails_of_fails_bind hfails fun _ => hreply _
    obtain ⟨_, _, -, hbody⟩ := Routine.fails_of_fails_holding hempty hlock
    simp at hbody
  | releaseValue value =>
    have hrelease := Routine.fails_of_fails_bind hfails fun _ => hreply _
    obtain ⟨_, _, _, hlater⟩ := Routine.fails_of_fails_disposal hrelease
    simp at hlater
  | isInitialized => exact absurd hfails (hreply _ cell memory)
  | elementSize => exact absurd hfails (hreply _ cell memory)

end Errors

section Teardown

/-- Each of the values is disposed of once, the first one first, and no disposal panics. -/
inductive Hooks.FreesAll (hooks : Hooks ω α) : List α → ω → ω → Prop
  | nothing (memory : ω) : FreesAll hooks [] memory memory
  | next {value kept : α} {values : List α} {memory middle left : ω}
      (hfirst : hooks.dispose value memory = .finish middle ⟨kept, none⟩)
      (hrest : FreesAll hooks values middle left) : FreesAll hooks (value :: values) memory left

/-- The values are disposed of in order up to one whose disposal panics; those behind it are not. -/
def Hooks.BreaksOff (hooks : Hooks ω α) (values : List α) (memory : ω) (text : String) (left : ω) :
    Prop :=
  ∃ front value behind middle kept, values = front ++ value :: behind ∧
    hooks.FreesAll front memory middle ∧
    hooks.dispose value middle = .finish left ⟨kept, some text⟩

/-- The values are disposed of in order up to one whose disposal would call a list. -/
def Hooks.CallsOut (hooks : Hooks ω α) (values : List α) (memory : ω) : Prop :=
  ∃ front value behind middle, values = front ++ value :: behind ∧
    hooks.FreesAll front memory middle ∧ (hooks.dispose value middle).silent? = none

variable {hooks : Hooks ω α} {value kept : α} {values : List α} {memory middle left : ω}

theorem Hooks.BreaksOff.next {text : String}
    (hfirst : hooks.dispose value memory = .finish middle ⟨kept, none⟩)
    (hrest : hooks.BreaksOff values middle text left) :
    hooks.BreaksOff (value :: values) memory text left := by
  obtain ⟨front, last, behind, reached, residue, rfl, hfront, hlast⟩ := hrest
  exact ⟨value :: front, last, behind, reached, residue, rfl, .next hfirst hfront, hlast⟩

theorem Hooks.CallsOut.next (hfirst : hooks.dispose value memory = .finish middle ⟨kept, none⟩)
    (hrest : hooks.CallsOut values middle) : hooks.CallsOut (value :: values) memory := by
  obtain ⟨front, last, behind, reached, rfl, hfront, hlast⟩ := hrest
  exact ⟨value :: front, last, behind, reached, rfl, .next hfirst hfront, hlast⟩

/-- The disposals of a destruction run through all elements, or up to one whose disposal panics or
calls out. -/
theorem freeAll_cases (hooks : Hooks ω α) (chain : Chain α) (freed : Nat) (memory : ω) :
    (∃ left, hooks.FreesAll chain.toList memory left ∧
      freeAll (some hooks) chain freed memory =
        some (.value (freed + chain.toList.length), left)) ∨
    (∃ text left, hooks.BreaksOff chain.toList memory text left ∧
      freeAll (some hooks) chain freed memory = some (.panicked text, left)) ∨
    hooks.CallsOut chain.toList memory ∧ freeAll (some hooks) chain freed memory = none := by
  induction chain generalizing freed memory with
  | empty => exact .inl ⟨memory, .nothing memory, rfl⟩
  | link value next ih =>
    cases hfirst : hooks.dispose value memory with
    | call middle operation rest =>
      have hnone : (hooks.dispose value memory).silent? = none := by rw [hfirst]; rfl
      refine .inr (.inr ⟨⟨[], value, next.toList, memory, rfl, .nothing memory, hnone⟩, ?_⟩)
      simp only [freeAll, hnone]
    | finish middle residue =>
      obtain ⟨kept, _ | text⟩ := residue
      · have hfreed : freeAll (some hooks) (.link value next) freed memory =
            freeAll (some hooks) next (freed + 1) middle := by
          simp only [freeAll, hfirst, Dialogue.silent?]
        have hcount : freed + (Chain.link value next).toList.length =
            freed + 1 + next.toList.length := by
          simp only [Chain.toList_link, List.length_cons]
          omega
        rw [hfreed, hcount]
        rcases ih (freed + 1) middle with
          ⟨left, hall, hrest⟩ | ⟨text, left, hbreaks, hrest⟩ | ⟨hcalls, hrest⟩
        · exact .inl ⟨left, .next hfirst hall, hrest⟩
        · exact .inr (.inl ⟨text, left, hbreaks.next hfirst, hrest⟩)
        · exact .inr (.inr ⟨hcalls.next hfirst, hrest⟩)
      · refine .inr (.inl ⟨text, middle, ⟨[], value, next.toList, memory, kept, rfl,
          .nothing memory, hfirst⟩, ?_⟩)
        simp only [freeAll, hfirst, Dialogue.silent?]

variable [Journal ω]

/-- What the destruction of a list with these hooks and this lock and elements comes to. -/
inductive TornDown (hooks : Hooks ω α) (list : GuardedList ω σ α) (cell : Cell σ (Chain α))
    (memory : ω) : Option (Outcome (Ending Unit) (GuardedList ω σ α) ω) → Prop
  /-- Every element is disposed of, which is logged, and nothing is left of the list. -/
  | freed {left : ω}
      (hall : hooks.FreesAll cell.value.toList (list.backend.destroy cell.lock memory) left) :
      TornDown hooks list cell memory
        (some ⟨.value (), { list with cell := none, hooks := none },
          Journal.record (.freed cell.value.toList.length) left⟩)
  /-- A disposal panics. The elements behind it go without one, nothing is logged, and the hooks
  stay. -/
  | broken {text : String} {left : ω}
      (hbreaks : hooks.BreaksOff cell.value.toList (list.backend.destroy cell.lock memory)
        text left) :
      TornDown hooks list cell memory
        (some ⟨.panicked text, { list with cell := none }, left⟩)
  /-- A disposal would call a list, but nobody can reach the list while it is destroyed. -/
  | outside (hcalls : hooks.CallsOut cell.value.toList (list.backend.destroy cell.lock memory)) :
      TornDown hooks list cell memory none

/-- A destruction takes the lock down and then disposes of the elements. -/
theorem tornDown_destroy (hooks : Hooks ω α) {list : GuardedList ω σ α} {cell : Cell σ (Chain α)}
    (hcell : list.cell = some cell) (hhooks : list.hooks = some hooks) (memory : ω) :
    TornDown hooks list cell memory (list.destroy memory) := by
  obtain ⟨size, lock, _, _⟩ := list
  cases hcell
  cases hhooks
  simp only [destroy, Cell.destroy]
  rcases freeAll_cases hooks cell.value 0 (lock.destroy cell.lock memory) with
    ⟨left, hall, hfreed⟩ | ⟨text, left, hbreaks, hfreed⟩ | ⟨hcalls, hfreed⟩
  · simp only [hfreed, Nat.zero_add]
    exact .freed hall
  · simp only [hfreed]
    exact .broken hbreaks
  · simp only [hfreed]
    exact .outside hcalls

/-- Without a lock a destruction only gives up the hooks. -/
theorem destroy_of_gone {list : GuardedList ω σ α} (hcell : list.cell = none) (memory : ω) :
    list.destroy memory = some ⟨.value (), { list with hooks := none }, memory⟩ := by
  obtain ⟨size, lock, _, hooks?⟩ := list
  cases hcell
  rfl

end Teardown

/-- What a step comes to once a list is destroyed. -/
def Step.afterDestroy (size : Nat) : Step α → Ending (Reply α)
  | .call .isInitialized => .value (.flag false)
  | .call .elementSize => .value (.count size)
  | .call _ => .error .invalidArgument
  | .destroy => .value .done

/-- What is true of a list wherever a session of it has got to, if `fresh` is the list as it was
created with these hooks and `steps` are the steps of the session so far. -/
structure Lifecycle [Journal ω] (hooks : Hooks ω α) (depth : Nat) (fresh : GuardedList ω σ α)
    (begun : ω) (steps : List (Step α)) (list : GuardedList ω σ α) (memory : ω) : Prop where
  /-- A list that has its lock has its hooks. -/
  ready : list.cell.isSome → list.hooks = some hooks
  /-- It comes to have hooks and no lock only by a destruction in which a disposal panicked. -/
  orphaned : list.cell = none → list.hooks.isSome → ∃ front back results live text middle,
    steps = front ++ .destroy :: back ∧
    play (serve depth) front fresh begun = some (results, live, middle) ∧ live.cell.isSome ∧
    live.destroy middle = some ⟨.panicked text, list, memory⟩
  /-- Until it is destroyed it can be used, -/
  inUse : .destroy ∉ steps → list.isInitialized = true
  /-- and calls an argument invalid only if its copy hook did. -/
  refusals : .destroy ∉ steps → ∀ {cell}, list.cell = some cell → ∀ depth operation outcome,
    serve depth operation list memory = some outcome → outcome.result = .error .invalidArgument →
      operation.CopyFails list.backend hooks
        (Operation.serve list.backend hooks list.elementSize depth) cell memory .invalidArgument
  /-- So does each operation that hooks call. -/
  nested : ∀ depth operation cell memory outcome,
    Operation.serve list.backend hooks list.elementSize (depth + 1) operation cell memory =
        some outcome →
      outcome.result = .error .invalidArgument →
      operation.CopyFails list.backend hooks
        (Operation.serve list.backend hooks list.elementSize depth) cell memory .invalidArgument
  /-- A destruction disposes of the elements in order, whatever state the lock is in. -/
  teardown : ∀ {cell}, list.cell = some cell → TornDown hooks list cell memory (list.destroy memory)
  /-- Who lets go of a list destroys it. -/
  dropped : list.drop memory =
    (list.destroy memory).map fun outcome => (outcome.result, outcome.memory)
  /-- After a destruction, however it ended, the list can never be used again. No later step leaves
  a trace in the memory, where the calls of hooks and of the lock and the messages leave theirs. -/
  afterwards : .destroy ∈ steps → list.isInitialized = false ∧ ∀ depth later, ∃ last,
    play (serve depth) later list memory =
      some (later.map (Step.afterDestroy list.elementSize), last, memory) ∧
    last.isInitialized = false ∧ last.drop memory = some (.value (), memory)

section Run

variable [Journal ω] {hooks : Hooks ω α} {list last : GuardedList ω σ α} {memory left : ω}
  {depth : Nat} {steps : List (Step α)} {results : List (Ending (Reply α))}

/-- The list has its lock, and these are its hooks. -/
def Live (hooks : Hooks ω α) (list : GuardedList ω σ α) : Prop :=
  list.cell.isSome ∧ list.hooks = some hooks

theorem Live.serve (hlive : list.Live hooks) {operation : Operation α}
    {outcome : Outcome (Ending (Reply α)) (GuardedList ω σ α) ω}
    (hserve : GuardedList.serve depth operation list memory = some outcome) :
    outcome.target.Live hooks := by
  obtain ⟨size, lock, _ | cell, _⟩ := list
  · exact absurd hlive.1 Bool.false_ne_true
  · cases hlive.2
    simp only [GuardedList.serve, Option.map_eq_some_iff] at hserve
    obtain ⟨done, -, rfl⟩ := hserve
    exact ⟨rfl, rfl⟩

/-- A session of a list in use leaves it in use, or can be split at its first destruction. -/
theorem Live.play (hlive : list.Live hooks)
    (hplay : GuardedList.play (GuardedList.serve depth) steps list memory =
      some (results, last, left)) :
    (.destroy ∉ steps ∧ last.Live hooks) ∨
      ∃ front back before after live middle outcome, steps = front ++ .destroy :: back ∧
        GuardedList.play (GuardedList.serve depth) front list memory =
          some (before, live, middle) ∧
        live.Live hooks ∧ live.destroy middle = some outcome ∧
        GuardedList.play (GuardedList.serve depth) back outcome.target outcome.memory =
          some (after, last, left) := by
  induction steps generalizing list memory results with
  | nil =>
    cases hplay
    exact .inl ⟨by simp, hlive⟩
  | cons step steps ih =>
    cases step with
    | call operation =>
      simp only [GuardedList.play, Option.bind_eq_some_iff, Option.map_eq_some_iff] at hplay
      obtain ⟨outcome, hserve, ⟨later, _⟩, hrest, hresults⟩ := hplay
      cases hresults
      rcases ih (hlive.serve hserve) hrest with
        ⟨hnone, hlast⟩ | ⟨front, back, before, after, live, middle, torn, rfl, hfront, hlater⟩
      · exact .inl ⟨by simpa using hnone, hlast⟩
      · refine .inr ⟨.call operation :: front, back, outcome.result :: before, after, live, middle,
          torn, rfl, ?_, hlater⟩
        simp only [GuardedList.play, hserve, Option.bind_some, hfront, Option.map_some]
    | destroy =>
      simp only [GuardedList.play, Option.bind_eq_some_iff, Option.map_eq_some_iff] at hplay
      obtain ⟨outcome, hdestroy, ⟨later, _⟩, hrest, hresults⟩ := hplay
      cases hresults
      exact .inr ⟨[], steps, [], later, list, memory, outcome, rfl, rfl, hlive, hdestroy, hrest⟩

/-- Nothing comes of the steps taken on a list without a lock, but a destruction gives up hooks that
were left. -/
theorem play_of_gone (hcell : list.cell = none) (depth : Nat) (memory : ω)
    (steps : List (Step α)) :
    ∃ last, play (serve depth) steps list memory =
        some (steps.map (Step.afterDestroy list.elementSize), last, memory) ∧
      (last = list ∨ last = { list with hooks := none }) := by
  induction steps generalizing list with
  | nil => exact ⟨list, rfl, .inl rfl⟩
  | cons step steps ih =>
    cases step with
    | call operation =>
      obtain ⟨last, hplay, hlast⟩ := ih hcell
      refine ⟨last, ?_, hlast⟩
      have hserve : serve depth operation list memory =
          some ⟨operation.afterDestroy list.elementSize, list, memory⟩ := by
        simp only [serve, hcell]
      simp only [play, hserve, Option.bind_some, hplay, Option.map_some, List.map_cons]
      cases operation <;> rfl
    | destroy =>
      have hgone : ({ list with hooks := none } : GuardedList ω σ α).cell = none := hcell
      obtain ⟨last, hplay, hlast⟩ := ih hgone
      refine ⟨last, ?_, .inr (hlast.elim id id)⟩
      simp only [play, list.destroy_of_gone hcell, Option.bind_some, hplay, Option.map_some,
        List.map_cons]
      rfl

omit [Journal ω] in
/-- A new list has a lock and the hooks that it was given. -/
theorem live_of_create {lock : Lock ω σ} {size : Nat} {start begun : ω}
    (hcreate : create lock hooks size start = (.ok list, begun)) : list.Live hooks := by
  unfold create at hcreate
  split at hcreate
  · cases hcreate
  · split at hcreate
    · cases hcreate
    · cases hcreate
      exact ⟨rfl, rfl⟩

/-- An operation of a list in use fails as its routine does. -/
theorem copyFails_of_serve (hhooks : list.hooks = some hooks) {cell : Cell σ (Chain α)}
    (hcell : list.cell = some cell) {operation : Operation α}
    {outcome : Outcome (Ending (Reply α)) (GuardedList ω σ α) ω}
    (hserve : serve depth operation list memory = some outcome)
    (hinvalid : outcome.result = .error .invalidArgument) :
    operation.CopyFails list.backend hooks
      (Operation.serve list.backend hooks list.elementSize depth) cell memory .invalidArgument := by
  simp only [serve, hcell, hhooks, Option.map_eq_some_iff] at hserve
  obtain ⟨⟨result, target, left⟩, hrun, rfl⟩ := hserve
  cases hinvalid
  exact Operation.copyFails_of_fails ⟨target, left, hrun⟩ (by simp) (by simp)

/-- The same of the operations that hooks call. -/
theorem copyFails_of_nested {lock : Lock ω σ} {size : Nat} {operation : Operation α}
    {cell : Cell σ (Chain α)} {outcome : Outcome (Ending (Reply α)) (Cell σ (Chain α)) ω}
    (hserve : Operation.serve lock hooks size (depth + 1) operation cell memory = some outcome)
    (hinvalid : outcome.result = .error .invalidArgument) :
    operation.CopyFails lock hooks (Operation.serve lock hooks size depth) cell memory
      .invalidArgument := by
  obtain ⟨result, target, left⟩ := outcome
  cases hinvalid
  exact Operation.copyFails_of_fails ⟨target, left, hserve⟩ (by simp) (by simp)

theorem Live.lifecycle {fresh : GuardedList ω σ α} {begun : ω} (hlive : list.Live hooks)
    (hnone : .destroy ∉ steps) : Lifecycle hooks depth fresh begun steps list memory where
  ready _ := hlive.2
  orphaned hgone := by
    have hcell := hlive.1
    rw [hgone] at hcell
    cases hcell
  inUse _ := by simp only [isInitialized, hlive.1, hlive.2, Option.isSome_some, Bool.and_self]
  refusals _ _ hcell _ _ _ := copyFails_of_serve hlive.2 hcell
  nested _ _ _ _ _ := copyFails_of_nested
  teardown hcell := tornDown_destroy hooks hcell hlive.2 memory
  dropped := rfl
  afterwards hdestroyed := absurd hdestroyed hnone

omit [Journal ω] in
theorem not_isInitialized_of_gone (hcell : list.cell = none) : list.isInitialized = false := by
  simp only [isInitialized, hcell, Option.isSome_none, Bool.and_false]

theorem lifecycle_of_gone {fresh : GuardedList ω σ α} {begun : ω} (hcell : list.cell = none)
    (hdestroyed : .destroy ∈ steps)
    (horphaned : list.hooks.isSome → ∃ front back results live text middle,
      steps = front ++ .destroy :: back ∧
      play (serve depth) front fresh begun = some (results, live, middle) ∧ live.cell.isSome ∧
      live.destroy middle = some ⟨.panicked text, list, memory⟩) :
    Lifecycle hooks depth fresh begun steps list memory where
  ready hpresent := by
    rw [hcell] at hpresent
    cases hpresent
  orphaned _ := horphaned
  inUse hnone := absurd hdestroyed hnone
  refusals hnone := absurd hdestroyed hnone
  nested _ _ _ _ _ := copyFails_of_nested
  teardown hpresent := by
    rw [hcell] at hpresent
    cases hpresent
  dropped := rfl
  afterwards _ := by
    refine ⟨not_isInitialized_of_gone hcell, fun depth later => ?_⟩
    obtain ⟨last, hplay, hlast⟩ := play_of_gone hcell depth memory later
    have hgone : last.cell = none := by
      rcases hlast with rfl | rfl
      · exact hcell
      · exact hcell
    refine ⟨last, hplay, not_isInitialized_of_gone hgone, ?_⟩
    rw [drop, last.destroy_of_gone hgone]
    rfl

/-- The life of a list, whatever its hooks do and wherever they panic: it is in use from its
creation until it is destroyed, and never again. -/
theorem lifecycle_of_create {lock : Lock ω σ} {size : Nat} {start begun : ω}
    {fresh : GuardedList ω σ α} (hcreate : create lock hooks size start = (.ok fresh, begun))
    (hplay : play (serve depth) steps fresh begun = some (results, list, memory)) :
    Lifecycle hooks depth fresh begun steps list memory := by
  rcases (live_of_create hcreate).play hplay with
    ⟨hnone, hlive⟩ |
    ⟨front, back, before, after, live, middle, ⟨result, torn, ruins⟩, rfl, hfront, hlive, hdestroy,
      hback⟩
  · exact hlive.lifecycle hnone
  · obtain ⟨cell, hcell⟩ := Option.isSome_iff_exists.1 hlive.1
    have htorn := tornDown_destroy hooks hcell hlive.2 middle
    rw [hdestroy] at htorn
    have hgone : torn.cell = none := by cases htorn <;> rfl
    obtain ⟨last, hlater, hlast⟩ := play_of_gone hgone depth ruins back
    cases hlater.symm.trans hback
    have hdestroyed : Step.destroy ∈ front ++ Step.destroy :: back := by simp
    rcases hlast with rfl | rfl
    · refine lifecycle_of_gone hgone hdestroyed fun hhooks => ?_
      cases htorn with
      | freed hall => cases hhooks
      | broken hbreaks =>
        exact ⟨front, back, before, live, _, middle, rfl, hfront, hlive.1, hdestroy⟩
    · refine lifecycle_of_gone hgone hdestroyed fun hhooks => ?_
      cases hhooks

/-- Two additions, a destruction in which the second disposal panics, and a list that nothing comes
of any more. -/
theorem lifecycle_of_create_brittle :
    let fresh : GuardedList (Recorded Nat (List Message)) Poisoning Nat :=
      ⟨8, Lock.poisoning.recorded, some ⟨{}, .empty⟩, some Strategy.brittle.hooks⟩
    let steps := [.call (.add 2), .call (.add 1), .call (.add 4), .destroy, .call .length]
    let calls := [.copied 2 (.value 2), .copied 1 (.value 1), .copied 4 (.value 4),
      .disposed 2 ⟨0, none⟩, .disposed 1 ⟨0, some "odd"⟩]
    create Lock.poisoning.recorded Strategy.brittle.hooks 8 ⟨[], []⟩ = (.ok fresh, ⟨[], []⟩) ∧
      ∃ results list memory, play (serve 0) steps fresh ⟨[], []⟩ = some (results, list, memory) ∧
        results = [.value .done, .value .done, .value .done, .panicked "odd",
          .error .invalidArgument] ∧
        memory = ⟨calls, [.appended, .appended, .appended]⟩ ∧ list.hooks.isSome ∧
        Lifecycle Strategy.brittle.hooks 0 fresh ⟨[], []⟩ steps list memory := by
  intro fresh steps calls
  have hcreate : create Lock.poisoning.recorded Strategy.brittle.hooks 8 ⟨[], []⟩ =
      (.ok fresh, (⟨[], []⟩ : Recorded Nat (List Message))) := rfl
  obtain ⟨⟨results, list, memory⟩, hplay⟩ :
      ∃ outcome, play (serve 0) steps fresh ⟨[], []⟩ = some outcome :=
    Option.isSome_iff_exists.1 rfl
  have hlife := lifecycle_of_create hcreate hplay
  cases hplay
  exact ⟨hcreate, _, _, _, rfl, rfl, rfl, rfl, hlife⟩

end Run

end GuardedList
