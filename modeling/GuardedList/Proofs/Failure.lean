import GuardedList.Proofs.Phases
import GuardedList.Proofs.Session

/-!
# What an error leaves behind

An operation that returns an error changes nothing: the elements, the readiness of the list and the
poison of its lock are what they were, and the lock is free (`Operation.Undone`). A copy that was
already made for storage, as an addition makes it before it asks for the lock, is disposed of again;
nothing else is.

Where an operation gives up early can be told from its turn (`Operation.Effect.of_error`); what it
did to the lock until then is its use of the lock.
-/

namespace GuardedList

variable {ω σ π α : Type}

/-- Only a guard that goes while a panic unwinds past it has a say in whether the lock is
poisoned. -/
structure Lock.PoisonedByPanics (lock : Lock ω σ) (poisoned : σ → Prop) : Prop where
  granted {state next : σ} {memory memory' : ω} :
    lock.acquire state memory = (.granted next, memory') → (poisoned next ↔ poisoned state)
  refused {state next : σ} {cause : LockError} {memory memory' : ω} :
    lock.acquire state memory = (.refused cause next, memory') → (poisoned next ↔ poisoned state)
  released (state : σ) (memory : ω) :
    poisoned (lock.release .orderly state memory).1 ↔ poisoned state

/-- A use without a panic leaves a lock as poisoned as it was. -/
theorem Lock.PoisonedByPanics.use {lock : Lock ω σ} {poisoned : σ → Prop}
    (poisons : lock.PoisonedByPanics poisoned) {state next : σ} {events : List (Event π α)}
    (huse : lock.Use state events next) (hcalm : .released .unwinding ∉ events) :
    poisoned next ↔ poisoned state := by
  cases huse with
  | unasked => exact Iff.rfl
  | refused hacquire => exact poisons.refused hacquire
  | granted manner last hacquire =>
    cases manner with
    | orderly => exact (poisons.released _ last).trans (poisons.granted hacquire)
    | unwinding => simp at hcalm

theorem Lock.poisonedByPanics_poisoning [Journal ω] :
    (poisoning : Lock ω Poisoning).PoisonedByPanics (·.poisoned = true) where
  granted {state _ _ _} h := by
    obtain ⟨held, poisoned⟩ := state
    cases held <;> cases poisoned <;> simp at h
    obtain ⟨rfl, -⟩ := h
    simp
  refused {state _ _ _ _} h := by
    obtain ⟨held, poisoned⟩ := state
    cases held <;> cases poisoned <;> simp at h
    obtain ⟨⟨-, rfl⟩, -⟩ := h
    rfl
  released state memory := by simp

namespace HookCall

/-- The value that was handed to the dispose hook. -/
def disposed? : HookCall α → Option α
  | copied _ _ => none
  | disposed value _ => some value

/-- The copy that the copy hook made. -/
def copy? : HookCall α → Option α
  | copied _ (.value copy) => some copy
  | _ => none

/-- What a hook call makes of the value that a caller lends for disposal. -/
def leave (value : α) : HookCall α → α
  | copied _ _ => value
  | disposed _ residue => residue.value

end HookCall

/-- The copies that the hook calls of an operation made for storage. -/
def Operation.storedCopies (operation : Operation α) (calls : List (HookCall α)) : List α :=
  match operation.stored? with
  | none => []
  | some _ => calls.filterMap HookCall.copy?

/-- What the hook calls of an operation that returned an error come to, when `events` happened to
the lock. -/
structure Operation.Withdraws (operation : Operation α) (cause : ListError)
    (events : List (Event π α)) (calls : List (HookCall α)) : Prop where
  /-- Disposed of are the copies made for storage, each once. -/
  disposals : calls.filterMap HookCall.disposed? = operation.storedCopies calls
  /-- There is one if the lock refused an addition, which then reports what the lock said. -/
  withdrawn {value : α} {refusal : LockError} : operation = .add value → .refused refusal ∈ events →
    cause = .lock refusal ∧
      ∃ copy residue, calls = [.copied value (.value copy), .disposed copy residue]
  /-- And there is none otherwise. -/
  otherwise : (∀ value refusal, operation = .add value → .refused refusal ∉ events) →
    calls.filterMap HookCall.disposed? = []
  /-- A value that the caller lent for disposal is as it was, and no hook was called with it. -/
  lent {value : α} : operation = .releaseValue value →
    calls = [] ∧ calls.foldl HookCall.leave value = value

/-- What there is after an operation that returned an error. -/
structure Operation.Undone (lock : Lock ω σ) (free poisoned : σ → Prop) (operation : Operation α)
    (cause : ListError) (events : List (Event (Chain α) α)) (calls : List (HookCall α))
    (before after : GuardedList (Recorded α ω) σ α) : Prop
    extends operation.Withdraws cause events calls where
  contents : after.contents? = before.contents?
  initialized : after.isInitialized = before.isInitialized
  /-- The lock went through the events, is free, and is poisoned if it was. -/
  lock {cell : Cell σ (Chain α)} : after.cell = some cell → free cell.lock ∧
    ∃ earlier, before.cell = some earlier ∧ lock.Use earlier.lock events cell.lock ∧
      (poisoned cell.lock ↔ poisoned earlier.lock)

section Turn

variable {strategy : Strategy α} {size : Nat} {past : List (HookCall α)} {elements : List α}
  {operation : Operation α} {cause : ListError}

theorem Residue.eq_error_of_followedBy {β : Type} {residue : Residue α} {ending : Ending β}
    (h : residue.followedBy ending = .error cause) : ending = .error cause := by
  unfold Residue.followedBy at h
  split at h
  · exact h
  · cases h

/-- An operation that is no addition has disposed of nothing, and stored no copy, when it returns
an error. -/
theorem Operation.Effect.of_error {turn : Turn α}
    (h : operation.Effect strategy past elements turn) (hadd : ∀ value, operation ≠ .add value)
    (herror : turn.result = .error cause) :
    turn.contents = elements ∧ turn.calls.filterMap HookCall.disposed? = [] ∧
      operation.storedCopies turn.calls = [] ∧
      ∀ value, operation = .releaseValue value → turn.calls = [] := by
  cases h with
  | idle =>
    refine ⟨rfl, rfl, ?_, fun _ _ => rfl⟩
    unfold storedCopies
    split <;> rfl
  | @stopped _ value stop hstored _ hstop =>
    refine ⟨rfl, rfl, ?_, ?_⟩
    · cases stop with
      | value copy => exact absurd rfl (hstop copy)
      | error cause => simp [storedCopies, hstored, HookCall.copy?]
      | panicked text => simp [storedCopies, hstored, HookCall.copy?]
    · rintro lent rfl
      cases hstored
  | added => cases herror
  | @withdrawn value => exact absurd rfl (hadd value)
  | removed => cases Residue.eq_error_of_followedBy herror
  | got => exact ⟨rfl, rfl, rfl, by simp⟩
  | replaced => cases herror
  | spoiled => cases herror
  | released => cases Residue.eq_error_of_followedBy herror

/-- An addition returns an error when its value is not copied, or when the lock refuses it; then
the copy is disposed of. -/
theorem Operation.turn_add_of_error {answer : Except LockError Unit} {value : α}
    (herror : ((add value).turn strategy size answer past elements).result = .error cause) :
    let turn := (add value).turn strategy size answer past elements
    turn.contents = elements ∧
      (strategy.copy past value = .error cause ∧ turn.calls = [.copied value (.error cause)] ∨
        ∃ copy residue refusal, strategy.copy past value = .value copy ∧ answer = .error refusal ∧
          cause = .lock refusal ∧
          turn.calls = [.copied value (.value copy), .disposed copy residue]) := by
  simp only [turn] at herror ⊢
  cases hcopy : strategy.copy past value with
  | value copy =>
    cases answer with
    | ok =>
      rw [hcopy] at herror
      cases herror
    | error refusal =>
      rw [hcopy] at herror
      cases Residue.eq_error_of_followedBy herror
      exact ⟨rfl, .inr ⟨copy, _, refusal, rfl, rfl, rfl, rfl⟩⟩
  | error other =>
    rw [hcopy] at herror
    cases herror
    exact ⟨rfl, .inl ⟨rfl, rfl⟩⟩
  | panicked text =>
    rw [hcopy] at herror
    cases herror

/-- An addition whose value is not copied never asks for the lock. -/
theorem Operation.lockEvents_add_of_not_copied {answer : Except LockError Unit} {value : α}
    {chain : Chain α} (hcopy : ∀ copy, strategy.copy past value ≠ .value copy) :
    (((add value).routine size).solo strategy answer chain past).lockEvents = [] := by
  simp only [routine, Routine.add]
  cases hending : strategy.copy past value with
  | value copy => exact absurd hending (hcopy copy)
  | error cause => simp [hending, Solo.lockEvents, Event.isLock]
  | panicked text => simp [hending, Solo.lockEvents, Event.isLock]

/-- Code that gets the lock is not refused it. -/
theorem Routine.Outside.not_refused_of_granted {β : Type} {routine : Routine π α β}
    (h : routine.Outside) (strategy : Strategy α) (value : π) (past : List (HookCall α))
    (cause : LockError) :
    .refused cause ∉ (routine.solo strategy (.ok ()) value past).lockEvents := by
  rcases h.unasked_or_asks strategy past with hunasked | hasks
  · rw [(hunasked (.ok ()) (.ok ()) value).2.1]
    simp
  · obtain ⟨manner, hevents⟩ := hasks.granted value
    rw [hevents]
    simp

/-- On its own, an operation that returns an error leaves the elements as they were. -/
theorem Operation.withdraws_of_error {answer : Except LockError Unit} (operation : Operation α)
    (strategy : Strategy α) (size : Nat) (past : List (HookCall α)) (chain : Chain α) :
    let solo := (operation.routine size).solo strategy answer chain past
    (answer = .ok () ∨ ∃ refusal, answer = .error refusal ∧
      solo.lockEvents = [.refused refusal]) → solo.ending = .error cause →
    solo.value.toList = chain.toList ∧ operation.Withdraws cause solo.lockEvents solo.calls := by
  intro solo hanswer herror
  have hturn := operation.turn_solo strategy size answer past chain
  have hresult : (operation.turn strategy size answer past chain.toList).result = .error cause := by
    rw [← hturn]
    exact herror
  have hcontents : solo.value.toList =
    (operation.turn strategy size answer past chain.toList).contents := by rw [← hturn]; rfl
  have hcalls : solo.calls = (operation.turn strategy size answer past chain.toList).calls := by
    rw [← hturn]; rfl
  by_cases hadd : ∃ value, operation = .add value
  · obtain ⟨value, rfl⟩ := hadd
    obtain ⟨hkept, ⟨hcopy, hfailed⟩ | ⟨copy, residue, refusal, hcopy, rfl, rfl, hwithdrawn⟩⟩ :=
      turn_add_of_error hresult
    · rw [← hcalls] at hfailed
      have hevents : solo.lockEvents = [] := lockEvents_add_of_not_copied (by simp [hcopy])
      refine ⟨hcontents.trans hkept, ?_, ?_, ?_, nofun⟩
      · rw [hfailed]; rfl
      · simp [hevents]
      · intro _; rw [hfailed]; rfl
    · rw [← hcalls] at hwithdrawn
      obtain ⟨_, heq, hevents⟩ := hanswer.resolve_left nofun
      cases heq
      refine ⟨hcontents.trans hkept, ?_, ?_, ?_, nofun⟩
      · rw [hwithdrawn]; rfl
      · intro _ other heq hother
        cases heq
        rw [hevents, List.mem_singleton, Event.refused.injEq] at hother
        exact ⟨hother ▸ rfl, copy, residue, hwithdrawn⟩
      · intro hnever
        exact absurd (by simp [hevents]) (hnever value refusal rfl)
  · obtain ⟨hkept, hdisposals, hstored, hlent⟩ :=
      (operation.effect_turn strategy size answer past chain.toList).of_error
        (fun value heq => hadd ⟨value, heq⟩) hresult
    rw [← hcalls] at hdisposals hstored hlent
    refine ⟨hcontents.trans hkept, hdisposals.trans hstored.symm, ?_, fun _ => hdisposals, ?_⟩
    · intro value refusal heq
      exact absurd ⟨value, heq⟩ hadd
    · intro value heq
      rw [hlent value heq]
      exact ⟨rfl, rfl⟩

end Turn

section Serve

variable {lock : Lock ω σ} {free poisoned : σ → Prop} {strategy : Strategy α} {size : Nat}

variable [Journal ω]

/-- Whatever state a list is in, an operation that returns an error leaves it as it was. -/
theorem Represents.undone_of_error (lawful : lock.Lawful free)
    (poisons : lock.PoisonedByPanics poisoned) {list : GuardedList (Recorded α ω) σ α}
    {contents : Option (List α)} (hlist : Represents lock free strategy size list contents)
    (depth : Nat) (operation : Operation α) (memory : Recorded α ω) :
    ∃ outcome, serve depth operation list memory = some outcome ∧
      ∀ cause, outcome.result = .error cause → ∃ events,
        operation.Undone lock free poisoned cause events
          (outcome.memory.calls.drop memory.calls.length) list outcome.target := by
  obtain ⟨past, memory⟩ := memory
  cases hlist with
  | gone hooks =>
    refine ⟨_, rfl, fun cause herror => ⟨[], ?_⟩⟩
    dsimp only
    rw [List.drop_length]
    exact {
      contents := rfl
      initialized := rfl
      lock := nofun
      disposals := by unfold Operation.storedCopies; split <;> rfl
      withdrawn := by simp
      otherwise := fun _ => rfl
      lent := fun _ => ⟨rfl, rfl⟩ }
  | @live cell elements hfree helements =>
    cases helements
    obtain ⟨answer, state, rest, hanswer, huse, hserve⟩ :=
      serve_eq_solo lock strategy size depth operation cell past memory
        fun _ => lawful.answered hfree
    refine ⟨_, hserve, fun cause herror => ?_⟩
    obtain ⟨hkept, hwithdraws⟩ :=
      operation.withdraws_of_error strategy size past cell.value hanswer herror
    have hcalm : .released .unwinding ∉
        ((operation.routine size).solo strategy answer cell.value past).lockEvents := by
      intro hunwinding
      obtain ⟨text, htext⟩ := (operation.outside_routine size).panicked_of_unwinding strategy answer
        cell.value past hunwinding
      cases herror.symm.trans htext
    refine ⟨((operation.routine size).solo strategy answer cell.value past).lockEvents, ?_⟩
    dsimp only
    rw [List.drop_left]
    exact {
      toWithdraws := hwithdraws
      contents := congrArg some hkept
      initialized := rfl
      lock := by
        rintro _ ⟨⟩
        exact ⟨(lawful.use hfree huse fun _ _ => trivial).1, cell, rfl, huse,
          poisons.use huse hcalm⟩ }

/-- Wherever a session of a new list has got to, an operation that returns an error leaves
everything as it was, and disposes of no more than the copy that it made. -/
theorem undone_of_create (lawful : lock.Lawful free) (poisons : lock.PoisonedByPanics poisoned)
    {start : ω} {fresh : GuardedList (Recorded α ω) σ α} {begun : Recorded α ω}
    (hcreate : create lock.recorded strategy.hooks size ⟨[], start⟩ = (.ok fresh, begun))
    (depth : Nat) (steps : List (Step α)) (operation : Operation α) :
    ∃ episodes list memory outcome,
      session depth steps fresh begun = some (episodes, list, memory) ∧
      serve depth operation list memory = some outcome ∧
      ∀ cause, outcome.result = .error cause → ∃ events,
        operation.Undone lock free poisoned cause events
          (outcome.memory.calls.drop memory.calls.length) list outcome.target := by
  obtain ⟨hfresh, -⟩ := represents_create lawful hcreate
  obtain ⟨calls, middle⟩ := begun
  obtain ⟨answered, list, rest, -, -, hsession, hlist⟩ :=
    session_eq_run lawful trivial (.inl trivial) hfresh depth steps calls middle
  obtain ⟨outcome, hserve, hundone⟩ := hlist.undone_of_error lawful poisons depth operation _
  exact ⟨_, list, _, outcome, hsession, hserve, hundone⟩

/-- An addition to a list whose lock an update has poisoned: the copy of the six goes again. -/
theorem undone_of_create_brittle :
    (Lock.poisoning : Lock (List Message) Poisoning).Lawful (·.held = false) ∧
    (Lock.poisoning : Lock (List Message) Poisoning).PoisonedByPanics (·.poisoned = true) ∧
    let fresh := ⟨8, Lock.poisoning.recorded, some ⟨{}, .empty⟩, some Strategy.brittle.hooks⟩
    create Lock.poisoning.recorded Strategy.brittle.hooks 8 ⟨[], []⟩ =
      (.ok fresh, (⟨[], []⟩ : Recorded Nat (List Message))) ∧
    ∃ episodes list memory outcome,
      session 0 [.call (.add 1), .call (.update 0 2)] fresh ⟨[], []⟩ =
        some (episodes, list, memory) ∧
      list.contents? = some [0] ∧
      serve 0 (.add 6) list memory = some outcome ∧
      outcome.result = .error (.lock .poisoned) ∧
      outcome.memory.calls.drop memory.calls.length =
        [.copied 6 (.value 6), .disposed 6 ⟨0, none⟩] ∧
      ∃ events, (Operation.add 6).Undone Lock.poisoning (·.held = false) (·.poisoned = true)
        (.lock .poisoned) events (outcome.memory.calls.drop memory.calls.length) list
        outcome.target := by
  refine ⟨Lock.lawful_poisoning, Lock.poisonedByPanics_poisoning, ?_⟩
  intro fresh
  have hcreate : create Lock.poisoning.recorded Strategy.brittle.hooks 8 ⟨[], []⟩ =
      (.ok fresh, (⟨[], []⟩ : Recorded Nat (List Message))) := rfl
  refine ⟨hcreate, ?_⟩
  obtain ⟨episodes, list, memory, outcome, hsession, hserve, hundone⟩ :=
    undone_of_create Lock.lawful_poisoning Lock.poisonedByPanics_poisoning hcreate 0
      [.call (.add 1), .call (.update 0 2)] (.add 6)
  cases hsession
  cases hserve
  exact ⟨_, _, _, _, rfl, rfl, rfl, rfl, rfl, hundone (.lock .poisoned) rfl⟩

end Serve

end GuardedList
