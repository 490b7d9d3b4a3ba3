import GuardedList.Proofs.Callback

/-!
# Calls back under the lock

A `get` or an `update` calls its hooks while it holds the lock. On a lock that turns everybody away
meanwhile (`Lock.Strict`), a program that such a hook runs never gets at the elements. It comes to
what it would come to if there were no elements at all, only a lock to be turned away from
(`Operation.turnAway`).

So the operation finds the elements as it left them, and ends as it would with a hook that hands
over the same and runs nothing (`Secludes`).
-/

namespace GuardedList

variable {ω σ π α ρ : Type}

/-- A lock that turns everybody away while somebody holds it, as one that is poisoned does. -/
structure Lock.Strict (lock : Lock ω σ) (held : σ → Prop) : Prop extends lock.Proper held where
  strict {state : σ} (memory : ω) : held state →
    ∃ next after, lock.acquire state memory = (.refused .poisoned next, after)

theorem Lock.strict_trying : (trying : Lock ω Spin).Strict (·.held = true) where
  toProper := proper_trying
  strict {state} memory hheld := by
    have hattempt : trying.acquire state memory = (.refused .poisoned state, memory) := by
      simp [trying, hheld]
    exact ⟨state, memory, hattempt⟩

/-- An attempt at the lock that is turned away: the lock and the memory afterwards. -/
def Lock.turnedAway? (lock : Lock ω σ) (state : σ) (memory : ω) : Option (σ × ω) :=
  match lock.acquire state memory with
  | (.refused .poisoned next, after) => some (next, after)
  | _ => none

theorem Lock.turnedAway?_of_refused {lock : Lock ω σ} {state next : σ} {memory after : ω}
    (h : lock.acquire state memory = (.refused .poisoned next, after)) :
    lock.turnedAway? state memory = some (next, after) := by
  unfold turnedAway?
  rw [h]

/-- The operations of a list whose lock is held. They have the state of the lock and nothing else:
there are no elements to look at. What asks for the lock before all else is turned away and calls no
hook. An addition has a copy made first; either that fails, or the addition is turned away with the
copy, and disposes of it. -/
def Operation.turnAway [Journal ω] (lock : Lock ω σ) (hooks : Hooks ω α) (size : Nat) :
    Nat → Server ω α σ
  | 0, _, _, _ => none
  | depth + 1, add value, state, memory =>
    ((hooks.copy value memory).run (turnAway lock hooks size depth) state).bind fun copied =>
      match copied.result with
      | .error cause => some ⟨.error cause, copied.target, copied.memory⟩
      | .panicked text => some ⟨.panicked text, copied.target, copied.memory⟩
      | .value stored =>
        (lock.turnedAway? copied.target copied.memory).bind fun (state, memory) =>
          ((hooks.dispose stored (Journal.record (.additionRefused .poisoned) memory)).run
            (turnAway lock hooks size depth) state).map fun disposed =>
              ⟨disposed.result.followedBy (.error (.lock .poisoned)), disposed.target,
                disposed.memory⟩
  | _ + 1, remove _, state, memory
  | _ + 1, get _, state, memory
  | _ + 1, update _ _, state, memory
  | _ + 1, length, state, memory
  | _ + 1, isEmpty, state, memory =>
    (lock.turnedAway? state memory).map fun (state, memory) =>
      ⟨.error (.lock .poisoned), state, memory⟩
  | depth + 1, releaseValue value, state, memory =>
    ((hooks.dispose value memory).run (turnAway lock hooks size depth) state).map fun disposed =>
      ⟨disposed.result.followedBy (.value (.released disposed.result.value)), disposed.target,
        disposed.memory⟩
  | _ + 1, isInitialized, state, memory => some ⟨.value (.flag true), state, memory⟩
  | _ + 1, elementSize, state, memory => some ⟨.value (.count size), state, memory⟩

theorem Operation.turnAway_of_refused [Journal ω] {lock : Lock ω σ} {hooks : Hooks ω α}
    {size depth : Nat} {operation : Operation α} (hasks : operation.asksForLock = true)
    (hadd : ∀ value, operation ≠ .add value) {state next : σ} {memory after : ω}
    (h : lock.acquire state memory = (.refused .poisoned next, after)) :
    turnAway lock hooks size (depth + 1) operation state memory =
      some ⟨.error (.lock .poisoned), next, after⟩ := by
  cases operation with
  | add value => exact absurd rfl (hadd value)
  | releaseValue value => cases hasks
  | isInitialized => cases hasks
  | elementSize => cases hasks
  | _ => simp [turnAway, Lock.turnedAway?_of_refused h]

/-- What was done to a lock, with a value behind the lock. -/
def Outcome.behind (value : π) (outcome : Outcome ρ σ ω) : Outcome ρ (Cell σ π) ω :=
  ⟨outcome.result, ⟨outcome.target, value⟩, outcome.memory⟩

/-- While the lock is held the operations of `server` do what those of `outside` do, which know
nothing of the value behind the lock; and they leave the lock held or free as it was. -/
structure Server.KeptOut (held : σ → Prop) (value : π) (server : Server ω α (Cell σ π))
    (outside : Server ω α σ) : Prop where
  serve (operation : Operation α) {state : σ} (memory : ω) : held state →
    server operation ⟨state, value⟩ memory =
      (outside operation state memory).map (Outcome.behind value)
  restores : server.Restores held

section Program

variable {held : σ → Prop} {value : π} {server : Server ω α (Cell σ π)} {outside : Server ω α σ}

/-- A program whose calls are kept out comes to nothing that depends on the value behind the lock.
-/
theorem Server.KeptOut.run (hkept : server.KeptOut held value outside) (program : Dialogue ω α ρ)
    {state : σ} (hheld : held state) :
    program.run server ⟨state, value⟩ = (program.run outside state).map (Outcome.behind value) := by
  induction program generalizing state with
  | finish memory result => rfl
  | call memory operation next ih =>
    have hanswer := hkept.serve operation memory hheld
    rw [Dialogue.run, Dialogue.run]
    cases houtside : outside operation state memory with
    | none =>
      rw [houtside] at hanswer
      simp [hanswer]
    | some answer =>
      rw [houtside, Option.map_some] at hanswer
      have hstill : held answer.target := (hkept.restores hanswer).2 hheld
      rw [hanswer]
      exact ih answer.memory answer.result hstill

/-- And the lock stays held. -/
theorem Server.KeptOut.held_of_run (hkept : server.KeptOut held value outside)
    {program : Dialogue ω α ρ} {state : σ} (hheld : held state) {outcome : Outcome ρ σ ω}
    (houtcome : program.run outside state = some outcome) : held outcome.target := by
  have hrun := hkept.run program hheld
  rw [houtcome] at hrun
  exact (Dialogue.restores_of_run hkept.restores hrun).2 hheld

end Program

section KeptOut

variable [Journal ω] {lock : Lock ω σ} {held : σ → Prop} (hooks : Hooks ω α) (size : Nat)
  {depth : Nat} {chain : Chain α} {server : Server ω α (Cell σ (Chain α))} {outside : Server ω α σ}

/-- What begins with a disposal, and is over with it, is kept out if the disposal is. -/
theorem Routine.run_dispose_of_keptOut (lock : Lock ω σ)
    (hkept : server.KeptOut held chain outside) {next : Residue α → Routine (Chain α) α (Reply α)}
    {ending : Residue α → Ending (Reply α)}
    (hnext : ∀ residue, next residue = .finish (residue.followedBy (ending residue))) (value : α)
    {state : σ} (hheld : held state) (memory : ω) :
    (dispose value next).run lock hooks server ⟨state, chain⟩ memory =
      (((hooks.dispose value memory).run outside state).map fun disposed =>
        ⟨disposed.result.followedBy (ending disposed.result), disposed.target,
          disposed.memory⟩).map (Outcome.behind chain) := by
  rw [run, hkept.run (hooks.dispose value memory) hheld]
  cases (hooks.dispose value memory).run outside state with
  | none => rfl
  | some disposed =>
    simp only [Option.map_some, hnext]
    rfl

/-- What asks for the lock before all else is turned away. -/
theorem Operation.run_of_turnedAway (strict : lock.Strict held) {operation : Operation α}
    {next : Except LockError Unit → Routine (Chain α) α (Reply α)}
    (hroutine : operation.routine size = .acquire next)
    (hnext : next (.error .poisoned) = .finish (.error (.lock .poisoned))) {state : σ}
    (hheld : held state) (memory : ω) :
    (operation.routine size).run lock hooks server ⟨state, chain⟩ memory =
      ((lock.turnedAway? state memory).map fun (state, memory) =>
        ⟨.error (.lock .poisoned), state, memory⟩).map (Outcome.behind chain) := by
  obtain ⟨refused, after, hattempt⟩ := strict.strict memory hheld
  rw [hroutine, Lock.turnedAway?_of_refused hattempt]
  simp only [Routine.run, hattempt, hnext]
  rfl

/-- An addition gets no further than its copy, which it gives up again. -/
theorem Operation.run_add_of_keptOut (strict : lock.Strict held)
    (hkept : server.KeptOut held chain (turnAway lock hooks size depth)) (value : α) {state : σ}
    (hheld : held state) (memory : ω) :
    ((add value).routine size).run lock hooks server ⟨state, chain⟩ memory =
      (turnAway lock hooks size (depth + 1) (add value) state memory).map
        (Outcome.behind chain) := by
  have hcopied := hkept.run (hooks.copy value memory) hheld
  simp only [routine, Routine.add, Routine.bind_eq, Routine.copyOf, Routine.bind, Routine.run,
    turnAway, hcopied]
  cases hcopy : (hooks.copy value memory).run (turnAway lock hooks size depth) state with
  | none => rfl
  | some copied =>
    have hstill : held copied.target := hkept.held_of_run hheld hcopy
    obtain ⟨ending, middle, left⟩ := copied
    cases ending with
    | value stored =>
      obtain ⟨refused, after, hattempt⟩ := strict.strict left hstill
      have hafter : held refused := strict.refused hstill hattempt
      have hwithdraw : ∀ residue : Residue α,
          (((Routine.settle residue).bind fun _ =>
            Routine.fail (.lock .poisoned)).bind fun _ : Unit => .finish (.value .done)) =
          (.finish (residue.followedBy (.error (.lock .poisoned))) :
            Routine (Chain α) α (Reply α)) := by
        rintro ⟨left, _ | text⟩ <;> rfl
      have hdisposed := Routine.run_dispose_of_keptOut hooks lock hkept hwithdraw stored hafter
        (Journal.record (.additionRefused .poisoned) after)
      simp only [Option.map_some, Outcome.behind, Option.bind_some,
        Lock.turnedAway?_of_refused hattempt, Routine.askLock, Routine.bind, Routine.run, hattempt]
      exact hdisposed
    | error cause => rfl
    | panicked text => rfl

/-- However deep the calls go, none gets past a lock that is held. -/
theorem Operation.keptOut_serve (strict : lock.Strict held) (chain : Chain α) (depth : Nat) :
    (Operation.serve lock hooks size depth).KeptOut held chain
      (Operation.turnAway lock hooks size depth) where
  restores := Operation.restores_serve strict.toProper size depth
  serve operation {state} memory hheld := by
    induction depth generalizing operation state memory with
    | zero => rfl
    | succ depth ih =>
      have hkept : (Operation.serve lock hooks size depth).KeptOut held chain
          (Operation.turnAway lock hooks size depth) :=
        ⟨ih, Operation.restores_serve strict.toProper size depth⟩
      cases operation with
      | add value => exact run_add_of_keptOut hooks size strict hkept value hheld memory
      | remove index => exact run_of_turnedAway hooks size strict rfl rfl hheld memory
      | get index => exact run_of_turnedAway hooks size strict rfl rfl hheld memory
      | update index value => exact run_of_turnedAway hooks size strict rfl rfl hheld memory
      | length => exact run_of_turnedAway hooks size strict rfl rfl hheld memory
      | isEmpty => exact run_of_turnedAway hooks size strict rfl rfl hheld memory
      | releaseValue value =>
        have hrelease : ∀ residue : Residue α,
            (((Routine.settle residue).bind fun _ => .finish (.value residue.value)).bind
              fun left : α => .finish (.value (.released left))) =
            (.finish (residue.followedBy (.value (.released residue.value))) :
              Routine (Chain α) α (Reply α)) := by
          rintro ⟨left, _ | text⟩ <;> rfl
        exact Routine.run_dispose_of_keptOut hooks lock hkept hrelease value hheld memory
      | isInitialized => rfl
      | elementSize => rfl

end KeptOut

section UnderLock

/-- The lock is given up last. -/
def Outcome.released (lock : Lock ω σ) (manner : Manner) (outcome : Outcome ρ (Cell σ π) ω) :
    Outcome ρ (Cell σ π) ω :=
  let (state, memory) := lock.release manner outcome.target.lock outcome.memory
  ⟨outcome.result, { outcome.target with lock := state }, memory⟩

/-- What an update keeps in its place, once it has the copy and the old element is disposed of. -/
def Residue.kept (residue : Residue α) (copy : α) : α :=
  match residue.panic with
  | none => copy
  | some _ => residue.value

variable [Journal ω] (lock : Lock ω σ) (hooks : Hooks ω α)
  (server : Server ω α (Cell σ (Chain α))) (size : Nat) {cell : Cell σ (Chain α)} {state : σ}
  {memory middle : ω}

/-- A section that gets the lock ends as its body does, and gives the lock up last. -/
theorem Routine.run_holding_of_granted {β γ : Type} {server : Server ω α (Cell σ π)}
    {cell : Cell σ π} (hacquire : lock.acquire cell.lock memory = (.granted state, middle))
    (body : Routine π α β) (reply : β → γ) :
    ((holding body).bind fun result => pure (reply result)).run lock hooks server cell memory =
      (body.run lock hooks server ⟨state, cell.value⟩ middle).map fun outcome =>
        Outcome.released lock outcome.result.manner
          ⟨outcome.result.map reply, outcome.target, outcome.memory⟩ := by
  rw [run_bind, holding, run, hacquire]
  dsimp only
  rw [run_releasing]
  cases body.run lock hooks server ⟨state, cell.value⟩ middle with
  | none => rfl
  | some outcome =>
    obtain ⟨ending, target, left⟩ := outcome
    cases ending <;> rfl

/-- A `get` ends as the copy ends. -/
theorem Operation.run_get_of_copied {index : Nat} {node : Node α}
    (hnode : cell.value.node? index = some node)
    (hacquire : lock.acquire cell.lock memory = (.granted state, middle))
    {copied : Outcome (Ending α) (Cell σ (Chain α)) ω}
    (hcopy : (hooks.copy node.value middle).run server ⟨state, cell.value⟩ = some copied) :
    ((get index).routine size).run lock hooks server cell memory =
      some (Outcome.released lock copied.result.manner
        ⟨copied.result.map .element, copied.target, copied.memory⟩) := by
  rw [routine, Routine.bind_eq, Routine.get, Routine.run_holding_of_granted lock hooks hacquire]
  simp [Routine.run, hnode, hcopy]

/-- An `update` whose copy fails ends as the copy ends. -/
theorem Operation.run_update_of_stopped {index : Nat} {value : α} {position : Focus α}
    (hfocus : cell.value.focus? index = some position)
    (hacquire : lock.acquire cell.lock memory = (.granted state, middle))
    {copied : Outcome (Ending α) (Cell σ (Chain α)) ω}
    (hcopy : (hooks.copy value middle).run server ⟨state, cell.value⟩ = some copied)
    (hstopped : ∀ replacement, copied.result ≠ .value replacement) :
    ((update index value).routine size).run lock hooks server cell memory =
      some (Outcome.released lock copied.result.manner
        ⟨copied.result.map fun _ => .done, copied.target, copied.memory⟩) := by
  rw [routine, Routine.bind_eq, Routine.update, Routine.run_holding_of_granted lock hooks hacquire]
  obtain ⟨ending, target, left⟩ := copied
  cases ending with
  | value replacement => exact absurd rfl (hstopped replacement)
  | error cause => simp [Routine.run, hfocus, hcopy, Ending.map, Ending.manner]
  | panicked text => simp [Routine.run, hfocus, hcopy, Ending.map, Ending.manner]

/-- An `update` stores what the copy hook handed over, unless the disposal of the old element
panics. -/
theorem Operation.run_update_of_disposed {index : Nat} {value replacement : α} {position : Focus α}
    (hfocus : cell.value.focus? index = some position)
    (hacquire : lock.acquire cell.lock memory = (.granted state, middle))
    {target : Cell σ (Chain α)} {left : ω}
    (hcopy : (hooks.copy value middle).run server ⟨state, cell.value⟩ =
      some ⟨.value replacement, target, left⟩)
    {disposed : Outcome (Residue α) (Cell σ (Chain α)) ω}
    (hdispose : (hooks.dispose position.value left).run server target = some disposed) :
    ∃ last, ((update index value).routine size).run lock hooks server cell memory =
      some (Outcome.released lock disposed.result.ending.manner
        ⟨disposed.result.followedBy (.value .done),
          ⟨disposed.target.lock, position.write (disposed.result.kept replacement)⟩, last⟩) := by
  rw [routine, Routine.bind_eq, Routine.update, Routine.run_holding_of_granted lock hooks hacquire]
  obtain ⟨⟨old, _ | text⟩, last, after⟩ := disposed
  · refine ⟨Journal.record (.replaced index) after, ?_⟩
    simp [Routine.run, hfocus, hcopy, hdispose, Residue.ending, Residue.followedBy, Residue.kept,
      Ending.map, Ending.manner]
  · refine ⟨after, ?_⟩
    simp [Routine.run, hfocus, hcopy, hdispose, Residue.ending, Residue.followedBy, Residue.kept,
      Ending.map, Ending.manner]

end UnderLock

/-- Where there is an element there is a node with it. -/
theorem Chain.exists_node? {chain : Chain α} {index : Nat} {element : α}
    (h : chain.toList[index]? = some element) :
    ∃ node, chain.node? index = some node ∧ node.value = element := by
  rw [← chain.value_node? index] at h
  exact Option.map_eq_some_iff.1 h

theorem Chain.exists_focus? {chain : Chain α} {index : Nat} {element : α}
    (h : chain.toList[index]? = some element) :
    ∃ position, chain.focus? index = some position ∧ position.value = element := by
  rw [← chain.value_focus? index] at h
  exact Option.map_eq_some_iff.1 h

/-- The list with other hooks. -/
def withHooks (list : GuardedList ω σ α) (hooks : Hooks ω α) : GuardedList ω σ α :=
  { list with hooks := some hooks }

/-- The lock of a list was held and has just been given up. -/
def Lock.GivenUp (lock : Lock ω σ) (held : σ → Prop) (manner : Manner)
    (outcome : Outcome ρ (GuardedList ω σ α) ω) : Prop :=
  ∃ state before cell, held state ∧ outcome.target.cell = some cell ∧
    lock.release manner state before = (cell.lock, outcome.memory) ∧ ¬ held cell.lock

/-- Two operations that held the lock of a list come to the same: the results and the elements are
the same, and both gave up the lock last, in the same manner. -/
structure Lock.EndsAlike (lock : Lock ω σ) (held : σ → Prop)
    (outcome outcome' : Outcome ρ (GuardedList ω σ α) ω) : Prop where
  result : outcome.result = outcome'.result
  contents : outcome.target.contents? = outcome'.target.contents?
  released : ∃ manner, lock.GivenUp held manner outcome ∧ lock.GivenUp held manner outcome'

/-- The calls that hooks make while the lock is held come to nothing. A hook of a `get` or an
`update` may run any program. In another session, set off by primes, the list has hooks that hand
over the same and run nothing; the operation comes to the same there. -/
structure Secludes [Journal ω] (held : σ → Prop) (hooks : Hooks ω α) (depth : Nat)
    (list : GuardedList ω σ α) (cell : Cell σ (Chain α)) : Prop where
  /-- A program that runs while the lock is held is turned away with all that it calls, and with all
  that the hooks of those calls call, and so on. It leaves the elements as they are and the lock
  held. -/
  inside {ρ : Type} (program : Dialogue ω α ρ) {state : σ} (hheld : held state) :
    let outside :=
      program.run (Operation.turnAway list.backend hooks list.elementSize (depth + 1)) state
    program.run (serve depth) (list.withCell ⟨state, cell.value⟩) =
        outside.map (fun outcome => (outcome.behind cell.value).within list) ∧
      ∀ outcome, outside = some outcome → held outcome.target
  /-- What asks for the lock before all else is refused it, and nothing else happens: no hook is
  called. -/
  turned {operation : Operation α} (hasks : operation.asksForLock = true)
    (hadd : ∀ value, operation ≠ .add value) {state : σ} (hheld : held state) (memory : ω) :
    ∃ next after, list.backend.acquire state memory = (.refused .poisoned next, after) ∧
      serve depth operation (list.withCell ⟨state, cell.value⟩) memory =
        some ⟨.error (.lock .poisoned), list.withCell ⟨next, cell.value⟩, after⟩
  /-- An addition ends with its copy hook if that hands over no copy. Otherwise it is refused, and
  disposes of the copy. -/
  added {value : α} {state : σ} (hheld : held state) {memory : ω}
    {outcome : Outcome (Ending (Reply α)) (GuardedList ω σ α) ω}
    (hserve : serve (depth + 1) (.add value) (list.withCell ⟨state, cell.value⟩) memory =
      some outcome) :
    ∃ copied,
      (hooks.copy value memory).run (serve depth) (list.withCell ⟨state, cell.value⟩) =
        some copied ∧
      ((∀ stored, copied.result ≠ .value stored) ∧
          outcome.result = copied.result.map (fun _ => .done) ∨
        ∃ stored middle next after disposed, copied.result = .value stored ∧
          copied.target = list.withCell ⟨middle, cell.value⟩ ∧
          list.backend.acquire middle copied.memory = (.refused .poisoned next, after) ∧
          (hooks.dispose stored (Journal.record (.additionRefused .poisoned) after)).run
            (serve depth) (list.withCell ⟨next, cell.value⟩) = some disposed ∧
          outcome.result = disposed.result.followedBy (.error (.lock .poisoned)))
  /-- A `get` whose copy hook runs a program. -/
  got {index : Nat} {element : α} {state state' : σ} {memory memory' middle middle' left' : ω}
    {plain : Hooks ω α} {copied : Outcome (Ending α) (GuardedList ω σ α) ω}
    (helement : cell.value.toList[index]? = some element)
    (hacquire : list.backend.acquire cell.lock memory = (.granted state, middle))
    (hacquire' : list.backend.acquire cell.lock memory' = (.granted state', middle'))
    (hcopy : (hooks.copy element middle).run (serve depth) (list.withCell ⟨state, cell.value⟩) =
      some copied)
    (hcopy' : plain.copy element middle' = .finish left' copied.result) :
    ∃ outcome outcome',
      serve (depth + 1) (.get index) list memory = some outcome ∧
      serve (depth + 1) (.get index) (list.withHooks plain) memory' = some outcome' ∧
      outcome.result = copied.result.map .element ∧
      outcome.target.contents? = some cell.value.toList ∧
      list.backend.EndsAlike held outcome outcome'
  /-- An `update` whose copy hook runs a program and then fails. -/
  stopped {index : Nat} {value element : α} {state state' : σ}
    {memory memory' middle middle' left' : ω} {plain : Hooks ω α}
    {copied : Outcome (Ending α) (GuardedList ω σ α) ω}
    (helement : cell.value.toList[index]? = some element)
    (hacquire : list.backend.acquire cell.lock memory = (.granted state, middle))
    (hacquire' : list.backend.acquire cell.lock memory' = (.granted state', middle'))
    (hcopy : (hooks.copy value middle).run (serve depth) (list.withCell ⟨state, cell.value⟩) =
      some copied)
    (hcopy' : plain.copy value middle' = .finish left' copied.result)
    (hstopped : ∀ replacement, copied.result ≠ .value replacement) :
    ∃ outcome outcome',
      serve (depth + 1) (.update index value) list memory = some outcome ∧
      serve (depth + 1) (.update index value) (list.withHooks plain) memory' = some outcome' ∧
      outcome.result = copied.result.map (fun _ => .done) ∧
      outcome.target.contents? = some cell.value.toList ∧
      list.backend.EndsAlike held outcome outcome'
  /-- An `update` whose copy hook and whose dispose hook run programs. -/
  updated {index : Nat} {value element replacement : α} {state state' : σ}
    {memory memory' middle middle' left' last' : ω} {plain : Hooks ω α}
    {copied : Outcome (Ending α) (GuardedList ω σ α) ω}
    {disposed : Outcome (Residue α) (GuardedList ω σ α) ω}
    (helement : cell.value.toList[index]? = some element)
    (hacquire : list.backend.acquire cell.lock memory = (.granted state, middle))
    (hacquire' : list.backend.acquire cell.lock memory' = (.granted state', middle'))
    (hcopy : (hooks.copy value middle).run (serve depth) (list.withCell ⟨state, cell.value⟩) =
      some copied)
    (hcopied : copied.result = .value replacement)
    (hcopy' : plain.copy value middle' = .finish left' copied.result)
    (hdispose : (hooks.dispose element copied.memory).run (serve depth) copied.target =
      some disposed)
    (hdispose' : plain.dispose element left' = .finish last' disposed.result) :
    ∃ outcome outcome',
      serve (depth + 1) (.update index value) list memory = some outcome ∧
      serve (depth + 1) (.update index value) (list.withHooks plain) memory' = some outcome' ∧
      outcome.result = disposed.result.followedBy (.value .done) ∧
      outcome.target.contents? =
        some (cell.value.toList.set index (disposed.result.kept replacement)) ∧
      list.backend.EndsAlike held outcome outcome'

section Secludes

variable {held : σ → Prop} {lock : Lock ω σ} {list : GuardedList ω σ α}

/-- Operations that hold the lock until they give it up as they end. -/
theorem Lock.Proper.endsAlike (proper : lock.Proper held) (list list' : GuardedList ω σ α)
    {state state' : σ} (hheld : held state) (hheld' : held state') (manner : Manner) (result : ρ)
    (chain : Chain α) (memory memory' : ω) :
    lock.EndsAlike held
      ((Outcome.released lock manner ⟨result, ⟨state, chain⟩, memory⟩).within list)
      ((Outcome.released lock manner ⟨result, ⟨state', chain⟩, memory'⟩).within list') where
  result := rfl
  contents := rfl
  released := by
    have hfree := proper.released manner memory hheld
    have hfree' := proper.released manner memory' hheld'
    exact ⟨manner, ⟨state, memory, _, hheld, rfl, rfl, hfree⟩,
      ⟨state', memory', _, hheld', rfl, rfl, hfree'⟩⟩

variable [Journal ω] {hooks : Hooks ω α} {cell : Cell σ (Chain α)}

/-- What runs on a list whose lock is held might as well run outside. -/
theorem run_of_held (strict : list.backend.Strict held) (hhooks : list.hooks = some hooks)
    (depth : Nat) (program : Dialogue ω α ρ) {state : σ} (hheld : held state) (chain : Chain α) :
    program.run (serve depth) (list.withCell ⟨state, chain⟩) =
      (program.run (Operation.turnAway list.backend hooks list.elementSize (depth + 1)) state).map
        fun outcome => (outcome.behind chain).within list := by
  have hkept := Operation.keptOut_serve hooks list.elementSize strict chain (depth + 1)
  have hlive : (list.withCell ⟨state, chain⟩).hooks = some hooks := hhooks
  have hrun := congrArg (Option.map (Outcome.within list)) (hkept.run program hheld)
  rw [Option.map_map] at hrun
  rw [run_of_live depth rfl hlive]
  exact hrun

/-- What a hook does to a list whose lock is held it does to the lock alone. -/
theorem exists_of_run_of_held (strict : list.backend.Strict held)
    (hhooks : list.hooks = some hooks) {depth : Nat} {hook : Dialogue ω α ρ} {state : σ}
    (hheld : held state) {chain : Chain α} {inner : Outcome ρ (GuardedList ω σ α) ω}
    (hrun : hook.run (serve depth) (list.withCell ⟨state, chain⟩) = some inner) :
    ∃ next, held next ∧ inner.target = list.withCell ⟨next, chain⟩ ∧
      hook.run (Operation.serve list.backend hooks list.elementSize (depth + 1)) ⟨state, chain⟩ =
        some ⟨inner.result, ⟨next, chain⟩, inner.memory⟩ := by
  have hkept := Operation.keptOut_serve hooks list.elementSize strict chain (depth + 1)
  rw [run_of_held strict hhooks depth hook hheld chain] at hrun
  obtain ⟨outside, houtside, rfl⟩ := Option.map_eq_some_iff.1 hrun
  have hinner := hkept.run hook hheld
  rw [houtside] at hinner
  exact ⟨outside.target, hkept.held_of_run hheld houtside, rfl, hinner⟩

/-- An addition to a list whose lock is held. -/
theorem added_of_held (strict : list.backend.Strict held) (hhooks : list.hooks = some hooks)
    (depth : Nat) {chain : Chain α} {value : α} {state : σ} (hheld : held state) {memory : ω}
    {outcome : Outcome (Ending (Reply α)) (GuardedList ω σ α) ω}
    (hserve : serve (depth + 1) (.add value) (list.withCell ⟨state, chain⟩) memory =
      some outcome) :
    ∃ copied, (hooks.copy value memory).run (serve depth) (list.withCell ⟨state, chain⟩) =
        some copied ∧
      ((∀ stored, copied.result ≠ .value stored) ∧
          outcome.result = copied.result.map (fun _ => .done) ∨
        ∃ stored middle next after disposed, copied.result = .value stored ∧
          copied.target = list.withCell ⟨middle, chain⟩ ∧
          list.backend.acquire middle copied.memory = (.refused .poisoned next, after) ∧
          (hooks.dispose stored (Journal.record (.additionRefused .poisoned) after)).run
            (serve depth) (list.withCell ⟨next, chain⟩) = some disposed ∧
          outcome.result = disposed.result.followedBy (.error (.lock .poisoned))) := by
  have hlive : (list.withCell ⟨state, chain⟩).hooks = some hooks := hhooks
  have hkept := Operation.keptOut_serve hooks list.elementSize strict chain (depth + 1)
  have hadd := Operation.run_add_of_keptOut hooks list.elementSize strict hkept value hheld memory
  rw [serve_of_live depth rfl hlive, Option.map_eq_some_iff] at hserve
  obtain ⟨done, hdone, rfl⟩ := hserve
  obtain ⟨outside, houtside, rfl⟩ := Option.map_eq_some_iff.1 (hadd.symm.trans hdone)
  obtain ⟨⟨ending, middle, left⟩, hcopied, hrest⟩ := Option.bind_eq_some_iff.1 houtside
  have hcopy := run_of_held strict hhooks depth (hooks.copy value memory) hheld chain
  rw [hcopied, Option.map_some] at hcopy
  refine ⟨_, hcopy, ?_⟩
  cases ending with
  | value stored =>
    have hmiddle : held middle := hkept.held_of_run hheld hcopied
    obtain ⟨next, after, hattempt⟩ := strict.strict left hmiddle
    have hnext : held next := strict.refused hmiddle hattempt
    simp only [Lock.turnedAway?_of_refused hattempt, Option.bind_some] at hrest
    obtain ⟨disposed, hdisposed, rfl⟩ := Option.map_eq_some_iff.1 hrest
    have hdispose := run_of_held strict hhooks depth (hooks.dispose stored
      (Journal.record (.additionRefused .poisoned) after)) hnext chain
    rw [hdisposed, Option.map_some] at hdispose
    exact .inr ⟨stored, middle, next, after, _, rfl, rfl, hattempt, hdispose, rfl⟩
  | error cause =>
    cases hrest
    exact .inl ⟨nofun, rfl⟩
  | panicked text =>
    cases hrest
    exact .inl ⟨nofun, rfl⟩

/-- Whatever a hook runs while the operation that called it holds the lock, it gets nowhere. -/
theorem secludes (strict : list.backend.Strict held) (hcell : list.cell = some cell)
    (hhooks : list.hooks = some hooks) (depth : Nat) : Secludes held hooks depth list cell where
  inside {ρ} program {state} hheld := by
    refine ⟨run_of_held strict hhooks depth program hheld cell.value, ?_⟩
    intro outcome houtcome
    have hkept := Operation.keptOut_serve hooks list.elementSize strict cell.value (depth + 1)
    exact hkept.held_of_run hheld houtcome
  turned {operation} hasks hadd {state} hheld memory := by
    obtain ⟨next, after, hattempt⟩ := strict.strict memory hheld
    refine ⟨next, after, hattempt, ?_⟩
    have hkept := (Operation.keptOut_serve hooks list.elementSize strict cell.value
      (depth + 1)).serve operation memory hheld
    rw [Operation.turnAway_of_refused hasks hadd hattempt] at hkept
    simp only [serve, withCell, hhooks, hkept]
    rfl
  added {value state} hheld {memory outcome} hserve :=
    added_of_held strict hhooks depth hheld hserve
  got {index element state state' memory memory' middle middle' left' plain copied} helement
      hacquire hacquire' hcopy hcopy' := by
    have hheld := (strict.granted hacquire).2
    have hheld' := (strict.granted hacquire').2
    obtain ⟨node, hnode, rfl⟩ := Chain.exists_node? helement
    obtain ⟨next, hnext, -, hcopied⟩ := exists_of_run_of_held strict hhooks hheld hcopy
    have hplain := Dialogue.run_of_finish
      (Operation.serve list.backend plain list.elementSize (depth + 1)) hcopy' ⟨state', cell.value⟩
    have hget := Operation.run_get_of_copied list.backend hooks _ list.elementSize hnode hacquire
      hcopied
    have hget' := Operation.run_get_of_copied list.backend plain _ list.elementSize hnode hacquire'
      hplain
    have hserve := serve_eq_of_run depth hcell hhooks hget
    have hcell' : (list.withHooks plain).cell = some cell := hcell
    have hserve' := serve_eq_of_run depth hcell' rfl hget'
    refine ⟨_, _, hserve, hserve', rfl, rfl, ?_⟩
    exact strict.endsAlike list _ hnext hheld' _ _ _ _ _
  stopped {index value element state state' memory memory' middle middle' left' plain copied}
      helement hacquire hacquire' hcopy hcopy' hstopped := by
    have hheld := (strict.granted hacquire).2
    have hheld' := (strict.granted hacquire').2
    obtain ⟨position, hfocus, rfl⟩ := Chain.exists_focus? helement
    obtain ⟨next, hnext, -, hcopied⟩ := exists_of_run_of_held strict hhooks hheld hcopy
    have hplain := Dialogue.run_of_finish
      (Operation.serve list.backend plain list.elementSize (depth + 1)) hcopy' ⟨state', cell.value⟩
    have hupdate := Operation.run_update_of_stopped list.backend hooks _ list.elementSize hfocus
      hacquire hcopied hstopped
    have hupdate' := Operation.run_update_of_stopped list.backend plain _ list.elementSize hfocus
      hacquire' hplain hstopped
    have hserve := serve_eq_of_run depth hcell hhooks hupdate
    have hcell' : (list.withHooks plain).cell = some cell := hcell
    have hserve' := serve_eq_of_run depth hcell' rfl hupdate'
    refine ⟨_, _, hserve, hserve', rfl, rfl, ?_⟩
    exact strict.endsAlike list _ hnext hheld' _ _ _ _ _
  updated {index value element replacement state state' memory memory' middle middle' left' last'
      plain copied disposed} helement hacquire hacquire' hcopy hcopied hcopy' hdispose
      hdispose' := by
    have hheld := (strict.granted hacquire).2
    have hheld' := (strict.granted hacquire').2
    obtain ⟨position, hfocus, rfl⟩ := Chain.exists_focus? helement
    obtain ⟨next, hnext, htarget, hcopyRun⟩ := exists_of_run_of_held strict hhooks hheld hcopy
    rw [htarget] at hdispose
    obtain ⟨last, hlast, -, hdisposed⟩ := exists_of_run_of_held strict hhooks hnext hdispose
    have hplain := Dialogue.run_of_finish
      (Operation.serve list.backend plain list.elementSize (depth + 1)) hcopy' ⟨state', cell.value⟩
    have hplainDisposed := Dialogue.run_of_finish
      (Operation.serve list.backend plain list.elementSize (depth + 1)) hdispose'
      ⟨state', cell.value⟩
    rw [hcopied] at hcopyRun hplain
    obtain ⟨after, hupdate⟩ := Operation.run_update_of_disposed list.backend hooks _
      list.elementSize hfocus hacquire hcopyRun hdisposed
    obtain ⟨after', hupdate'⟩ := Operation.run_update_of_disposed list.backend plain _
      list.elementSize hfocus hacquire' hplain hplainDisposed
    have hserve := serve_eq_of_run depth hcell hhooks hupdate
    have hcell' : (list.withHooks plain).cell = some cell := hcell
    have hserve' := serve_eq_of_run depth hcell' rfl hupdate'
    have hcontents := Chain.toList_write hfocus (disposed.result.kept replacement)
    refine ⟨_, _, hserve, hserve', rfl, congrArg some hcontents, ?_⟩
    exact strict.endsAlike list _ hlast hheld' _ _ _ _ _

end Secludes

/-- A `get` whose copy hook adds to the list, and an `update` whose dispose hook does, with another
addition inside the addition in either case: both come to what they come to with plain copies. -/
theorem secludes_counting :
    let cell : Cell Spin (Chain Nat) := ⟨{}, .link 5 (.link 6 .empty)⟩
    let list := countingList Lock.trying {} cell.value
    (Lock.trying : Lock Countdown Spin).Strict (·.held = true) ∧
    (∃ outcome outcome', serve 2 (.get 1) list { copies := 2 } = some outcome ∧
      serve 2 (.get 1) (list.withHooks .clone) {} = some outcome' ∧
      outcome.result = .value (.element 6) ∧ outcome.target.contents? = some [5, 6] ∧
      Lock.trying.EndsAlike (·.held = true) outcome outcome') ∧
    ∃ outcome outcome', serve 2 (.update 0 9) list { disposals := 2 } = some outcome ∧
      serve 2 (.update 0 9) (list.withHooks .clone) {} = some outcome' ∧
      outcome.result = .value .done ∧ outcome.target.contents? = some [9, 6] ∧
      Lock.trying.EndsAlike (·.held = true) outcome outcome' := by
  intro cell list
  have hsecludes : Secludes (·.held = true) Hooks.counting 1 list cell :=
    secludes Lock.strict_trying rfl rfl 1
  have hacquire : ∀ memory, (Lock.trying : Lock Countdown Spin).acquire {} memory =
    (.granted ⟨true⟩, memory) := fun _ => rfl
  refine ⟨Lock.strict_trying, ?_, ?_⟩
  · have hcopy : ∃ left, (Hooks.counting.copy 6 { copies := 2 }).run (serve 1)
        (list.withCell ⟨⟨true⟩, cell.value⟩) =
          some ⟨.value 6, list.withCell ⟨⟨true⟩, cell.value⟩, left⟩ := ⟨_, rfl⟩
    obtain ⟨left, hcopy⟩ := hcopy
    exact hsecludes.got rfl (hacquire _) (hacquire {}) hcopy rfl
  · have hdispose : ∃ left, (Hooks.counting.dispose 5 { disposals := 2 }).run (serve 1)
        (list.withCell ⟨⟨true⟩, cell.value⟩) =
          some ⟨⟨5, none⟩, list.withCell ⟨⟨true⟩, cell.value⟩, left⟩ := ⟨_, rfl⟩
    obtain ⟨left, hdispose⟩ := hdispose
    have hcopy : (Hooks.counting.copy 9 { disposals := 2 }).run (serve 1)
        (list.withCell ⟨⟨true⟩, cell.value⟩) =
          some ⟨.value 9, list.withCell ⟨⟨true⟩, cell.value⟩, { disposals := 2 }⟩ := rfl
    have hdispose' : (Hooks.clone : Hooks Countdown Nat).dispose 5 {} = .finish {} ⟨5, none⟩ := rfl
    exact hsecludes.updated rfl (hacquire _) (hacquire {}) hcopy rfl rfl hdispose hdispose'

end GuardedList
