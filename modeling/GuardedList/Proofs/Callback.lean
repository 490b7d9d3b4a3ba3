import GuardedList.Proofs.Restoring
import GuardedList.Proofs.Simulation

/-!
# Calls back outside the lock

A hook that an operation calls while it does not hold the lock may run a whole program on the list.
The operation carries nothing across that call that the program could spoil, so the program takes
place before or after the operation as if the list's user had run it there (`Serializes`).

The two sessions that are compared differ in who runs the program, and so in their memories. A
relation `R` says of two memories that lock, hooks and log act alike in them from there on.
-/

namespace GuardedList

variable {ω σ π α β ρ κ τ : Type}

/-- A hook that runs a program and then ends, in a way that may depend on what the program came to.
-/
def Dialogue.closing (program : Dialogue ω α ρ) (close : ρ → ω → ω × κ) : Dialogue ω α κ :=
  program.bind fun result memory => .finish (close result memory).1 (close result memory).2

theorem Dialogue.run_of_closing {server : Server ω α τ} {hook : Dialogue ω α κ}
    {program : Dialogue ω α ρ} {close : ρ → ω → ω × κ} (hhook : hook = program.closing close)
    {target : τ} {done : Outcome ρ τ ω} (hdone : program.run server target = some done) :
    hook.run server target =
      some ⟨(close done.result done.memory).2, done.target, (close done.result done.memory).1⟩ := by
  rw [hhook, closing, run_bind, hdone]
  rfl

/-- A hook that makes no call ends where it was called. -/
theorem Dialogue.run_of_finish (server : Server ω α τ) {hook : Dialogue ω α κ} {memory : ω}
    {result : κ} (hhook : hook = .finish memory result) (target : τ) :
    hook.run server target = some ⟨result, target, memory⟩ := by
  rw [hhook, run_finish]

/-- The lock is taken and given up again in the normal course of things. -/
inductive Lock.Passes (lock : Lock ω σ) (state : σ) (memory : ω) (next : σ) (after : ω) : Prop
  | intro {granted : σ} {middle : ω}
      (hacquire : lock.acquire state memory = (.granted granted, middle))
      (hrelease : lock.release .orderly granted middle = (next, after)) :
      Passes lock state memory next after

theorem Lock.Passes.free {lock : Lock ω σ} {held : σ → Prop} (proper : lock.Proper held)
    {state next : σ} {memory after : ω} (h : lock.Passes state memory next after) : ¬ held next := by
  cases h with
  | @intro granted middle hacquire hrelease =>
    have hfree := proper.released .orderly middle (proper.granted hacquire).2
    rw [hrelease] at hfree
    exact hfree

namespace Operation

variable [Journal ω] (lock : Lock ω σ) (hooks : Hooks ω α)
  (server : Server ω α (Cell σ (Chain α))) (size : Nat) {cell : Cell σ (Chain α)} {memory : ω}

/-- An addition that succeeds puts what its copy hook handed over behind all that is there when the
hook is done. -/
theorem contents_of_add {value : α} {outcome : Outcome (Ending (Reply α)) (Cell σ (Chain α)) ω}
    (hrun : ((add value).routine size).run lock hooks server cell memory = some outcome)
    (hdone : outcome.result = .value .done)
    {copied : Outcome (Ending α) (Cell σ (Chain α)) ω}
    (hcopy : (hooks.copy value memory).run server cell = some copied) :
    ∃ stored, copied.result = .value stored ∧
      outcome.target.value.toList = copied.target.value.toList ++ [stored] := by
  obtain ⟨ending, ⟨state, chain⟩, left⟩ := copied
  simp only [routine, Routine.add, Routine.bind_eq, Routine.copyOf, Routine.bind, Routine.run,
    hcopy] at hrun
  cases ending with
  | value stored =>
    refine ⟨stored, rfl, ?_⟩
    rcases hattempt : lock.acquire state left with ⟨granted | ⟨cause, refused⟩ | _, after⟩
    · simp only [Routine.bind, Routine.askLock, Routine.run, hattempt] at hrun
      cases hrun
      exact Chain.toList_append chain _
    · simp only [Routine.bind, Routine.askLock, Routine.run, hattempt, Routine.note,
        Routine.disposalOf] at hrun
      split at hrun
      · cases hrun
      · case h_2 disposed hdispose =>
        obtain ⟨⟨value, _ | text⟩, target, last⟩ := disposed
        · cases hrun
          cases hdone
        · cases hrun
          cases hdone
    · simp [Routine.run, hattempt] at hrun
  | error cause =>
    cases hrun
    cases hdone
  | panicked text =>
    cases hrun
    cases hdone

/-- A removal runs its dispose hook on the list without the element and with the lock given up. -/
theorem run_remove_of_disposed {index : Nat} {node : Node α} {rest : Chain α}
    (hunlink : cell.value.unlink? index = some (node, rest)) {next : σ} {after : ω}
    (hpasses : lock.Passes cell.lock memory next after)
    {disposed : Outcome (Residue α) (Cell σ (Chain α)) ω}
    (hdispose : (hooks.dispose node.value after).run server ⟨next, rest⟩ = some disposed) :
    ∃ left, ((remove index).routine size).run lock hooks server cell memory =
      some ⟨disposed.result.followedBy (.value .done), disposed.target, left⟩ := by
  obtain ⟨hacquire, hrelease⟩ := hpasses
  obtain ⟨⟨left, _ | text⟩, target, last⟩ := disposed
  · refine ⟨Journal.record (.unlinked index) last, ?_⟩
    simp [routine, Routine.remove, Routine.detach, Routine.run, hacquire, hunlink, Ending.manner,
      hrelease, hdispose, Residue.ending, Residue.followedBy]
  · refine ⟨last, ?_⟩
    simp [routine, Routine.remove, Routine.detach, Routine.run, hacquire, hunlink, Ending.manner,
      hrelease, hdispose, Residue.ending, Residue.followedBy]

theorem run_add_of_refused {value stored : α} {middle : Cell σ (Chain α)} {copied : ω}
    (hcopy : (hooks.copy value memory).run server cell = some ⟨.value stored, middle, copied⟩)
    {cause : LockError} {next : σ} {after : ω}
    (hacquire : lock.acquire middle.lock copied = (.refused cause next, after))
    {disposed : Outcome (Residue α) (Cell σ (Chain α)) ω}
    (hdispose : (hooks.dispose stored (Journal.record (.additionRefused cause) after)).run server
      ⟨next, middle.value⟩ = some disposed) :
    ((add value).routine size).run lock hooks server cell memory =
      some ⟨disposed.result.followedBy (.error (.lock cause)), disposed.target,
        disposed.memory⟩ := by
  obtain ⟨⟨left, _ | text⟩, target, last⟩ := disposed
  · simp [routine, Routine.add, Routine.run, hcopy, hacquire, hdispose, Residue.ending,
      Residue.followedBy]
  · simp [routine, Routine.add, Routine.run, hcopy, hacquire, hdispose, Residue.ending,
      Residue.followedBy]

theorem run_releaseValue_of_disposed {value : α}
    {disposed : Outcome (Residue α) (Cell σ (Chain α)) ω}
    (hdispose : (hooks.dispose value memory).run server cell = some disposed) :
    ((releaseValue value).routine size).run lock hooks server cell memory =
      some ⟨disposed.result.followedBy (.value (.released disposed.result.value)), disposed.target,
        disposed.memory⟩ := by
  obtain ⟨⟨left, _ | text⟩, target, last⟩ := disposed
  · simp [routine, Routine.releaseValue, Routine.run, hdispose, Residue.ending, Residue.followedBy]
  · simp [routine, Routine.releaseValue, Routine.run, hdispose, Residue.ending, Residue.followedBy]

end Operation

/-- Where there is an element it can be taken out, and the rest is what stays. -/
theorem Chain.exists_unlink? {chain rest : Chain α} {index : Nat} {element : α}
    (helement : chain.toList[index]? = some element)
    (hrest : rest.toList = chain.toList.eraseIdx index) :
    ∃ node, chain.unlink? index = some (node, rest) ∧ node.value = element := by
  cases hunlink : chain.unlink? index with
  | none =>
    have hnone := List.getElem?_eq_none (unlink?_eq_none_iff.1 hunlink)
    cases hnone.symm.trans helement
  | some detached =>
    obtain ⟨node, rest'⟩ := detached
    obtain ⟨hvalue, -, hrest'⟩ := unlink?_eq_some hunlink
    obtain rfl := toList_injective (hrest.trans hrest'.symm)
    exact ⟨node, rfl, Option.some.inj (hvalue.symm.trans helement)⟩

/-- The list with its lock in another state and with other elements. -/
def withCell (list : GuardedList ω σ α) (cell : Cell σ (Chain α)) : GuardedList ω σ α :=
  { list with cell := some cell }

theorem eq_withCell {list : GuardedList ω σ α} {cell : Cell σ (Chain α)}
    (hcell : list.cell = some cell) : list = list.withCell cell := by
  obtain ⟨size, lock, _, hooks?⟩ := list
  cases hcell
  rfl

/-- What was done to the lock and the elements of a list, as done to the list. -/
def Outcome.within (list : GuardedList ω σ α) (outcome : Outcome ρ (Cell σ (Chain α)) ω) :
    Outcome ρ (GuardedList ω σ α) ω :=
  ⟨outcome.result, list.withCell outcome.target, outcome.memory⟩

/-- What comes to the same on the lock and the elements of a list comes to the same on the list. -/
theorem Outcome.Alike.within {R : ω → ω → Prop} {outcome outcome' : Outcome ρ (Cell σ (Chain α)) ω}
    (h : outcome.Alike Eq R outcome') (list : GuardedList ω σ α) :
    (outcome.within list).Alike Eq R (outcome'.within list) :=
  ⟨h.result, congrArg list.withCell h.target, h.memory⟩

theorem rel_map_within {R : ω → ω → Prop} (list : GuardedList ω σ α)
    {outcome? outcome'? : Option (Outcome ρ (Cell σ (Chain α)) ω)}
    (h : Option.Rel (Outcome.Alike Eq R) outcome? outcome'?) :
    Option.Rel (Outcome.Alike Eq R) (outcome?.map (Outcome.within list))
      (outcome'?.map (Outcome.within list)) := by
  cases h with
  | none => exact .none
  | some h => exact .some (h.within list)

section Live

variable [Journal ω] (depth : Nat) {list : GuardedList ω σ α} {cell : Cell σ (Chain α)}
  {hooks : Hooks ω α} (hcell : list.cell = some cell) (hhooks : list.hooks = some hooks)

include hcell hhooks

/-- An operation on a list in use is its routine, run on the lock and the elements. -/
theorem serve_of_live (operation : Operation α) (memory : ω) :
    serve (depth + 1) operation list memory =
      ((operation.routine list.elementSize).run list.backend hooks
        (Operation.serve list.backend hooks list.elementSize (depth + 1)) cell memory).map
          (Outcome.within list) := by
  obtain ⟨size, lock, _, _⟩ := list
  cases hcell
  cases hhooks
  rfl

theorem serve_eq_of_run {operation : Operation α} {memory : ω}
    {done : Outcome (Ending (Reply α)) (Cell σ (Chain α)) ω}
    (hrun : (operation.routine list.elementSize).run list.backend hooks
      (Operation.serve list.backend hooks list.elementSize (depth + 1)) cell memory = some done) :
    serve (depth + 1) operation list memory = some (done.within list) := by
  rw [serve_of_live depth hcell hhooks, hrun, Option.map_some]

/-- A program on a list in use is a program on its lock and its elements. -/
theorem run_of_live (program : Dialogue ω α ρ) :
    program.run (serve depth) list =
      (program.run (Operation.serve list.backend hooks list.elementSize (depth + 1)) cell).map
        (Outcome.within list) := by
  obtain ⟨size, lock, _, _⟩ := list
  cases hcell
  cases hhooks
  induction program generalizing cell with
  | finish memory result => rfl
  | call memory operation next ih =>
    simp only [Dialogue.run, serve]
    cases Operation.serve lock hooks size (depth + 1) operation cell memory with
    | none => rfl
    | some answer => exact ih answer.memory answer.result

/-- What a program did to a list in use it did to the lock and the elements. -/
theorem exists_of_run_eq_some {program : Dialogue ω α ρ}
    {inner : Outcome ρ (GuardedList ω σ α) ω}
    (hinner : program.run (serve depth) list = some inner) :
    ∃ done, program.run (Operation.serve list.backend hooks list.elementSize (depth + 1)) cell =
      some done ∧ done.within list = inner := by
  rw [run_of_live depth hcell hhooks] at hinner
  exact Option.map_eq_some_iff.1 hinner

theorem run_of_within {program : Dialogue ω α ρ} {result : ρ} {left : Cell σ (Chain α)} {memory : ω}
    (hrun : program.run (serve depth) list = some ⟨result, list.withCell left, memory⟩) :
    program.run (Operation.serve list.backend hooks list.elementSize (depth + 1)) cell =
      some ⟨result, left, memory⟩ := by
  obtain ⟨done, hdone, hwithin⟩ := exists_of_run_eq_some depth hcell hhooks hrun
  rw [hdone]
  obtain ⟨_, _, _⟩ := done
  cases hwithin
  rfl

end Live

/-- The calls that hooks make while the lock is not held take place one after another with the
operation whose hook it is. In each case a hook runs `program` in one session; in the other, set off
by primes, the hook ends at once with the same outcome, and the list's user runs the program, as
`program'` in a memory of that session. Where the program does not find the list as the operation
found it, `start` is what it finds. -/
structure Serializes [Journal ω] (R : ω → ω → Prop) (held : σ → Prop) (hooks : Hooks ω α)
    (depth : Nat) (list : GuardedList ω σ α) (cell : Cell σ (Chain α)) : Prop where
  /-- An addition whose copy hook runs a program is the program and then the addition, so what the
  program adds stands before the new element. -/
  added {ρ : Type} {value : α} {memory : ω} {program program' : Dialogue ω α ρ}
    {close : ρ → ω → ω × Ending α} {inner : Outcome ρ (GuardedList ω σ α) ω}
    (hprogram : program.Alike R program') (hcopy : hooks.copy value memory = program.closing close)
    (hinner : program.run (serve depth) list = some inner) :
    let (left, ending) := close inner.result inner.memory
    ∃ inner', program'.run (serve depth) list = some inner' ∧ inner.Alike Eq R inner' ∧
      (∀ memory' left', hooks.copy value memory' = .finish left' ending → R left left' →
        Option.Rel (Outcome.Alike Eq R) (serve (depth + 1) (.add value) list memory)
          (serve (depth + 1) (.add value) inner'.target memory')) ∧
      ∀ outcome, serve (depth + 1) (.add value) list memory = some outcome →
        outcome.result = .value .done → ∃ stored, ending = .value stored ∧
          outcome.target.contents? = inner.target.contents?.map (· ++ [stored])
  /-- A removal whose dispose hook runs a program is the removal and then the program, which finds
  the list without the element. -/
  removed {ρ : Type} {index : Nat} {element : α} {rest : Chain α} {next : σ}
    {memory memory' after after' left' : ω} {program program' : Dialogue ω α ρ}
    {close : ρ → ω → ω × Residue α} {inner : Outcome ρ (GuardedList ω σ α) ω}
    (helement : cell.value.toList[index]? = some element)
    (hrest : rest.toList = cell.value.toList.eraseIdx index)
    (hpasses : list.backend.Passes cell.lock memory next after)
    (hpasses' : list.backend.Passes cell.lock memory' next after')
    (hprogram : program.Alike R program')
    (hdispose : hooks.dispose element after = program.closing close)
    (hinner : program.run (serve depth) (list.withCell ⟨next, rest⟩) = some inner)
    (hdispose' : hooks.dispose element after' =
      .finish left' (close inner.result inner.memory).2) :
    let residue := (close inner.result inner.memory).2
    let start := list.withCell ⟨next, rest⟩
    ¬ held next ∧ ∃ last last' inner',
      serve (depth + 1) (.remove index) list memory =
        some ⟨residue.followedBy (.value .done), inner.target, last⟩ ∧
      serve (depth + 1) (.remove index) list memory' =
        some ⟨residue.followedBy (.value .done), start, last'⟩ ∧
      program'.run (serve depth) start = some inner' ∧ inner.Alike Eq R inner'
  /-- An addition that is refused and whose dispose hook runs a program is the refused addition and
  then the program. -/
  refused {ρ : Type} {value stored : α} {middle : Cell σ (Chain α)} {cause : LockError} {next : σ}
    {memory memory' copied copied' after after' left' : ω} {program program' : Dialogue ω α ρ}
    {close : ρ → ω → ω × Residue α} {inner : Outcome ρ (GuardedList ω σ α) ω}
    (hcopy : (hooks.copy value memory).run (serve depth) list =
      some ⟨.value stored, list.withCell middle, copied⟩)
    (hcopy' : (hooks.copy value memory').run (serve depth) list =
      some ⟨.value stored, list.withCell middle, copied'⟩)
    (hattempt : list.backend.acquire middle.lock copied = (.refused cause next, after))
    (hattempt' : list.backend.acquire middle.lock copied' = (.refused cause next, after'))
    (hprogram : program.Alike R program')
    (hdispose : hooks.dispose stored (Journal.record (.additionRefused cause) after) =
      program.closing close)
    (hinner : program.run (serve depth) (list.withCell ⟨next, middle.value⟩) = some inner)
    (hdispose' : hooks.dispose stored (Journal.record (.additionRefused cause) after') =
      .finish left' (close inner.result inner.memory).2) :
    let (left, residue) := close inner.result inner.memory
    let start := list.withCell ⟨next, middle.value⟩
    ¬ held next ∧ ∃ inner',
      serve (depth + 1) (.add value) list memory =
        some ⟨residue.followedBy (.error (.lock cause)), inner.target, left⟩ ∧
      serve (depth + 1) (.add value) list memory' =
        some ⟨residue.followedBy (.error (.lock cause)), start, left'⟩ ∧
      program'.run (serve depth) start = some inner' ∧ inner.Alike Eq R inner'
  /-- A disposal of a caller's value whose hook runs a program comes to what the program comes to.
  -/
  released {ρ : Type} {value : α} {memory : ω} {program program' : Dialogue ω α ρ}
    {close : ρ → ω → ω × Residue α} {inner : Outcome ρ (GuardedList ω σ α) ω}
    (hprogram : program.Alike R program')
    (hdispose : hooks.dispose value memory = program.closing close)
    (hinner : program.run (serve depth) list = some inner) :
    let (left, residue) := close inner.result inner.memory
    ∃ inner',
      serve (depth + 1) (.releaseValue value) list memory =
        some ⟨residue.followedBy (.value (.released residue.value)), inner.target, left⟩ ∧
      program'.run (serve depth) list = some inner' ∧ inner.Alike Eq R inner'

section Serializes

variable [Journal ω] {R : ω → ω → Prop} {held : σ → Prop} {hooks : Hooks ω α}
  {list : GuardedList ω σ α} {cell : Cell σ (Chain α)}

/-- Two additions come to the same when their copy hooks do, since that is where they begin. -/
theorem Operation.rel_run_add {lock : Lock ω σ} (hlock : lock.Alike R lock)
    (hsame : hooks.Alike R hooks) (hrecord : Journal.Alike R) (size depth : Nat) {value : α}
    {cell cell' : Cell σ (Chain α)} {memory memory' : ω}
    {copied copied' : Outcome (Ending α) (Cell σ (Chain α)) ω}
    (hcopied : (hooks.copy value memory).run (serve lock hooks size (depth + 1)) cell = some copied)
    (hcopied' : (hooks.copy value memory').run (serve lock hooks size (depth + 1)) cell' =
      some copied')
    (halike : copied.Alike Eq R copied') :
    Option.Rel (Outcome.Alike Eq R)
      (((add value).routine size).run lock hooks (serve lock hooks size (depth + 1)) cell memory)
      (((add value).routine size).run lock hooks (serve lock hooks size (depth + 1)) cell'
        memory') := by
  obtain ⟨next, hnext⟩ : ∃ next, (add value).routine size = .copy value next := ⟨_, rfl⟩
  simp only [hnext, Routine.run, hcopied, hcopied', halike.result, halike.target]
  exact Routine.run_alike hlock hsame hrecord (serve_alike hlock hsame hrecord size (depth + 1)) _ _
    halike.memory

/-- The same program comes to the same, whether a hook runs it or the list's user. -/
theorem exists_rerun (hlock : list.backend.Alike R list.backend) (hsame : hooks.Alike R hooks)
    (hrecord : Journal.Alike R) (hhooks : list.hooks = some hooks) {start : GuardedList ω σ α}
    (hstart : start = list.withCell cell) {depth : Nat} {program program' : Dialogue ω α ρ}
    (hprogram : program.Alike R program') {inner : Outcome ρ (GuardedList ω σ α) ω}
    (hinner : program.run (serve depth) start = some inner) :
    ∃ done done', done.within list = inner ∧
      program.run (Operation.serve list.backend hooks list.elementSize (depth + 1)) cell =
        some done ∧
      program'.run (serve depth) start = some (done'.within list) ∧ done.Alike Eq R done' := by
  have halikes := Operation.serve_alike hlock hsame hrecord list.elementSize (depth + 1)
  have hcell : start.cell = some cell := by rw [hstart, withCell]
  have hlive : start.hooks = some hooks := by rw [hstart, withCell, hhooks]
  subst hstart
  obtain ⟨done, hdone, hwithin⟩ := exists_of_run_eq_some depth hcell hlive hinner
  obtain ⟨done', hdone', halike⟩ := exists_of_rel (hprogram.run halikes (Eq.refl cell)) hdone
  refine ⟨done, done', hwithin, hdone, ?_, halike⟩
  rw [run_of_live depth hcell hlive]
  exact congrArg (Option.map _) hdone'

/-- Whatever a hook runs while the operation that called it does not hold the lock, it runs before
or after that operation. -/
theorem serializes (proper : list.backend.Proper held) (hlock : list.backend.Alike R list.backend)
    (hsame : hooks.Alike R hooks) (hrecord : Journal.Alike R) (hcell : list.cell = some cell)
    (hhooks : list.hooks = some hooks) (hfree : ¬ held cell.lock) (depth : Nat) :
    Serializes R held hooks depth list cell where
  added {ρ value memory program program' close inner} hprogram hcopy hinner := by
    obtain ⟨done, done', rfl, hdone, hrerun, halike⟩ :=
      exists_rerun hlock hsame hrecord hhooks (eq_withCell hcell) hprogram hinner
    -- From here on the addition knows of the program only what the hook hands over.
    have hcopied := Dialogue.run_of_closing hcopy hdone
    refine ⟨done'.within list, hrerun, halike.within list, ?_, ?_⟩
    · intro memory' left' hplain hleft
      have hcopied' := Dialogue.run_of_finish
        (Operation.serve list.backend hooks list.elementSize (depth + 1)) hplain done'.target
      have hlist' : (done'.within list).target.cell = some done'.target := rfl
      rw [serve_of_live depth hcell hhooks, serve_of_live depth hlist' hhooks]
      exact rel_map_within list (Operation.rel_run_add hlock hsame hrecord list.elementSize depth
        hcopied hcopied' ⟨rfl, halike.target, hleft⟩)
    · intro outcome houtcome hresult
      rw [serve_of_live depth hcell hhooks, Option.map_eq_some_iff] at houtcome
      obtain ⟨last, hlast, rfl⟩ := houtcome
      obtain ⟨stored, hstored, hcontents⟩ :=
        Operation.contents_of_add _ _ _ _ hlast hresult hcopied
      refine ⟨stored, hstored, ?_⟩
      simp only [Outcome.within, contents?, withCell, Option.map_some, hcontents]
  removed {ρ index element rest next memory memory' after after' left' program program' close inner}
      helement hrest hpasses hpasses' hprogram hdispose hinner hdispose' := by
    obtain ⟨done, done', rfl, hdone, hrerun, halike⟩ :=
      exists_rerun hlock hsame hrecord hhooks rfl hprogram hinner
    obtain ⟨node, hunlink, rfl⟩ := Chain.exists_unlink? helement hrest
    have hdisposed := Dialogue.run_of_closing hdispose hdone
    obtain ⟨last, hlast⟩ := Operation.run_remove_of_disposed list.backend hooks _ list.elementSize
      hunlink hpasses hdisposed
    have hdisposed' := Dialogue.run_of_finish
      (Operation.serve list.backend hooks list.elementSize (depth + 1)) hdispose' ⟨next, rest⟩
    obtain ⟨last', hlast'⟩ := Operation.run_remove_of_disposed list.backend hooks _ list.elementSize
      hunlink hpasses' hdisposed'
    have hremove := serve_eq_of_run depth hcell hhooks hlast
    have hremove' := serve_eq_of_run depth hcell hhooks hlast'
    exact ⟨hpasses.free proper, last, last', done'.within list, hremove, hremove', hrerun,
      halike.within list⟩
  refused {ρ value stored middle cause next memory memory' copied copied' after after' left' program
      program' close inner} hcopy hcopy' hattempt hattempt' hprogram hdispose hinner hdispose' := by
    obtain ⟨done, done', rfl, hdone, hrerun, halike⟩ :=
      exists_rerun hlock hsame hrecord hhooks rfl hprogram hinner
    have hcopied := run_of_within depth hcell hhooks hcopy
    have hcopied' := run_of_within depth hcell hhooks hcopy'
    -- The copy hook may have called the list as well, but has left the lock as it was.
    have hmiddle : ¬ held middle.lock := by
      rw [Dialogue.restores_of_run (Operation.restores_serve proper _ _) hcopied]
      exact hfree
    have hdisposed := Dialogue.run_of_closing hdispose hdone
    have hdisposed' := Dialogue.run_of_finish
      (Operation.serve list.backend hooks list.elementSize (depth + 1)) hdispose'
        ⟨next, middle.value⟩
    have hadd := serve_eq_of_run depth hcell hhooks
      (Operation.run_add_of_refused _ _ _ _ hcopied hattempt hdisposed)
    have hadd' := serve_eq_of_run depth hcell hhooks
      (Operation.run_add_of_refused _ _ _ _ hcopied' hattempt' hdisposed')
    exact ⟨proper.spared hmiddle hattempt, done'.within list, hadd, hadd', hrerun,
      halike.within list⟩
  released {ρ value memory program program' close inner} hprogram hdispose hinner := by
    obtain ⟨done, done', rfl, hdone, hrerun, halike⟩ :=
      exists_rerun hlock hsame hrecord hhooks (eq_withCell hcell) hprogram hinner
    have hdisposed := Dialogue.run_of_closing hdispose hdone
    have hrelease := serve_eq_of_run depth hcell hhooks
      (Operation.run_releaseValue_of_disposed _ _ _ _ hdisposed)
    exact ⟨done'.within list, hrelease, hrerun, halike.within list⟩

end Serializes

/-- A memory that says how many more copies and disposals call the list back. -/
structure Countdown where
  copies : Nat := 0
  disposals : Nat := 0
  messages : List Message := []

instance : Journal Countdown where
  record message memory := { memory with messages := message :: memory.messages }

/-- The same number of calls are to come. -/
def Countdown.Agrees (memory memory' : Countdown) : Prop :=
  memory.copies = memory'.copies ∧ memory.disposals = memory'.disposals

/-- The program that adds one value. -/
def adding (value : Nat) (memory : Countdown) : Dialogue Countdown Nat (Ending (Reply Nat)) :=
  .call memory (.add value) fun memory answer => .finish memory answer

/-- Hooks that add to the list before they do what they are for. -/
def Hooks.counting : Hooks Countdown Nat where
  copy source memory :=
    match memory.copies with
    | 0 => .finish memory (.value source)
    | copies + 1 => (adding (source + 1) { memory with copies }).closing fun _ memory =>
      (memory, .value source)
  dispose value memory :=
    match memory.disposals with
    | 0 => .finish memory { value }
    | disposals + 1 => (adding (value + 10) { memory with disposals }).closing fun _ memory =>
      (memory, { value })

theorem alike_adding (value : Nat) {memory memory' : Countdown} (h : memory.Agrees memory') :
    (adding value memory).Alike Countdown.Agrees (adding value memory') :=
  .call h _ fun _ _ answer hleft => .finish hleft answer

theorem Hooks.alike_counting : Hooks.counting.Alike Countdown.Agrees Hooks.counting where
  copy {memory memory'} source h := by
    obtain ⟨copies, disposals, messages⟩ := memory
    obtain ⟨_, _, messages'⟩ := memory'
    obtain ⟨rfl, rfl⟩ := h
    cases copies with
    | zero => exact .finish ⟨rfl, rfl⟩ _
    | succ copies => exact .call ⟨rfl, rfl⟩ _ fun _ _ _ hleft => .finish hleft _
  dispose {memory memory'} value h := by
    obtain ⟨copies, disposals, messages⟩ := memory
    obtain ⟨_, _, messages'⟩ := memory'
    obtain ⟨rfl, rfl⟩ := h
    cases disposals with
    | zero => exact .finish ⟨rfl, rfl⟩ _
    | succ disposals => exact .call ⟨rfl, rfl⟩ _ fun _ _ _ hleft => .finish hleft _

/-- A list with these elements whose hooks call it back. -/
def countingList (lock : Lock Countdown σ) (state : σ) (chain : Chain Nat) :
    GuardedList Countdown σ Nat :=
  ⟨8, lock, some ⟨state, chain⟩, some Hooks.counting⟩

/-- Calls back on all three locks. On the one that can be poisoned there are two calls back from an
addition, one inside the other, and one each from a removal, an addition to a list whose lock is
poisoned, and the disposal of a caller's value. -/
theorem serializes_counting :
    let chain := Chain.link 5 (.link 6 .empty)
    let list := countingList Lock.poisoning {} chain
    let poisoned := countingList Lock.poisoning ⟨false, true⟩ chain
    Serializes Countdown.Agrees (·.held = true) Hooks.counting 1 (countingList Lock.spin {} chain)
      ⟨{}, chain⟩ ∧
    Serializes Countdown.Agrees (fun state => state.next = state.serving + 1) Hooks.counting 1
      (countingList Lock.ticket {} chain) ⟨{}, chain⟩ ∧
    (∃ inner', (adding 2 { copies := 1 }).run (serve 1) list = some inner' ∧
      inner'.target = countingList Lock.poisoning {} (.link 5 (.link 6 (.link 3 (.link 2 .empty)))) ∧
      Option.Rel (Outcome.Alike Eq Countdown.Agrees) (serve 2 (.add 1) list { copies := 2 })
        (serve 2 (.add 1) inner'.target {})) ∧
    (∃ last last' inner',
      serve 2 (.remove 0) list { disposals := 1 } =
        some ⟨.value .done, countingList Lock.poisoning {} (.link 6 (.link 15 .empty)), last⟩ ∧
      serve 2 (.remove 0) list {} =
        some ⟨.value .done, countingList Lock.poisoning {} (.link 6 .empty), last'⟩ ∧
      (adding 15 {}).run (serve 1) (countingList Lock.poisoning {} (.link 6 .empty)) = some inner' ∧
      inner'.target = countingList Lock.poisoning {} (.link 6 (.link 15 .empty))) ∧
    (∃ left left' inner',
      serve 2 (.add 1) poisoned { disposals := 1 } =
        some ⟨.error (.lock .poisoned), poisoned, left⟩ ∧
      serve 2 (.add 1) poisoned {} = some ⟨.error (.lock .poisoned), poisoned, left'⟩ ∧
      (adding 11 {}).run (serve 1) poisoned = some inner' ∧
      inner'.result = .error (.lock .poisoned)) ∧
    ∃ left inner',
      serve 2 (.releaseValue 7) list { disposals := 1 } =
        some ⟨.value (.released 7),
          countingList Lock.poisoning {} (.link 5 (.link 6 (.link 17 .empty))), left⟩ ∧
      (adding 17 {}).run (serve 1) list = some inner' ∧
      inner'.target = countingList Lock.poisoning {} (.link 5 (.link 6 (.link 17 .empty))) := by
  intro chain list poisoned
  have hrecord : Journal.Alike Countdown.Agrees := fun _ _ _ h => h
  have hserializes : ∀ state : Poisoning, state.held = false →
      Serializes Countdown.Agrees (·.held = true) Hooks.counting 1
        (countingList Lock.poisoning state chain) ⟨state, chain⟩ := fun state hfree =>
    serializes Lock.proper_poisoning (Lock.alike_poisoning hrecord) Hooks.alike_counting hrecord
      rfl rfl (by simp [hfree]) 1
  refine ⟨?_, ?_, ?_, ?_, ?_, ?_⟩
  · exact serializes (Lock.proper_ofPlain PlainMutex.lawful_flag) (Lock.alike_ofPlain _ _)
      Hooks.alike_counting hrecord rfl rfl (by simp) 1
  · exact serializes (Lock.proper_ofPlain PlainMutex.lawful_tickets) (Lock.alike_ofPlain _ _)
      Hooks.alike_counting hrecord rfl rfl (by simp) 1
  · have hcopy : Hooks.counting.copy 1 { copies := 2 } =
        (adding 2 { copies := 1 }).closing fun _ memory => (memory, .value 1) := rfl
    have hinner : (adding 2 { copies := 1 }).run (serve 1) list = some ⟨.value .done,
      countingList Lock.poisoning {} (.link 5 (.link 6 (.link 3 (.link 2 .empty)))),
      { messages := [.appended, .appended] }⟩ := rfl
    obtain ⟨inner', hinner', halike, hrel, -⟩ :=
      (hserializes {} rfl).added (alike_adding 2 ⟨rfl, rfl⟩) hcopy hinner
    exact ⟨inner', hinner', halike.target.symm, hrel _ _ rfl ⟨rfl, rfl⟩⟩
  · have hpasses : ∀ memory : Countdown, Lock.poisoning.Passes {} memory {} memory :=
      fun _ => .intro rfl rfl
    have helement : chain.toList[0]? = some 5 := rfl
    have hdispose : Hooks.counting.dispose 5 { disposals := 1 } =
        (adding 15 {}).closing fun _ memory => (memory, { value := 5 }) := rfl
    have hinner : (adding 15 {}).run (serve 1) (list.withCell ⟨{}, .link 6 .empty⟩) =
      some ⟨.value .done, countingList Lock.poisoning {} (.link 6 (.link 15 .empty)),
        { messages := [.appended] }⟩ := rfl
    obtain ⟨-, last, last', inner', hremove, hremove', hinner', halike⟩ :=
      (hserializes {} rfl).removed helement rfl (hpasses _) (hpasses {}) (alike_adding 15 ⟨rfl, rfl⟩)
        hdispose hinner rfl
    exact ⟨last, last', inner', hremove, hremove', hinner', halike.target.symm⟩
  · have hcopy : ∀ disposals, (Hooks.counting.copy 1 { disposals }).run (serve 1) poisoned =
      some ⟨.value 1, poisoned.withCell ⟨⟨false, true⟩, chain⟩, { disposals }⟩ := fun _ => rfl
    have hattempt : ∀ disposals, (Lock.poisoning : Lock Countdown Poisoning).acquire ⟨false, true⟩
        { disposals } = (.refused .poisoned ⟨false, true⟩,
          { disposals, messages := [.acquireRefused] }) := fun _ => rfl
    have hdispose : Hooks.counting.dispose 1
        { disposals := 1, messages := [.additionRefused .poisoned, .acquireRefused] } =
          (adding 11 { messages := [.additionRefused .poisoned, .acquireRefused] }).closing
            fun _ memory => (memory, { value := 1 }) := rfl
    have hinner : (adding 11 { messages := [.additionRefused .poisoned, .acquireRefused] }).run
        (serve 1) (poisoned.withCell ⟨⟨false, true⟩, chain⟩) =
      some ⟨.error (.lock .poisoned), poisoned, { messages := [.additionRefused .poisoned,
        .acquireRefused, .additionRefused .poisoned, .acquireRefused] }⟩ := rfl
    have hprogram : (adding 11 { messages := [.additionRefused .poisoned, .acquireRefused] }).Alike
        Countdown.Agrees (adding 11 {}) := alike_adding 11 ⟨rfl, rfl⟩
    obtain ⟨-, inner', hadd, hadd', hinner', halike⟩ :=
      (hserializes ⟨false, true⟩ rfl).refused (hcopy 1) (hcopy 0) (hattempt 1) (hattempt 0)
        hprogram hdispose hinner rfl
    exact ⟨_, _, inner', hadd, hadd', hinner', halike.result.symm⟩
  · have hdispose : Hooks.counting.dispose 7 { disposals := 1 } =
        (adding 17 {}).closing fun _ memory => (memory, { value := 7 }) := rfl
    have hinner : (adding 17 {}).run (serve 1) list =
      some ⟨.value .done, countingList Lock.poisoning {} (.link 5 (.link 6 (.link 17 .empty))),
        { messages := [.appended] }⟩ := rfl
    obtain ⟨inner', hrelease, hinner', halike⟩ :=
      (hserializes {} rfl).released (alike_adding 17 ⟨rfl, rfl⟩) hdispose hinner
    exact ⟨_, inner', hrelease, hinner', halike.target.symm⟩

end GuardedList
