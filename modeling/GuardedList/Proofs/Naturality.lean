import GuardedList.Proofs.Session

/-!
# Change of values

A list moves its values about and never looks inside one. So when values are exchanged for others
and the hooks do with the new ones what they did with the old (`Strategy.Along`), a session stays
what it was, with the new values in place of the old (`session_map`).

Nothing of this is free, as it would be for a function of any type: it is shown of the routine of
each operation (`Routine.Follows`), and then of runs and of sessions.
-/

namespace GuardedList

variable {ω σ α α' β β' γ γ' : Type}

/-- The same disposal of another value. -/
def Residue.map (change : α → α') (residue : Residue α) : Residue α' :=
  ⟨change residue.value, residue.panic⟩

@[simp] theorem Residue.panic_map (change : α → α') (residue : Residue α) :
    (residue.map change).panic = residue.panic := rfl

@[simp] theorem Ending.manner_map (change : β → β') (ending : Ending β) :
    (ending.map change).manner = ending.manner := by
  cases ending <;> rfl

/-- The same hook call with other values. -/
def HookCall.map (change : α → α') : HookCall α → HookCall α'
  | copied source ending => copied (change source) (ending.map change)
  | disposed value residue => disposed (change value) (residue.map change)

/-- The same reply with other values. -/
def Reply.map (change : α → α') : Reply α → Reply α'
  | done => done
  | element value => element (change value)
  | count number => count number
  | flag holds => flag holds
  | released value => released (change value)

/-- The same operation with other values. -/
def Operation.map (change : α → α') : Operation α → Operation α'
  | add value => add (change value)
  | remove index => remove index
  | get index => get index
  | update index value => update index (change value)
  | length => length
  | isEmpty => isEmpty
  | releaseValue value => releaseValue (change value)
  | isInitialized => isInitialized
  | elementSize => elementSize

/-- The same step with other values. -/
def Step.map (change : α → α') : Step α → Step α'
  | call operation => call (operation.map change)
  | destroy => destroy

/-- The same episode with other values. -/
def Episode.map (change : α → α') (episode : Episode α) : Episode α' :=
  ⟨episode.step.map change, episode.before.map (List.map change),
    episode.result.map (Reply.map change), episode.calls.map (HookCall.map change),
    episode.after.map (List.map change)⟩

/-- The same memory with other values in its hook calls. -/
def Recorded.map (change : α → α') (memory : Recorded α ω) : Recorded α' ω :=
  ⟨memory.calls.map (HookCall.map change), memory.rest⟩

/-- The same lock with another value behind it. -/
def Cell.map (change : β → β') (cell : Cell σ β) : Cell σ β' := ⟨cell.lock, change cell.value⟩

namespace Chain

/-- The same chain with other values. -/
def map (change : α → α') : Chain α → Chain α'
  | empty => empty
  | link value next => link (change value) (next.map change)

@[simp] theorem toList_map (change : α → α') (chain : Chain α) :
    (chain.map change).toList = chain.toList.map change := by
  induction chain with
  | empty => rfl
  | link value next ih => simp [map, ih]

theorem append_map (change : α → α') (chain : Chain α) (value : α) :
    (chain.map change).append { value := change value } =
      (chain.append { value }).map change := by
  apply toList_injective
  simp

theorem count_map (change : α → α') (chain : Chain α) :
    (chain.map change).count = chain.count := by
  simp [count_eq]

theorem isEmpty_map (change : α → α') (chain : Chain α) :
    (chain.map change).isEmpty = chain.isEmpty := by
  cases chain <;> rfl

theorem node?_map (change : α → α') (chain : Chain α) (index : Nat) :
    (chain.map change).node? index =
      (chain.node? index).map fun node => ⟨change node.value, node.next.map change⟩ := by
  induction chain generalizing index with
  | empty => rfl
  | link value next ih =>
    cases index with
    | zero => rfl
    | succ index => exact ih index

theorem unlink?_map (change : α → α') (chain : Chain α) (index : Nat) :
    (chain.map change).unlink? index =
      (chain.unlink? index).map fun (node, rest) =>
        (⟨change node.value, node.next.map change⟩, rest.map change) := by
  induction chain generalizing index with
  | empty => rfl
  | link value next ih =>
    cases index with
    | zero => rfl
    | succ index =>
      simp only [map, unlink?, ih, Option.map_map]
      rfl

/-- What is written through the focus of a changed chain is what was written, changed. -/
theorem focus?_map (change : α → α') {chain : Chain α} {index : Nat} {focus : Focus α}
    (h : chain.focus? index = some focus) :
    ∃ write, (chain.map change).focus? index = some ⟨change focus.value, write⟩ ∧
      ∀ new, write (change new) = (focus.write new).map change := by
  induction chain generalizing index focus with
  | empty => simp [focus?] at h
  | link value next ih =>
    cases index with
    | zero =>
      obtain rfl := Option.some.inj h
      exact ⟨_, rfl, fun new => rfl⟩
    | succ index =>
      simp only [focus?, Option.map_eq_some_iff] at h
      obtain ⟨inner, hinner, rfl⟩ := h
      obtain ⟨write, hfocus, hwrite⟩ := ih hinner
      exact ⟨fun new => link (change value) (write new), by simp [map, focus?, hfocus],
        fun new => by simp [map, hwrite]⟩

theorem focus?_map_eq_none (change : α → α') {chain : Chain α} {index : Nat}
    (h : chain.focus? index = none) : (chain.map change).focus? index = none := by
  have hvalue := (chain.map change).value_focus? index
  have hnone := chain.value_focus? index
  rw [h, Option.map_none] at hnone
  rwa [toList_map, List.getElem?_map, ← hnone, Option.map_none, Option.map_eq_none_iff] at hvalue

end Chain

namespace Routine

/-- The second routine does with changed values what the first one does, and ends with the change of
its result. -/
inductive Follows (change : α → α') (result : β → β') :
    Routine (Chain α) α β → Routine (Chain α') α' β' → Prop
  | finish (ending : Ending β) :
      Follows change result (.finish ending) (.finish (ending.map result))
  | acquire {next : Except LockError Unit → Routine (Chain α) α β}
      {next' : Except LockError Unit → Routine (Chain α') α' β'}
      (h : ∀ answer, Follows change result (next answer) (next' answer)) :
      Follows change result (.acquire next) (.acquire next')
  | release (manner : Manner) {next : Routine (Chain α) α β} {next' : Routine (Chain α') α' β'}
      (h : Follows change result next next') :
      Follows change result (.release manner next) (.release manner next')
  | load {next : Chain α → Routine (Chain α) α β} {next' : Chain α' → Routine (Chain α') α' β'}
      (h : ∀ chain, Follows change result (next chain) (next' (chain.map change))) :
      Follows change result (.load next) (.load next')
  | store (chain : Chain α) {next : Routine (Chain α) α β} {next' : Routine (Chain α') α' β'}
      (h : Follows change result next next') :
      Follows change result (.store chain next) (.store (chain.map change) next')
  | copy (source : α) {next : Ending α → Routine (Chain α) α β}
      {next' : Ending α' → Routine (Chain α') α' β'}
      (h : ∀ ending, Follows change result (next ending) (next' (ending.map change))) :
      Follows change result (.copy source next) (.copy (change source) next')
  | dispose (value : α) {next : Residue α → Routine (Chain α) α β}
      {next' : Residue α' → Routine (Chain α') α' β'}
      (h : ∀ residue, Follows change result (next residue) (next' (residue.map change))) :
      Follows change result (.dispose value next) (.dispose (change value) next')
  | log (message : Message) {next : Routine (Chain α) α β} {next' : Routine (Chain α') α' β'}
      (h : Follows change result next next') :
      Follows change result (.log message next) (.log message next')

variable {change : α → α'} {result : β → β'} {result' : γ → γ'}
  {routine : Routine (Chain α) α β} {routine' : Routine (Chain α') α' β'}

theorem Follows.bind (h : Follows change result routine routine')
    {rest : β → Routine (Chain α) α γ} {rest' : β' → Routine (Chain α') α' γ'}
    (hrest : ∀ value, Follows change result' (rest value) (rest' (result value))) :
    Follows change result' (routine.bind rest) (routine'.bind rest') := by
  induction h with
  | finish ending =>
    cases ending with
    | value value => exact hrest value
    | error cause => exact .finish (.error cause)
    | panicked text => exact .finish (.panicked text)
  | acquire _ ih => exact .acquire ih
  | release manner _ ih => exact .release manner ih
  | load _ ih => exact .load ih
  | store chain _ ih => exact .store chain ih
  | copy source _ ih => exact .copy source ih
  | dispose value _ ih => exact .dispose value ih
  | log message _ ih => exact .log message ih

theorem Follows.releasing (h : Follows change result routine routine') :
    Follows change result routine.releasing routine'.releasing := by
  induction h with
  | finish ending =>
    rw [Routine.releasing, Routine.releasing, Ending.manner_map]
    exact .release _ (.finish ending)
  | acquire _ ih => exact .acquire ih
  | release manner _ ih => exact .release manner ih
  | load _ ih => exact .load ih
  | store chain _ ih => exact .store chain ih
  | copy source _ ih => exact .copy source ih
  | dispose value _ ih => exact .dispose value ih
  | log message _ ih => exact .log message ih

theorem Follows.holding (h : Follows change result routine routine') :
    Follows change result (holding routine) (holding routine') := by
  refine .acquire fun answer => ?_
  cases answer with
  | ok => exact h.releasing
  | error cause => exact .finish (.error (.lock cause))

theorem follows_fail (cause : ListError) :
    Follows change result (fail cause) (fail cause) := .finish (.error cause)

theorem follows_settle (residue : Residue α) :
    Follows change id (settle residue) (settle (residue.map change)) := by
  have h : Follows change id (settle residue) (.finish (residue.ending.map id)) := .finish _
  rcases residue with ⟨value, _ | text⟩ <;> exact h

variable (change)

theorem follows_add (value : α) : Follows change id (add value) (add (change value)) := by
  refine .copy value fun ending => ?_
  cases ending with
  | value stored =>
    refine .acquire fun answer => ?_
    cases answer with
    | ok =>
      refine .load fun chain => ?_
      have hrest : Follows change id (release .orderly (note .appended))
          (release .orderly (note .appended)) := .release _ (.log _ (.finish (.value ())))
      have hstore := hrest.store (chain.append { value := stored })
      rw [← Chain.append_map] at hstore
      exact hstore
    | error cause =>
      exact .log _ (.dispose stored fun residue =>
        (follows_settle residue).bind fun _ => follows_fail _)
  | error cause => exact .finish (.error cause)
  | panicked text => exact .finish (.panicked text)

theorem follows_detach (index : Nat) :
    Follows change (Option.map fun node : Node α => ⟨change node.value, node.next.map change⟩)
      (detach index) (detach index) := by
  refine Follows.holding (.load fun chain => ?_)
  simp only [Routine.bind, Chain.unlink?_map]
  cases chain.unlink? index with
  | none => exact .finish (.value none)
  | some detached => exact .store detached.2 (.finish (.value (some detached.1)))

theorem follows_remove (index : Nat) :
    Follows change id (remove index) (remove index) := by
  refine (follows_detach change index).bind fun detached => ?_
  cases detached with
  | none => exact follows_fail _
  | some node =>
    exact .dispose node.value fun residue => (follows_settle residue).bind fun _ =>
      .log _ (.finish (.value ()))

theorem follows_get (index : Nat) : Follows change change (get index) (get index) := by
  refine Follows.holding (.load fun chain => ?_)
  simp only [Routine.bind, Chain.node?_map]
  cases chain.node? index with
  | none => exact follows_fail _
  | some node => exact .copy node.value fun ending => .finish ending

theorem follows_update (index : Nat) (value : α) :
    Follows change id (update index value) (update index (change value)) := by
  refine Follows.holding (.load fun chain => ?_)
  simp only [Routine.bind]
  cases hfocus : chain.focus? index with
  | none =>
    rw [Chain.focus?_map_eq_none change hfocus]
    exact follows_fail _
  | some position =>
    obtain ⟨write, hfocus', hwrite⟩ := Chain.focus?_map change hfocus
    rw [hfocus']
    refine .copy value fun ending => ?_
    cases ending with
    | value replacement =>
      refine .dispose position.value fun residue => ?_
      have hreplaced : Follows change id (put (position.write replacement) |>.bind fun _ =>
          note (.replaced index)) (put (write (change replacement)) |>.bind fun _ =>
          note (.replaced index)) := by
        rw [hwrite]
        exact .store _ (.log _ (.finish (.value ())))
      have hleft : Follows change id
          (put (position.write residue.value) |>.bind fun _ => (settle residue).bind fun _ =>
            put (position.write replacement) |>.bind fun _ => note (.replaced index))
          (put (write (change residue.value)) |>.bind fun _ =>
            (settle (residue.map change)).bind fun _ =>
            put (write (change replacement)) |>.bind fun _ => note (.replaced index)) := by
        rw [hwrite residue.value]
        exact .store _ ((follows_settle residue).bind fun _ => hreplaced)
      exact hleft
    | error cause => exact .finish (.error cause)
    | panicked text => exact .finish (.panicked text)

theorem follows_length :
    Follows change id (length : Routine (Chain α) α Nat) (length : Routine (Chain α') α' Nat) := by
  refine Follows.holding (.load fun chain => ?_)
  simp only [Routine.bind, Chain.count_map]
  exact .finish (.value chain.count)

theorem follows_isEmpty :
    Follows change id (isEmpty : Routine (Chain α) α Bool)
      (isEmpty : Routine (Chain α') α' Bool) := by
  refine Follows.holding (.load fun chain => ?_)
  simp only [Routine.bind, Chain.isEmpty_map]
  exact .finish (.value chain.isEmpty)

theorem follows_releaseValue (value : α) :
    Follows change change (releaseValue value) (releaseValue (change value)) :=
  .dispose value fun residue => (follows_settle residue).bind fun _ =>
    .finish (.value residue.value)

end Routine

/-- The routine of an operation does the same with changed values. -/
theorem Operation.follows_routine (change : α → α') (operation : Operation α) (size : Nat) :
    Routine.Follows change (Reply.map change) (operation.routine size)
      ((operation.map change).routine size) := by
  have hreply : ∀ reply : Reply α, Routine.Follows change (Reply.map change)
      (Routine.finish (.value reply)) (Routine.finish (.value (reply.map change))) :=
    fun reply => .finish (.value reply)
  cases operation with
  | add value => exact (Routine.follows_add change value).bind fun _ => hreply .done
  | remove index => exact (Routine.follows_remove change index).bind fun _ => hreply .done
  | get index => exact (Routine.follows_get change index).bind fun value => hreply (.element value)
  | update index value =>
    exact (Routine.follows_update change index value).bind fun _ => hreply .done
  | length => exact (Routine.follows_length change).bind fun number => hreply (.count number)
  | isEmpty => exact (Routine.follows_isEmpty change).bind fun holds => hreply (.flag holds)
  | releaseValue value =>
    exact (Routine.follows_releaseValue change value).bind fun left => hreply (.released left)
  | isInitialized => exact hreply (.flag true)
  | elementSize => exact hreply (.count size)

/-- The second strategy does with changed values what the first one does. -/
structure Strategy.Along (change : α → α') (strategy : Strategy α) (strategy' : Strategy α') :
    Prop where
  copy (past : List (HookCall α)) (source : α) :
    strategy'.copy (past.map (HookCall.map change)) (change source) =
      (strategy.copy past source).map change
  dispose (past : List (HookCall α)) (value : α) :
    strategy'.dispose (past.map (HookCall.map change)) (change value) =
      (strategy.dispose past value).map change

section Run

variable {change : α → α'} {result : β → β'} {strategy : Strategy α} {strategy' : Strategy α'}

theorem Strategy.Along.disposeAll (along : strategy.Along change strategy')
    (past : List (HookCall α)) (values : List α) :
    strategy'.disposeAll (past.map (HookCall.map change)) (values.map change) =
      ((strategy.disposeAll past values).1,
        (strategy.disposeAll past values).2.map (HookCall.map change)) := by
  induction values generalizing past with
  | nil => rfl
  | cons value values ih =>
    have hnext := ih (past ++ [.disposed value (strategy.dispose past value)])
    simp only [List.map_append, List.map_cons, List.map_nil, HookCall.map] at hnext
    simp only [List.map_cons, Strategy.disposeAll, along.dispose, Residue.panic_map, hnext]
    cases (strategy.dispose past value).panic <;> rfl

/-- A run with changed values is the change of the run. -/
theorem Routine.Follows.run [Journal ω] {routine : Routine (Chain α) α β}
    {routine' : Routine (Chain α') α' β'} (h : Follows change result routine routine')
    (along : strategy.Along change strategy') (lock : Lock ω σ)
    {server : Server (Recorded α ω) α (Cell σ (Chain α))}
    (server' : Server (Recorded α' ω) α' (Cell σ (Chain α'))) {cell : Cell σ (Chain α)}
    {memory : Recorded α ω} {outcome : Outcome (Ending β) (Cell σ (Chain α)) (Recorded α ω)}
    (hrun : routine.run lock.recorded strategy.hooks server cell memory = some outcome) :
    routine'.run lock.recorded strategy'.hooks server' (cell.map (Chain.map change))
        (memory.map change) =
      some ⟨outcome.result.map result, outcome.target.map (Chain.map change),
        outcome.memory.map change⟩ := by
  have hcopy : ∀ (memory : Recorded α ω) source,
      strategy'.copy (memory.map change).calls (change source) =
        (strategy.copy memory.calls source).map change := fun memory => along.copy memory.calls
  have hdispose : ∀ (memory : Recorded α ω) value,
      strategy'.dispose (memory.map change).calls (change value) =
        (strategy.dispose memory.calls value).map change := fun memory => along.dispose memory.calls
  have hpush : ∀ (memory : Recorded α ω) call,
      (memory.map change).push (call.map change) = (memory.push call).map change := by
    intro memory call
    simp [Recorded.push, Recorded.map]
  induction h generalizing cell memory with
  | finish ending =>
    obtain rfl := Option.some.inj hrun
    rfl
  | acquire _ ih =>
    have hacquire : lock.recorded.acquire (cell.map (Chain.map change)).lock (memory.map change) =
        ((lock.recorded.acquire cell.lock memory).1,
          (lock.recorded.acquire cell.lock memory).2.map change) := rfl
    rw [Routine.run] at hrun ⊢
    rw [hacquire]
    generalize lock.recorded.acquire cell.lock memory = reply at hrun ⊢
    rcases reply with ⟨_ | _ | _, left⟩
    · exact ih _ hrun
    · exact ih _ hrun
    · cases hrun
  | release manner _ ih => exact ih hrun
  | load _ ih => exact ih _ hrun
  | store chain _ ih => exact ih hrun
  | copy source _ ih =>
    rw [Routine.run] at hrun ⊢
    simp only [Strategy.hooks, Dialogue.run, hcopy] at hrun ⊢
    rw [← ih _ hrun, ← hpush]
    rfl
  | dispose value _ ih =>
    rw [Routine.run] at hrun ⊢
    simp only [Strategy.hooks, Dialogue.run, hdispose] at hrun ⊢
    rw [← ih _ hrun, ← hpush]
    rfl
  | log message _ ih => exact ih hrun

/-- Two lists on one kind of lock, the second with the first one's values changed. -/
inductive Mirrors (change : α → α') (strategy : Strategy α) (strategy' : Strategy α')
    (lock : Lock ω σ) :
    GuardedList (Recorded α ω) σ α → GuardedList (Recorded α' ω) σ α' → Prop
  | live (size : Nat) (cell : Cell σ (Chain α)) :
      Mirrors change strategy strategy' lock ⟨size, lock.recorded, some cell, some strategy.hooks⟩
        ⟨size, lock.recorded, some (cell.map (Chain.map change)), some strategy'.hooks⟩
  | gone (size : Nat) (hooks : Option (Hooks (Recorded α ω) α))
      (hooks' : Option (Hooks (Recorded α' ω) α')) :
      Mirrors change strategy strategy' lock ⟨size, lock.recorded, none, hooks⟩
        ⟨size, lock.recorded, none, hooks'⟩

variable {lock : Lock ω σ} {list : GuardedList (Recorded α ω) σ α}
  {list' : GuardedList (Recorded α' ω) σ α'}

theorem Mirrors.contents (h : Mirrors change strategy strategy' lock list list') :
    list'.contents? = list.contents?.map (List.map change) := by
  cases h with
  | live size cell => simp [contents?, Cell.map]
  | gone size hooks hooks' => rfl

theorem Operation.afterDestroy_map (operation : Operation α) (size : Nat) :
    (operation.map change).afterDestroy size =
      (operation.afterDestroy size).map (Reply.map change) := by
  cases operation <;> rfl

variable [Journal ω]

/-- A step with changed values is the change of the step. -/
theorem Mirrors.perform (along : strategy.Along change strategy')
    (h : Mirrors change strategy strategy' lock list list') {depth : Nat} {step : Step α}
    {memory : Recorded α ω}
    {outcome : Outcome (Ending (Reply α)) (GuardedList (Recorded α ω) σ α) (Recorded α ω)}
    (hperform : perform depth step list memory = some outcome) :
    ∃ next, Mirrors change strategy strategy' lock outcome.target next ∧
      perform depth (step.map change) list' (memory.map change) =
        some ⟨outcome.result.map (Reply.map change), next, outcome.memory.map change⟩ := by
  cases h with
  | gone size hooks hooks' =>
    cases step with
    | call operation =>
      obtain rfl := Option.some.inj hperform
      refine ⟨_, .gone size hooks hooks', ?_⟩
      rw [← Operation.afterDestroy_map]
      rfl
    | destroy =>
      obtain rfl := Option.some.inj hperform
      exact ⟨_, .gone size none none, rfl⟩
  | live size cell =>
    cases step with
    | call operation =>
      simp only [GuardedList.perform, serve, Operation.serve, Option.map_eq_some_iff] at hperform
      obtain ⟨outcome, hrun, rfl⟩ := hperform
      refine ⟨_, .live size outcome.target, ?_⟩
      simp only [GuardedList.perform, Step.map, serve, Operation.serve]
      rw [(operation.follows_routine change size).run along lock _ hrun]
      rfl
    | destroy =>
      have hfreed := freeAll_eq_disposeAll strategy cell.value 0 memory.calls
        (lock.destroy cell.lock memory.rest)
      have hfreed' := freeAll_eq_disposeAll strategy' (cell.value.map change) 0
        (memory.map change).calls (lock.destroy cell.lock memory.rest)
      simp only [Chain.toList_map, Recorded.map, along.disposeAll, List.length_map,
        ← List.map_append] at hfreed'
      simp only [GuardedList.perform, Step.map, destroy, Cell.destroy, Lock.recorded, Cell.map,
        Recorded.map] at hperform ⊢
      rw [hfreed] at hperform
      rw [hfreed']
      generalize strategy.disposeAll memory.calls cell.value.toList = disposed at hperform ⊢
      rcases disposed with ⟨_ | text, calls⟩
      · obtain rfl := Option.some.inj hperform
        exact ⟨_, .gone size none none, rfl⟩
      · obtain rfl := Option.some.inj hperform
        exact ⟨_, .gone size _ _, rfl⟩

end Run

end GuardedList
