import GuardedList.Proofs.TurnTaking

/-!
# Positions in reach

When threads with programs share a list, nobody can say where an element stands while others remove
some. But a list loses no more elements than removals were asked for, so the positions below what is
left then are there at every moment (`reached_of_follow`). Of the removals themselves only those
that came before count, so a removal reaches one position further than the others.
-/

namespace GuardedList

variable {ω σ α : Type}

namespace Operation

def isAdd : Operation α → Bool
  | add _ => true
  | _ => false

def isRemove : Operation α → Bool
  | remove _ => true
  | _ => false

/-- Whether a list of so many elements has what the operation asks for. -/
def Finds (length : Nat) : Operation α → Prop
  | remove index => index < length
  | get index => index < length
  | update index _ => index < length
  | _ => True

/-- Whether the operation asks for nothing that is missing when all removals have come first, and
left so many elements; a removal is the last one of them at worst. -/
def InReach (least : Nat) : Operation α → Prop
  | remove index => index ≤ least
  | get index => index < least
  | update index _ => index < least
  | _ => True

theorem InReach.finds {least length : Nat} {operation : Operation α} (h : operation.InReach least)
    (hleast : least + (if operation.isRemove then 1 else 0) ≤ length) : operation.Finds length := by
  cases operation with
  | remove index => exact Nat.lt_of_le_of_lt h hleast
  | get index => exact Nat.lt_of_lt_of_le h hleast
  | update index value => exact Nat.lt_of_lt_of_le h hleast
  | _ => trivial

end Operation

section Obliging

/-- Whether a hook did what it was called for. -/
def HookCall.succeeded : HookCall α → Bool
  | copied _ ending => ending.succeeded
  | disposed _ residue => residue.panic.isNone

theorem HookCall.panic?_of_succeeded {call : HookCall α} (h : call.succeeded = true) :
    call.panic? = none := by
  cases call with
  | copied source ending =>
    cases ending with
    | value copy => rfl
    | error cause => rfl
    | panicked text => cases h
  | disposed value residue => exact Option.isNone_iff_eq_none.1 h

/-- Hooks that neither fail nor panic. -/
structure Strategy.Obliging (strategy : Strategy α) : Prop where
  copy (past : List (HookCall α)) (source : α) : ∃ copy, strategy.copy past source = .value copy
  dispose (past : List (HookCall α)) (value : α) : (strategy.dispose past value).panic = none

theorem Strategy.obliging_replay {script : List (HookCall α)}
    (h : ∀ call ∈ script, call.succeeded = true) : (replay script).Obliging where
  copy past source :=
    copy_replay (fun ending => ∃ copy, ending = .value copy) (fun source => ⟨source, rfl⟩)
      (fun earlier ending hcall => by
        have hsucceeded := h _ hcall
        cases ending with
        | value copy => exact ⟨copy, rfl⟩
        | error cause => cases hsucceeded
        | panicked text => cases hsucceeded)
      past source
  dispose past value :=
    dispose_replay (·.panic = none) (fun _ => rfl)
      (fun _ _ hcall => Option.isNone_iff_eq_none.1 (h _ hcall)) past value

end Obliging

/-- What an operation comes to when only a missing element can keep it from being done. -/
structure Turn.Delivers (operation : Operation α) (elements : List α) (turn : Turn α) : Prop where
  succeeded : operation.Finds elements.length → turn.result.succeeded = true
  missing : ¬ operation.Finds elements.length → turn.result = .error .outOfRange
  length : turn.contents.length + (if operation.isRemove && turn.result.succeeded then 1 else 0) =
    elements.length + if operation.isAdd then 1 else 0

namespace Operation

variable {strategy : Strategy α} {elements : List α} {operation : Operation α}

/-- An operation that does not find its element does nothing. -/
theorem turn_of_not_finds (size : Nat) (past : List (HookCall α))
    (h : ¬ operation.Finds elements.length) :
    operation.turn strategy size (.ok ()) past elements = ⟨.error .outOfRange, elements, []⟩ := by
  have hmissing : ∀ {index}, ¬ index < elements.length → elements[index]? = none := fun hindex =>
    List.getElem?_eq_none (Nat.le_of_not_lt hindex)
  cases operation with
  | remove index => simp only [turn, Turn.locked, hmissing h]
  | get index => simp only [turn, Turn.locked, hmissing h]
  | update index value => simp only [turn, Turn.locked, hmissing h]
  | _ => exact absurd trivial h

/-- An operation that finds its element is done. -/
theorem delivers_of_finds (obliging : strategy.Obliging) (size : Nat) (past : List (HookCall α))
    (h : operation.Finds elements.length) :
    (operation.turn strategy size (.ok ()) past elements).Delivers operation elements := by
  have hfollowed : ∀ (past : List (HookCall α)) (value : α) (ending : Ending (Reply α)),
      (strategy.dispose past value).followedBy ending = ending := fun past value ending =>
    Residue.followedBy_of_calm (obliging.dispose past value) ending
  cases operation with
  | add value =>
    obtain ⟨stored, hcopy⟩ := obliging.copy past value
    have hturn : (add value).turn strategy size (.ok ()) past elements =
        ⟨.value .done, elements ++ [stored], [.copied value (.value stored)]⟩ := by
      simp only [turn, hcopy]
    rw [hturn]
    exact ⟨fun _ => rfl, fun hmissing => absurd h hmissing, List.length_append⟩
  | remove index =>
    have hindex : index < elements.length := h
    have hturn : (remove index).turn strategy size (.ok ()) past elements =
        ⟨.value .done, elements.eraseIdx index, [.disposed elements[index]
          (strategy.dispose past elements[index])]⟩ := by
      simp only [turn, Turn.locked, List.getElem?_eq_getElem hindex, hfollowed]
    rw [hturn]
    exact ⟨fun _ => rfl, fun hmissing => absurd h hmissing, List.length_eraseIdx_add_one hindex⟩
  | get index =>
    have hindex : index < elements.length := h
    obtain ⟨copy, hcopy⟩ := obliging.copy past elements[index]
    have hturn : (get index).turn strategy size (.ok ()) past elements =
        ⟨.value (.element copy), elements, [.copied elements[index] (.value copy)]⟩ := by
      simp only [turn, Turn.locked, List.getElem?_eq_getElem hindex, hcopy, Ending.map]
    rw [hturn]
    exact ⟨fun _ => rfl, fun hmissing => absurd h hmissing, rfl⟩
  | update index value =>
    have hindex : index < elements.length := h
    obtain ⟨copy, hcopy⟩ := obliging.copy past value
    obtain ⟨kept, calls, hturn⟩ : ∃ kept calls,
        (update index value).turn strategy size (.ok ()) past elements =
          ⟨.value .done, elements.set index kept, calls⟩ := by
      simp only [turn, Turn.locked, List.getElem?_eq_getElem hindex, hcopy, hfollowed]
      exact ⟨_, _, rfl⟩
    rw [hturn]
    exact ⟨fun _ => rfl, fun hmissing => absurd h hmissing, List.length_set⟩
  | releaseValue value =>
    have hresult : ((releaseValue value).turn strategy size (.ok ()) past elements).result =
        .value (.released (strategy.dispose past value).value) := hfollowed past value _
    refine ⟨fun _ => ?_, fun hmissing => absurd h hmissing, rfl⟩
    rw [hresult]
    rfl
  | length => exact ⟨fun _ => rfl, fun hmissing => absurd h hmissing, rfl⟩
  | isEmpty => exact ⟨fun _ => rfl, fun hmissing => absurd h hmissing, rfl⟩
  | isInitialized => exact ⟨fun _ => rfl, fun hmissing => absurd h hmissing, rfl⟩
  | elementSize => exact ⟨fun _ => rfl, fun hmissing => absurd h hmissing, rfl⟩

/-- Nothing but a missing element keeps an operation from being done on a lock that is granted, with
hooks that neither fail nor panic. -/
theorem delivers_turn (obliging : strategy.Obliging) (size : Nat) (past : List (HookCall α))
    (elements : List α) (operation : Operation α) :
    (operation.turn strategy size (.ok ()) past elements).Delivers operation elements := by
  by_cases hfinds : operation.Finds elements.length
  · exact delivers_of_finds obliging size past hfinds
  · rw [turn_of_not_finds size past hfinds]
    refine ⟨fun h => absurd h hfinds, fun _ => rfl, ?_⟩
    cases operation with
    | add value => exact absurd trivial hfinds
    | remove index => rfl
    | _ => rfl

end Operation

/-- What comes of turns of which so many remove something, when at least so many elements are left
by all removals. -/
structure Reached (least : Nat) (elements : List α)
    (turns : List (Commit (Operation α) × Turn α)) : Prop where
  inReach : ∀ pair ∈ turns, pair.1.call.InReach least → pair.2.result.succeeded = true
  others : ∀ pair ∈ turns, pair.2.result.succeeded = true ∨ pair.2.result = .error .outOfRange
  length : (elementsAfter elements turns).length +
      turns.countP (fun pair => pair.1.call.isRemove && pair.2.result.succeeded) =
    elements.length + turns.countP fun pair => pair.1.call.isAdd

/-- A list keeps what all removals together leave of it, whatever comes of each. -/
theorem reached_takeTurns {strategy : Strategy α} (obliging : strategy.Obliging) (size : Nat)
    {commits : List (Commit (Operation α))} {least : Nat} (past : List (HookCall α))
    {elements : List α}
    (hleast : least + commits.countP (·.call.isRemove) ≤ elements.length) :
    Reached least elements (takeTurns strategy size commits past elements) := by
  induction commits generalizing past elements with
  | nil => exact ⟨by simp [takeTurns], by simp [takeTurns], rfl⟩
  | cons commit commits ih =>
    obtain ⟨hsucceeded, hmissing, hlength⟩ :=
      commit.call.delivers_turn obliging size past elements
    rw [takeTurns]
    generalize commit.call.turn strategy size (.ok ()) past elements = turn at *
    rw [List.countP_cons] at hleast
    have hcost : (if commit.call.isRemove && turn.result.succeeded then 1 else 0) ≤
        if commit.call.isRemove then 1 else 0 := by
      cases commit.call.isRemove <;> cases turn.result.succeeded <;> decide
    have hrest : least + commits.countP (·.call.isRemove) ≤ turn.contents.length := by omega
    obtain ⟨hreach, hothers, hafter⟩ := ih (past ++ turn.calls) hrest
    refine ⟨?_, ?_, ?_⟩
    · intro pair hpair hin
      rcases List.mem_cons.1 hpair with rfl | hlater
      · have hcall : commit.call.InReach least := hin
        exact hsucceeded (hcall.finds (by omega))
      · exact hreach pair hlater hin
    · intro pair hpair
      rcases List.mem_cons.1 hpair with rfl | hlater
      · by_cases hfinds : commit.call.Finds elements.length
        · exact .inl (hsucceeded hfinds)
        · exact .inr (hmissing hfinds)
      · exact hothers pair hlater
    · rw [elementsAfter, List.foldl_cons, ← elementsAfter, List.countP_cons, List.countP_cons]
      dsimp only
      omega

section Threads

variable [Journal ω] {lock : Lock ω σ} {hooks : Hooks ω α} {held free intact : σ → Prop}
  {size : Nat} {start : Cell σ (Chain α)} {memory : ω} {programs : List (List (Operation α))}
  {schedule : List Nat} {moves : List (Nat × Move (Chain α) α (Operation α) (Reply α))}
  {pool : Pool ω σ (Chain α) α (Operation α) (Reply α)}

/-- Threads at rest are explained by turns that keep what all removals leave. -/
theorem exists_reached_of_follow (working : lock.Working held free intact)
    (hintact : intact start.lock) (answers : hooks.Answers (·.succeeded = true))
    (hremovals : programs.flatten.countP Operation.isRemove ≤ start.value.toList.length)
    (hfollow : (Pool.ofPlans start memory (programs.map Plan.inOrder)).follow
      ⟨lock, hooks, Operation.routine size⟩ schedule = some (moves, pool))
    (hidle : ∀ thread ∈ pool.threads, thread.running = none) :
    ∃ turns, InTurns start.value.toList turns moves pool ∧
      Reached (start.value.toList.length - programs.flatten.countP Operation.isRemove)
        start.value.toList turns := by
  obtain ⟨script, hscript, hturns⟩ := exists_inTurns_of_follow working hintact answers
    (fun call => call.panic?_of_succeeded) hfollow hidle
  refine ⟨_, hturns, reached_takeTurns (Strategy.obliging_replay hscript) size [] ?_⟩
  have hcount := (hturns.subperm_calls hfollow hidle).countP_le Operation.isRemove
  have hcommits := congrArg (List.countP (·.call.isRemove)) (map_fst_takeTurns (.replay script) size
    (Log.ofMoves moves).commits [] start.value.toList)
  rw [List.countP_map] at hcount hcommits
  rw [← hcommits]
  exact (Nat.add_le_add_left hcount _).trans (Nat.sub_add_cancel hremovals).le

/-- However threads with programs take turns, every operation whose position is left by all
removals succeeds, no operation ever fails except for a missing element, and in the end the list has
what was added and not what was removed. -/
theorem reached_of_follow (working : lock.Working held free intact) (hintact : intact start.lock)
    (silent : hooks.Silent) (answers : hooks.Answers (·.succeeded = true))
    (hremovals : programs.flatten.countP Operation.isRemove ≤ start.value.toList.length)
    (hfollow : (Pool.ofPlans start memory (programs.map Plan.inOrder)).follow
      ⟨lock, hooks, Operation.routine size⟩ schedule = some (moves, pool)) :
    ComesToEnd ⟨lock, hooks, Operation.routine size⟩ (10 * programs.flatten.length) moves pool ∧
    (∀ thread ∈ pool.threads, ∀ entry ∈ thread.history,
      (entry.1.InReach
          (start.value.toList.length - programs.flatten.countP Operation.isRemove) →
        entry.2.succeeded = true) ∧
      (entry.2.succeeded = true ∨ entry.2 = .error .outOfRange)) ∧
    ((∀ thread ∈ pool.threads, thread.isDone = true) →
      (∀ {index : Nat} {thread : Thread (Chain α) α (Operation α) (Reply α)}
        {program : List (Operation α)}, pool.threads[index]? = some thread →
          programs[index]? = some program → thread.history.reverse.map Prod.fst = program) ∧
      pool.cell.value.toList.length +
          (pool.threads.flatMap Thread.history).countP (fun entry =>
            entry.1.isRemove && entry.2.succeeded) =
        start.value.toList.length + programs.flatten.countP Operation.isAdd) := by
  refine ⟨?_, ?_, ?_⟩
  · exact comesToEnd_of_list_programs working hintact silent hfollow
  · -- Whatever has ended by now is history when all calls that were begun have ended.
    obtain ⟨longer, moves', last, hlast, -, hidle, hprecedes⟩ :=
      exists_rest_of_list working hintact silent hfollow
    obtain ⟨turns, hturns, hreached⟩ :=
      exists_reached_of_follow working hintact answers hremovals hlast hidle
    intro thread hmember entry hentry
    obtain ⟨pair, hpair, rfl⟩ := hturns.exists_turn (hprecedes.exists_grown hmember) hentry
    exact ⟨hreached.inReach pair hpair, hreached.others pair hpair⟩
  · intro hdone
    have hidle := Pool.idle_of_isDone hdone
    obtain ⟨turns, hturns, hreached⟩ :=
      exists_reached_of_follow working hintact answers hremovals hfollow hidle
    refine ⟨?_, ?_⟩
    · intro index thread program hthread hprogram
      exact calls_of_follow hfollow hprogram hthread (hdone thread (List.mem_of_getElem? hthread))
    · have hadded := (hturns.perm_calls_of_isDone hfollow hdone).countP_eq Operation.isAdd
      have hremoved := hturns.perm_history.countP_eq fun entry =>
        entry.1.isRemove && entry.2.succeeded
      rw [List.countP_map] at hadded hremoved
      have hlength := hreached.length
      rw [← hturns.left] at hlength
      rw [hremoved, ← hadded]
      exact hlength

/-- One of two elements is removed while another thread looks at both positions. The removal has the
last position in reach; the look at that position comes too late, and the one at the other position
does not. -/
theorem reached_of_follow_spin :
    (Lock.spin : Lock (List Message) Spin).Working (·.held = true) (·.held = false)
      (·.held = false) ∧
    (Hooks.clone : Hooks (List Message) Nat).Silent ∧
    (Hooks.clone : Hooks (List Message) Nat).Answers (·.succeeded = true) ∧
    let start : Cell Spin (Chain Nat) := ⟨{}, .link 7 (.link 8 .empty)⟩
    let setting : Setting (List Message) Spin (Chain Nat) Nat (Operation Nat) (Reply Nat) :=
      ⟨Lock.spin, .clone, Operation.routine 8⟩
    let programs : List (List (Operation Nat)) := [[.remove 1, .add 5], [.get 1, .get 0]]
    programs.flatten.countP Operation.isRemove ≤ start.value.toList.length ∧
    ∃ moves pool, (Pool.ofPlans start [] (programs.map Plan.inOrder)).follow setting
        [0, 0, 0, 0, 0, 1, 1, 1, 1, 1, 0, 0, 0, 0, 0, 1, 1, 1, 1, 1, 1, 0, 0, 0, 0, 0, 0] =
        some (moves, pool) ∧
      pool.threads.map (fun thread => thread.history.reverse.map (·.2.succeeded)) =
        [[true, true], [false, true]] ∧
      (∀ thread ∈ pool.threads, ∀ entry ∈ thread.history,
        (entry.1.InReach 1 → entry.2.succeeded = true) ∧
        (entry.2.succeeded = true ∨ entry.2 = .error .outOfRange)) ∧
      pool.cell.value.toList.length +
        (pool.threads.flatMap Thread.history).countP (fun entry =>
          entry.1.isRemove && entry.2.succeeded) = 3 := by
  have working : (Lock.spin : Lock (List Message) Spin).Working (·.held = true) (·.held = false)
      (·.held = false) := Lock.working_spin
  have answers : (Hooks.clone : Hooks (List Message) Nat).Answers (·.succeeded = true) :=
    ⟨fun h => by cases h; rfl, fun h => by cases h; rfl⟩
  refine ⟨working, Hooks.silent_clone, answers, ?_⟩
  intro start setting programs
  have hremovals : programs.flatten.countP Operation.isRemove ≤ start.value.toList.length := by
    decide
  have hrun : ((Pool.ofPlans start [] (programs.map Plan.inOrder)).follow setting
      [0, 0, 0, 0, 0, 1, 1, 1, 1, 1, 0, 0, 0, 0, 0, 1, 1, 1, 1, 1, 1, 0, 0, 0, 0, 0, 0]).map
        (fun (_, pool) => (pool.threads.all Thread.isDone,
          pool.threads.map fun thread => thread.history.reverse.map (·.2.succeeded))) =
      some (true, [[true, true], [false, true]]) := by decide +kernel
  simp only [Option.map_eq_some_iff, Prod.mk.injEq] at hrun
  obtain ⟨⟨moves, pool⟩, hfollow, hdone, hresults⟩ := hrun
  obtain ⟨-, hreached, hlength⟩ :=
    reached_of_follow working rfl Hooks.silent_clone answers hremovals hfollow
  exact ⟨hremovals, moves, pool, hfollow, hresults, hreached,
    (hlength (List.all_eq_true.1 hdone)).2⟩

end Threads

end GuardedList
