import Mathlib.Data.List.Forall2
import GuardedList.Proofs.Logging
import GuardedList.Proofs.Refinement
import GuardedList.Proofs.Simulation

/-!
# What disposals leave behind

A disposal may leave anything in the place of the value that it was given. Two lists whose hooks
differ in what their disposals leave, and in nothing else, cannot be told apart (`life_matches`):
they have the same elements after every step, hand the same values to their hooks and log the same
messages. Only a caller who lends a value for disposal gets to see what is left of it.

The two run side by side (`Routine.Beside`). While an update writes back what its disposal left, the
chains behind the two locks differ; nobody looks at them before the copy is written over it.
-/

namespace GuardedList

variable {ω σ τ π α : Type}

/-- The hook call without what a disposal left. -/
def HookCall.veiled : HookCall α → HookCall α
  | copied source ending => copied source ending
  | disposed value _ => disposed value { value }

/-- The reply without what the disposal of a caller's value left. -/
def Reply.veiled : Reply α → Reply α
  | released _ => done
  | reply => reply

/-- Hooks that copy alike, whatever disposals left before, and whose disposals never panic. -/
structure Strategy.DifferInResidues (strategy strategy' : Strategy α) : Prop where
  copy {past past' : List (HookCall α)} (source : α) :
    past.map HookCall.veiled = past'.map HookCall.veiled →
      strategy.copy past source = strategy'.copy past' source
  calm (past : List (HookCall α)) (value : α) : (strategy.dispose past value).panic = none
  calm' (past : List (HookCall α)) (value : α) : (strategy'.dispose past value).panic = none

/-- Endings that are the same but for what the disposal of a caller's value left. -/
def Ending.Matches (ending ending' : Ending (Reply α)) : Prop :=
  ending.map Reply.veiled = ending'.map Reply.veiled

/-- Memories that are the same but for what disposals left. -/
structure Recorded.Matches (memory memory' : Recorded α ω) : Prop where
  calls : memory.calls.map HookCall.veiled = memory'.calls.map HookCall.veiled
  rest : memory.rest = memory'.rest

/-- Outcomes that are the same but for what disposals left, with targets that `T` relates. -/
structure Outcome.Matches (T : τ → τ → Prop)
    (outcome outcome' : Outcome (Ending (Reply α)) τ (Recorded α ω)) : Prop where
  result : outcome.result.Matches outcome'.result
  target : T outcome.target outcome'.target
  memory : outcome.memory.Matches outcome'.memory

namespace Routine

/-- Two routines that make the same requests up to what disposals leave. The values behind their
locks may differ (`agree` is false) only from one write to another that makes them agree again, and
nobody reads them or gives the lock up meanwhile. -/
inductive Beside : Bool → Routine π α (Reply α) → Routine π α (Reply α) → Prop
  | finish {ending ending' : Ending (Reply α)} (hending : ending.Matches ending') :
      Beside true (.finish ending) (.finish ending')
  | acquire {next next' : Except LockError Unit → Routine π α (Reply α)}
      (hnext : ∀ answer, Beside true (next answer) (next' answer)) :
      Beside true (.acquire next) (.acquire next')
  | release (manner : Manner) {next next' : Routine π α (Reply α)}
      (hnext : Beside true next next') :
      Beside true (.release manner next) (.release manner next')
  | load {next next' : π → Routine π α (Reply α)}
      (hnext : ∀ value, Beside true (next value) (next' value)) :
      Beside true (.load next) (.load next')
  | store {agree : Bool} (value : π) {next next' : Routine π α (Reply α)}
      (hnext : Beside true next next') :
      Beside agree (.store value next) (.store value next')
  | spoil {agree : Bool} (value value' : π) {next next' : Routine π α (Reply α)}
      (hnext : Beside false next next') :
      Beside agree (.store value next) (.store value' next')
  | copy {agree : Bool} (source : α) {next next' : Ending α → Routine π α (Reply α)}
      (hnext : ∀ ending, Beside agree (next ending) (next' ending)) :
      Beside agree (.copy source next) (.copy source next')
  | dispose {agree : Bool} (value : α) {next next' : Residue α → Routine π α (Reply α)}
      (hnext : ∀ left left', Beside agree (next { value := left }) (next' { value := left' })) :
      Beside agree (.dispose value next) (.dispose value next')
  | log {agree : Bool} (message : Message) {next next' : Routine π α (Reply α)}
      (hnext : Beside agree next next') :
      Beside agree (.log message next) (.log message next')

end Routine

namespace Operation

theorem beside_add (value : α) (size : Nat) :
    Routine.Beside true ((add value).routine size) ((add value).routine size) := by
  refine .copy value fun ending => ?_
  cases ending with
  | value stored =>
    refine .acquire fun answer => ?_
    cases answer with
    | ok => exact .load fun chain => .store _ (.release _ (.log _ (.finish rfl)))
    | error cause => exact .log _ (.dispose stored fun left left' => .finish rfl)
  | error cause => exact .finish rfl
  | panicked text => exact .finish rfl

theorem beside_remove (index : Nat) (size : Nat) :
    Routine.Beside true ((remove index : Operation α).routine size)
      ((remove index : Operation α).routine size) := by
  refine .acquire fun answer => ?_
  cases answer with
  | ok =>
    refine .load fun chain => ?_
    cases hunlink : chain.unlink? index with
    | none =>
      simp only [Routine.bind, hunlink, Routine.pure_eq]
      exact .release _ (.finish rfl)
    | some detached =>
      simp only [Routine.bind, hunlink, Routine.put, Routine.pure_eq]
      exact .store _ (.release _ (.dispose _ fun left left' => .log _ (.finish rfl)))
  | error cause => exact .finish rfl

theorem beside_get (index : Nat) (size : Nat) :
    Routine.Beside true ((get index : Operation α).routine size)
      ((get index : Operation α).routine size) := by
  refine .acquire fun answer => ?_
  cases answer with
  | ok =>
    refine .load fun chain => ?_
    cases hnode : chain.node? index with
    | none =>
      simp only [Routine.bind, hnode, Routine.fail]
      exact .release _ (.finish rfl)
    | some node =>
      simp only [Routine.bind, hnode, Routine.copyOf]
      refine .copy _ fun ending => ?_
      cases ending <;> exact .release _ (.finish rfl)
  | error cause => exact .finish rfl

/-- The replaced element is written back as its disposal left it, and the copy goes over it before
anybody looks. -/
theorem beside_update (index : Nat) (value : α) (size : Nat) :
    Routine.Beside true ((update index value).routine size)
      ((update index value).routine size) := by
  refine .acquire fun answer => ?_
  cases answer with
  | ok =>
    refine .load fun chain => ?_
    cases hfocus : chain.focus? index with
    | none =>
      simp only [Routine.bind, hfocus, Routine.fail]
      exact .release _ (.finish rfl)
    | some position =>
      simp only [Routine.bind, hfocus, Routine.copyOf]
      refine .copy _ fun ending => ?_
      cases ending with
      | value replacement =>
        refine .dispose _ fun left left' => .spoil _ _ ?_
        exact .store _ (.log _ (.release _ (.finish rfl)))
      | error cause => exact .release _ (.finish rfl)
      | panicked text => exact .release _ (.finish rfl)
  | error cause => exact .finish rfl

/-- Every operation comes to the same whatever disposals leave. -/
theorem beside_routine (operation : Operation α) (size : Nat) :
    Routine.Beside true (operation.routine size) (operation.routine size) := by
  cases operation with
  | add value => exact beside_add value size
  | remove index => exact beside_remove index size
  | get index => exact beside_get index size
  | update index value => exact beside_update index value size
  | length =>
    refine .acquire fun answer => ?_
    cases answer with
    | ok => exact .load fun chain => .release _ (.finish rfl)
    | error cause => exact .finish rfl
  | isEmpty =>
    refine .acquire fun answer => ?_
    cases answer with
    | ok => exact .load fun chain => .release _ (.finish rfl)
    | error cause => exact .finish rfl
  | releaseValue value => exact .dispose _ fun left left' => .finish rfl
  | isInitialized => exact .finish rfl
  | elementSize => exact .finish rfl

end Operation

/-- All that a disposal without a panic leaves is a value. -/
theorem Residue.eq_of_calm {residue : Residue α} (h : residue.panic = none) :
    residue = { value := residue.value } := by
  cases residue
  cases h
  rfl

namespace Recorded.Matches

variable {memory memory' : Recorded α ω} {past past' : List (HookCall α)} {rest rest' : ω}

theorem refl (memory : Recorded α ω) : memory.Matches memory := ⟨rfl, rfl⟩

theorem push (h : (⟨past, rest⟩ : Recorded α ω).Matches ⟨past', rest'⟩) {call call' : HookCall α}
    (hcall : call.veiled = call'.veiled) :
    (⟨past ++ [call], rest⟩ : Recorded α ω).Matches ⟨past' ++ [call'], rest'⟩ where
  calls := by
    rw [List.map_append, List.map_append, h.calls, List.map_singleton, List.map_singleton, hcall]
  rest := h.rest

/-- As many hooks were called in the one memory as in the other. -/
theorem length_calls (h : memory.Matches memory') : memory.calls.length = memory'.calls.length := by
  simpa using congrArg List.length h.calls

end Recorded.Matches

/-- Two lists with the same elements behind locks in the same state, and hooks that follow two
strategies; or two lists that are destroyed. -/
inductive Twins (lock : Lock ω σ) (strategy strategy' : Strategy α) (size : Nat) :
    GuardedList (Recorded α ω) σ α → GuardedList (Recorded α ω) σ α → Prop
  | live (cell : Cell σ (Chain α)) : Twins lock strategy strategy' size
      ⟨size, lock.recorded, some cell, some strategy.hooks⟩
      ⟨size, lock.recorded, some cell, some strategy'.hooks⟩
  | gone (hooks hooks' : Option (Hooks (Recorded α ω) α)) : Twins lock strategy strategy' size
      ⟨size, lock.recorded, none, hooks⟩ ⟨size, lock.recorded, none, hooks'⟩

theorem Twins.contents {lock : Lock ω σ} {strategy strategy' : Strategy α} {size : Nat}
    {list list' : GuardedList (Recorded α ω) σ α}
    (h : Twins lock strategy strategy' size list list') : list.contents? = list'.contents? := by
  cases h <;> rfl

/-- Disposing of the same values is the same but for what is left of them. -/
theorem Strategy.DifferInResidues.disposeAll {strategy strategy' : Strategy α}
    (differ : strategy.DifferInResidues strategy')
    (past past' : List (HookCall α)) (values : List α) :
    (strategy.disposeAll past values).1 = none ∧ (strategy'.disposeAll past' values).1 = none ∧
      (strategy.disposeAll past values).2.map HookCall.veiled =
        (strategy'.disposeAll past' values).2.map HookCall.veiled := by
  induction values generalizing past past' with
  | nil => exact ⟨rfl, rfl, rfl⟩
  | cons value values ih =>
    obtain ⟨hnone, hnone', hcalls⟩ := ih (past ++ [.disposed value (strategy.dispose past value)])
      (past' ++ [.disposed value (strategy'.dispose past' value)])
    simp [Strategy.disposeAll, differ.calm, differ.calm', hnone, hnone', hcalls, HookCall.veiled]

/-- Lists are created as twins, or for the same reason not at all. -/
theorem twins_create (lock : Lock ω σ) (strategy strategy' : Strategy α) (size : Nat)
    (memory : Recorded α ω) :
    (∃ cause left, create lock.recorded strategy.hooks size memory = (.error cause, left) ∧
      create lock.recorded strategy'.hooks size memory = (.error cause, left)) ∨
    ∃ list list' left, create lock.recorded strategy.hooks size memory = (.ok list, left) ∧
      create lock.recorded strategy'.hooks size memory = (.ok list', left) ∧
      Twins lock strategy strategy' size list list' := by
  by_cases hsize : size = 0
  · refine .inl ⟨.invalidArgument, memory, ?_, ?_⟩ <;> rw [create, if_pos hsize]
  · simp only [create, if_neg hsize]
    rcases Cell.create lock.recorded (.empty : Chain α) memory with ⟨cause | cell, left⟩
    · exact .inl ⟨_, _, rfl, rfl⟩
    · exact .inr ⟨_, _, _, rfl, rfl, .live cell⟩

section Run

variable [Journal ω] {lock : Lock ω σ} {strategy strategy' : Strategy α}

/-- Routines beside each other come to the same, with hooks that differ in residues. -/
theorem Routine.Beside.run (differ : strategy.DifferInResidues strategy')
    {server server' : Server (Recorded α ω) α (Cell σ π)} {agree : Bool}
    {routine routine' : Routine π α (Reply α)} (h : Beside agree routine routine') {state : σ}
    {value value' : π} (hvalue : agree = true → value = value') {memory memory' : Recorded α ω}
    (hmemory : memory.Matches memory') :
    Option.Rel (Outcome.Matches Eq)
      (routine.run lock.recorded strategy.hooks server ⟨state, value⟩ memory)
      (routine'.run lock.recorded strategy'.hooks server' ⟨state, value'⟩ memory') := by
  induction h generalizing state value value' memory memory' with
  | finish hending =>
    obtain rfl := hvalue rfl
    exact .some ⟨hending, rfl, hmemory⟩
  | acquire _ ih =>
    simp only [Routine.run, Lock.recorded, ← hmemory.rest]
    rcases lock.acquire state memory.rest with ⟨next | ⟨cause, next⟩ | _, after⟩
    · exact ih _ hvalue ⟨hmemory.calls, rfl⟩
    · exact ih _ hvalue ⟨hmemory.calls, rfl⟩
    · exact .none
  | release manner _ ih =>
    simp only [Routine.run, Lock.recorded, ← hmemory.rest]
    exact ih hvalue ⟨hmemory.calls, rfl⟩
  | load _ ih =>
    obtain rfl := hvalue rfl
    exact ih _ hvalue hmemory
  | store new _ ih => exact ih (fun _ => rfl) hmemory
  | spoil new new' _ ih =>
    -- From here on the values need not agree, and the rest of the routines does not ask for it.
    exact ih (by simp) hmemory
  | copy source _ ih =>
    obtain ⟨past, rest⟩ := memory
    obtain ⟨past', rest'⟩ := memory'
    rw [run_copy, run_copy, differ.copy source hmemory.calls]
    exact ih _ hvalue (hmemory.push rfl)
  | dispose old _ ih =>
    obtain ⟨past, rest⟩ := memory
    obtain ⟨past', rest'⟩ := memory'
    rw [run_dispose, run_dispose, Residue.eq_of_calm (differ.calm past old),
      Residue.eq_of_calm (differ.calm' past' old)]
    exact ih _ _ hvalue (hmemory.push rfl)
  | log message _ ih =>
    exact ih hvalue ⟨hmemory.calls, congrArg (Journal.record message) hmemory.rest⟩

/-- A step of two twins. -/
theorem Twins.perform (differ : strategy.DifferInResidues strategy') {size : Nat}
    {list list' : GuardedList (Recorded α ω) σ α}
    (h : Twins lock strategy strategy' size list list') (depth : Nat) (step : Step α)
    {memory memory' : Recorded α ω} (hmemory : memory.Matches memory') :
    Option.Rel (Outcome.Matches (Twins lock strategy strategy' size))
      (perform depth step list memory) (perform depth step list' memory') := by
  cases h with
  | gone hooks hooks' =>
    cases step with
    | call operation => exact .some ⟨rfl, .gone hooks hooks', hmemory⟩
    | destroy => exact .some ⟨rfl, .gone none none, hmemory⟩
  | live cell =>
    cases step with
    | call operation =>
      have hrun : Option.Rel (Outcome.Matches Eq)
          (Operation.serve lock.recorded strategy.hooks size (depth + 1) operation cell memory)
          (Operation.serve lock.recorded strategy'.hooks size (depth + 1) operation cell memory') :=
        (operation.beside_routine size).run differ (fun _ => rfl) hmemory
      simp only [GuardedList.perform, serve]
      rcases none_or_some_of_rel hrun with
        ⟨hnone, hnone'⟩ | ⟨outcome, outcome', hsome, hsome', hmatches⟩
      · rw [hnone, hnone']
        exact .none
      · rw [hsome, hsome']
        refine .some ⟨hmatches.result, ?_, hmatches.memory⟩
        simp only [hmatches.target]
        exact .live outcome'.target
    | destroy =>
      obtain ⟨past, rest⟩ := memory
      obtain ⟨past', rest'⟩ := memory'
      obtain rfl : rest = rest' := hmemory.rest
      obtain ⟨hnone, hnone', hcalls⟩ := differ.disposeAll past past' cell.value.toList
      simp only [GuardedList.perform, destroy, Cell.destroy, Lock.recorded, freeAll_eq_disposeAll,
        hnone, hnone', Residue.followedBy]
      refine .some ⟨rfl, .gone none none, ?_, rfl⟩
      change (past ++ _).map HookCall.veiled = (past' ++ _).map HookCall.veiled
      rw [List.map_append, List.map_append, hmemory.calls, hcalls]

end Run

/-- What is known of two steps is the same but for what disposals left. -/
structure Entry.Matches (entry entry' : Entry α) : Prop where
  step : entry.step = entry'.step
  before : entry.before = entry'.before
  result : entry.result.Matches entry'.result
  calls : entry.calls.map HookCall.veiled = entry'.calls.map HookCall.veiled
  after : entry.after = entry'.after
  messages : entry.messages = entry'.messages

section Life

variable [Journal ω] {lock : Lock ω σ} {strategy strategy' : Strategy α} {size : Nat}

/-- Whatever steps are taken, twins remain twins. -/
theorem Twins.chronicle (differ : strategy.DifferInResidues strategy') (log : ω → List Message)
    {list list' : GuardedList (Recorded α ω) σ α}
    (h : Twins lock strategy strategy' size list list') (depth : Nat) (steps : List (Step α))
    {memory memory' : Recorded α ω} (hmemory : memory.Matches memory') :
    Option.Rel (fun told told' => List.Forall₂ Entry.Matches told.1 told'.1)
      (chronicle log depth steps list memory) (chronicle log depth steps list' memory') := by
  induction steps generalizing list list' memory memory' with
  | nil => exact .some .nil
  | cons step steps ih =>
    simp only [GuardedList.chronicle]
    rcases none_or_some_of_rel (h.perform differ depth step hmemory) with
      ⟨hnone, hnone'⟩ | ⟨outcome, outcome', hsome, hsome', hmatches⟩
    · rw [hnone, hnone']
      exact .none
    · rw [hsome, hsome', Option.bind_some, Option.bind_some]
      have hentry : Entry.Matches
          ⟨⟨step, list.contents?, outcome.result,
            outcome.memory.calls.drop memory.calls.length, outcome.target.contents?⟩,
            (log outcome.memory.rest).drop (log memory.rest).length⟩
          ⟨⟨step, list'.contents?, outcome'.result,
            outcome'.memory.calls.drop memory'.calls.length, outcome'.target.contents?⟩,
            (log outcome'.memory.rest).drop (log memory'.rest).length⟩ := {
        step := rfl
        before := h.contents
        result := hmatches.result
        calls := by
          rw [List.map_drop, List.map_drop, hmatches.memory.calls, hmemory.length_calls]
        after := hmatches.target.contents
        messages := by rw [hmatches.memory.rest, hmemory.rest] }
      rcases none_or_some_of_rel (ih hmatches.target hmatches.memory) with
        ⟨hnone, hnone'⟩ | ⟨told, told', hsome, hsome', htold⟩
      · rw [hnone, hnone']
        exact .none
      · rw [hsome, hsome']
        exact .some (.cons hentry htold)

end Life

/-- What disposals leave is never seen again. The lives of two lists whose hooks differ in nothing
else match, behind any lock; and they are lived to their end, behind a lock that is never left held.
-/
theorem life_matches [Journal ω] {strategy strategy' : Strategy α}
    (differ : strategy.DifferInResidues strategy') (lock : Lock ω σ) (log : ω → List Message)
    (size depth : Nat) (steps : List (Step α)) (start : ω) :
    let told := life log lock strategy size depth steps start
    let told' := life log lock strategy' size depth steps start
    (∀ cause, told = .error cause ↔ told' = .error cause) ∧
    (told = .ok none ↔ told' = .ok none) ∧
    (∀ entries, told = .ok (some entries) → ∃ entries', told' = .ok (some entries') ∧
      List.Forall₂ Entry.Matches entries entries') ∧
    ∀ free : σ → Prop, lock.Lawful free → told ≠ .ok none := by
  intro told told'
  have htotal : ∀ free : σ → Prop, lock.Lawful free → told ≠ .ok none := fun free lawful =>
    life_ne_none lawful log strategy size depth steps start
  rcases twins_create lock strategy strategy' size ⟨[], start⟩ with
    ⟨cause, left, hcreate, hcreate'⟩ | ⟨list, list', begun, hcreate, hcreate', htwins⟩
  · have htold : told = .error cause := by simp only [told, life, hcreate]
    have htold' : told' = .error cause := by simp only [told', life, hcreate']
    rw [htold, htold']
    exact ⟨fun _ => Iff.rfl, Iff.rfl, by simp, by simp⟩
  · have htold : told = _ := life_eq_chronicle log depth steps hcreate
    have htold' : told' = _ := life_eq_chronicle log depth steps hcreate'
    rw [htold] at htotal ⊢
    rw [htold']
    rcases none_or_some_of_rel
        (htwins.chronicle differ log depth (steps ++ [.destroy]) (.refl begun)) with
      ⟨hnone, hnone'⟩ | ⟨⟨entries, last⟩, ⟨entries', last'⟩, hsome, hsome', hmatches⟩
    · rw [hnone] at htotal ⊢
      rw [hnone']
      exact ⟨by simp, by simp, by simp, htotal⟩
    · rw [hsome, hsome']
      refine ⟨by simp, by simp, ?_, by simp⟩
      rintro _ ⟨⟩
      exact ⟨entries', rfl, hmatches⟩

/-- The same hooks as `Strategy.numbering`, but what they dispose of they leave a hundred higher. -/
def Strategy.defacing : Strategy Nat where
  copy := numbering.copy
  dispose _ value := ⟨value + 100, none⟩

theorem Strategy.differ_numbering_defacing : numbering.DifferInResidues defacing where
  copy source hpast := by
    have hlength := congrArg List.length hpast
    rw [List.length_map, List.length_map] at hlength
    simp only [defacing, numbering, hlength]
  calm _ _ := rfl
  calm' _ _ := rfl

/-- A refused addition, an update, a copy of the new element and a value lent for disposal: only of
the last do the two lists tell different things. -/
theorem life_matches_numbering :
    let lock : Lock (List Message) _ := .scripted [.ok (), .ok (), .error .poisoned]
    let steps : List (Step Nat) := [.call (.add 3), .call (.update 0 5), .call (.add 4),
      .call (.get 0), .call (.releaseValue 9), .call (.remove 0), .call (.add 1)]
    Strategy.numbering.DifferInResidues .defacing ∧
    ∃ entries entries',
      life List.reverse lock .numbering 8 0 steps [] = .ok (some entries) ∧
      life List.reverse lock .defacing 8 0 steps [] = .ok (some entries') ∧
      List.Forall₂ Entry.Matches entries entries' ∧
      entries.map (·.result) = [.value .done, .value .done, .error (.lock .poisoned),
        .value (.element 11), .value (.released 0), .value .done, .value .done, .value .done] ∧
      entries'.map (·.result) = [.value .done, .value .done, .error (.lock .poisoned),
        .value (.element 11), .value (.released 109), .value .done, .value .done,
        .value .done] := by
  intro lock steps
  refine ⟨Strategy.differ_numbering_defacing, ?_⟩
  obtain ⟨-, -, hmatches, -⟩ :=
    life_matches Strategy.differ_numbering_defacing lock List.reverse 8 0 steps []
  obtain ⟨entries', hentries', hall⟩ := hmatches _ rfl
  refine ⟨_, entries', rfl, hentries', hall, rfl, ?_⟩
  cases hentries'
  rfl

end GuardedList
