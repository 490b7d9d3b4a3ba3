import GuardedList.Proofs.Session

/-!
# What a panic leaves behind

A panic of a hook ends the operation that called it. The list stays in use and its lock is given up;
the elements are as they were, except for an element that was being removed, which is gone, and one
that was being replaced, which is what the disposal left of it (`Operation.PanicEffect`). A lock
that does not remember the panic serves the list as if it had been made with those elements.
-/

namespace GuardedList

variable {ω σ α : Type} {strategy : Strategy α} {size : Nat}

/-- What becomes of the elements when a hook call made by an operation panics. -/
inductive Operation.PanicEffect (elements : List α) :
    Operation α → HookCall α → List α → Prop
  | adding {value : α} {text : String} :
      PanicEffect elements (.add value) (.copied value (.panicked text)) elements
  /-- The disposal of the copy made for an addition that the lock refused. -/
  | withdrawing {value copy left : α} {text : String} :
      PanicEffect elements (.add value) (.disposed copy ⟨left, some text⟩) elements
  | removing {index : Nat} {old left : α} {text : String} (helement : elements[index]? = some old) :
      PanicEffect elements (.remove index) (.disposed old ⟨left, some text⟩)
        (elements.eraseIdx index)
  | getting {index : Nat} {element : α} {text : String}
      (helement : elements[index]? = some element) :
      PanicEffect elements (.get index) (.copied element (.panicked text)) elements
  | updating {index : Nat} {value : α} {text : String} :
      PanicEffect elements (.update index value) (.copied value (.panicked text)) elements
  /-- The disposal of the old element, which stays where it was as the disposal left it. -/
  | replacing {index : Nat} {value old left : α} {text : String}
      (helement : elements[index]? = some old) :
      PanicEffect elements (.update index value) (.disposed old ⟨left, some text⟩)
        (elements.set index left)
  | releasing {value left : α} {text : String} :
      PanicEffect elements (.releaseValue value) (.disposed value ⟨left, some text⟩) elements

/-- A hook call that panics is the last of its operation, which ends with the same panic. -/
theorem Operation.Effect.of_panic {past : List (HookCall α)} {elements : List α}
    {operation : Operation α} {turn : Turn α}
    (h : operation.Effect strategy past elements turn) {call : HookCall α}
    (hcall : call ∈ turn.calls) {text : String} (hpanic : call.panic? = some text) :
    turn.result = .panicked text ∧ turn.calls.getLast? = some call ∧
      operation.PanicEffect elements call turn.contents := by
  cases h with
  | idle => simp at hcall
  | @stopped _ value stop hstored hcopy hstop =>
    obtain rfl := List.mem_singleton.1 hcall
    obtain rfl := HookCall.panic?_copied.1 hpanic
    refine ⟨rfl, rfl, ?_⟩
    cases operation with
    | add added => cases hstored; exact .adding
    | update index added => cases hstored; exact .updating
    | _ => simp [Operation.stored?] at hstored
  | added =>
    obtain rfl := List.mem_singleton.1 hcall
    simp at hpanic
  | @withdrawn value stored residue cause hcopy hdispose =>
    simp only [List.mem_cons, List.not_mem_nil, or_false] at hcall
    rcases hcall with rfl | rfl
    · simp at hpanic
    · obtain ⟨left, panic⟩ := residue
      obtain rfl : panic = some text := hpanic
      exact ⟨rfl, rfl, .withdrawing⟩
  | @removed index old residue helement hdispose =>
    obtain rfl := List.mem_singleton.1 hcall
    obtain ⟨left, panic⟩ := residue
    obtain rfl : panic = some text := hpanic
    exact ⟨rfl, rfl, .removing helement⟩
  | @got index element ending helement hcopy =>
    obtain rfl := List.mem_singleton.1 hcall
    obtain rfl := HookCall.panic?_copied.1 hpanic
    exact ⟨rfl, rfl, .getting helement⟩
  | @replaced index value old replacement residue helement hcopy hdispose hcalm =>
    simp only [List.mem_cons, List.not_mem_nil, or_false] at hcall
    rcases hcall with rfl | rfl
    · simp at hpanic
    · rw [HookCall.panic?_disposed, hcalm] at hpanic
      simp at hpanic
  | @spoiled index value old replacement residue said helement hcopy hdispose hsaid =>
    simp only [List.mem_cons, List.not_mem_nil, or_false] at hcall
    rcases hcall with rfl | rfl
    · simp at hpanic
    · obtain ⟨left, panic⟩ := residue
      obtain rfl : panic = some text := hpanic
      obtain rfl : text = said := by simpa using hsaid
      exact ⟨rfl, rfl, .replacing helement⟩
  | @released value residue hdispose =>
    obtain rfl := List.mem_singleton.1 hcall
    obtain ⟨left, panic⟩ := residue
    obtain rfl : panic = some text := hpanic
    exact ⟨rfl, rfl, .releasing⟩

/-- The chain of some elements. -/
def Chain.ofList : List α → Chain α
  | [] => .empty
  | value :: values => .link value (ofList values)

@[simp] theorem Chain.toList_ofList (elements : List α) : (ofList elements).toList = elements := by
  induction elements with
  | nil => rfl
  | cons value values ih => simp [ofList, ih]

variable [Journal ω] {lock : Lock ω σ} {free : σ → Prop}

/-- Two lists with the same elements cannot be told apart on a lock that refuses nobody, whatever
else has become of their locks and memories. -/
theorem session_eq_of_contents (unpoisoned : lock.Unpoisoned free)
    {list list' : GuardedList (Recorded α ω) σ α} {contents : Option (List α)}
    (hlist : Represents lock free strategy size list contents)
    (hlist' : Represents lock free strategy size list' contents) {memory memory' : Recorded α ω}
    (hcalls : memory'.calls = memory.calls) (depth : Nat) (steps : List (Step α)) :
    ∃ episodes last last', session depth steps list memory = some (episodes, last) ∧
      session depth steps list' memory' = some (episodes, last') := by
  obtain ⟨calls, rest⟩ := memory
  obtain ⟨_, rest'⟩ := memory'
  cases hcalls
  obtain ⟨last, left, hsession⟩ := session_eq_run_of_granted unpoisoned trivial (.inl trivial) hlist
    depth steps calls rest
  obtain ⟨last', left', hsession'⟩ := session_eq_run_of_granted unpoisoned trivial (.inl trivial)
    hlist' depth steps calls rest'
  exact ⟨_, _, _, hsession, hsession'⟩

/-- An operation of a list in use comes to its turn on the elements, and leaves the list in use with
its lock free. -/
theorem serve_eq_turn (lawful : lock.Lawful free) {list : GuardedList (Recorded α ω) σ α}
    {elements : List α} (hlist : Represents lock free strategy size list (some elements))
    (depth : Nat) (operation : Operation α) (memory : Recorded α ω) :
    ∃ answer next rest,
      let turn := operation.turn strategy size answer memory.calls elements
      serve depth operation list memory =
        some ⟨turn.result, next, ⟨memory.calls ++ turn.calls, rest⟩⟩ ∧
      Represents lock free strategy size next (some turn.contents) := by
  obtain ⟨answer, next, rest, -, hperform, hnext⟩ := perform_eq_episode lawful trivial
    (.inl trivial) hlist depth (.call operation) memory.calls memory.rest
  exact ⟨answer, next, rest, hperform, hnext⟩

/-- Whatever happened to a list in use, when a hook called by one of its operations panics, the
operation ends with that panic; the list stays in use and its lock is free; and its elements are as
`Operation.PanicEffect` says. If the lock does not remember the panic, everything that follows is
what it would be on a list that was made with those elements. -/
theorem serve_of_panic (lawful : lock.Lawful free) {start : ω}
    {fresh : GuardedList (Recorded α ω) σ α} {begun : Recorded α ω}
    (hcreate : create lock.recorded strategy.hooks size ⟨[], start⟩ = (.ok fresh, begun))
    {depth : Nat} {steps : List (Step α)} {episodes : List (Episode α)}
    {list : GuardedList (Recorded α ω) σ α} {memory : Recorded α ω}
    (hsession : session depth steps fresh begun = some (episodes, list, memory))
    {elements : List α} (hlive : list.contents? = some elements) (operation : Operation α) :
    ∃ outcome, serve depth operation list memory = some outcome ∧
      ∀ call ∈ outcome.memory.calls.drop memory.calls.length, ∀ text, call.panic? = some text →
        outcome.result = .panicked text ∧
        outcome.target.isInitialized = true ∧
        (∃ cell, outcome.target.cell = some cell ∧ free cell.lock) ∧
        ∃ contents, operation.PanicEffect elements call contents ∧
          outcome.target.contents? = some contents ∧
          (lock.Unpoisoned free → ∀ later cell built restart,
            Cell.create lock.recorded (Chain.ofList contents) restart = (.ok cell, built) →
            built.calls = outcome.memory.calls →
            ∃ episodes last last',
              session depth later outcome.target outcome.memory = some (episodes, last) ∧
              session depth later ⟨size, lock.recorded, some cell, some strategy.hooks⟩ built =
                some (episodes, last')) := by
  obtain ⟨hfresh, hbegun⟩ := represents_create lawful hcreate
  have hlist : Represents lock free strategy size list (some elements) := by
    obtain ⟨calls, rest⟩ := begun
    obtain ⟨answered, last, left, -, -, hrun, hlast⟩ :=
      session_eq_run lawful trivial (.inl trivial) hfresh depth steps calls rest
    rw [hsession, Option.some.injEq, Prod.mk.injEq, Prod.mk.injEq] at hrun
    obtain ⟨-, rfl, -⟩ := hrun
    rwa [hlive] at hlast
  obtain ⟨answer, next, rest, hserve, hnext⟩ := serve_eq_turn lawful hlist depth operation memory
  refine ⟨_, hserve, ?_⟩
  intro call hcall text hpanic
  rw [List.drop_left] at hcall
  obtain ⟨hresult, -, heffect⟩ := (operation.effect_turn strategy size answer memory.calls
    elements).of_panic hcall hpanic
  generalize operation.turn strategy size answer memory.calls elements = turn at *
  refine ⟨hresult, ?_, ?_, turn.contents, heffect, hnext.contents, ?_⟩
  · cases hnext
    rfl
  · cases hnext with
    | live hfree _ => exact ⟨_, rfl, hfree⟩
  · intro unpoisoned later cell built restart hbuilt hcalls
    have hcell : Represents lock free strategy size
        ⟨size, lock.recorded, some cell, some strategy.hooks⟩ (some turn.contents) := by
      obtain ⟨hfree, hvalue, -⟩ := lawful.cell_create hbuilt
      exact .live hfree (by rw [hvalue, Chain.toList_ofList])
    exact session_eq_of_contents unpoisoned hnext hcell hcalls depth later

/-- An update of the middle of three elements that panics on a spinning lock. -/
theorem serve_of_panic_brittle :
    (Lock.spin : Lock (List Message) Spin).Unpoisoned (·.held = false) ∧
    let fresh := ⟨8, Lock.spin.recorded, some ⟨{}, .empty⟩, some Strategy.brittle.hooks⟩
    let list := ⟨8, Lock.spin.recorded, some ⟨{}, .link 1 (.link 3 (.link 4 .empty))⟩,
      some Strategy.brittle.hooks⟩
    let memory : Recorded Nat (List Message) :=
      ⟨[.copied 1 (.value 1), .copied 3 (.value 3), .copied 4 (.value 4)],
        [.appended, .appended, .appended]⟩
    create Lock.spin.recorded Strategy.brittle.hooks 8 ⟨[], []⟩ =
      (.ok fresh, (⟨[], []⟩ : Recorded Nat (List Message))) ∧
    (∃ episodes, session 0 [.call (.add 1), .call (.add 3), .call (.add 4)] fresh ⟨[], []⟩ =
      some (episodes, list, memory)) ∧
    ∃ outcome, serve 0 (.update 1 6) list memory = some outcome ∧
      outcome.result = .panicked "odd" ∧
      outcome.target.isInitialized = true ∧
      (∃ cell, outcome.target.cell = some cell ∧ cell.lock.held = false) ∧
      outcome.target.contents? = some [1, 0, 4] ∧
      ∃ episodes last last',
        session 0 [.call (.remove 1), .call .length, .destroy] outcome.target outcome.memory =
          some (episodes, last) ∧
        session 0 [.call (.remove 1), .call .length, .destroy]
          ⟨8, Lock.spin.recorded, some ⟨{}, .ofList [1, 0, 4]⟩, some Strategy.brittle.hooks⟩
          ⟨outcome.memory.calls, ([] : List Message)⟩ = some (episodes, last') := by
  have lawful : (Lock.spin : Lock (List Message) Spin).Lawful (·.held = false) :=
    Lock.unpoisoned_spin.mono (fun _ _ => trivial) (fun _ h => h)
  refine ⟨Lock.unpoisoned_spin, ?_⟩
  intro fresh list memory
  have hcreate : create Lock.spin.recorded Strategy.brittle.hooks 8 ⟨[], []⟩ =
      (.ok fresh, (⟨[], []⟩ : Recorded Nat (List Message))) := rfl
  have hsession : ∃ episodes, session 0 [.call (.add 1), .call (.add 3), .call (.add 4)] fresh
      ⟨[], []⟩ = some (episodes, list, memory) := ⟨_, rfl⟩
  refine ⟨hcreate, hsession, ?_⟩
  obtain ⟨episodes, hsession⟩ := hsession
  obtain ⟨outcome, hserve, hpanics⟩ :=
    serve_of_panic lawful hcreate hsession (show list.contents? = some [1, 3, 4] from rfl)
      (.update 1 6)
  have hcalls : HookCall.disposed 3 ⟨0, some "odd"⟩ ∈
      outcome.memory.calls.drop memory.calls.length := by
    obtain rfl := Option.some.inj hserve
    exact .tail _ (.head _)
  obtain ⟨hresult, hlive, hcell, contents, heffect, hcontents, hlater⟩ :=
    hpanics (.disposed 3 ⟨0, some "odd"⟩) hcalls "odd" rfl
  cases heffect
  exact ⟨outcome, hserve, hresult, hlive, hcell, hcontents,
    hlater Lock.unpoisoned_spin _ _ ⟨outcome.memory.calls, []⟩ ⟨outcome.memory.calls, []⟩ rfl rfl⟩

end GuardedList
