import GuardedList.Proofs.Replay
import GuardedList.Proofs.TurnTaking
import Mathlib.Data.List.FinRange

/-!
# Ways to empty a list

A list is emptied by removing its elements, by destroying it, and by letting go of it. With hooks
that never panic, and behind a lock that lets everybody in, every element is disposed of once on
each of these ways and on those that begin as the one and end as the other (`TearsDown`): what is
left for the end of the list are the elements that were not removed, in their order.

Which elements are removed is a matter of the indices alone (`takeOut`), so it can be said of
the positions that the elements had in the beginning.
-/

namespace GuardedList

variable {ω σ α β : Type}

/-- Takes out the elements at some indices one after another, where an index at which there is none
is passed over: the elements that are taken, and those that are left. -/
def takeOut : List Nat → List β → List β × List β
  | [], elements => ([], elements)
  | index :: indices, elements =>
    match elements[index]? with
    | none => takeOut indices elements
    | some element =>
      let (taken, left) := takeOut indices (elements.eraseIdx index)
      (element :: taken, left)

section TakeOut

/-- No element is lost, and none is there twice. -/
theorem perm_takeOut (indices : List Nat) (elements : List β) :
    ((takeOut indices elements).1 ++ (takeOut indices elements).2).Perm elements := by
  induction indices generalizing elements with
  | nil => exact .refl _
  | cons index indices ih =>
    rw [takeOut]
    cases helement : elements[index]? with
    | none => exact ih elements
    | some element =>
      obtain ⟨hindex, rfl⟩ := List.getElem?_eq_some_iff.1 helement
      exact ((ih (elements.eraseIdx index)).cons _).trans
        (List.getElem_cons_eraseIdx_perm hindex)

/-- What is left keeps its order. -/
theorem sublist_takeOut (indices : List Nat) (elements : List β) :
    (takeOut indices elements).2.Sublist elements := by
  induction indices generalizing elements with
  | nil => exact .refl _
  | cons index indices ih =>
    rw [takeOut]
    cases elements[index]? with
    | none => exact ih elements
    | some element => exact (ih _).trans (List.eraseIdx_sublist elements index)

/-- What the elements are does not matter. -/
theorem takeOut_map {γ : Type} (change : β → γ) (indices : List Nat) (elements : List β) :
    takeOut indices (elements.map change) =
      ((takeOut indices elements).1.map change, (takeOut indices elements).2.map change) := by
  induction indices generalizing elements with
  | nil => rfl
  | cons index indices ih =>
    rw [takeOut, takeOut, List.getElem?_map]
    cases elements[index]? with
    | none => exact ih elements
    | some element =>
      simp only [Option.map_some, List.eraseIdx_map, ih]
      rfl

end TakeOut

/-- The values that the step handed to the dispose hook. -/
def Entry.disposed (entry : Entry α) : List α := entry.calls.filterMap HookCall.disposed?

/-- Steps that remove the elements at some indices one after another. -/
def removing (indices : List Nat) : List (Step α) := indices.map fun index => .call (.remove index)

/-- What is told of removals and of the end of the list behind them. -/
structure EndsAfter (indices : List Nat) (elements : List α) (front : List (Entry α))
    (last : Entry α) : Prop where
  results : ∀ entry ∈ front, entry.result = .value .done ∨ entry.result = .error .outOfRange
  taken : front.flatMap Entry.disposed = (takeOut indices elements).1
  succeeded : front.countP (·.result.succeeded) = (takeOut indices elements).1.length
  left : last.disposed = (takeOut indices elements).2
  logged : last.messages.filterMap Message.freed? = [(takeOut indices elements).2.length]

section EndsAfter

variable {index : Nat} {indices : List Nat} {elements : List α} {entry last : Entry α}
  {front : List (Entry α)}

/-- A removal that finds no element in front of the others. -/
theorem EndsAfter.missed (hresult : entry.result = .error .outOfRange) (hcalls : entry.calls = [])
    (helement : elements[index]? = none) (h : EndsAfter indices elements front last) :
    EndsAfter (index :: indices) elements (entry :: front) last where
  results := List.forall_mem_cons.2 ⟨.inr hresult, h.results⟩
  taken := by simp [takeOut, helement, h.taken, Entry.disposed, hcalls]
  succeeded := by
    rw [List.countP_cons, h.succeeded, hresult]
    simp [takeOut, helement, Ending.succeeded]
  left := by simp [takeOut, helement, h.left]
  logged := by simp [takeOut, helement, h.logged]

/-- A removal that takes an element out in front of the others. -/
theorem EndsAfter.took {old : α} {residue : Residue α} (hresult : entry.result = .value .done)
    (hcalls : entry.calls = [.disposed old residue]) (helement : elements[index]? = some old)
    (h : EndsAfter indices (elements.eraseIdx index) front last) :
    EndsAfter (index :: indices) elements (entry :: front) last where
  results := List.forall_mem_cons.2 ⟨.inl hresult, h.results⟩
  taken := by simp [takeOut, helement, h.taken, Entry.disposed, hcalls, HookCall.disposed?]
  succeeded := by
    rw [List.countP_cons, h.succeeded, hresult]
    simp [takeOut, helement, Ending.succeeded]
  left := by simp [takeOut, helement, h.left]
  logged := by simp [takeOut, helement, h.logged]

end EndsAfter

/-- How a list with these elements is emptied by removals and, at the end, by its destruction: the
element of every position is disposed of once; those that are left for the end come in their order;
and so many are logged at the end as were not removed. -/
structure Emptied (elements : List α) (front : List (Entry α)) (last : Entry α) : Prop where
  results : ∀ entry ∈ front, entry.result = .value .done ∨ entry.result = .error .outOfRange
  positions : ∃ taken left : List (Fin elements.length),
    (taken ++ left).Perm (List.finRange elements.length) ∧ left.Pairwise (· < ·) ∧
      front.flatMap Entry.disposed = taken.map elements.get ∧
      last.disposed = left.map elements.get
  disposed : (front.flatMap Entry.disposed ++ last.disposed).Perm elements
  logged : ∃ count, last.messages.filterMap Message.freed? = [count] ∧
    count + front.countP (·.result.succeeded) = elements.length

theorem EndsAfter.emptied {indices : List Nat} {elements : List α} {front : List (Entry α)}
    {last : Entry α} (h : EndsAfter indices elements front last) : Emptied elements front last := by
  have hperm := perm_takeOut indices elements
  -- To take elements out is to take their positions out.
  have hpositions := takeOut_map elements.get indices (List.finRange elements.length)
  rw [List.map_get_finRange] at hpositions
  refine ⟨h.results, ⟨(takeOut indices (List.finRange elements.length)).1,
    (takeOut indices (List.finRange elements.length)).2, perm_takeOut _ _,
    (List.pairwise_lt_finRange _).sublist (sublist_takeOut _ _), ?_, ?_⟩, ?_, _, h.logged, ?_⟩
  · rw [h.taken, hpositions]
  · rw [h.left, hpositions]
  · rw [h.taken, h.left]
    exact hperm
  · rw [h.succeeded, Nat.add_comm, ← List.length_append, hperm.length_eq]

section Told

variable {strategy : Strategy α} {size : Nat}

/-- A removal takes the element out and disposes of it, if there is one. -/
theorem episode_remove (calm : strategy.Calm) (size index : Nat) (past : List (HookCall α))
    (elements : List α) :
    ListMachine.episode strategy size (.ok ()) past (some elements) (.call (.remove index)) =
      match elements[index]? with
      | none => ⟨.call (.remove index), some elements, .error .outOfRange, [], some elements⟩
      | some old => ⟨.call (.remove index), some elements, .value .done,
        [.disposed old (strategy.dispose past old)], some (elements.eraseIdx index)⟩ := by
  simp only [ListMachine.episode, Operation.turn, Turn.locked]
  cases elements[index]? with
  | none => rfl
  | some old => simp only [Residue.followedBy_of_calm (calm.dispose past old)]

/-- An account of removals and of the end of the list. -/
theorem endsAfter_of_told (calm : strategy.Calm) {indices : List Nat} {past : List (HookCall α)}
    {elements : List α} {entries : List (Entry α)}
    (h : Told strategy size Message.isNoWarning (· = .ok ()) past (some elements) entries)
    (hsteps : entries.map (·.step) = removing indices ++ [.destroy]) :
    ∃ front last, entries = front ++ [last] ∧ front.length = indices.length ∧
      EndsAfter indices elements front last := by
  -- One removal at a time: its entry is the first that is told, and the later ones are told of what
  -- it leaves.
  induction indices generalizing past elements entries with
  | nil =>
    cases h with
    | nil => cases hsteps
    | @cons _ _ step answer messages later hanswer hmessages _ =>
      rw [List.map_cons, ListMachine.step_episode] at hsteps
      obtain ⟨rfl, hlater⟩ := List.cons.inj hsteps
      obtain rfl := List.map_eq_nil_iff.1 hlater
      obtain ⟨hnone, hdisposed⟩ := calm.disposeAll past elements
      have hnotes : messages.filter Message.isNoWarning = [.freed elements.length] := by
        rw [hmessages]
        simp [ListMachine.episode, hnone, Residue.followedBy, Step.notes]
      let ended : Entry α :=
        ⟨ListMachine.episode strategy size answer past (some elements) .destroy, messages⟩
      refine ⟨[], ended, rfl, rfl, ?_⟩
      exact ⟨by simp, rfl, rfl, hdisposed, ended.freed_eq hnotes⟩
  | cons index indices ih =>
    cases h with
    | nil => cases hsteps
    | @cons _ _ step answer messages later hanswer _ hlater =>
      rw [List.map_cons, ListMachine.step_episode] at hsteps
      obtain ⟨rfl, hlaterSteps⟩ := List.cons.inj hsteps
      subst hanswer
      have hepisode := episode_remove calm size index past elements
      cases helement : elements[index]? with
      | none =>
        simp only [helement] at hepisode
        simp only [hepisode] at hlater ⊢
        obtain ⟨front, last, rfl, hlength, hends⟩ := ih hlater hlaterSteps
        exact ⟨_ :: front, last, rfl, by simp [hlength], hends.missed rfl rfl helement⟩
      | some old =>
        simp only [helement] at hepisode
        simp only [hepisode] at hlater ⊢
        obtain ⟨front, last, rfl, hlength, hends⟩ := ih hlater hlaterSteps
        exact ⟨_ :: front, last, rfl, by simp [hlength], hends.took rfl rfl helement⟩

/-- Hooks that never panic are called for nothing but to dispose of every value. -/
theorem map_disposed?_disposeAll (calm : strategy.Calm) (past : List (HookCall α))
    (values : List α) :
    (strategy.disposeAll past values).2.map HookCall.disposed? = values.map some := by
  induction values generalizing past with
  | nil => rfl
  | cons value values ih => simp [Strategy.disposeAll, calm.dispose, HookCall.disposed?, ih]

end Told

section Run

variable [Journal ω]

/-- The first element of a list is removed again and again until that fails: it succeeds `count`
times before. -/
inductive Drains (depth : Nat) : GuardedList (Recorded α ω) σ α → Recorded α ω → Nat → ListError →
    GuardedList (Recorded α ω) σ α → Recorded α ω → Prop
  | fails {list last : GuardedList (Recorded α ω) σ α} {memory left : Recorded α ω}
      {cause : ListError}
      (h : serve depth (.remove 0) list memory = some ⟨.error cause, last, left⟩) :
      Drains depth list memory 0 cause last left
  | succeeds {list next last : GuardedList (Recorded α ω) σ α} {memory middle left : Recorded α ω}
      {count : Nat} {cause : ListError}
      (h : serve depth (.remove 0) list memory = some ⟨.value .done, next, middle⟩)
      (hlater : Drains depth next middle count cause last left) :
      Drains depth list memory (count + 1) cause last left

/-- There is one way only in which it can come out. -/
theorem Drains.unique {depth count count' : Nat} {list last last' : GuardedList (Recorded α ω) σ α}
    {memory left left' : Recorded α ω} {cause cause' : ListError}
    (h : Drains depth list memory count cause last left)
    (h' : Drains depth list memory count' cause' last' left') :
    count = count' ∧ cause = cause' := by
  induction h generalizing count' with
  | fails h =>
    cases h' with
    | fails h' =>
      rw [h] at h'
      cases h'
      exact ⟨rfl, rfl⟩
    | succeeds h' =>
      rw [h] at h'
      cases h'
  | succeeds h _ ih =>
    cases h' with
    | fails h' =>
      rw [h] at h'
      cases h'
    | succeeds h' hlater =>
      rw [h] at h'
      cases h'
      obtain ⟨rfl, rfl⟩ := ih hlater
      exact ⟨rfl, rfl⟩

variable {log : ω → List Message} {lock : Lock ω σ} {free : σ → Prop} {strategy : Strategy α}
  {size : Nat}

/-- To destroy a list is to dispose of its elements in order. -/
theorem destroy_of_calm (calm : strategy.Calm) {list : GuardedList (Recorded α ω) σ α}
    {elements : List α} (hlist : Represents lock free strategy size list (some elements))
    (memory : Recorded α ω) :
    ∃ ended, list.destroy memory = some ended ∧ ended.result = .value () ∧
      ended.memory.calls = memory.calls ++ (strategy.disposeAll memory.calls elements).2 := by
  cases hlist with
  | @live cell _ hfree helements =>
    obtain ⟨past, rest⟩ := memory
    have hfreed := freeAll_eq_disposeAll strategy cell.value 0 past (lock.destroy cell.lock rest)
    have hnone := (calm.disposeAll past elements).1
    rw [helements, hnone] at hfreed
    simp only [destroy, Cell.destroy, Lock.recorded, hfreed]
    exact ⟨_, rfl, rfl, rfl⟩

/-- To remove the first element until that fails is to dispose of all elements in order. -/
theorem drains_of_represents (unfailing : lock.Unfailing free) (calm : strategy.Calm)
    {list : GuardedList (Recorded α ω) σ α} {elements : List α}
    (hlist : Represents lock free strategy size list (some elements)) (depth : Nat)
    (memory : Recorded α ω) :
    ∃ last left, Drains depth list memory elements.length .outOfRange last left ∧
      Represents lock free strategy size last (some []) ∧
      left.calls = memory.calls ++ (strategy.disposeAll memory.calls elements).2 := by
  induction elements generalizing list memory with
  | nil =>
    obtain ⟨answer, next, rest, hanswer, hperform, hnext⟩ := perform_eq_episode unfailing rfl
      (.inr calm) hlist depth (.call (.remove 0)) memory.calls memory.rest
    obtain rfl : answer = .ok () := hanswer.elim id id
    rw [episode_remove calm] at hperform hnext
    exact ⟨next, _, .fails hperform, hnext, rfl⟩
  | cons element elements ih =>
    obtain ⟨answer, next, rest, hanswer, hperform, hnext⟩ := perform_eq_episode unfailing rfl
      (.inr calm) hlist depth (.call (.remove 0)) memory.calls memory.rest
    obtain rfl : answer = .ok () := hanswer.elim id id
    rw [episode_remove calm] at hperform hnext
    obtain ⟨last, left, hlater, hlast, hcalls⟩ := ih hnext _
    refine ⟨last, left, .succeeds hperform hlater, hlast, ?_⟩
    rw [hcalls]
    simp [Strategy.disposeAll, calm.dispose]

/-- The ways to empty a list with these elements. -/
structure TearsDown (log : ω → List Message) (depth : Nat)
    (list : GuardedList (Recorded α ω) σ α) (memory : Recorded α ω) (elements : List α) : Prop where
  /-- To remove the first element until that fails succeeds once for every element, and fails for
  want of another. -/
  counted {count : Nat} {cause : ListError} {last : GuardedList (Recorded α ω) σ α}
    {left : Recorded α ω} : Drains depth list memory count cause last left →
      count = elements.length ∧ cause = .outOfRange
  /-- To do so and then destroy the list, to destroy it at once, and to let go of it is to dispose
  of the elements in order. -/
  same : ∃ calls : List (HookCall α), calls.map HookCall.disposed? = elements.map some ∧
    (∃ last left ended, Drains depth list memory elements.length .outOfRange last left ∧
      last.destroy left = some ended ∧ ended.result = .value () ∧
      ended.memory.calls = memory.calls ++ calls) ∧
    (∃ ended, list.destroy memory = some ended ∧ ended.result = .value () ∧
      ended.memory.calls = memory.calls ++ calls) ∧
    ∃ rest, list.drop memory = some (.value (), rest) ∧ rest.calls = memory.calls ++ calls
  /-- Whatever is removed before the list is destroyed. -/
  removed (indices : List Nat) : ∃ front last rest,
    chronicle log depth (removing indices ++ [.destroy]) list memory =
        some (front ++ [last], rest) ∧
      front.length = indices.length ∧ Emptied elements front last

/-- Every list in use is emptied so, behind a lock that lets everybody in and with hooks that never
panic. -/
theorem tearsDown_of_represents (shows : Journal.Shows log) (unfailing : lock.Unfailing free)
    (discreet : lock.Discreet log Message.isNoWarning free) (calm : strategy.Calm)
    {list : GuardedList (Recorded α ω) σ α} {elements : List α}
    (hlist : Represents lock free strategy size list (some elements)) (depth : Nat)
    (memory : Recorded α ω) : TearsDown log depth list memory elements := by
  obtain ⟨last, left, hdrains, hlast, hcalls⟩ :=
    drains_of_represents unfailing calm hlist depth memory
  refine ⟨fun h => h.unique hdrains, ?_, fun indices => ?_⟩
  · obtain ⟨drained, hdrained, hdrainedResult, hdrainedCalls⟩ := destroy_of_calm calm hlast left
    obtain ⟨ended, hended, hresult, hendedCalls⟩ := destroy_of_calm calm hlist memory
    refine ⟨_, map_disposed?_disposeAll calm memory.calls elements,
      ⟨last, left, drained, hdrains, hdrained, hdrainedResult, ?_⟩,
      ⟨ended, hended, hresult, hendedCalls⟩, ended.memory, ?_, hendedCalls⟩
    · rw [hdrainedCalls, hcalls, Strategy.disposeAll, List.append_nil]
    · rw [drop, hended, Option.map_some, hresult]
  · obtain ⟨entries, ⟨destroyed, rest⟩, hchronicle, hsteps, htold⟩ :=
      told_chronicle shows discreet unfailing (Heeds.isNoWarning.mono rfl fun _ _ => trivial) rfl
        (.inr calm) hlist depth (removing indices ++ [.destroy]) memory.calls memory.rest
    obtain ⟨front, last, rfl, hlength, hends⟩ := endsAfter_of_told calm htold hsteps
    exact ⟨front, last, _, hchronicle, hlength, hends.emptied⟩

end Run

/-- Three elements, of which the middle one is removed and a fourth is not found. -/
theorem tearsDown_of_represents_numbering :
    let lock : Lock (List Message) Poisoning := .poisoning
    let list := ⟨8, lock.recorded, some ⟨{}, .link 4 (.link 6 (.link 4 .empty))⟩,
      some Strategy.numbering.hooks⟩
    Journal.Shows (List.reverse : List Message → List Message) ∧
    lock.Unfailing (· = {}) ∧
    lock.Discreet List.reverse Message.isNoWarning (· = {}) ∧
    Strategy.numbering.Calm ∧
    Represents lock (· = {}) .numbering 8 list (some [4, 6, 4]) ∧
    TearsDown List.reverse 0 list ⟨[], []⟩ [4, 6, 4] ∧
    ∃ entries rest, chronicle List.reverse 0 (removing [1, 5] ++ [.destroy]) list ⟨[], []⟩ =
        some (entries, rest) ∧
      entries.map Entry.disposed = [[6], [], [4, 4]] ∧
      entries.map (·.messages) = [[.unlinked 1], [], [.freed 2]] := by
  intro lock list
  have discreet : lock.Discreet List.reverse Message.isNoWarning (· = {}) :=
    Lock.discreet_poisoning Journal.shows_reverse fun _ _ _ => ⟨rfl, rfl⟩
  have hlist : Represents lock (· = {}) .numbering 8 list (some [4, 6, 4]) := .live rfl rfl
  exact ⟨Journal.shows_reverse, Lock.unfailing_poisoning, discreet, Strategy.calm_numbering, hlist,
    tearsDown_of_represents Journal.shows_reverse Lock.unfailing_poisoning discreet
      Strategy.calm_numbering hlist 0 ⟨[], []⟩,
    _, _, rfl, rfl, rfl⟩

end GuardedList
