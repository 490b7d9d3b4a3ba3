import GuardedList.Proofs.Logging
import GuardedList.Proofs.Poisoning

/-!
# One life behind different locks

Whichever lock a list is given, its life is the same as long as the lock neither fails nor is
poisoned: the same results, the same elements after every step, the same hook calls and the same
messages. It is the life that `ListMachine.entries` tells without any lock.

A lock that can be poisoned goes along with that up to and including the first step in which a hook
panics under the lock, and to the end if there is no such step (`AgreeUntilPoisoned`).
-/

namespace GuardedList

variable {ω ω' σ α : Type}

namespace ListMachine

variable (strategy : Strategy α) (size : Nat)

/-- A step of the machine when nobody is refused, with the messages that the step is to log. -/
def entry (past : List (HookCall α)) (contents : Option (List α)) (step : Step α) : Entry α :=
  let episode := episode strategy size (.ok ()) past contents step
  ⟨episode, step.notes contents episode.result⟩

/-- Steps of the machine one after another when nobody is refused, with their messages. -/
def entries : List (Step α) → List (HookCall α) → Option (List α) → List (Entry α)
  | [], _, _ => []
  | step :: steps, past, contents =>
    let entry := entry strategy size past contents step
    entry :: entries steps (past ++ entry.calls) entry.after

end ListMachine

/-- Two accounts that are the same up to and including the first step in which a hook panics under
the lock, if there is such a step. -/
inductive AgreeUntilPoisoned : List (Entry α) → List (Entry α) → Prop
  | nil : AgreeUntilPoisoned [] []
  | same {entry : Entry α} {entries entries' : List (Entry α)} (hcalm : ¬ entry.Poisons)
      (hlater : AgreeUntilPoisoned entries entries') :
      AgreeUntilPoisoned (entry :: entries) (entry :: entries')
  | parted {entry : Entry α} {entries entries' : List (Entry α)} (hpoisons : entry.Poisons) :
      AgreeUntilPoisoned (entry :: entries) (entry :: entries')

namespace AgreeUntilPoisoned

variable {entries entries' : List (Entry α)}

theorem symm (h : AgreeUntilPoisoned entries entries') : AgreeUntilPoisoned entries' entries := by
  induction h with
  | nil => exact .nil
  | same hcalm _ ih => exact .same hcalm ih
  | parted hpoisons => exact .parted hpoisons

/-- Without such a step they are the same. -/
theorem eq_of_calm (h : AgreeUntilPoisoned entries entries')
    (hcalm : ∀ entry ∈ entries, ¬ entry.Poisons) : entries' = entries := by
  induction h with
  | nil => rfl
  | same _ _ ih => rw [ih fun entry hentry => hcalm entry (List.mem_cons_of_mem _ hentry)]
  | parted hpoisons => exact absurd hpoisons (hcalm _ List.mem_cons_self)

end AgreeUntilPoisoned

/-- A lock that is always made, refuses nobody, is never left held, and adds nothing to what `log`
shows. It may keep books of its own beside that. -/
structure Lock.Faultless (lock : Lock ω σ) (free : σ → Prop) (log : ω → List Message) : Prop where
  made (memory : ω) : ∃ state after, lock.make memory = (.ok state, after)
  unpoisoned : lock.Unpoisoned free
  discreet : lock.Discreet log (fun _ => true) free

theorem Lock.faultless_ofPlain {mutex : PlainMutex σ} {held free : σ → Prop}
    (lawful : mutex.Lawful held free) (log : ω → List Message) :
    (ofPlain mutex : Lock ω σ).Faultless free log where
  made memory := ⟨_, memory, rfl⟩
  unpoisoned := unpoisoned_ofPlain lawful
  discreet := discreet_ofPlain log _ mutex _

/-- What is told of a list whose lock refuses nobody, with all that was logged, is told without the
lock. -/
theorem Told.eq_entries {strategy : Strategy α} {size : Nat} {past : List (HookCall α)}
    {contents : Option (List α)} {entries : List (Entry α)}
    (h : Told strategy size (fun _ => true) (· = .ok ()) past contents entries) :
    entries = ListMachine.entries strategy size (entries.map (·.step)) past contents := by
  induction h with
  | nil => rfl
  | @cons past contents step answer messages entries hanswer hmessages _ ih =>
    subst hanswer
    rw [List.filter_eq_self.2 fun _ _ => rfl] at hmessages
    rw [List.map_cons, ListMachine.step_episode, ListMachine.entries, ListMachine.entry,
      ← hmessages]
    exact congrArg _ ih

/-- Behind a lock that is always made a list can be created. -/
theorem create_of_made (lock : Lock ω σ) {size : Nat}
    (made : ∀ memory, ∃ state after, lock.make memory = (.ok state, after))
    (strategy : Strategy α) (hsize : size ≠ 0) (start : ω) :
    ∃ list begun, create lock.recorded strategy.hooks size ⟨[], start⟩ = (.ok list, begun) := by
  obtain ⟨state, after, hmake⟩ := made start
  exact ⟨_, _, by simp only [create, if_neg hsize, Cell.create, Lock.recorded, hmake]; rfl⟩

/-- Where nobody is refused, everything is heeded. -/
theorem Heeds.all : Heeds (fun _ => true) (· = .ok ()) where
  granted := rfl
  refusals := nofun
  changes _ := rfl

section Life

variable [Journal ω] {log : ω → List Message} {lock : Lock ω σ} {free : σ → Prop}
  {strategy : Strategy α} {size : Nat}

/-- Elements without a size are refused whatever the lock. -/
theorem life_of_no_size (log : ω → List Message) (lock : Lock ω σ) (strategy : Strategy α)
    (depth : Nat) (steps : List (Step α)) (start : ω) :
    life log lock strategy 0 depth steps start = .error .invalidArgument := rfl

/-- Until it is poisoned, a lock that can be poisoned is as good as any. -/
theorem chronicle_of_poisoning (shows : Journal.Shows log) {poisoned : Bool}
    {list : GuardedList (Recorded α ω) Poisoning α} {contents : Option (List α)}
    (hlist : Represents Lock.poisoning (· = ⟨false, poisoned⟩) strategy size list contents)
    (depth : Nat) (steps : List (Step α)) (past : List (HookCall α)) (memory : ω) :
    ∃ entries last, chronicle log depth steps list ⟨past, memory⟩ = some (entries, last) ∧
      (poisoned = false →
        AgreeUntilPoisoned (ListMachine.entries strategy size steps past contents) entries) := by
  induction steps generalizing list contents poisoned past memory with
  | nil => exact ⟨[], _, rfl, fun _ => .nil⟩
  | cons step steps ih =>
    obtain ⟨next, rest, still, hperform, hnext, hstill⟩ :=
      perform_of_poisoning hlist depth step past memory
    obtain ⟨entries, last, hlater, hagree⟩ := ih hnext _ rest
    rw [chronicle_cons log hlist hperform hnext, hlater, Option.map_some]
    refine ⟨_, last, rfl, ?_⟩
    -- Of a lock that is poisoned already nothing is claimed but that it goes on.
    rintro rfl
    have discreet : (Lock.poisoning : Lock ω Poisoning).Discreet log (fun _ => true) (· = {}) :=
      Lock.discreet_poisoning shows (by rintro _ rfl ⟨⟩)
    have hmessages := (perform_gains shows discreet Lock.unfailing_poisoning .all hlist
      hperform).drop_eq
    rw [hmessages]
    cases still with
    | false => exact .same (fun hpoisons => nomatch hstill.2 (.inr hpoisons)) (hagree rfl)
    | true => exact .parted ((hstill.1 rfl).resolve_left nofun)

/-- Behind a faultless lock the life of a list is the one that is told without a lock. -/
theorem life_of_faultless (shows : Journal.Shows log) (faultless : lock.Faultless free log)
    (strategy : Strategy α) (hsize : size ≠ 0) (depth : Nat) (steps : List (Step α)) (start : ω) :
    life log lock strategy size depth steps start =
      .ok (some (ListMachine.entries strategy size (steps ++ [.destroy]) [] (some []))) := by
  obtain ⟨list, begun, hcreate⟩ := create_of_made lock faultless.made strategy hsize start
  rcases hlife : life log lock strategy size depth steps start with cause | outcome
  · simp [life, hcreate] at hlife
  · obtain ⟨entries, rfl, hsteps, htold⟩ := told_life shows faultless.discreet faultless.unpoisoned
      .all trivial (.inl trivial) hlife
    rw [← hsteps, ← htold.eq_entries]

/-- Behind a lock that can be poisoned the life of a list is that one until the lock is poisoned. -/
theorem life_of_poisoning (shows : Journal.Shows log) (strategy : Strategy α) (hsize : size ≠ 0)
    (depth : Nat) (steps : List (Step α)) (start : ω) :
    ∃ entries, life log .poisoning strategy size depth steps start = .ok (some entries) ∧
      AgreeUntilPoisoned
        (ListMachine.entries strategy size (steps ++ [.destroy]) [] (some [])) entries := by
  obtain ⟨list, ⟨calls, begun⟩, hcreate⟩ := create_of_made .poisoning
    (fun memory => ⟨_, memory, rfl⟩) strategy hsize start
  obtain ⟨hlist, rfl⟩ := represents_create Lock.unfailing_poisoning hcreate
  obtain ⟨entries, last, hchronicle, hagree⟩ :=
    chronicle_of_poisoning shows hlist depth (steps ++ [.destroy]) [] begun
  rw [life_eq_chronicle log depth steps hcreate, hchronicle]
  exact ⟨entries, rfl, hagree rfl⟩

end Life

/-- Behind every faultless lock a list lives the same life, and behind a lock that can be poisoned
it lives that life until a hook panics that is called under the lock. -/
theorem life_agrees [Journal ω] [Journal ω'] {lock : Lock ω σ} {free : σ → Prop}
    {log : ω → List Message} {log' : ω' → List Message} (shows : Journal.Shows log)
    (shows' : Journal.Shows log') (faultless : lock.Faultless free log) (strategy : Strategy α)
    (size depth : Nat) (steps : List (Step α)) (start : ω) (start' : ω') :
    (size = 0 →
      life log lock strategy size depth steps start = .error .invalidArgument ∧
      life log' .spin strategy size depth steps start' = .error .invalidArgument ∧
      life log' .ticket strategy size depth steps start' = .error .invalidArgument ∧
      life log' .poisoning strategy size depth steps start' = .error .invalidArgument) ∧
    (size ≠ 0 → ∃ entries entries',
      life log lock strategy size depth steps start = .ok (some entries) ∧
      life log' .spin strategy size depth steps start' = .ok (some entries) ∧
      life log' .ticket strategy size depth steps start' = .ok (some entries) ∧
      life log' .poisoning strategy size depth steps start' = .ok (some entries') ∧
      AgreeUntilPoisoned entries entries' ∧
      ((∀ entry ∈ entries', ¬ entry.Poisons) → entries' = entries)) := by
  constructor
  · rintro rfl
    exact ⟨life_of_no_size log lock strategy depth steps start,
      life_of_no_size log' .spin strategy depth steps start',
      life_of_no_size log' .ticket strategy depth steps start',
      life_of_no_size log' .poisoning strategy depth steps start'⟩
  · intro hsize
    obtain ⟨entries', hpoisoning, hagree⟩ :=
      life_of_poisoning shows' strategy hsize depth steps start'
    exact ⟨_, entries', life_of_faultless shows faultless strategy hsize depth steps start,
      life_of_faultless shows' (Lock.faultless_ofPlain PlainMutex.lawful_flag log') strategy hsize
        depth steps start',
      life_of_faultless shows' (Lock.faultless_ofPlain PlainMutex.lawful_tickets log') strategy
        hsize depth steps start',
      hpoisoning, hagree, fun hcalm => (hagree.symm.eq_of_calm hcalm).symm⟩

/-- A flag that counts how often it was taken. -/
def Lock.counting : Lock ω (Bool × Nat) where
  make memory := (.ok (false, 0), memory)
  acquire state memory := (if state.1 then .blocked else .granted (true, state.2 + 1), memory)
  release _ state memory := ((false, state.2), memory)
  destroy _ memory := memory

theorem Lock.faultless_counting (log : ω → List Message) :
    (counting : Lock ω (Bool × Nat)).Faultless (·.1 = false) log where
  made memory := ⟨_, memory, rfl⟩
  unpoisoned := {
    make := fun h => by cases h; rfl
    answered := fun h memory => by simp [counting, h]
    granted := fun _ _ _ _ _ => rfl
    refused := fun h hacquire => by simp [counting, h] at hacquire }
  discreet := {
    make := fun memory => .refl memory
    acquire := fun _ memory => .refl memory
    release := fun _ _ memory => .refl memory
    destroy := fun _ memory => .refl memory }

/-- An update panics on its first disposal, and from then on one of four lists turns everybody away.
-/
theorem life_agrees_brittle :
    let steps : List (Step Nat) := [.call (.add 1), .call (.add 2), .call (.update 0 4),
      .call (.get 1), .call (.remove 0), .call .length]
    Journal.Shows (List.reverse : List Message → List Message) ∧
    (Lock.counting : Lock (List Message) (Bool × Nat)).Faultless (·.1 = false) List.reverse ∧
    ∃ entries entries' : List (Entry Nat),
      life List.reverse .counting .brittle 8 0 steps [] = .ok (some entries) ∧
      life List.reverse .spin .brittle 8 0 steps [] = .ok (some entries) ∧
      life List.reverse .ticket .brittle 8 0 steps [] = .ok (some entries) ∧
      life List.reverse .poisoning .brittle 8 0 steps [] = .ok (some entries') ∧
      AgreeUntilPoisoned entries entries' ∧
      entries.map (·.result) = [.value .done, .value .done, .panicked "odd",
        .value (.element 2), .value .done, .value (.count 1), .value .done] ∧
      entries'.map (·.result) = [.value .done, .value .done, .panicked "odd",
        .error (.lock .poisoned), .error (.lock .poisoned), .error (.lock .poisoned),
        .value .done] ∧
      entries.map (·.after) = [some [1], some [1, 2], some [0, 2], some [0, 2], some [2],
        some [2], none] ∧
      entries.flatMap (·.messages) = [.appended, .appended, .unlinked 0, .freed 1] := by
  intro steps
  refine ⟨Journal.shows_reverse, Lock.faultless_counting _, ?_⟩
  obtain ⟨entries, entries', hcounting, hspin, hticket, hpoisoning, hagree, -⟩ :=
    (life_agrees Journal.shows_reverse Journal.shows_reverse (Lock.faultless_counting _)
      .brittle 8 0 steps [] []).2 (by decide)
  refine ⟨entries, entries', hcounting, hspin, hticket, hpoisoning, hagree, ?_⟩
  cases hspin
  cases hpoisoning
  exact ⟨rfl, rfl, rfl, rfl⟩

end GuardedList
