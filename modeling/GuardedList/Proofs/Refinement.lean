import GuardedList.Proofs.Session

/-!
# A list is a sequence of elements

With hooks that never panic, on a lock that refuses nobody, a list cannot be told from a plain list
of elements with the same hooks: whatever is done with it, every answer, every hook call with its
argument and the elements after every step are those of `ListMachine`.
-/

namespace GuardedList

variable {ω σ α : Type} [Journal ω] {lock : Lock ω σ} {free : σ → Prop} {strategy : Strategy α}
  {size : Nat}

/-- Every session of a new list takes place, and it is the run of the machine from the empty list.
-/
theorem session_of_create (unfailing : lock.Unfailing free) (calm : strategy.Calm) {memory : ω}
    {list : GuardedList (Recorded α ω) σ α} {memory' : Recorded α ω}
    (hcreate : create lock.recorded strategy.hooks size ⟨[], memory⟩ = (.ok list, memory'))
    (depth : Nat) (steps : List (Step α)) :
    ∃ last rest,
      let episodes := ListMachine.run strategy size (steps.map (·, .ok ())) [] (some [])
      session depth steps list memory' =
        some (episodes, last, ⟨episodes.flatMap Episode.calls, rest⟩) := by
  obtain ⟨hlist, hcalls⟩ := represents_create unfailing hcreate
  obtain ⟨calls, middle⟩ := memory'
  cases hcalls
  exact session_eq_run_of_granted unfailing rfl (.inr calm) hlist depth steps [] middle

/-- Hooks that number their copies by the hook calls before, copy no zero, and leave one behind in
what they dispose of. -/
def Strategy.numbering : Strategy Nat where
  copy past source := if source = 0 then .error .outOfMemory else .value (source + past.length)
  dispose _ _ := ⟨0, none⟩

theorem Strategy.calm_numbering : numbering.Calm where
  copy past source text := by
    simp only [numbering]
    split <;> simp
  dispose _ _ := rfl

/-- A session on a lock that could be poisoned, with copies that fail, indices at the end and
beyond, and calls after the end of the list. -/
theorem session_of_create_numbering :
    (Lock.poisoning : Lock (List Message) Poisoning).Unfailing (· = {}) ∧
    Strategy.numbering.Calm ∧
    let steps : List (Step Nat) := [.call (.add 3), .call (.add 0), .call (.update 0 5),
      .call (.remove 1), .call (.add 7), .call (.get 1), .call (.remove 0),
      .call (.get 0xffffffffffffffff), .destroy, .call .length, .destroy]
    let list := ⟨8, Lock.poisoning.recorded, some ⟨{}, .empty⟩, some Strategy.numbering.hooks⟩
    create (ω := Recorded Nat (List Message)) Lock.poisoning.recorded Strategy.numbering.hooks 8
      ⟨[], []⟩ = (.ok list, ⟨[], []⟩) ∧
    ∃ last rest,
      let episodes := ListMachine.run .numbering 8 (steps.map (·, .ok ())) [] (some [])
      session 0 steps list ⟨[], []⟩ =
        some (episodes, last, ⟨episodes.flatMap Episode.calls, rest⟩) :=
  ⟨Lock.unfailing_poisoning, Strategy.calm_numbering, rfl,
    session_of_create Lock.unfailing_poisoning Strategy.calm_numbering rfl 0 _⟩

end GuardedList
