import GuardedList.Proofs.Solo

/-!
# Mutual exclusion

What a lock owes to threads that share it. It must let nobody in while somebody holds it
(`Lock.Exclusive`); that is all that the order of the calls rests on. If it makes everybody wait
meanwhile, and answers by its own state alone (`Lock.Serial`), then it goes through the uses that it
is put to one after another (`Lock.Uses`), and would have answered the same way to the same uses at
any other time (`Lock.Sure`).
-/

namespace GuardedList

variable {ω σ π α : Type}

namespace Lock

/-- Between a grant and the release there is no other grant. -/
structure Exclusive (lock : Lock ω σ) (held : σ → Prop) : Prop where
  granted {state next : σ} {memory memory' : ω} :
    lock.acquire state memory = (.granted next, memory') → ¬ held state ∧ held next
  refused {state next : σ} {cause : LockError} {memory memory' : ω} : held state →
    lock.acquire state memory = (.refused cause next, memory') → held next

/-- A lock that makes everybody wait while it is held, and whose answers depend on its state alone.
-/
structure Serial (lock : Lock ω σ) (held : σ → Prop) : Prop extends lock.Exclusive held where
  blocked {state : σ} (memory : ω) : held state → (lock.acquire state memory).1 = .blocked
  acquire (state : σ) (memory memory' : ω) :
    (lock.acquire state memory).1 = (lock.acquire state memory').1
  release (manner : Manner) (state : σ) (memory memory' : ω) :
    (lock.release manner state memory).1 = (lock.release manner state memory').1

theorem serial_ofPlain {mutex : PlainMutex σ} {held free : σ → Prop}
    (lawful : mutex.Lawful held free) : (ofPlain mutex : Lock ω σ).Serial held where
  granted h := lawful.locked (acquire_ofPlain_eq_granted.1 h).1
  refused _ h := absurd h acquire_ofPlain_ne_refused
  blocked {state} memory hheld := by
    cases hlock : mutex.lock? state with
    | none => simp [ofPlain, hlock]
    | some locked => exact absurd hheld (lawful.locked hlock).1
  acquire _ _ _ := rfl
  release _ _ _ _ := rfl

theorem serial_poisoning [Journal ω] : (poisoning : Lock ω Poisoning).Serial (·.held = true) where
  granted {state next _ _} h := by
    obtain ⟨held, poisoned⟩ := state
    cases held <;> cases poisoned <;> simp at h
    obtain ⟨rfl, -⟩ := h
    simp
  refused {state _ _ _ _} hheld h := by simp [hheld] at h
  blocked memory hheld := by simp [hheld]
  acquire state memory memory' := by
    obtain ⟨held, poisoned⟩ := state
    cases held <;> cases poisoned <;> rfl
  release _ _ _ _ := rfl

variable {lock : Lock ω σ} {held : σ → Prop}

/-- One use after another, each known by what happened to the lock. -/
inductive Uses (lock : Lock ω σ) (first : σ) : List (List (Event π α)) → σ → Prop
  | nil : lock.Uses first [] first
  | snoc {uses : List (List (Event π α))} {state next : σ} {events : List (Event π α)}
      (h : lock.Uses first uses state) (huse : lock.Use state events next) :
      lock.Uses first (uses ++ [events]) next

/-- A use that the lock allows whenever it is in this state. -/
inductive Sure (lock : Lock ω σ) (state : σ) : List (Event π α) → σ → Prop
  | unasked : lock.Sure state [] state
  | refused {cause : LockError} {next : σ}
      (hacquire : ∀ memory, (lock.acquire state memory).1 = .refused cause next) :
      lock.Sure state [.refused cause] next
  | granted {middle next : σ} (manner : Manner)
      (hacquire : ∀ memory, (lock.acquire state memory).1 = .granted middle)
      (hrelease : ∀ memory, (lock.release manner middle memory).1 = next) :
      lock.Sure state [.granted, .released manner] next

/-- One sure use after another. -/
inductive SureUses (lock : Lock ω σ) : σ → List (List (Event π α)) → σ → Prop
  | nil {state : σ} : lock.SureUses state [] state
  | cons {first state last : σ} {events : List (Event π α)} {uses : List (List (Event π α))}
      (huse : lock.Sure first events state) (h : lock.SureUses state uses last) :
      lock.SureUses first (events :: uses) last

/-- A lock that gives the answers it was made with, and grants everything from then on. -/
def answering : Lock ω (List (Except LockError Unit)) where
  make memory := (.ok [], memory)
  acquire
    | [], memory => (.granted [], memory)
    | .ok () :: answers, memory => (.granted answers, memory)
    | .error cause :: answers, memory => (.refused cause answers, memory)
  release _ answers memory := (answers, memory)
  destroy _ memory := memory

/-- What a serial lock did once it is sure to do again. -/
theorem Serial.sure_of_use (serial : lock.Serial held) {state next : σ}
    {events : List (Event π α)} (huse : lock.Use state events next) :
    lock.Sure state events next := by
  cases huse with
  | unasked => exact .unasked
  | @refused cause next before after h =>
    refine .refused fun memory => ?_
    rw [serial.acquire state memory before, h]
  | @granted middle before after manner last h =>
    refine .granted manner (fun memory => ?_)
      (fun memory => serial.release manner middle memory last)
    rw [serial.acquire state memory before, h]

/-- A sure use is what becomes of the lock, if the events are the same. -/
theorem Sure.next_unique {state next next' : σ} {events : List (Event π α)}
    (hsure : lock.Sure state events next) (huse : lock.Use state events next') :
    next' = next := by
  cases hsure with
  | unasked =>
    cases huse
    rfl
  | refused hacquire =>
    cases huse with
    | @refused _ _ before _ h =>
      have := hacquire before
      rw [h] at this
      simpa using this
  | granted manner hacquire hrelease =>
    cases huse with
    | @granted _ before _ _ last h =>
      have := hacquire before
      rw [h, Attempt.granted.injEq] at this
      subst this
      exact hrelease last

section Uses

variable {first state last next : σ} {events : List (Event π α)} {uses : List (List (Event π α))}

theorem SureUses.snoc (h : lock.SureUses first uses state) (huse : lock.Sure state events last) :
    lock.SureUses first (uses ++ [events]) last := by
  induction h with
  | nil => exact .cons huse .nil
  | cons hfirst _ ih => exact .cons hfirst (ih huse)

theorem Serial.sureUses (serial : lock.Serial held) (h : lock.Uses first uses last) :
    lock.SureUses first uses last := by
  induction h with
  | nil => exact .nil
  | snoc _ huse ih => exact ih.snoc (serial.sure_of_use huse)

/-- Whoever asks for a lock that is sure to do something gets the answer that it is sure to give. -/
theorem Sure.answer_unique {answer answer' : Except LockError Unit}
    {later later' : List (Event π α)}
    (hsure : lock.Sure state (.ofAnswer answer :: later) last)
    (huse : lock.Use state (.ofAnswer answer' :: later') next) : answer' = answer := by
  generalize hevents : (.ofAnswer answer :: later : List (Event π α)) = events at hsure
  generalize hevents' : (.ofAnswer answer' :: later' : List (Event π α)) = events' at huse
  cases hsure with
  | unasked => cases hevents
  | @refused cause _ hacquire =>
    cases huse with
    | unasked => cases hevents'
    | @refused cause' _ before _ h =>
      have hsame := hacquire before
      rw [h] at hsame
      cases answer <;> cases answer' <;> simp_all [Event.ofAnswer]
    | @granted _ before _ _ _ h =>
      have hsame := hacquire before
      rw [h] at hsame
      cases hsame
  | granted manner hacquire _ =>
    cases huse with
    | unasked => cases hevents'
    | @refused cause' _ before _ h =>
      have hsame := hacquire before
      rw [h] at hsame
      cases hsame
    | granted =>
      cases answer <;> cases answer' <;> simp_all [Event.ofAnswer]

theorem Sure.not_blocked {event : Event π α} {later : List (Event π α)}
    (hsure : lock.Sure state (event :: later) last) (memory : ω) :
    (lock.acquire state memory).1 ≠ .blocked := by
  cases hsure with
  | refused hacquire => simp [hacquire memory]
  | granted _ hacquire _ => simp [hacquire memory]

end Uses

end Lock

end GuardedList
