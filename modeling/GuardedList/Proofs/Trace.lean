import GuardedList.Proofs.Session
import GuardedList.Proofs.Simulation

/-!
# Traces

What happens while a list is used, in the order in which it happens: operations begin and end, hooks
are called, and the lock is asked for, given up and taken down (`Occurrence`). Hooks may call the
list, so one operation can begin while others have not ended.

A session keeps its trace in its memory (`Traced`). Neither the lock nor the hooks get to see it, so
the session is the same as without the trace (`play_traced`).
-/

namespace GuardedList

variable {ω σ τ α ρ : Type}

/-- One thing that happens while a list is used. -/
inductive Occurrence (α : Type) where
  /-- An operation was called, by the list's user or by a hook. -/
  | began (operation : Operation α)
  /-- The latest of the operations that have not ended returned or unwound. -/
  | ended
  /-- A hook was called. -/
  | hook
  | granted
  | refused
  | released
  | destroyed

/-- What becomes of an attempt at a lock. Who has to wait will ask again. -/
def Attempt.occurrences : Attempt σ → List (Occurrence α)
  | granted _ => [.granted]
  | refused _ _ => [.refused]
  | blocked => []

/-- The memory of a session with the trace of the session so far, the first occurrence first. -/
structure Traced (α ω : Type) where
  trace : List (Occurrence α)
  rest : ω

instance [Journal ω] : Journal (Traced α ω) where
  record message memory := { memory with rest := Journal.record message memory.rest }

/-- A lock whose occurrences are traced. -/
def Lock.traced (lock : Lock ω σ) : Lock (Traced α ω) σ where
  make memory := ((lock.make memory.rest).1, { memory with rest := (lock.make memory.rest).2 })
  acquire state memory :=
    let (attempt, rest) := lock.acquire state memory.rest
    (attempt, ⟨memory.trace ++ attempt.occurrences, rest⟩)
  release manner state memory :=
    let (next, rest) := lock.release manner state memory.rest
    (next, ⟨memory.trace ++ [.released], rest⟩)
  destroy state memory := ⟨memory.trace ++ [.destroyed], lock.destroy state memory.rest⟩

/-- A computation whose calls are traced, after what happened before. -/
def Dialogue.traced : Dialogue ω α ρ → List (Occurrence α) → Dialogue (Traced α ω) α ρ
  | finish memory result, trace => finish ⟨trace, memory⟩ result
  | call memory operation next, trace =>
    call ⟨trace ++ [.began operation], memory⟩ operation fun left answer =>
      (next left.rest answer).traced (left.trace ++ [.ended])

/-- Hooks that are traced. -/
def Hooks.traced (hooks : Hooks ω α) : Hooks (Traced α ω) α where
  copy source memory := (hooks.copy source memory.rest).traced (memory.trace ++ [.hook])
  dispose value memory := (hooks.dispose value memory.rest).traced (memory.trace ++ [.hook])

/-- The list with its lock and its hooks traced. -/
def traced (list : GuardedList ω σ α) : GuardedList (Traced α ω) σ α :=
  ⟨list.elementSize, list.backend.traced, list.cell, list.hooks.map Hooks.traced⟩

/-- The operations that a user calls, traced. -/
def Server.traced (server : Server (Traced α ω) α τ) : Server (Traced α ω) α τ :=
  fun operation target memory =>
    (server operation target { memory with trace := memory.trace ++ [.began operation] }).map
      fun outcome =>
        { outcome with memory :=
          { outcome.memory with trace := outcome.memory.trace ++ [.ended] } }

/-- Takes steps one after another, whatever comes of each, with `server` for the operations. -/
def play [Journal ω] (server : Server ω α (GuardedList ω σ α)) : List (Step α) →
    GuardedList ω σ α → ω → Option (List (Ending (Reply α)) × GuardedList ω σ α × ω)
  | [], list, memory => some ([], list, memory)
  | .call operation :: steps, list, memory =>
    (server operation list memory).bind fun outcome =>
      (play server steps outcome.target outcome.memory).map fun (results, last) =>
        (outcome.result :: results, last)
  | .destroy :: steps, list, memory =>
    (list.destroy memory).bind fun outcome =>
      (play server steps outcome.target outcome.memory).map fun (results, last) =>
        (outcome.result.map (fun _ => .done) :: results, last)

/-- What a traced memory holds beside its trace. -/
def Traced.Beside (memory : Traced α ω) (rest : ω) : Prop := memory.rest = rest

theorem Dialogue.alike_traced (dialogue : Dialogue ω α ρ) (trace : List (Occurrence α)) :
    (dialogue.traced trace).Alike Traced.Beside dialogue := by
  induction dialogue generalizing trace with
  | finish memory result =>
    have hmemory : Traced.Beside (⟨trace, memory⟩ : Traced α ω) memory := rfl
    exact .finish hmemory result
  | call memory operation next ih =>
    have hmemory : Traced.Beside (⟨trace ++ [.began operation], memory⟩ : Traced α ω) memory := rfl
    refine .call hmemory operation fun left left' answer hleft => ?_
    cases hleft
    exact ih left.rest answer _

theorem Lock.alike_traced (lock : Lock ω σ) :
    lock.traced.Alike (Traced.Beside (α := α)) lock where
  acquire state hmemory := by cases hmemory; exact ⟨rfl, rfl⟩
  release manner state hmemory := by cases hmemory; exact ⟨rfl, rfl⟩
  destroy state hmemory := by cases hmemory; rfl

theorem Hooks.alike_traced (hooks : Hooks ω α) : hooks.traced.Alike Traced.Beside hooks where
  copy source hmemory := by cases hmemory; exact (hooks.copy source _).alike_traced _
  dispose value hmemory := by cases hmemory; exact (hooks.dispose value _).alike_traced _

theorem Journal.alike_traced [Journal ω] : Journal.Alike (Traced.Beside (α := α) (ω := ω)) := by
  rintro message memory _ rfl
  rfl

/-- The disposals of a destruction are so many calls of hooks. -/
theorem freeAll_traced (hooks? : Option (Hooks ω α)) (chain : Chain α) (freed : Nat)
    (trace : List (Occurrence α)) (memory : ω) :
    ∃ count, freeAll (hooks?.map Hooks.traced) chain freed ⟨trace, memory⟩ =
      (freeAll hooks? chain freed memory).map fun (ending, left) =>
        (ending, ⟨trace ++ List.replicate count .hook, left⟩) := by
  induction chain generalizing freed trace memory with
  | empty => exact ⟨0, by simp [freeAll]⟩
  | link value next ih =>
    cases hooks? with
    | none => exact ih (freed + 1) trace memory
    | some hooks =>
      have hfirst : hooks.traced.dispose value ⟨trace, memory⟩ =
          (hooks.dispose value memory).traced (trace ++ [.hook]) := rfl
      simp only [freeAll, Option.map_some, hfirst]
      cases hooks.dispose value memory with
      | call left operation rest => exact ⟨0, rfl⟩
      | finish left residue =>
        obtain ⟨value, _ | text⟩ := residue
        · obtain ⟨count, hcount⟩ := ih (freed + 1) (trace ++ [.hook]) left
          refine ⟨count + 1, ?_⟩
          simp only [Option.map_some, List.append_assoc, List.singleton_append] at hcount
          rw [List.replicate_succ]
          exact hcount
        · exact ⟨1, rfl⟩

/-- A list and the same list with its lock and its hooks traced. -/
def IsTraced (list : GuardedList (Traced α ω) σ α) (list' : GuardedList ω σ α) : Prop :=
  list = list'.traced

variable [Journal ω]

/-- Operations come to the same with a trace and without. -/
theorem serve_alike_traced (depth : Nat) :
    Server.Alike IsTraced Traced.Beside (serve depth : Server (Traced α ω) α (GuardedList _ σ α))
      (serve depth) := by
  rintro operation _ ⟨size, lock, cell?, hooks?⟩ memory _ rfl rfl
  cases cell? with
  | none => exact .some ⟨rfl, rfl, rfl⟩
  | some cell =>
    cases hooks? with
    | none => exact .some ⟨rfl, rfl, rfl⟩
    | some hooks =>
      have hserve := Operation.serve_alike lock.alike_traced hooks.alike_traced
        Journal.alike_traced size (depth + 1) operation cell cell memory memory.rest rfl rfl
      simp only [serve, traced, Option.map_some]
      rcases none_or_some_of_rel hserve with
        ⟨hnone, hnone'⟩ | ⟨outcome, outcome', hsome, hsome', halike⟩
      · rw [hnone, hnone']
        exact .none
      · rw [hsome, hsome']
        refine .some ⟨halike.result, ?_, halike.memory⟩
        simp only [halike.target, IsTraced, traced, Option.map_some]

/-- What the trace of a list gains by its destruction. -/
def destroyTrace (list : GuardedList ω σ α) (count : Nat) : List (Occurrence α) :=
  if list.cell.isSome then .destroyed :: List.replicate count .hook else []

/-- Whatever comes of a destruction, the list has no lock and no elements afterwards. -/
theorem target_of_destroy {list : GuardedList ω σ α} {memory : ω}
    {outcome : Outcome (Ending Unit) (GuardedList ω σ α) ω}
    (hdestroy : list.destroy memory = some outcome) :
    ∃ hooks?, outcome.target = { list with cell := none, hooks := hooks? } := by
  unfold destroy at hdestroy
  cases hcell : list.cell with
  | none =>
    rw [hcell] at hdestroy
    cases hdestroy
    exact ⟨none, rfl⟩
  | some cell =>
    simp only [hcell] at hdestroy
    split at hdestroy
    · cases hdestroy
    · cases hdestroy
      exact ⟨none, rfl⟩
    · cases hdestroy
      exact ⟨list.hooks, rfl⟩
    · cases hdestroy
      exact ⟨list.hooks, rfl⟩

/-- A destruction comes to the same with a trace and without. -/
theorem destroy_traced (list : GuardedList ω σ α) (trace : List (Occurrence α)) (memory : ω) :
    ∃ count, list.traced.destroy ⟨trace, memory⟩ =
      (list.destroy memory).map fun outcome =>
        ⟨outcome.result, outcome.target.traced,
          ⟨trace ++ list.destroyTrace count, outcome.memory⟩⟩ := by
  obtain ⟨size, lock, cell?, hooks?⟩ := list
  cases cell? with
  | none => exact ⟨0, by simp [destroy, traced, destroyTrace]⟩
  | some cell =>
    obtain ⟨count, hfreed⟩ := freeAll_traced hooks? cell.value 0 (trace ++ [.destroyed])
      (lock.destroy cell.lock memory)
    refine ⟨count, ?_⟩
    simp only [destroy, traced, Cell.destroy, Lock.traced, hfreed]
    rcases freeAll hooks? cell.value 0 (lock.destroy cell.lock memory) with
      _ | ⟨freed | cause | text, left⟩
    · rfl
    · simp [destroyTrace, Journal.record]
    · simp [destroyTrace]
    · simp [destroyTrace]

/-- A session can be traced, and is the same as without the trace. -/
theorem play_traced (depth : Nat) (steps : List (Step α)) {list last : GuardedList ω σ α}
    {memory left : ω} {results : List (Ending (Reply α))}
    (hplay : play (serve depth) steps list memory = some (results, last, left))
    (trace : List (Occurrence α)) :
    ∃ trace', play (Server.traced (serve depth)) steps list.traced ⟨trace, memory⟩ =
      some (results, last.traced, ⟨trace', left⟩) := by
  induction steps generalizing list memory results trace with
  | nil =>
    cases hplay
    exact ⟨trace, rfl⟩
  | cons step steps ih =>
    cases step with
    | call operation =>
      simp only [play, Option.bind_eq_some_iff, Option.map_eq_some_iff] at hplay
      obtain ⟨⟨result, target, rest⟩, hserve, ⟨later, _⟩, hrest, hresults⟩ := hplay
      cases hresults
      have halike := serve_alike_traced depth operation list.traced list
        ⟨trace ++ [.began operation], memory⟩ memory rfl rfl
      rw [hserve] at halike
      rcases none_or_some_of_rel halike with
        ⟨-, hnone⟩ | ⟨⟨_, _, middle, _⟩, _, htraced, hsome, ⟨rfl, rfl, rfl⟩⟩
      · cases hnone
      · cases hsome
        obtain ⟨trace', htrace⟩ := ih hrest (middle ++ [.ended])
        refine ⟨trace', ?_⟩
        simp only [play, Server.traced, htraced, Option.map_some, Option.bind_some]
        rw [htrace]
        rfl
    | destroy =>
      simp only [play, Option.bind_eq_some_iff, Option.map_eq_some_iff] at hplay
      obtain ⟨outcome, hdestroy, ⟨later, _⟩, hrest, hresults⟩ := hplay
      cases hresults
      obtain ⟨count, htraced⟩ := list.destroy_traced trace memory
      obtain ⟨trace', htrace⟩ := ih hrest (trace ++ list.destroyTrace count)
      refine ⟨trace', ?_⟩
      simp only [play, htraced, hdestroy, Option.map_some, Option.bind_some]
      rw [htrace]
      rfl

end GuardedList
