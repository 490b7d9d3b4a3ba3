import GuardedList.Proofs.Merge
import GuardedList.Proofs.TurnTaking
import Mathlib.Data.List.Sort

/-!
# Gathering

Threads that only add to a list that they share, each its own batch of values in order, on hooks
that copy plainly and a lock that refuses nobody (`gathered_of_follow`). An addition finds the tail
behind all that was added before it, so no value is lost, none comes twice, and none overtakes
another one of its batch: the schedule decides how the batches are merged, and nothing else.
-/

namespace GuardedList

variable {ω σ α : Type}

/-- What a list can come to hold when these batches are added to what it held before. -/
structure Gathered (before : List α) (batches : List (List α)) (after : List α) : Prop where
  merge : ∃ merged, Merge batches merged ∧ after = before ++ merged
  length : after.length = before.length + batches.flatten.length
  sorted (le : α → α → Prop) [DecidableRel le] [IsTrans α le] [Std.Total le] [Std.Antisymm le] :
    after.mergeSort (le · ·) = (before ++ batches.flatten).mergeSort (le · ·)
  order : ∀ batch ∈ batches, batch.Sublist after

/-- All is told by how the batches are merged. -/
theorem Merge.gathered {batches : List (List α)} {merged : List α} (h : Merge batches merged)
    (before : List α) : Gathered before batches (before ++ merged) where
  merge := ⟨merged, h, rfl⟩
  length := by rw [List.length_append, h.length_eq]
  sorted le _ _ _ _ := by
    have hperm : (before ++ merged).Perm (before ++ batches.flatten) := h.perm.append_left before
    have hsame : ((before ++ merged).mergeSort (le · ·)).Perm
        ((before ++ batches.flatten).mergeSort (le · ·)) :=
      (List.mergeSort_perm _ _).trans (hperm.trans (List.mergeSort_perm _ _).symm)
    exact hsame.eq_of_pairwise' (List.pairwise_mergeSort' le _) (List.pairwise_mergeSort' le _)
  order batch hbatch := (h.sublist hbatch).trans (List.sublist_append_right before merged)

/-- The turns that add these values, each for its thread, and all succeed. -/
def Additions (turns : List (Commit (Operation α) × Turn α)) (entries : List (Nat × α)) : Prop :=
  turns.map (fun pair => (pair.1.thread, pair.1.call, pair.2.result)) =
    entries.map fun entry => (entry.1, .add entry.2, .value .done)

/-- When only additions take their turns all of them succeed, and the values stand behind the others
in the order of the turns. -/
theorem exists_additions (size : Nat) {commits : List (Commit (Operation α))}
    (hadds : ∀ commit ∈ commits, ∃ value, commit.call = .add value) (past : List (HookCall α))
    (elements : List α) :
    ∃ entries : List (Nat × α),
      Additions (takeTurns .plain size commits past elements) entries ∧
      elementsAfter elements (takeTurns .plain size commits past elements) =
        elements ++ entries.map Prod.snd := by
  induction commits generalizing past elements with
  | nil => exact ⟨[], rfl, (List.append_nil elements).symm⟩
  | cons commit commits ih =>
    obtain ⟨value, hcall⟩ := hadds commit List.mem_cons_self
    have hturn : commit.call.turn .plain size (.ok ()) past elements =
        ⟨.value .done, elements ++ [value], [.copied value (.value value)]⟩ := by
      rw [hcall]
      rfl
    obtain ⟨entries, hentries, hafter⟩ :=
      ih (fun other hother => hadds other (List.mem_cons_of_mem commit hother))
        (past ++ [.copied value (.value value)]) (elements ++ [value])
    refine ⟨(commit.thread, value) :: entries, ?_, ?_⟩
    · rw [Additions] at hentries ⊢
      rw [takeTurns, hturn, List.map_cons, List.map_cons, hentries, hcall]
    · rw [takeTurns, hturn, elementsAfter, List.foldl_cons, ← elementsAfter, hafter,
        List.append_assoc, List.map_cons, List.singleton_append]

section Shares

variable {turns : List (Commit (Operation α) × Turn α)} {entries : List (Nat × α)}

/-- The additions of one thread. -/
theorem turnsOf_of_additions (h : Additions turns entries) (index : Nat) :
    (turnsOf index turns).map (fun pair => (pair.1.call, pair.2.result)) =
      ((entries.filter fun entry => entry.1 = index).map Prod.snd).map
        fun value => (.add value, .value .done) := by
  have hshare := congrArg (fun triples : List (Nat × Operation α × Ending (Reply α)) =>
    (triples.filter fun triple => triple.1 = index).map Prod.snd) h
  simp only [List.filter_map, List.map_map] at hshare
  rw [turnsOf, List.map_map]
  exact hshare

theorem results_of_additions (h : Additions turns entries) :
    ∀ pair ∈ turns, pair.2.result = .value .done := by
  intro pair hpair
  have hmember := List.mem_map_of_mem (f := fun pair => (pair.1.thread, pair.1.call, pair.2.result))
    hpair
  rw [Additions] at h
  rw [h, List.mem_map] at hmember
  obtain ⟨entry, -, hentry⟩ := hmember
  simp only [Prod.mk.injEq] at hentry
  exact hentry.2.2.symm

theorem thread_of_additions (h : Additions turns entries) {entry : Nat × α}
    (hentry : entry ∈ entries) : ∃ pair ∈ turns, pair.1.thread = entry.1 := by
  have hmember := List.mem_map_of_mem
    (f := fun entry => (entry.1, Operation.add entry.2, (.value .done : Ending (Reply α)))) hentry
  rw [Additions] at h
  rw [← h, List.mem_map] at hmember
  obtain ⟨pair, hpair, hsame⟩ := hmember
  simp only [Prod.mk.injEq] at hsame
  exact ⟨pair, hpair, hsame.1⟩

end Shares

section Threads

variable [Journal ω] {lock : Lock ω σ} {held free intact : σ → Prop} {size : Nat}
  {start : Cell σ (Chain α)} {memory : ω} {batches : List (List α)} {schedule : List Nat}
  {moves : List (Nat × Move (Chain α) α (Operation α) (Reply α))}
  {pool : Pool ω σ (Chain α) α (Operation α) (Reply α)}

/-- Threads at rest are explained by additions, one after another. -/
theorem exists_additions_of_follow (working : lock.Working held free intact)
    (hintact : intact start.lock)
    (hfollow : (Pool.ofPlans start memory ((batches.map (List.map .add)).map Plan.inOrder)).follow
      ⟨lock, .clone, Operation.routine size⟩ schedule = some (moves, pool))
    (hidle : ∀ thread ∈ pool.threads, thread.running = none) :
    ∃ turns entries, InTurns start.value.toList turns moves pool ∧ Additions turns entries ∧
      pool.cell.value.toList = start.value.toList ++ entries.map Prod.snd := by
  have hturns := inTurns_clone_of_follow working hintact hfollow hidle
  have hadds : ∀ commit ∈ (Log.ofMoves moves).commits, ∃ value, commit.call = .add value := by
    intro commit hcommit
    obtain ⟨pair, hpair, rfl⟩ := exists_turn_of_mem .plain size [] start.value.toList hcommit
    have hcall := (hturns.subperm_calls hfollow hidle).subset (List.mem_map_of_mem hpair)
    rw [← List.map_flatten, List.mem_map] at hcall
    obtain ⟨value, -, hvalue⟩ := hcall
    exact ⟨value, hvalue.symm⟩
  obtain ⟨entries, hentries, hafter⟩ := exists_additions size hadds [] start.value.toList
  exact ⟨_, entries, hturns, hentries, hturns.left.trans hafter⟩

/-- Threads that are done have added their batches. -/
theorem gathered_of_isDone (working : lock.Working held free intact) (hintact : intact start.lock)
    (hfollow : (Pool.ofPlans start memory ((batches.map (List.map .add)).map Plan.inOrder)).follow
      ⟨lock, .clone, Operation.routine size⟩ schedule = some (moves, pool))
    (hdone : ∀ thread ∈ pool.threads, thread.isDone = true) :
    Gathered start.value.toList batches pool.cell.value.toList ∧
    ∀ {index : Nat} {thread : Thread (Chain α) α (Operation α) (Reply α)} {batch : List α},
      pool.threads[index]? = some thread → batches[index]? = some batch →
        thread.history.reverse = batch.map fun value => (.add value, .value .done) := by
  have hidle := Pool.idle_of_isDone hdone
  obtain ⟨turns, entries, hturns, hentries, hafter⟩ :=
    exists_additions_of_follow working hintact hfollow hidle
  have hshare : ∀ {index batch}, batches[index]? = some batch →
      (entries.filter fun entry => entry.1 = index).map Prod.snd = batch := by
    intro index batch hbatch
    have hprogram : (batches.map (List.map Operation.add))[index]? = some (batch.map .add) := by
      rw [List.getElem?_map, hbatch, Option.map_some]
    have hcalls := hturns.calls_of_isDone hfollow hdone hprogram
    have hadds := congrArg (List.map Prod.fst) (turnsOf_of_additions hentries index)
    rw [List.map_map, List.map_map] at hadds
    exact List.map_injective_iff.2 (fun _ _ => Operation.add.inj) (hadds.symm.trans hcalls)
  have howner : ∀ entry ∈ entries, entry.1 < batches.length := by
    intro entry hentry
    obtain ⟨pair, hpair, hthread⟩ := thread_of_additions hentries hentry
    have hindex := hturns.owner pair hpair
    rwa [hthread, length_threads_ofPlans hfollow, List.length_map, List.length_map] at hindex
  refine ⟨?_, ?_⟩
  · rw [hafter]
    exact (merge_of_shares howner hshare).gathered start.value.toList
  · intro index thread batch hthread hbatch
    rw [hturns.history hthread, turnsOf_of_additions hentries, hshare hbatch]

/-- However threads take turns that add their batches to a list, they come to an end, no addition
ever fails, and in the end the list holds what it held before and then a merge of the batches. -/
theorem gathered_of_follow (working : lock.Working held free intact) (hintact : intact start.lock)
    (hfollow : (Pool.ofPlans start memory ((batches.map (List.map .add)).map Plan.inOrder)).follow
      ⟨lock, .clone, Operation.routine size⟩ schedule = some (moves, pool)) :
    ComesToEnd ⟨lock, .clone, Operation.routine size⟩ (10 * batches.flatten.length) moves pool ∧
    (∀ thread ∈ pool.threads, ∀ entry ∈ thread.history, entry.2 = .value .done) ∧
    ((∀ thread ∈ pool.threads, thread.isDone = true) →
      Gathered start.value.toList batches pool.cell.value.toList ∧
      ∀ {index : Nat} {thread : Thread (Chain α) α (Operation α) (Reply α)} {batch : List α},
        pool.threads[index]? = some thread → batches[index]? = some batch →
          thread.history.reverse = batch.map fun value => (.add value, .value .done)) := by
  refine ⟨?_, ?_, gathered_of_isDone working hintact hfollow⟩
  · have hends := comesToEnd_of_list_programs working hintact Hooks.silent_clone hfollow
    rwa [← List.map_flatten, List.length_map] at hends
  · -- Whatever has ended by now is history when all calls that were begun have ended.
    obtain ⟨longer, moves', last, hlast, -, hidle, hprecedes⟩ :=
      exists_rest_of_list working hintact Hooks.silent_clone hfollow
    obtain ⟨turns, entries, hturns, hentries, -⟩ :=
      exists_additions_of_follow working hintact hlast hidle
    intro thread hmember entry hentry
    obtain ⟨pair, hpair, rfl⟩ := hturns.exists_turn (hprecedes.exists_grown hmember) hentry
    exact results_of_additions hentries pair hpair

/-- Two threads add behind a value that the list holds from the start. The one that is slower to
take the lock finds its values behind those of the other one, although it had made its copy first.
-/
theorem gathered_of_follow_ticket :
    (Lock.ticket : Lock (List Message) Ticket).Working (fun state => state.next = state.serving + 1)
      (fun state => state.next = state.serving) (fun state => state.next = state.serving) ∧
    let start : Cell Ticket (Chain Nat) := ⟨{}, .link 7 .empty⟩
    let setting : Setting (List Message) Ticket (Chain Nat) Nat (Operation Nat) (Reply Nat) :=
      ⟨Lock.ticket, .clone, Operation.routine 8⟩
    ∃ moves pool, (Pool.ofPlans start [] (([[1, 2], [3, 4]].map (List.map .add)).map
        Plan.inOrder)).follow setting
        [0, 0, 1, 1, 1, 1, 1, 1, 1, 1, 0, 1, 1, 0, 0, 0, 1, 0, 0, 0, 0, 1, 1, 1, 1, 1, 0, 0, 0, 0,
          0, 0] = some (moves, pool) ∧
      (∀ thread ∈ pool.threads, thread.isDone = true) ∧
      pool.cell.value.toList = [7, 3, 1, 4, 2] ∧
      Gathered [7] [[1, 2], [3, 4]] pool.cell.value.toList := by
  have working : (Lock.ticket : Lock (List Message) Ticket).Working
      (fun state => state.next = state.serving + 1) (fun state => state.next = state.serving)
      (fun state => state.next = state.serving) := Lock.working_ticket
  refine ⟨working, ?_⟩
  intro start setting
  have hrun : ((Pool.ofPlans start [] (([[1, 2], [3, 4]].map (List.map .add)).map
      Plan.inOrder)).follow setting
      [0, 0, 1, 1, 1, 1, 1, 1, 1, 1, 0, 1, 1, 0, 0, 0, 1, 0, 0, 0, 0, 1, 1, 1, 1, 1, 0, 0, 0, 0,
        0, 0]).map (fun (_, pool) => (pool.threads.all Thread.isDone, pool.cell.value.toList)) =
      some (true, [7, 3, 1, 4, 2]) := by decide +kernel
  simp only [Option.map_eq_some_iff, Prod.mk.injEq] at hrun
  obtain ⟨⟨moves, pool⟩, hfollow, hdone, hvalue⟩ := hrun
  obtain ⟨-, -, hgathered⟩ := gathered_of_follow working rfl hfollow
  exact ⟨moves, pool, hfollow, List.all_eq_true.1 hdone, hvalue,
    (hgathered (List.all_eq_true.1 hdone)).1⟩

end Threads

end GuardedList
