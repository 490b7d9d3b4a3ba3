import GuardedList.Proofs.TurnTaking
import Mathlib.Data.List.Forall2

/-!
# A list as a queue

One thread adds to the end of a list, another takes from its front, and a third looks at positions
in between, on hooks that copy plainly and a lock that refuses nobody (`queued_of_follow`). Nothing
is lost and nothing changes its place in the queue of all values: what the list holds is always a
piece of that queue, and the only thing that a reader cannot know is how many values are gone by
then, a number that never goes down.
-/

namespace GuardedList

variable {ω σ α κ : Type}

/-- The calls that take effect in one thread. -/
def callsOf (index : Nat) (commits : List (Commit κ)) : List κ :=
  (commits.filter fun commit => commit.thread = index).map Commit.call

/-- What the calls of one thread come to. -/
def answersOf (index : Nat) (turns : List (Commit (Operation α) × Turn α)) :
    List (Operation α × Ending (Reply α)) :=
  (turnsOf index turns).map fun pair => (pair.1.call, pair.2.result)

section Cons

variable {commit : Commit (Operation α)} {turn : Turn α} {index : Nat}

theorem callsOf_cons_self (h : commit.thread = index) (commits : List (Commit (Operation α))) :
    callsOf index (commit :: commits) = commit.call :: callsOf index commits := by
  simp [callsOf, h]

theorem callsOf_cons_of_ne (h : commit.thread ≠ index) (commits : List (Commit (Operation α))) :
    callsOf index (commit :: commits) = callsOf index commits := by
  simp [callsOf, h]

variable (turns : List (Commit (Operation α) × Turn α))

theorem answersOf_cons_self (h : commit.thread = index) :
    answersOf index ((commit, turn) :: turns) =
      (commit.call, turn.result) :: answersOf index turns := by
  simp [answersOf, turnsOf, h]

theorem answersOf_cons_of_ne (h : commit.thread ≠ index) :
    answersOf index ((commit, turn) :: turns) = answersOf index turns := by
  simp [answersOf, turnsOf, h]

end Cons

/-- The calls of a thread are those that take its turns. -/
theorem map_call_turnsOf (strategy : Strategy α) (size index : Nat)
    (commits : List (Commit (Operation α))) (past : List (HookCall α)) (elements : List α) :
    (turnsOf index (takeTurns strategy size commits past elements)).map (·.1.call) =
      callsOf index commits := by
  have hcommits := congrArg (callsOf index) (map_fst_takeTurns strategy size commits past elements)
  rw [callsOf, List.filter_map, List.map_map] at hcommits
  exact hcommits

/-- What can come of looking at a position of a queue of which `shift` values are gone: the value
that is there by then, or nothing, and this only from the position `certain` on. -/
def Glimpse (queue : List α) (certain index shift : Nat) (ending : Ending (Reply α)) : Prop :=
  (∃ element, queue[index + shift]? = some element ∧ ending = .value (.element element)) ∨
    (certain ≤ index ∧ ending = .error .outOfRange)

/-- What comes of looks at these positions, one after another, while no more than `removals` values
go. The shifts tell how many were gone at each look. -/
def Looked (queue : List α) (certain removals : Nat) (looks : List Nat)
    (looker : List (Operation α × Ending (Reply α))) : Prop :=
  ∃ shifts, shifts.length = looks.length ∧ shifts.Pairwise (· ≤ ·) ∧
    (∀ shift ∈ shifts, shift ≤ removals) ∧
    List.Forall₂ (fun look entry => entry.1 = .get look.1 ∧
      Glimpse queue certain look.1 look.2 entry.2) (looks.zip shifts) looker

/-- What comes of the calls of three threads, of which the first adds these values to `contents`,
the second takes so many values from the front, and the third looks at these positions. -/
structure Queued (contents added : List α) (removals : Nat) (looks : List Nat) (left : List α)
    (adder remover looker : List (Operation α × Ending (Reply α))) : Prop where
  left : left = contents.drop removals ++ added
  adder : adder = added.map fun value => (.add value, .value .done)
  remover : remover = List.replicate removals (.remove 0, .value .done)
  looker : Looked (contents ++ added) (contents.length - removals) removals looks looker

/-- What has come of these calls by some moment, as far as they have ended. -/
structure QueuedSoFar (contents added : List α) (removals : Nat) (looks : List Nat)
    (adder remover looker : List (Operation α × Ending (Reply α))) : Prop where
  adder : adder <+: added.map fun value => (.add value, .value .done)
  remover : remover <+: List.replicate removals (.remove 0, .value .done)
  looker : ∃ made, made <+: looks ∧
    Looked (contents ++ added) (contents.length - removals) removals made looker

section Looked

variable {queue queue' : List α} {certain certain' removals removals' : Nat} {looks : List Nat}
  {looker looker' : List (Operation α × Ending (Reply α))}

/-- More values that are added, and more that can go, leave room for more. -/
theorem Looked.mono (h : Looked queue certain removals looks looker) (hqueue : queue <+: queue')
    (hcertain : certain' ≤ certain) (hremovals : removals ≤ removals') :
    Looked queue' certain' removals' looks looker := by
  obtain ⟨shifts, hlength, hsorted, hbound, hlooks⟩ := h
  refine ⟨shifts, hlength, hsorted, fun shift hshift => (hbound shift hshift).trans hremovals, ?_⟩
  refine hlooks.imp ?_
  rintro look entry ⟨hcall, hglimpse⟩
  refine ⟨hcall, ?_⟩
  rcases hglimpse with ⟨element, helement, hending⟩ | ⟨hmissing, hending⟩
  · left
    obtain ⟨rest, rfl⟩ := hqueue
    have hindex := (List.getElem?_eq_some_iff.1 helement).1
    exact ⟨element, by rw [List.getElem?_append_left hindex, helement], hending⟩
  · exact .inr ⟨hcertain.trans hmissing, hending⟩

/-- The first looks are looks too. -/
theorem Looked.of_prefix (h : Looked queue certain removals looks looker)
    (hlooker : looker' <+: looker) :
    ∃ made, made <+: looks ∧ Looked queue certain removals made looker' := by
  obtain ⟨shifts, hlength, hsorted, hbound, hlooks⟩ := h
  refine ⟨looks.take looker'.length, List.take_prefix _ _, shifts.take looker'.length, ?_,
    hsorted.take, ?_, ?_⟩
  · rw [List.length_take, List.length_take, hlength]
  · intro shift hshift
    exact hbound shift (List.mem_of_mem_take hshift)
  · rw [List.zip, ← List.take_zipWith, List.prefix_iff_eq_take.1 hlooker, List.length_take,
      Nat.min_eq_left hlooker.length_le]
    exact List.forall₂_take _ hlooks

end Looked

section Steps

variable {contents added left : List α} {removals : Nat} {looks : List Nat}
  {adder remover looker : List (Operation α × Ending (Reply α))}

theorem Queued.nil (contents : List α) : Queued contents [] 0 [] contents [] [] [] where
  left := by simp
  adder := rfl
  remover := rfl
  looker := ⟨[], rfl, .nil, by simp, .nil⟩

/-- An addition does not change the queue of all values. -/
theorem Queued.add {value : α}
    (h : Queued (contents ++ [value]) added removals looks left adder remover looker)
    (hremovals : removals ≤ contents.length) :
    Queued contents (value :: added) removals looks left
      ((.add value, .value .done) :: adder) remover looker := by
  obtain ⟨hleft, hadder, hremover, hlooker⟩ := h
  refine ⟨?_, ?_, hremover, hlooker.mono ?_ ?_ (Nat.le_refl removals)⟩
  · rw [hleft, List.drop_append_of_le_length hremovals]
    simp
  · rw [hadder]
    rfl
  · simp
  · rw [List.length_append]
    omega

/-- A removal moves all later looks one place on in the queue of all values. -/
theorem Queued.remove {value : α}
    (h : Queued contents added removals looks left adder remover looker) :
    Queued (value :: contents) added (removals + 1) looks left adder
      ((.remove 0, .value .done) :: remover) looker := by
  obtain ⟨hleft, hadder, hremover, shifts, hlength, hsorted, hbound, hlooks⟩ := h
  refine ⟨hleft, hadder, ?_, shifts.map (· + 1), ?_, ?_, ?_, ?_⟩
  · rw [hremover]
    rfl
  · rw [List.length_map]
    exact hlength
  · rw [List.pairwise_map]
    apply hsorted.imp
    intro first second hle
    omega
  · intro shift hshift
    obtain ⟨before, hbefore, rfl⟩ := List.mem_map.1 hshift
    have hle := hbound before hbefore
    omega
  · rw [List.zip_map_right, List.forall₂_map_left_iff]
    refine hlooks.imp ?_
    rintro ⟨index, shift⟩ entry ⟨hcall, hglimpse⟩
    refine ⟨hcall, ?_⟩
    rcases hglimpse with ⟨element, helement, hending⟩ | ⟨hcertain, hending⟩
    · left
      exact ⟨element, helement, hending⟩
    · right
      refine ⟨?_, hending⟩
      rw [List.length_cons]
      dsimp only [Prod.map, id] at hcertain ⊢
      omega

/-- Nobody knows more of the queue than somebody who looks at it now. -/
theorem Queued.look {index : Nat}
    (h : Queued contents added removals looks left adder remover looker) {ending : Ending (Reply α)}
    (hglimpse : Glimpse (contents ++ added) (contents.length - removals) index 0 ending) :
    Queued contents added removals (index :: looks) left adder remover
      ((.get index, ending) :: looker) := by
  obtain ⟨hleft, hadder, hremover, shifts, hlength, hsorted, hbound, hlooks⟩ := h
  refine ⟨hleft, hadder, hremover, 0 :: shifts, ?_, ?_, ?_, ?_⟩
  · rw [List.length_cons, List.length_cons, hlength]
  · refine .cons ?_ hsorted
    intro shift _
    exact Nat.zero_le shift
  · intro shift hshift
    rcases List.mem_cons.1 hshift with rfl | hrest
    · exact Nat.zero_le removals
    · exact hbound shift hrest
  · exact .cons ⟨rfl, hglimpse⟩ hlooks

/-- What was true of the first calls of each thread when they had all ended, is true of all calls as
far as they have ended before. -/
theorem Queued.soFar {added' : List α} {removals' : Nat} {looks' : List Nat}
    {adder' remover' looker' : List (Operation α × Ending (Reply α))}
    (h : Queued contents added removals looks left adder remover looker)
    (hadded : added <+: added') (hremovals : removals ≤ removals') (hlooks : looks <+: looks')
    (hadder : adder' <+: adder) (hremover : remover' <+: remover) (hlooker : looker' <+: looker) :
    QueuedSoFar contents added' removals' looks' adder' remover' looker' where
  adder := by
    rw [h.adder] at hadder
    exact hadder.trans (hadded.map _)
  remover := by
    rw [h.remover] at hremover
    exact hremover.trans (List.prefix_replicate_iff.2 (by simp [hremovals]))
  looker := by
    obtain ⟨made, hmade, hlooked⟩ := h.looker.of_prefix hlooker
    have hqueue : contents ++ added <+: contents ++ added' :=
      (List.prefix_append_right_inj _).2 hadded
    exact ⟨made, hmade.trans hlooks, hlooked.mono hqueue (by omega) hremovals⟩

end Steps

/-- Somebody who looks at a position sees the queue as it is, and leaves it so. -/
theorem glimpse_of_turn (size : Nat) (past : List (HookCall α)) (contents added : List α)
    {removals : Nat} (hremovals : removals ≤ contents.length) (index : Nat) :
    let turn := (Operation.get index).turn .plain size (.ok ()) past contents
    turn.contents = contents ∧
      Glimpse (contents ++ added) (contents.length - removals) index 0 turn.result := by
  intro turn
  cases hvalue : contents[index]? with
  | none =>
    have hend : contents.length ≤ index := List.getElem?_eq_none_iff.1 hvalue
    have hturn : turn = ⟨.error .outOfRange, contents, []⟩ := by
      simp only [turn, Operation.turn, Turn.locked, hvalue]
    rw [hturn]
    exact ⟨rfl, .inr ⟨by omega, rfl⟩⟩
  | some element =>
    have hturn : turn =
        ⟨.value (.element element), contents, [.copied element (.value element)]⟩ := by
      simp only [turn, Operation.turn, Turn.locked, hvalue, Strategy.plain, Ending.map]
    have hindex : index < contents.length := (List.getElem?_eq_some_iff.1 hvalue).1
    rw [hturn]
    refine ⟨rfl, .inl ⟨element, ?_, rfl⟩⟩
    rw [Nat.add_zero, List.getElem?_append_left hindex]
    exact hvalue

/-- What comes of the calls of the three threads by these turns on `contents`. -/
def QueuedBy (turns : List (Commit (Operation α) × Turn α)) (contents added : List α)
    (removals : Nat) (looks : List Nat) : Prop :=
  Queued contents added removals looks (elementsAfter contents turns) (answersOf 0 turns)
    (answersOf 1 turns) (answersOf 2 turns)

section Turns

variable {commit : Commit (Operation α)} {turn : Turn α}
  {turns : List (Commit (Operation α) × Turn α)} {contents added : List α} {removals : Nat}
  {looks : List Nat}

theorem QueuedBy.add {value : α} (hthread : commit.thread = 0) (hcall : commit.call = .add value)
    (hresult : turn.result = .value .done) (hcontents : turn.contents = contents ++ [value])
    (hremovals : removals ≤ contents.length)
    (h : QueuedBy turns (contents ++ [value]) added removals looks) :
    QueuedBy ((commit, turn) :: turns) contents (value :: added) removals looks := by
  rw [QueuedBy, answersOf_cons_self _ hthread, answersOf_cons_of_ne _ (by omega),
    answersOf_cons_of_ne _ (by omega), elementsAfter, List.foldl_cons, hcall, hresult, hcontents]
  exact Queued.add h hremovals

theorem QueuedBy.remove {value : α} (hthread : commit.thread = 1) (hcall : commit.call = .remove 0)
    (hresult : turn.result = .value .done) (hcontents : turn.contents = contents)
    (h : QueuedBy turns contents added removals looks) :
    QueuedBy ((commit, turn) :: turns) (value :: contents) added (removals + 1) looks := by
  rw [QueuedBy, answersOf_cons_self _ hthread, answersOf_cons_of_ne _ (by omega),
    answersOf_cons_of_ne _ (by omega), elementsAfter, List.foldl_cons, hcall, hresult, hcontents]
  exact Queued.remove h

theorem QueuedBy.look {index : Nat} (hthread : commit.thread = 2)
    (hcall : commit.call = .get index) (hcontents : turn.contents = contents)
    (hglimpse : Glimpse (contents ++ added) (contents.length - removals) index 0 turn.result)
    (h : QueuedBy turns contents added removals looks) :
    QueuedBy ((commit, turn) :: turns) contents added removals (index :: looks) := by
  rw [QueuedBy, answersOf_cons_self _ hthread, answersOf_cons_of_ne _ (by omega),
    answersOf_cons_of_ne _ (by omega), elementsAfter, List.foldl_cons, hcall, hcontents]
  exact Queued.look h hglimpse

/-- The calls of the three threads, in whatever order they take their turns. -/
theorem queuedBy_takeTurns (size : Nat) {commits : List (Commit (Operation α))}
    (past : List (HookCall α)) (hthreads : ∀ commit ∈ commits, commit.thread < 3)
    (hadds : callsOf 0 commits = added.map .add)
    (hremoves : callsOf 1 commits = List.replicate removals (.remove 0))
    (hlooks : callsOf 2 commits = looks.map .get) (hremovals : removals ≤ contents.length) :
    QueuedBy (takeTurns .plain size commits past contents) contents added removals looks := by
  induction commits generalizing contents added removals looks past with
  | nil =>
    have hadded : added = [] := List.map_eq_nil_iff.1 hadds.symm
    have hnone : removals = 0 := (List.replicate_eq_nil_iff _).1 hremoves.symm
    have hlooked : looks = [] := List.map_eq_nil_iff.1 hlooks.symm
    subst hadded hnone hlooked
    exact .nil contents
  | cons commit commits ih =>
    have hlater : ∀ commit ∈ commits, commit.thread < 3 := by
      intro other hother
      exact hthreads other (List.mem_cons_of_mem commit hother)
    have hthread := hthreads commit List.mem_cons_self
    rw [takeTurns]
    obtain h | h | h : commit.thread = 0 ∨ commit.thread = 1 ∨ commit.thread = 2 := by omega
    · rw [callsOf_cons_self h] at hadds
      rw [callsOf_cons_of_ne (by omega)] at hremoves hlooks
      cases added with
      | nil => cases hadds
      | cons value added =>
        rw [List.map_cons, List.cons.injEq] at hadds
        obtain ⟨hcall, hadds⟩ := hadds
        have hturn : commit.call.turn .plain size (.ok ()) past contents =
            ⟨.value .done, contents ++ [value], [.copied value (.value value)]⟩ := by
          rw [hcall]
          rfl
        have hroom : removals ≤ (contents ++ [value]).length := by
          rw [List.length_append]
          omega
        rw [hturn]
        exact .add h hcall rfl rfl hremovals (ih _ hlater hadds hremoves hlooks hroom)
    · rw [callsOf_cons_self h] at hremoves
      rw [callsOf_cons_of_ne (by omega)] at hadds hlooks
      cases removals with
      | zero => cases hremoves
      | succ removals =>
        rw [List.replicate_succ, List.cons.injEq] at hremoves
        obtain ⟨hcall, hremoves⟩ := hremoves
        cases contents with
        | nil => cases hremovals
        | cons value contents =>
          have hturn : commit.call.turn .plain size (.ok ()) past (value :: contents) =
              ⟨.value .done, contents, [.disposed value { value }]⟩ := by
            rw [hcall]
            rfl
          have hroom : removals ≤ contents.length := Nat.le_of_succ_le_succ hremovals
          rw [hturn]
          exact .remove h hcall rfl rfl (ih _ hlater hadds hremoves hlooks hroom)
    · rw [callsOf_cons_self h] at hlooks
      rw [callsOf_cons_of_ne (by omega)] at hadds hremoves
      cases looks with
      | nil => cases hlooks
      | cons index looks =>
        rw [List.map_cons, List.cons.injEq] at hlooks
        obtain ⟨hcall, hlooks⟩ := hlooks
        obtain ⟨hcontents, hglimpse⟩ := glimpse_of_turn size past contents added hremovals index
        rw [← hcall] at hcontents hglimpse
        refine .look h hcall hcontents hglimpse ?_
        rw [hcontents]
        exact ih _ hlater hadds hremoves hlooks hremovals

end Turns

section Threads

/-- The programs of the three threads. -/
def queueing (added : List α) (removals : Nat) (looks : List Nat) : List (List (Operation α)) :=
  [added.map .add, List.replicate removals (.remove 0), looks.map .get]

variable {lock : Lock ω σ} {held free intact : σ → Prop} {size : Nat}
  {start : Cell σ (Chain α)} {memory : ω} {added : List α} {removals : Nat} {looks : List Nat}
  {schedule : List Nat} {moves : List (Nat × Move (Chain α) α (Operation α) (Reply α))}
  {pool : Pool ω σ (Chain α) α (Operation α) (Reply α)}

/-- Threads whose calls took such turns have seen what comes of them. -/
theorem InTurns.queued {contents : List α} {turns : List (Commit (Operation α) × Turn α)}
    (hturns : InTurns contents turns moves pool)
    (h : QueuedBy turns contents added removals looks)
    {adder remover looker : Thread (Chain α) α (Operation α) (Reply α)}
    (hadder : pool.threads[0]? = some adder) (hremover : pool.threads[1]? = some remover)
    (hlooker : pool.threads[2]? = some looker) :
    Queued contents added removals looks pool.cell.value.toList adder.history.reverse
      remover.history.reverse looker.history.reverse := by
  rw [hturns.left, hturns.history hadder, hturns.history hremover, hturns.history hlooker]
  exact h

/-- The turns of three threads that have made these calls. -/
theorem InTurns.queuedBy {contents : List α} {commits : List (Commit (Operation α))}
    (hturns : InTurns contents (takeTurns .plain size commits [] contents) moves pool)
    (hthree : pool.threads.length = 3) (hadds : callsOf 0 commits = added.map .add)
    (hremoves : callsOf 1 commits = List.replicate removals (.remove 0))
    (hlooks : callsOf 2 commits = looks.map .get) (hremovals : removals ≤ contents.length) :
    QueuedBy (takeTurns .plain size commits [] contents) contents added removals looks := by
  refine queuedBy_takeTurns size [] ?_ hadds hremoves hlooks hremovals
  intro commit hcommit
  obtain ⟨pair, hpair, rfl⟩ := exists_turn_of_mem .plain size [] contents hcommit
  have howner := hturns.owner pair hpair
  rwa [hthree] at howner

variable [Journal ω]

/-- Threads at rest are explained by the turns of the calls that they have made. -/
theorem exists_queuedBy_of_follow (working : lock.Working held free intact)
    (hintact : intact start.lock) (hremovals : removals ≤ start.value.toList.length)
    (hfollow : (Pool.ofPlans start memory ((queueing added removals looks).map
      Plan.inOrder)).follow ⟨lock, .clone, Operation.routine size⟩ schedule = some (moves, pool))
    (hidle : ∀ thread ∈ pool.threads, thread.running = none) :
    ∃ turns added' removals' looks', InTurns start.value.toList turns moves pool ∧
      added' <+: added ∧ removals' ≤ removals ∧ looks' <+: looks ∧
      QueuedBy turns start.value.toList added' removals' looks' := by
  have hturns := inTurns_clone_of_follow working hintact hfollow hidle
  have hmade : ∀ index program, (queueing added removals looks)[index]? = some program →
      callsOf index (Log.ofMoves moves).commits <+: program := by
    intro index program hprogram
    rw [← map_call_turnsOf .plain size index _ [] start.value.toList]
    exact hturns.calls_prefix hfollow hidle hprogram
  obtain ⟨added', hadded, hadds⟩ := List.prefix_map_iff.1 (hmade 0 _ rfl)
  obtain ⟨hle, hremoves⟩ := List.prefix_replicate_iff.1 (hmade 1 _ rfl)
  obtain ⟨looks', hlooks, hgets⟩ := List.prefix_map_iff.1 (hmade 2 _ rfl)
  have hthree : pool.threads.length = 3 := length_threads_ofPlans hfollow
  exact ⟨_, added', _, looks', hturns, hadded, hle, hlooks,
    hturns.queuedBy hthree hadds hremoves hgets (hle.trans hremovals)⟩

/-- When all three are done they have made all their calls. -/
theorem queued_of_isDone (working : lock.Working held free intact) (hintact : intact start.lock)
    (hremovals : removals ≤ start.value.toList.length)
    (hfollow : (Pool.ofPlans start memory ((queueing added removals looks).map
      Plan.inOrder)).follow ⟨lock, .clone, Operation.routine size⟩ schedule = some (moves, pool))
    (hdone : ∀ thread ∈ pool.threads, thread.isDone = true)
    {adder remover looker : Thread (Chain α) α (Operation α) (Reply α)}
    (hthreads : pool.threads = [adder, remover, looker]) :
    Queued start.value.toList added removals looks pool.cell.value.toList adder.history.reverse
      remover.history.reverse looker.history.reverse := by
  have hturns := inTurns_clone_of_follow working hintact hfollow (Pool.idle_of_isDone hdone)
  have hcalls : ∀ index program, (queueing added removals looks)[index]? = some program →
      callsOf index (Log.ofMoves moves).commits = program := by
    intro index program hprogram
    rw [← map_call_turnsOf .plain size index _ [] start.value.toList]
    exact hturns.calls_of_isDone hfollow hdone hprogram
  have hqueued := hturns.queuedBy (length_threads_ofPlans hfollow) (hcalls 0 _ rfl)
    (hcalls 1 _ rfl) (hcalls 2 _ rfl) hremovals
  exact hturns.queued hqueued (by rw [hthreads]; rfl) (by rw [hthreads]; rfl)
    (by rw [hthreads]; rfl)

/-- However the three threads take turns, they come to an end. By every moment no addition and no
removal has failed, and every look was one at the queue of all values, from a place that only moves
on. In the end the list holds what it held at first without the values that were removed, and then
all that was added. -/
theorem queued_of_follow (working : lock.Working held free intact) (hintact : intact start.lock)
    (hremovals : removals ≤ start.value.toList.length)
    (hfollow : (Pool.ofPlans start memory ((queueing added removals looks).map
      Plan.inOrder)).follow ⟨lock, .clone, Operation.routine size⟩ schedule = some (moves, pool)) :
    ComesToEnd ⟨lock, .clone, Operation.routine size⟩
      (10 * (added.length + removals + looks.length)) moves pool ∧
    ∃ adder remover looker, pool.threads = [adder, remover, looker] ∧
      QueuedSoFar start.value.toList added removals looks adder.history.reverse
        remover.history.reverse looker.history.reverse ∧
      ((∀ thread ∈ pool.threads, thread.isDone = true) →
        Queued start.value.toList added removals looks pool.cell.value.toList
          adder.history.reverse remover.history.reverse looker.history.reverse) := by
  have hthree : pool.threads.length = 3 := length_threads_ofPlans hfollow
  obtain ⟨adder, remover, looker, hthreads⟩ := List.length_eq_three.1 hthree
  refine ⟨?_, adder, remover, looker, hthreads, ?_, ?_⟩
  · have hends := comesToEnd_of_list_programs working hintact Hooks.silent_clone hfollow
    simpa [queueing, Nat.add_assoc] using hends
  · -- Whatever has ended by now is history when all calls that were begun have ended.
    obtain ⟨longer, moves', last, hlast, -, hidle, hprecedes⟩ :=
      exists_rest_of_list working hintact Hooks.silent_clone hfollow
    obtain ⟨turns, added', removals', looks', hturns, hadded, hle, hlooks, hqueued⟩ :=
      exists_queuedBy_of_follow working hintact hremovals hlast hidle
    obtain ⟨adder', hadder, hadds⟩ := hprecedes 0 adder (by rw [hthreads]; rfl)
    obtain ⟨remover', hremover, hremoves⟩ := hprecedes 1 remover (by rw [hthreads]; rfl)
    obtain ⟨looker', hlooker, hgets⟩ := hprecedes 2 looker (by rw [hthreads]; rfl)
    exact (hturns.queued hqueued hadder hremover hlooker).soFar hadded hle hlooks
      (List.reverse_prefix.2 hadds) (List.reverse_prefix.2 hremoves) (List.reverse_prefix.2 hgets)
  · intro hdone
    exact queued_of_isDone working hintact hremovals hfollow hdone hthreads

/-- A value is added while another thread removes the first one. The third thread looks at the same
position before, between and afterwards, and finds what stood there at first, nothing, and the new
value. -/
theorem queued_of_follow_spin :
    (Lock.spin : Lock (List Message) Spin).Working (·.held = true) (·.held = false)
      (·.held = false) ∧
    let start : Cell Spin (Chain Nat) := ⟨{}, .link 7 (.link 8 .empty)⟩
    let setting : Setting (List Message) Spin (Chain Nat) Nat (Operation Nat) (Reply Nat) :=
      ⟨Lock.spin, .clone, Operation.routine 8⟩
    1 ≤ start.value.toList.length ∧
    ∃ moves pool, (Pool.ofPlans start [] ((queueing [5] 1 [1, 1, 1]).map Plan.inOrder)).follow
        setting
        [0, 2, 2, 0, 1, 2, 2, 2, 2, 1, 1, 1, 1, 2, 2, 2, 2, 2, 1, 1, 0, 0, 0, 0, 0, 0, 1, 2, 2, 2,
          2, 2, 2] = some (moves, pool) ∧
      ComesToEnd setting 50 moves pool ∧
      (∀ thread ∈ pool.threads, thread.isDone = true) ∧ pool.cell.value.toList = [8, 5] ∧
      ∃ adder remover looker, pool.threads = [adder, remover, looker] ∧
        Queued [7, 8] [5] 1 [1, 1, 1] pool.cell.value.toList adder.history.reverse
          remover.history.reverse looker.history.reverse := by
  have working : (Lock.spin : Lock (List Message) Spin).Working (·.held = true) (·.held = false)
      (·.held = false) := Lock.working_spin
  refine ⟨working, ?_⟩
  intro start setting
  have hremovals : 1 ≤ start.value.toList.length := by decide
  have hrun : ((Pool.ofPlans start [] ((queueing [5] 1 [1, 1, 1]).map Plan.inOrder)).follow setting
      [0, 2, 2, 0, 1, 2, 2, 2, 2, 1, 1, 1, 1, 2, 2, 2, 2, 2, 1, 1, 0, 0, 0, 0, 0, 0, 1, 2, 2, 2,
        2, 2, 2]).map (fun (_, pool) => (pool.threads.all Thread.isDone, pool.cell.value.toList)) =
      some (true, [8, 5]) := by decide +kernel
  simp only [Option.map_eq_some_iff, Prod.mk.injEq] at hrun
  obtain ⟨⟨moves, pool⟩, hfollow, hdone, hvalue⟩ := hrun
  obtain ⟨hends, adder, remover, looker, hthreads, -, hqueued⟩ :=
    queued_of_follow working rfl hremovals hfollow
  exact ⟨hremovals, moves, pool, hfollow, hends, List.all_eq_true.1 hdone, hvalue, adder, remover,
    looker, hthreads, hqueued (List.all_eq_true.1 hdone)⟩

end Threads

end GuardedList
