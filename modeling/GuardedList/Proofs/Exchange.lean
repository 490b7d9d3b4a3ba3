import GuardedList.Proofs.Panic
import GuardedList.Proofs.Phases

/-!
# Operations that change places

When two operations that are called one after the other come to the same in the other order, and
how an index has to be shifted for it when an element before it is removed (`Exchanges`). The hooks
are taken to answer by the value alone, so that the order of their calls does not matter, and the
lock to let everybody in.

What an operation comes to then depends on the elements only (`Operation.act`), and its result,
that of `get` apart, only on their number. The laws are laws of `List.set` and `List.eraseIdx`.
-/

namespace GuardedList

variable {ω σ α β : Type}

/-- The value with which code ended, if it did. -/
def Ending.value? : Ending β → Option β
  | value result => some result
  | _ => none

namespace Operation

/-- The index that the operation asks for. -/
def index? : Operation α → Option Nat
  | remove index => some index
  | get index => some index
  | update index _ => some index
  | _ => none

variable {strategy : Strategy α} {size : Nat}

/-- To steady hooks an operation is the same whatever they were called for before. -/
theorem turn_of_steady (steady : strategy.Steady) (operation : Operation α)
    (answer : Except LockError Unit) (past past' : List (HookCall α)) (elements : List α) :
    operation.turn strategy size answer past elements =
      operation.turn strategy size answer past' elements := by
  rw [← Chain.toList_ofList elements, ← turn_solo, ← turn_solo,
    Routine.solo_of_steady steady _ _ _ past past']

variable (strategy) (size) in
/-- What an operation that the lock lets in comes to on these elements: its result and the elements
afterwards. -/
def act (operation : Operation α) (elements : List α) : Ending (Reply α) × List α :=
  let turn := operation.turn strategy size (.ok ()) [] elements
  (turn.result, turn.contents)

section Act

variable (strategy) (size)

theorem act_add (value : α) (elements : List α) :
    (add value).act strategy size elements =
      ((strategy.copy [] value).map fun _ => .done,
        elements ++ (strategy.copy [] value).value?.toList) := by
  cases hcopy : strategy.copy [] value <;> simp [act, turn, hcopy, Ending.map, Ending.value?]

theorem act_get (index : Nat) (elements : List α) :
    (get index).act strategy size elements =
      (match elements[index]? with
        | none => .error .outOfRange
        | some element => (strategy.copy [] element).map .element, elements) := by
  simp only [act, turn, Turn.locked]
  cases elements[index]? <;> rfl

variable {strategy}

theorem act_remove (calm : strategy.Calm) (index : Nat) (elements : List α) :
    (remove index).act strategy size elements =
      (if index < elements.length then .value .done else .error .outOfRange,
        elements.eraseIdx index) := by
  by_cases hindex : index < elements.length
  · simp [act, turn, Turn.locked, hindex, Residue.followedBy, calm.dispose]
  · have hlength := Nat.le_of_not_lt hindex
    simp [act, turn, Turn.locked, hindex, List.eraseIdx_of_length_le hlength]

theorem act_update (calm : strategy.Calm) (index : Nat) (value : α) (elements : List α) :
    (update index value).act strategy size elements =
      (if index < elements.length then (strategy.copy [] value).map fun _ => .done
        else .error .outOfRange,
        (strategy.copy [] value).value?.elim elements (elements.set index)) := by
  by_cases hindex : index < elements.length
  · cases hcopy : strategy.copy [] value <;>
    simp [act, turn, Turn.locked, hindex, hcopy, Residue.followedBy, calm.dispose, Ending.map,
      Ending.value?]
  · have hlength := Nat.le_of_not_lt hindex
    cases hcopy : strategy.copy [] value <;>
    simp [act, turn, Turn.locked, hindex, Ending.value?, List.set_eq_of_length_le hlength]

end Act

/-- What an operation with the index of the element behind the others comes to. -/
inductive Reaches (strategy : Strategy α) (elements : List α) (last : α) :
    Operation α → Ending (Reply α) → List α → Prop
  | got {index : Nat} :
      Reaches strategy elements last (.get index) ((strategy.copy [] last).map .element)
        (elements ++ [last])
  | removed {index : Nat} : Reaches strategy elements last (.remove index) (.value .done) elements
  | replaced {index : Nat} {value replacement : α}
      (hcopy : strategy.copy [] value = .value replacement) :
      Reaches strategy elements last (.update index value) (.value .done)
        (elements ++ [replacement])
  | kept {index : Nat} {value : α} {cause : ListError}
      (hcopy : strategy.copy [] value = .error cause) :
      Reaches strategy elements last (.update index value) (.error cause) (elements ++ [last])

end Operation

section Seen

variable [Journal ω]

/-- What is seen of operations that are called one after another: their results, and the elements in
the end. -/
def seen (depth : Nat) (operations : List (Operation α)) (list : GuardedList (Recorded α ω) σ α)
    (memory : Recorded α ω) : Option (List (Ending (Reply α)) × Option (List α)) :=
  (session depth (operations.map .call) list memory).map fun (episodes, last, _) =>
    (episodes.map (·.result), last.contents?)

/-- To call `first` and then `second` comes to the same as to call `second'` and then `first'`: each
operation has the result of its counterpart, and the elements in the end are the same. -/
def Exchange (depth : Nat) (list : GuardedList (Recorded α ω) σ α) (memory : Recorded α ω)
    (first second second' first' : Operation α) : Prop :=
  ∃ result result' contents,
    seen depth [first, second] list memory = some ([result, result'], some contents) ∧
    seen depth [second', first'] list memory = some ([result', result], some contents)

/-- The pairs of operations that change places on a list with these elements. -/
structure Exchanges (strategy : Strategy α) (depth : Nat) (list : GuardedList (Recorded α ω) σ α)
    (memory : Recorded α ω) (elements : List α) : Prop where
  /-- An addition and an operation with any index but the one at which the element is added. -/
  add {value : α} {operation : Operation α} {index : Nat} : operation.index? = some index →
    index ≠ elements.length →
    Exchange depth list memory (.add value) operation operation (.add value)
  /-- At that index the one order finds nothing, and the other the new element. -/
  last (value : α) {stored : α} (operation : Operation α) :
    operation.index? = some elements.length → strategy.copy [] value = .value stored →
    seen depth [operation, .add value] list memory =
      some ([.error .outOfRange, .value .done], some (elements ++ [stored])) ∧
    ∃ result contents, operation.Reaches strategy elements stored result contents ∧
      seen depth [.add value, operation] list memory =
        some ([.value .done, result], some contents)
  /-- Updates of two positions. -/
  updates {index index' : Nat} {value value' : α} : index ≠ index' →
    Exchange depth list memory (.update index value) (.update index' value')
      (.update index' value') (.update index value)
  /-- Removals: when the one in front comes first, the other moves up. -/
  removals {index behind : Nat} : index < behind →
    Exchange depth list memory (.remove behind) (.remove index)
      (.remove index) (.remove (behind - 1))
  /-- An update before the position of a removal. -/
  before {index behind : Nat} {value : α} : index < behind →
    Exchange depth list memory (.update index value) (.remove behind)
      (.remove behind) (.update index value)
  /-- An update behind the position of a removal moves up. -/
  behind {index behind : Nat} {value : α} : index < behind →
    Exchange depth list memory (.update behind value) (.remove index)
      (.remove index) (.update (behind - 1) value)

end Seen

section Laws

variable {strategy : Strategy α} {size : Nat} {elements : List α}

/-- To take out two elements, the one behind first, is to take out the one in front first and then
the other from where it has moved up to. -/
theorem eraseIdx_eraseIdx_of_lt {index behind : Nat} (h : index < behind) (elements : List α) :
    (elements.eraseIdx behind).eraseIdx index =
      (elements.eraseIdx index).eraseIdx (behind - 1) := by
  apply List.ext_getElem?
  intro position
  simp only [List.getElem?_eraseIdx]
  repeat' split
  all_goals first | rfl | omega

/-- To replace an element or not to leaves as many as there were. -/
theorem length_elim_set (copy? : Option α) (elements : List α) (index : Nat) :
    (copy?.elim elements (elements.set index)).length = elements.length := by
  cases copy? <;> simp

/-- The indices before a removed element are those of the same elements as before. -/
theorem lt_length_eraseIdx_of_lt {index behind : Nat} (h : index < behind) (elements : List α) :
    index < (elements.eraseIdx behind).length ↔ index < elements.length := by
  rw [List.length_eraseIdx]
  split <;> omega

/-- The elements behind a removed one move up. -/
theorem pred_lt_length_eraseIdx_of_lt {index behind : Nat} (h : index < behind)
    (elements : List α) :
    behind - 1 < (elements.eraseIdx index).length ↔ behind < elements.length := by
  rw [List.length_eraseIdx]
  split <;> omega

section Added

variable {index : Nat} (hne : index ≠ elements.length) (added? : Option α)
include hne

/-- At the other indices there is an element if there was one before the last was added. -/
theorem lt_length_append_toList :
    index < (elements ++ added?.toList).length ↔ index < elements.length := by
  rw [List.length_append]
  cases added? with
  | none => simp
  | some added =>
    rw [Option.toList_some, List.length_singleton]
    omega

theorem length_append_toList_le (hindex : elements.length < index) :
    (elements ++ added?.toList).length ≤ index :=
  Nat.le_of_not_lt fun hlt =>
    Nat.lt_asymm hindex ((lt_length_append_toList hne added?).1 hlt)

theorem getElem?_append_toList : (elements ++ added?.toList)[index]? = elements[index]? := by
  rcases Nat.lt_or_gt_of_ne hne with hindex | hindex
  · exact List.getElem?_append_left hindex
  · rw [List.getElem?_eq_none (length_append_toList_le hne added? hindex),
      List.getElem?_eq_none (Nat.le_of_lt hindex)]

theorem set_append_toList (value : α) :
    (elements ++ added?.toList).set index value = elements.set index value ++ added?.toList := by
  rcases Nat.lt_or_gt_of_ne hne with hindex | hindex
  · exact List.set_append_left index value hindex
  · rw [List.set_eq_of_length_le (length_append_toList_le hne added? hindex),
      List.set_eq_of_length_le (Nat.le_of_lt hindex)]

theorem eraseIdx_append_toList :
    (elements ++ added?.toList).eraseIdx index = elements.eraseIdx index ++ added?.toList := by
  rcases Nat.lt_or_gt_of_ne hne with hindex | hindex
  · exact List.eraseIdx_append_of_lt_length hindex _
  · rw [List.eraseIdx_of_length_le (length_append_toList_le hne added? hindex),
      List.eraseIdx_of_length_le (Nat.le_of_lt hindex)]

end Added

namespace Operation

/-- Two operations and their counterparts in the other order, on these elements. -/
structure Swaps (strategy : Strategy α) (size : Nat) (elements : List α)
    (first second second' first' : Operation α) : Prop where
  result : (first.act strategy size elements).1 =
    (first'.act strategy size (second'.act strategy size elements).2).1
  result' : (second.act strategy size (first.act strategy size elements).2).1 =
    (second'.act strategy size elements).1
  contents : (second.act strategy size (first.act strategy size elements).2).2 =
    (first'.act strategy size (second'.act strategy size elements).2).2

variable (calm : strategy.Calm) {index behind : Nat}
include calm

theorem swaps_add (value : α) {operation : Operation α} (hindex : operation.index? = some index)
    (hne : index ≠ elements.length) :
    Swaps strategy size elements (.add value) operation operation (.add value) := by
  have hadded := lt_length_append_toList hne (strategy.copy [] value).value?
  -- Only `get` looks at an element for its result. The others ask how many there are.
  cases operation with
  | get index =>
    cases hindex
    constructor
    · simp only [act_add, act_get]
    · simp only [act_add, act_get, getElem?_append_toList hne]
    · simp only [act_add, act_get]
  | update index replacement =>
    cases hindex
    constructor
    · simp only [act_add]
    · simp only [act_add, act_update size calm, hadded]
    · simp only [act_add, act_update size calm]
      cases (strategy.copy [] replacement).value? with
      | none => rfl
      | some copy => exact set_append_toList hne _ copy
  | remove index =>
    cases hindex
    constructor
    · simp only [act_add]
    · simp only [act_add, act_remove size calm, hadded]
    · simp only [act_add, act_remove size calm, eraseIdx_append_toList hne]
  | _ => cases hindex

theorem swaps_updates {index index' : Nat} (hne : index ≠ index') (value value' : α) :
    Swaps strategy size elements (.update index value) (.update index' value')
      (.update index' value') (.update index value) := by
  constructor
  · simp only [act_update size calm]
    rw [length_elim_set]
  · simp only [act_update size calm]
    rw [length_elim_set]
  · simp only [act_update size calm]
    cases (strategy.copy [] value).value? <;> cases (strategy.copy [] value').value? <;>
    simp [List.set_comm _ _ hne]

theorem swaps_removals (h : index < behind) :
    Swaps strategy size elements (.remove behind) (.remove index)
      (.remove index) (.remove (behind - 1)) := by
  constructor
  · simp only [act_remove size calm, pred_lt_length_eraseIdx_of_lt h]
  · simp only [act_remove size calm, lt_length_eraseIdx_of_lt h]
  · simp only [act_remove size calm, eraseIdx_eraseIdx_of_lt h]

theorem swaps_before (h : index < behind) (value : α) :
    Swaps strategy size elements (.update index value) (.remove behind)
      (.remove behind) (.update index value) := by
  constructor
  · simp only [act_update size calm, act_remove size calm, lt_length_eraseIdx_of_lt h]
  · simp only [act_update size calm, act_remove size calm]
    rw [length_elim_set]
  · simp only [act_update size calm, act_remove size calm]
    cases (strategy.copy [] value).value? <;> simp [List.eraseIdx_set_gt h]

theorem swaps_behind (h : index < behind) (value : α) :
    Swaps strategy size elements (.update behind value) (.remove index)
      (.remove index) (.update (behind - 1) value) := by
  constructor
  · simp only [act_update size calm, act_remove size calm, pred_lt_length_eraseIdx_of_lt h]
  · simp only [act_update size calm, act_remove size calm]
    rw [length_elim_set]
  · simp only [act_update size calm, act_remove size calm]
    cases (strategy.copy [] value).value? <;> simp [List.eraseIdx_set_lt h]

/-- The element at the end is what an operation with its index reaches. Where there is none yet, it
finds nothing. -/
theorem reaches_last (size : Nat) (last : α) {operation : Operation α}
    (hindex : operation.index? = some elements.length) :
    operation.act strategy size elements = (.error .outOfRange, elements) ∧
      operation.Reaches strategy elements last
        (operation.act strategy size (elements ++ [last])).1
        (operation.act strategy size (elements ++ [last])).2 := by
  have hlast : elements.length < (elements ++ [last]).length := by simp
  cases operation with
  | get index =>
    cases hindex
    rw [act_get, act_get, List.getElem?_eq_none (Nat.le_refl _), List.getElem?_concat_length]
    exact ⟨rfl, .got⟩
  | remove index =>
    cases hindex
    rw [act_remove size calm, act_remove size calm, if_neg (Nat.lt_irrefl _), if_pos hlast,
      List.eraseIdx_of_length_le (Nat.le_refl _), List.eraseIdx_append_of_length_le (Nat.le_refl _),
      Nat.sub_self, List.eraseIdx_cons_zero, List.append_nil]
    exact ⟨rfl, .removed⟩
  | update index value =>
    cases hindex
    rw [act_update size calm, act_update size calm, if_neg (Nat.lt_irrefl _), if_pos hlast]
    cases hcopy : strategy.copy [] value with
    | value replacement =>
      refine ⟨?_, ?_⟩
      · simp [Ending.value?, List.set_eq_of_length_le]
      · simpa [Ending.value?, Ending.map] using .replaced hcopy
    | error cause => exact ⟨rfl, .kept hcopy⟩
    | panicked text => exact absurd hcopy (calm.copy [] value text)
  | _ => cases hindex

end Operation

end Laws

section Run

variable [Journal ω] {lock : Lock ω σ} {free : σ → Prop} {strategy : Strategy α} {size : Nat}

/-- What is seen of two operations is what they come to on the elements. -/
theorem seen_pair (unfailing : lock.Unfailing free) (steady : strategy.Steady)
    (calm : strategy.Calm) {list : GuardedList (Recorded α ω) σ α} {elements : List α}
    (hlist : Represents lock free strategy size list (some elements)) (depth : Nat)
    (memory : Recorded α ω) (first second : Operation α) :
    seen depth [first, second] list memory =
      some ([(first.act strategy size elements).1,
          (second.act strategy size (first.act strategy size elements).2).1],
        some (second.act strategy size (first.act strategy size elements).2).2) := by
  obtain ⟨past, rest⟩ := memory
  obtain ⟨last, left, hsession⟩ := session_eq_run_of_granted unfailing rfl (.inr calm) hlist depth
    [.call first, .call second] past rest
  have hcontents := contents_of_session hsession
  -- The second operation comes after the calls of the first, which steady hooks do not heed.
  have hturn : ∀ (operation : Operation α) past elements,
      operation.turn strategy size (.ok ()) past elements =
        operation.turn strategy size (.ok ()) [] elements := fun operation past elements =>
    operation.turn_of_steady steady (.ok ()) past [] elements
  simp only [seen, List.map_cons, List.map_nil, hsession, Option.map_some, hcontents]
  simp only [ListMachine.run, ListMachine.episode, List.map_cons, List.map_nil, List.foldl_cons,
    List.foldl_nil, hturn first past, hturn second (past ++ _), Operation.act]

/-- Operations that swap on the elements can be exchanged on the list. -/
theorem exchange_of_swaps (unfailing : lock.Unfailing free) (steady : strategy.Steady)
    (calm : strategy.Calm) {list : GuardedList (Recorded α ω) σ α} {elements : List α}
    (hlist : Represents lock free strategy size list (some elements)) (depth : Nat)
    (memory : Recorded α ω) {first second second' first' : Operation α}
    (h : Operation.Swaps strategy size elements first second second' first') :
    Exchange depth list memory first second second' first' := by
  refine ⟨_, _, _, seen_pair unfailing steady calm hlist depth memory first second, ?_⟩
  rw [seen_pair unfailing steady calm hlist depth memory second' first', h.result, h.result',
    h.contents]

/-- On every list in use, behind a lock that lets everybody in and with hooks that never panic and
answer by the value alone, operations change places as `Exchanges` says. -/
theorem exchanges_of_represents (unfailing : lock.Unfailing free) (steady : strategy.Steady)
    (calm : strategy.Calm) {list : GuardedList (Recorded α ω) σ α} {elements : List α}
    (hlist : Represents lock free strategy size list (some elements)) (depth : Nat)
    (memory : Recorded α ω) : Exchanges strategy depth list memory elements := by
  have hexchange : ∀ {first second second' first'},
      Operation.Swaps strategy size elements first second second' first' →
      Exchange depth list memory first second second' first' :=
    exchange_of_swaps unfailing steady calm hlist depth memory
  have hseen := seen_pair unfailing steady calm hlist depth memory
  exact {
    add := fun hindex hne => hexchange (Operation.swaps_add calm _ hindex hne)
    last := fun value stored operation hindex hcopy => by
      obtain ⟨hmissing, hreaches⟩ := Operation.reaches_last calm size stored hindex
      have hadd : (Operation.add value).act strategy size elements =
          (.value .done, elements ++ [stored]) := by
        rw [Operation.act_add, hcopy]
        rfl
      refine ⟨?_, _, _, hreaches, ?_⟩
      · rw [hseen, hmissing, hadd]
      · rw [hseen, hadd]
    updates := fun hne => hexchange (Operation.swaps_updates calm hne _ _)
    removals := fun h => hexchange (Operation.swaps_removals calm h)
    before := fun h => hexchange (Operation.swaps_before calm h _)
    behind := fun h => hexchange (Operation.swaps_behind calm h _) }

end Run

/-- Hooks that copy no zero and set what they dispose of to zero. -/
def Strategy.selective : Strategy Nat where
  copy _ source := if source = 0 then .error .outOfMemory else .value (source + 10)
  dispose _ _ := ⟨0, none⟩

theorem Strategy.steady_selective : selective.Steady := ⟨fun _ _ _ => rfl, fun _ _ _ => rfl⟩

theorem Strategy.calm_selective : selective.Calm where
  copy past source text := by
    simp only [selective]
    split <;> simp
  dispose _ _ := rfl

/-- Three elements behind a lock that could be poisoned: the element that is added is found by what
comes after it and not by what comes before it. -/
theorem exchanges_of_represents_selective :
    (Lock.poisoning : Lock (List Message) Poisoning).Unfailing (· = {}) ∧
    Strategy.selective.Steady ∧ Strategy.selective.Calm ∧
    let list := ⟨8, Lock.poisoning.recorded, some ⟨{}, .ofList [1, 2, 3]⟩,
      some Strategy.selective.hooks⟩
    let memory : Recorded Nat (List Message) := ⟨[], []⟩
    Represents Lock.poisoning (· = {}) .selective 8 list (some [1, 2, 3]) ∧
    Exchanges .selective 0 list memory [1, 2, 3] ∧
    seen 0 [.update 3 0, .add 5] list memory =
      some ([.error .outOfRange, .value .done], some [1, 2, 3, 15]) ∧
    seen 0 [.add 5, .update 3 0] list memory =
      some ([.value .done, .error .outOfMemory], some [1, 2, 3, 15]) := by
  refine ⟨Lock.unfailing_poisoning, Strategy.steady_selective, Strategy.calm_selective, ?_⟩
  intro list memory
  have hlist : Represents Lock.poisoning (· = {}) .selective 8 list (some [1, 2, 3]) :=
    .live rfl rfl
  have hexchanges : Exchanges .selective 0 list memory [1, 2, 3] :=
    exchanges_of_represents Lock.unfailing_poisoning Strategy.steady_selective
      Strategy.calm_selective hlist 0 memory
  obtain ⟨hbefore, result, contents, hreaches, hafter⟩ :=
    hexchanges.last 5 (.update 3 0) rfl rfl
  refine ⟨hlist, hexchanges, hbefore, ?_⟩
  cases hreaches with
  | replaced hcopy => cases hcopy
  | kept hcopy =>
    cases hcopy
    exact hafter

end GuardedList
