import GuardedList.Proofs.Solo

/-!
# Operations on plain lists

What an operation of a list in use comes to, said of the list of its elements: its result, the
elements afterwards and the hook calls (`Operation.turn`). The turn depends on the lock only by the
answer that the lock gives to an operation that asks for it.

The routine of every operation keeps to the discipline of the lock (`outside_routine`), and on its
own it comes to the operation's turn (`turn_solo`). `Operation.Effect` lists the forms that a turn
can have.
-/

namespace GuardedList

variable {π α β γ : Type}

/-- The same ending with another value. -/
def Ending.map (change : β → γ) : Ending β → Ending γ
  | value result => .value (change result)
  | error cause => .error cause
  | panicked text => .panicked text

/-- The value that a reply hands to the caller. -/
def Ending.handed? : Ending (Reply α) → Option α
  | value (.element element) => some element
  | value (.released left) => some left
  | _ => none

/-- How code ends that disposes of a value first: with the panic of the disposal, if there is one.
-/
def Residue.followedBy (residue : Residue α) (ending : Ending β) : Ending β :=
  match residue.panic with
  | none => ending
  | some text => .panicked text

/-- What an operation comes to. -/
structure Turn (α : Type) where
  result : Ending (Reply α)
  /-- The elements afterwards. -/
  contents : List α
  /-- The hook calls in order. -/
  calls : List (HookCall α)

/-- What comes of an operation's routine on its own, read as a turn. -/
def Solo.turn (solo : Solo (Chain α) α (Reply α)) : Turn α :=
  ⟨solo.ending, solo.value.toList, solo.calls⟩

/-- The turn of an operation that takes the lock before all else. -/
def Turn.locked (answer : Except LockError Unit) (elements : List α) (turn : Turn α) : Turn α :=
  match answer with
  | .ok () => turn
  | .error cause => ⟨.error (.lock cause), elements, []⟩

namespace Operation

/-- What an operation comes to on a list of `elements`, after the hook calls in `past`, when the
lock gives `answer` to an operation that asks for it. -/
def turn (strategy : Strategy α) (size : Nat) (answer : Except LockError Unit)
    (past : List (HookCall α)) (elements : List α) : Operation α → Turn α
  | add value =>
    let ending := strategy.copy past value
    let copied := HookCall.copied value ending
    match ending, answer with
    | .value stored, .ok () => ⟨.value .done, elements ++ [stored], [copied]⟩
    | .value stored, .error cause =>
      let residue := strategy.dispose (past ++ [copied]) stored
      ⟨residue.followedBy (.error (.lock cause)), elements, [copied, .disposed stored residue]⟩
    | .error cause, _ => ⟨.error cause, elements, [copied]⟩
    | .panicked text, _ => ⟨.panicked text, elements, [copied]⟩
  | remove index => Turn.locked answer elements <|
    match elements[index]? with
    | none => ⟨.error .outOfRange, elements, []⟩
    | some old =>
      let residue := strategy.dispose past old
      ⟨residue.followedBy (.value .done), elements.eraseIdx index, [.disposed old residue]⟩
  | get index => Turn.locked answer elements <|
    match elements[index]? with
    | none => ⟨.error .outOfRange, elements, []⟩
    | some element =>
      let ending := strategy.copy past element
      ⟨ending.map .element, elements, [.copied element ending]⟩
  | update index value => Turn.locked answer elements <|
    match elements[index]? with
    | none => ⟨.error .outOfRange, elements, []⟩
    | some old =>
      let ending := strategy.copy past value
      let copied := HookCall.copied value ending
      match ending with
      | .value replacement =>
        let residue := strategy.dispose (past ++ [copied]) old
        let kept := match residue.panic with
          | none => replacement
          | some _ => residue.value
        ⟨residue.followedBy (.value .done), elements.set index kept,
          [copied, .disposed old residue]⟩
      | .error cause => ⟨.error cause, elements, [copied]⟩
      | .panicked text => ⟨.panicked text, elements, [copied]⟩
  | length => Turn.locked answer elements ⟨.value (.count elements.length), elements, []⟩
  | isEmpty => Turn.locked answer elements ⟨.value (.flag elements.isEmpty), elements, []⟩
  | releaseValue value =>
    let residue := strategy.dispose past value
    ⟨residue.followedBy (.value (.released residue.value)), elements, [.disposed value residue]⟩
  | isInitialized => ⟨.value (.flag true), elements, []⟩
  | elementSize => ⟨.value (.count size), elements, []⟩

end Operation

namespace Routine

/-- Code that works on the guarded value and leaves the lock alone. -/
def Body : Routine π α β → Prop
  | finish _ => True
  | load next => ∀ value, (next value).Body
  | store _ next => next.Body
  | copy _ next => ∀ ending, (next ending).Body
  | dispose _ next => ∀ residue, (next residue).Body
  | log _ next => next.Body
  | _ => False

theorem Body.inside_releasing {routine : Routine π α β} (h : routine.Body) :
    routine.releasing.Inside := by
  induction routine with
  | finish ending =>
    refine ⟨trivial, ?_⟩
    cases ending <;> simp [Ending.manner]
  | load next ih =>
    intro value
    exact ih value (h value)
  | store new next ih => exact ih h
  | copy source next ih =>
    intro ending
    exact ih ending (h ending)
  | dispose old next ih =>
    intro residue
    exact ih residue (h residue)
  | log message next ih => exact ih h
  | _ => exact h.elim

theorem Body.outside_holding {routine : Routine π α β} (h : routine.Body) :
    (holding routine).Outside :=
  ⟨fun _ => trivial, h.inside_releasing⟩

theorem Past.bind {routine : Routine π α β} {rest : β → Routine π α γ} (h : routine.Past)
    (hrest : ∀ result, (rest result).Past) : (routine.bind rest).Past := by
  induction routine with
  | finish ending =>
    cases ending with
    | value result => exact hrest result
    | error cause => trivial
    | panicked text => trivial
  | copy source next ih =>
    intro ending
    exact ih ending (h ending)
  | dispose old next ih =>
    intro residue
    exact ih residue (h residue)
  | log message next ih => exact ih h
  | _ => exact h.elim

/-- What follows a section has nothing to do with the lock, and does not begin with a panic. -/
theorem Inside.bind {routine : Routine π α β} {rest : β → Routine π α γ} (h : routine.Inside)
    (hrest : ∀ result, (rest result).Past)
    (hcalm : ∀ result text, rest result ≠ finish (.panicked text)) :
    (routine.bind rest).Inside := by
  induction routine with
  | release manner next _ =>
    refine ⟨h.1.bind hrest, h.2.trans ⟨?_, ?_⟩⟩
    · rintro ⟨text, rfl⟩
      exact ⟨text, rfl⟩
    · rintro ⟨text, htext⟩
      cases next with
      | finish ending =>
        cases ending with
        | value result => exact absurd htext (hcalm result text)
        | error cause => simp [Routine.bind] at htext
        | panicked text => exact ⟨text, rfl⟩
      | _ => simp [Routine.bind] at htext
  | load next ih =>
    intro value
    exact ih value (h value)
  | store new next ih => exact ih h
  | copy source next ih =>
    intro ending
    exact ih ending (h ending)
  | dispose old next ih =>
    intro residue
    exact ih residue (h residue)
  | log message next ih => exact ih h
  | _ => exact h.elim

theorem Outside.bind {routine : Routine π α β} {rest : β → Routine π α γ} (h : routine.Outside)
    (hrest : ∀ result, (rest result).Past)
    (hcalm : ∀ result text, rest result ≠ finish (.panicked text)) :
    (routine.bind rest).Outside := by
  induction routine with
  | finish ending =>
    cases ending with
    | value result => exact (hrest result).outside
    | error cause => trivial
    | panicked text => trivial
  | acquire next _ => exact ⟨fun cause => (h.1 cause).bind hrest, h.2.bind hrest hcalm⟩
  | copy source next ih =>
    intro ending
    exact ih ending (h ending)
  | dispose old next ih =>
    intro residue
    exact ih residue (h residue)
  | log message next ih => exact ih h
  | _ => exact h.elim

theorem past_settle (residue : Residue α) : (settle residue : Routine π α Unit).Past := trivial

theorem outside_add (value : α) : (add value).Outside := by
  intro ending
  cases ending with
  | value stored =>
    refine ⟨fun cause residue => ?_, fun chain => ⟨trivial, ?_⟩⟩
    · exact (past_settle residue).bind fun _ => trivial
    · simp [note, Routine.bind]
  | error cause => trivial
  | panicked text => trivial

theorem outside_remove (index : Nat) : (remove index : Routine (Chain α) α Unit).Outside := by
  refine Outside.bind (Body.outside_holding fun chain => ?_) (fun detached => ?_) ?_
  · dsimp only [Routine.bind]
    split <;> trivial
  · cases detached with
    | none => trivial
    | some node =>
      intro residue
      exact (past_settle residue).bind fun _ => trivial
  · intro detached text
    cases detached <;> simp [fail, disposalOf, Routine.bind]

theorem outside_get (index : Nat) : (get index : Routine (Chain α) α α).Outside := by
  refine Body.outside_holding fun chain => ?_
  dsimp only [Routine.bind]
  split
  · trivial
  · intro ending
    exact trivial

theorem outside_update (index : Nat) (value : α) :
    (update index value : Routine (Chain α) α Unit).Outside := by
  refine Body.outside_holding fun chain => ?_
  dsimp only [Routine.bind]
  split
  · trivial
  · intro ending
    cases ending with
    | value replacement =>
      intro residue
      rcases residue with ⟨left, _ | text⟩ <;> trivial
    | error cause => trivial
    | panicked text => trivial

theorem outside_length : (length : Routine (Chain α) α Nat).Outside := by
  refine Body.outside_holding ?_
  intro chain
  exact trivial

theorem outside_isEmpty : (isEmpty : Routine (Chain α) α Bool).Outside := by
  refine Body.outside_holding ?_
  intro chain
  exact trivial

theorem outside_releaseValue (value : α) :
    (releaseValue value : Routine (Chain α) α α).Outside := by
  intro residue
  apply Past.outside
  refine (past_settle residue).bind ?_
  intro _
  exact trivial

end Routine

namespace Operation

/-- No routine of an operation keeps the lock, and none touches the chain without it. -/
theorem outside_routine (operation : Operation α) (size : Nat) :
    (operation.routine size).Outside := by
  have hreply : ∀ reply : Reply α, (Routine.finish (.value reply) : Routine (Chain α) α _).Past :=
    fun _ => trivial
  cases operation with
  | add value => exact (Routine.outside_add value).bind (fun _ => hreply _) (by simp)
  | remove index => exact (Routine.outside_remove index).bind (fun _ => hreply _) (by simp)
  | get index => exact (Routine.outside_get index).bind (fun _ => hreply _) (by simp)
  | update index value =>
    exact (Routine.outside_update index value).bind (fun _ => hreply _) (by simp)
  | length => exact Routine.outside_length.bind (fun _ => hreply _) (by simp)
  | isEmpty => exact Routine.outside_isEmpty.bind (fun _ => hreply _) (by simp)
  | releaseValue value =>
    exact (Routine.outside_releaseValue value).bind (fun _ => hreply _) (by simp)
  | isInitialized => trivial
  | elementSize => trivial

section Solo

attribute [simp] Routine.solo Routine.bind Routine.releasing Routine.holding Routine.fail
  Routine.askLock Routine.leave Routine.handBack Routine.endScope Routine.guarded Routine.put
  Routine.copyOf Routine.disposalOf Routine.settle Routine.note Event.hookCall? Event.ofAnswer
  Turn.locked

variable (strategy : Strategy α) (size : Nat) (answer : Except LockError Unit)
  (past : List (HookCall α)) (chain : Chain α)

theorem turn_solo_add (value : α) :
    (((add value).routine size).solo strategy answer chain past).turn =
      (add value).turn strategy size answer past chain.toList := by
  simp only [routine, Routine.add, turn]
  cases hcopy : strategy.copy past value with
  | value stored =>
    cases answer with
    | ok => simp [hcopy, Solo.turn]
    | error cause =>
      rcases hresidue : strategy.dispose (past ++ [.copied value (.value stored)]) stored
        with ⟨left, _ | text⟩ <;>
      simp [hcopy, hresidue, Solo.turn, Residue.ending, Residue.followedBy]
  | error cause => simp [hcopy, Solo.turn]
  | panicked text => simp [hcopy, Solo.turn]

theorem turn_solo_remove (index : Nat) :
    (((remove index).routine size).solo strategy answer chain past).turn =
      (remove index).turn strategy size answer past chain.toList := by
  simp only [routine, Routine.remove, Routine.detach, turn]
  cases answer with
  | ok =>
    cases hunlink : chain.unlink? index with
    | none =>
      have hnone : chain.toList[index]? = none := by
        simpa using Chain.unlink?_eq_none_iff.1 hunlink
      simp [hunlink, hnone, Solo.turn]
    | some detached =>
      obtain ⟨node, rest⟩ := detached
      obtain ⟨hvalue, -, hrest⟩ := Chain.unlink?_eq_some hunlink
      rcases hresidue : strategy.dispose past node.value with ⟨left, _ | text⟩ <;>
      simp [hunlink, hvalue, hrest, hresidue, Solo.turn, Residue.ending, Residue.followedBy]
  | error cause => simp [Solo.turn]

theorem turn_solo_get (index : Nat) :
    (((get index).routine size).solo strategy answer chain past).turn =
      (get index).turn strategy size answer past chain.toList := by
  simp only [routine, Routine.get, turn]
  cases answer with
  | ok =>
    have hvalue := chain.value_node? index
    cases hnode : chain.node? index with
    | none =>
      rw [hnode] at hvalue
      simp [hnode, ← hvalue, Solo.turn]
    | some node =>
      rw [hnode] at hvalue
      cases hcopy : strategy.copy past node.value <;>
      simp [hnode, ← hvalue, hcopy, Solo.turn, Ending.map]
  | error cause => simp [Solo.turn]

theorem turn_solo_update (index : Nat) (value : α) :
    (((update index value).routine size).solo strategy answer chain past).turn =
      (update index value).turn strategy size answer past chain.toList := by
  simp only [routine, Routine.update, turn]
  cases answer with
  | ok =>
    have hvalue := chain.value_focus? index
    cases hfocus : chain.focus? index with
    | none =>
      rw [hfocus] at hvalue
      simp [hfocus, ← hvalue, Solo.turn]
    | some position =>
      rw [hfocus] at hvalue
      have hwrite := Chain.toList_write hfocus
      cases hcopy : strategy.copy past value with
      | value replacement =>
        rcases hresidue : strategy.dispose (past ++ [.copied value (.value replacement)])
          position.value with ⟨left, _ | text⟩ <;>
        simp [hfocus, ← hvalue, hcopy, hresidue, hwrite, Solo.turn, Residue.ending,
          Residue.followedBy]
      | error cause => simp [hfocus, ← hvalue, hcopy, Solo.turn]
      | panicked text => simp [hfocus, ← hvalue, hcopy, Solo.turn]
  | error cause => simp [Solo.turn]

/-- On its own, an operation's routine comes to the operation's turn. -/
theorem turn_solo (operation : Operation α) :
    ((operation.routine size).solo strategy answer chain past).turn =
      operation.turn strategy size answer past chain.toList := by
  cases operation with
  | add value => exact turn_solo_add strategy size answer past chain value
  | remove index => exact turn_solo_remove strategy size answer past chain index
  | get index => exact turn_solo_get strategy size answer past chain index
  | update index value => exact turn_solo_update strategy size answer past chain index value
  | length =>
    cases answer <;> simp [routine, Routine.length, turn, Solo.turn, Chain.count_eq]
  | isEmpty =>
    cases answer <;> simp [routine, Routine.isEmpty, turn, Solo.turn, Chain.isEmpty_eq]
  | releaseValue value =>
    rcases hresidue : strategy.dispose past value with ⟨left, _ | text⟩ <;>
    simp [routine, Routine.releaseValue, turn, hresidue, Solo.turn, Residue.ending,
      Residue.followedBy]
  | isInitialized => simp [routine, turn, Solo.turn]
  | elementSize => simp [routine, turn, Solo.turn]

end Solo

/-- The value that an operation has the hooks copy for storage. -/
def stored? : Operation α → Option α
  | add value => some value
  | update _ value => some value
  | _ => none

/-- The forms that the turn of an operation can have. -/
inductive Effect (strategy : Strategy α) (past : List (HookCall α)) (elements : List α) :
    Operation α → Turn α → Prop
  /-- No hook is called, and nothing changes. -/
  | idle {operation : Operation α} {result : Ending (Reply α)}
      (hcalm : ∀ text, result ≠ .panicked text) (hkept : result.handed? = none) :
      Effect strategy past elements operation ⟨result, elements, []⟩
  /-- The value to be stored is not copied. -/
  | stopped {operation : Operation α} {value : α} {stop : Ending α}
      (hstored : operation.stored? = some value) (hcopy : strategy.copy past value = stop)
      (hstop : ∀ copy, stop ≠ .value copy) :
      Effect strategy past elements operation
        ⟨stop.map .element, elements, [.copied value stop]⟩
  | added {value stored : α} (hcopy : strategy.copy past value = .value stored) :
      Effect strategy past elements (.add value)
        ⟨.value .done, elements ++ [stored], [.copied value (.value stored)]⟩
  /-- The lock refuses an addition, and the copy made for it is disposed of. -/
  | withdrawn {value stored : α} {residue : Residue α} {cause : LockError}
      (hcopy : strategy.copy past value = .value stored)
      (hdispose : strategy.dispose (past ++ [.copied value (.value stored)]) stored = residue) :
      Effect strategy past elements (.add value)
        ⟨residue.followedBy (.error (.lock cause)), elements,
          [.copied value (.value stored), .disposed stored residue]⟩
  | removed {index : Nat} {old : α} {residue : Residue α} (helement : elements[index]? = some old)
      (hdispose : strategy.dispose past old = residue) :
      Effect strategy past elements (.remove index)
        ⟨residue.followedBy (.value .done), elements.eraseIdx index, [.disposed old residue]⟩
  | got {index : Nat} {element : α} {ending : Ending α} (helement : elements[index]? = some element)
      (hcopy : strategy.copy past element = ending) :
      Effect strategy past elements (.get index)
        ⟨ending.map .element, elements, [.copied element ending]⟩
  | replaced {index : Nat} {value old replacement : α} {residue : Residue α}
      (helement : elements[index]? = some old)
      (hcopy : strategy.copy past value = .value replacement)
      (hdispose : strategy.dispose (past ++ [.copied value (.value replacement)]) old = residue)
      (hcalm : residue.panic = none) :
      Effect strategy past elements (.update index value)
        ⟨.value .done, elements.set index replacement,
          [.copied value (.value replacement), .disposed old residue]⟩
  /-- The disposal of the old element panics and leaves it in its place. -/
  | spoiled {index : Nat} {value old replacement : α} {residue : Residue α} {text : String}
      (helement : elements[index]? = some old)
      (hcopy : strategy.copy past value = .value replacement)
      (hdispose : strategy.dispose (past ++ [.copied value (.value replacement)]) old = residue)
      (hpanic : residue.panic = some text) :
      Effect strategy past elements (.update index value)
        ⟨.panicked text, elements.set index residue.value,
          [.copied value (.value replacement), .disposed old residue]⟩
  | released {value : α} {residue : Residue α} (hdispose : strategy.dispose past value = residue) :
      Effect strategy past elements (.releaseValue value)
        ⟨residue.followedBy (.value (.released residue.value)), elements,
          [.disposed value residue]⟩

variable {strategy : Strategy α} {size : Nat} {past : List (HookCall α)} {elements : List α}

/-- An operation that takes the lock first comes to nothing when it is refused. -/
theorem Effect.locked {operation : Operation α} {turn : Turn α} (answer : Except LockError Unit)
    (h : operation.Effect strategy past elements turn) :
    operation.Effect strategy past elements (Turn.locked answer elements turn) := by
  cases answer with
  | ok => exact h
  | error cause => exact .idle (by simp) rfl

/-- Every turn has one of the forms. -/
theorem effect_turn (operation : Operation α) (strategy : Strategy α) (size : Nat)
    (answer : Except LockError Unit) (past : List (HookCall α)) (elements : List α) :
    operation.Effect strategy past elements
      (operation.turn strategy size answer past elements) := by
  have hrange : ∀ operation : Operation α,
      operation.Effect strategy past elements ⟨.error .outOfRange, elements, []⟩ :=
    fun _ => .idle (by simp) rfl
  cases operation with
  | add value =>
    simp only [turn]
    cases hcopy : strategy.copy past value with
    | value stored =>
      cases answer with
      | ok => exact .added hcopy
      | error cause => exact .withdrawn hcopy rfl
    | error cause => exact @Effect.stopped _ _ _ _ _ _ (.error cause) rfl hcopy (by simp)
    | panicked text => exact @Effect.stopped _ _ _ _ _ _ (.panicked text) rfl hcopy (by simp)
  | remove index =>
    apply Effect.locked
    cases helement : elements[index]? with
    | none => exact hrange _
    | some old => exact .removed helement rfl
  | get index =>
    apply Effect.locked
    cases helement : elements[index]? with
    | none => exact hrange _
    | some element => exact .got helement rfl
  | update index value =>
    apply Effect.locked
    cases helement : elements[index]? with
    | none => exact hrange _
    | some old =>
      dsimp only
      cases hcopy : strategy.copy past value with
      | value replacement =>
        rcases hresidue : strategy.dispose (past ++ [.copied value (.value replacement)]) old
          with ⟨left, _ | text⟩
        all_goals
          dsimp only
          rw [hresidue]
        · exact .replaced helement hcopy hresidue rfl
        · exact .spoiled helement hcopy hresidue rfl
      | error cause => exact @Effect.stopped _ _ _ _ _ _ (.error cause) rfl hcopy (by simp)
      | panicked text => exact @Effect.stopped _ _ _ _ _ _ (.panicked text) rfl hcopy (by simp)
  | length => exact Effect.locked answer (.idle (by simp) rfl)
  | isEmpty => exact Effect.locked answer (.idle (by simp) rfl)
  | releaseValue value => exact .released rfl
  | isInitialized => exact .idle (by simp) rfl
  | elementSize => exact .idle (by simp) rfl

end Operation

end GuardedList
