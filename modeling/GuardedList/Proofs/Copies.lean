import GuardedList.Proofs.Naturality

/-!
# Copies with marks

To tell the copies that the hooks make apart, the values of a list carry marks. The list does not
know of them (`Strategy.along_marked`), so a session without marks is one with marks, read without
them.

Of a copy that was made to be stored, a step keeps count in one of a few ways (`Episode.Deals`): the
copy is stored, disposed of, let go without a disposal, or left where it is.
-/

namespace GuardedList

variable {ω σ β : Type}

/-- A value and, if a hook made it by copying, the number of that copy. -/
structure Marked (β : Type) where
  value : β
  serial : Option Nat := none

/-- A caller's value. -/
def Marked.plain (value : β) : Marked β := { value }

/-- The same hooks on marked values. A copy gets the number of the hook calls before it, which no
other copy has; what is disposed of keeps its mark. -/
def Strategy.marked (strategy : Strategy β) : Strategy (Marked β) where
  copy past source :=
    (strategy.copy (past.map (HookCall.map Marked.value)) source.value).map
      fun copy => ⟨copy, some past.length⟩
  dispose past marked :=
    (strategy.dispose (past.map (HookCall.map Marked.value)) marked.value).map
      fun left => ⟨left, marked.serial⟩

theorem Strategy.serial_of_copy_marked {strategy : Strategy β} {past : List (HookCall (Marked β))}
    {source copy : Marked β} (h : strategy.marked.copy past source = .value copy) :
    copy.serial = some past.length := by
  simp only [marked] at h
  cases hcopy : strategy.copy (past.map (HookCall.map Marked.value)) source.value with
  | value made =>
    rw [hcopy] at h
    cases h
    rfl
  | error cause => simp [hcopy, Ending.map] at h
  | panicked text => simp [hcopy, Ending.map] at h

theorem Strategy.serial_of_dispose_marked {strategy : Strategy β}
    {past : List (HookCall (Marked β))} {value : Marked β} {residue : Residue (Marked β)}
    (h : strategy.marked.dispose past value = residue) : residue.value.serial = value.serial := by
  rw [← h]
  rfl

/-- At how many positions the copy with a number is stored. -/
def copies (serial : Nat) (contents : Option (List (Marked β))) : Nat :=
  (contents.getD []).countP fun element => element.serial = some serial

/-- What a hook call left of the copy with a number, if the call disposed of it. -/
def HookCall.disposal? (serial : Nat) : HookCall (Marked β) → Option (Residue (Marked β))
  | copied _ _ => none
  | disposed value residue => if value.serial = some serial then some residue else none

namespace Episode

variable (episode : Episode (Marked β)) (serial : Nat)

/-- The step made the copy with this number in order to store it. -/
def Makes : Prop :=
  ∃ operation source copy, episode.step = .call operation ∧ operation.stored? = some source ∧
    .copied source (.value ⟨copy, some serial⟩) ∈ episode.calls

/-- The step handed the copy with this number to the caller. -/
def Hands : Prop :=
  ∃ copy, episode.result.handed? = some ⟨copy, some serial⟩

/-- What the disposals of the copy with this number left during the step. -/
def disposals : List (Residue (Marked β)) := episode.calls.filterMap (HookCall.disposal? serial)

/-- The step updates the position where the copy with this number is. -/
def Updates : Prop :=
  ∃ index value elements element, episode.step = .call (.update index value) ∧
    episode.before = some elements ∧ elements[index]? = some element ∧
    element.serial = some serial

/-- The ways in which a copy goes without a disposal. -/
inductive Loses : Prop
  /-- It was to replace an element whose disposal panicked. -/
  | replacement {index : Nat} {value old : Marked β} {copy : β} {residue : Residue (Marked β)}
      {elements : List (Marked β)} (hstep : episode.step = .call (.update index value))
      (hbefore : episode.before = some elements) (helement : elements[index]? = some old)
      (hcalls : episode.calls =
        [.copied value (.value ⟨copy, some serial⟩), .disposed old residue])
      (hpanic : residue.panic ≠ none)
  /-- It was stored behind an element whose disposal panicked while the list was destroyed. -/
  | behind {front back : List (Marked β)} {value : Marked β} {residue : Residue (Marked β)}
      (hstep : episode.step = .destroy) (hbefore : episode.before = some (front ++ value :: back))
      (hback : 0 < copies serial (some back)) (hcall : .disposed value residue ∈ episode.calls)
      (hpanic : residue.panic ≠ none)

/-- What a step can do about one copy. -/
inductive Deals : Prop
  | untouched (hmakes : ¬ episode.Makes serial) (hdisposals : episode.disposals serial = [])
      (hcopies : copies serial episode.after = copies serial episode.before)
  | stored (hmakes : episode.Makes serial) (hdisposals : episode.disposals serial = [])
      (hcopies : copies serial episode.after = copies serial episode.before + 1)
  /-- It was made, and disposed of because it could not be stored. -/
  | withdrawn (hmakes : episode.Makes serial) (residue : Residue (Marked β))
      (hdisposals : episode.disposals serial = [residue])
      (hcopies : copies serial episode.after = copies serial episode.before)
  /-- It was made, and gone before it was stored. -/
  | dropped (hmakes : episode.Makes serial) (hdisposals : episode.disposals serial = [])
      (hcopies : copies serial episode.after = copies serial episode.before)
      (hloses : episode.Loses serial)
  | released (hmakes : ¬ episode.Makes serial) (residue : Residue (Marked β))
      (hdisposals : episode.disposals serial = [residue])
      (hcopies : copies serial episode.before = copies serial episode.after + 1)
  /-- Its disposal for an update panicked, and it stays where it was. -/
  | spared (hmakes : ¬ episode.Makes serial) (residue : Residue (Marked β))
      (hdisposals : episode.disposals serial = [residue]) (hupdates : episode.Updates serial)
      (hpanic : residue.panic ≠ none)
      (hcopies : copies serial episode.after = copies serial episode.before)
  | abandoned (hmakes : ¬ episode.Makes serial) (hdisposals : episode.disposals serial = [])
      (hcopies : copies serial episode.before = copies serial episode.after + 1)
      (hloses : episode.Loses serial)

end Episode

section Copies

variable {serial : Nat}

@[simp] theorem copies_nil : copies serial (some ([] : List (Marked β))) = 0 := rfl

@[simp] theorem copies_append (front back : List (Marked β)) :
    copies serial (some (front ++ back)) =
      copies serial (some front) + copies serial (some back) := by
  simp [copies]

@[simp] theorem copies_cons (element : Marked β) (back : List (Marked β)) :
    copies serial (some (element :: back)) =
      copies serial (some back) + if element.serial = some serial then 1 else 0 := by
  simp [copies, List.countP_cons]

/-- The element at a position, with what stands before it and behind it. -/
theorem split_of_getElem? {α : Type} {elements : List α} {index : Nat} {element : α}
    (h : elements[index]? = some element) :
    ∃ front back, elements = front ++ element :: back ∧ index = front.length := by
  obtain ⟨hindex, rfl⟩ := List.getElem?_eq_some_iff.1 h
  refine ⟨elements.take index, elements.drop (index + 1), ?_, ?_⟩
  · rw [List.getElem_cons_drop, List.take_append_drop]
  · rw [List.length_take, Nat.min_eq_left (Nat.le_of_lt hindex)]

theorem copies_eraseIdx (serial : Nat) {elements : List (Marked β)} {index : Nat} {old : Marked β}
    (h : elements[index]? = some old) :
    copies serial (some elements) =
      copies serial (some (elements.eraseIdx index)) +
        if old.serial = some serial then 1 else 0 := by
  obtain ⟨front, back, rfl, rfl⟩ := split_of_getElem? h
  rw [List.eraseIdx_append_of_length_le (Nat.le_refl _)]
  simp
  omega

theorem copies_set (serial : Nat) {elements : List (Marked β)} {index : Nat} {old : Marked β}
    (h : elements[index]? = some old) (new : Marked β) :
    copies serial (some (elements.set index new)) + (if old.serial = some serial then 1 else 0) =
      copies serial (some elements) + if new.serial = some serial then 1 else 0 := by
  obtain ⟨front, back, rfl, rfl⟩ := split_of_getElem? h
  rw [List.set_append_right _ _ (Nat.le_refl _)]
  simp
  omega

theorem copies_pos_of_getElem? {elements : List (Marked β)} {index : Nat} {element : Marked β}
    (h : elements[index]? = some element) (hserial : element.serial = some serial) :
    0 < copies serial (some elements) := by
  rw [copies_eraseIdx serial h, if_pos hserial]
  omega

end Copies

section Step

variable {strategy : Strategy β} {past : List (HookCall (Marked β))} {serial : Nat}
  {elements : List (Marked β)} {operation : Operation (Marked β)} {turn : Turn (Marked β)}

theorem Ending.handed?_followedBy {α γ : Type} (residue : Residue γ) {ending : Ending (Reply α)}
    (h : ending.handed? = none) : (residue.followedBy ending).handed? = none := by
  unfold Residue.followedBy
  split
  · exact h
  · rfl

/-- A copy gets the next number: it is made by the first hook call of an operation. -/
theorem Operation.Effect.serial_of_copied
    (h : operation.Effect strategy.marked past elements turn) {source copy : Marked β}
    (hcall : .copied source (.value copy) ∈ turn.calls) : copy.serial = some past.length := by
  cases h with
  | idle => simp at hcall
  | stopped _ hcopy hstop =>
    simp only [List.mem_singleton, HookCall.copied.injEq] at hcall
    exact absurd hcall.2.symm (hstop copy)
  | added hcopy =>
    simp only [List.mem_singleton, HookCall.copied.injEq, Ending.value.injEq] at hcall
    rw [hcall.2]
    exact Strategy.serial_of_copy_marked hcopy
  | withdrawn hcopy hdispose =>
    simp at hcall
    rw [hcall.2]
    exact Strategy.serial_of_copy_marked hcopy
  | removed => simp at hcall
  | got _ hcopy =>
    simp only [List.mem_singleton, HookCall.copied.injEq] at hcall
    rw [← hcall.2] at hcopy
    exact Strategy.serial_of_copy_marked hcopy
  | replaced _ hcopy =>
    simp at hcall
    rw [hcall.2]
    exact Strategy.serial_of_copy_marked hcopy
  | spoiled _ hcopy =>
    simp at hcall
    rw [hcall.2]
    exact Strategy.serial_of_copy_marked hcopy
  | released => simp at hcall

/-- Only copies that were made for the caller are handed out. -/
theorem Operation.Effect.of_handed (h : operation.Effect strategy.marked past elements turn)
    {inner : Operation β} (hplain : inner.map Marked.plain = operation) {copy : β}
    (hhanded : turn.result.handed? = some ⟨copy, some serial⟩) :
    operation.stored? = none ∧ serial = past.length ∧ turn.calls ≠ [] := by
  cases h with
  | idle _ hkept => simp [hkept] at hhanded
  | @stopped _ value stop _ _ hstop =>
    cases stop with
    | value copy => exact absurd rfl (hstop copy)
    | error cause => simp [Ending.map, Ending.handed?] at hhanded
    | panicked text => simp [Ending.map, Ending.handed?] at hhanded
  | added => simp [Ending.handed?] at hhanded
  | withdrawn => rw [Ending.handed?_followedBy _ rfl] at hhanded; cases hhanded
  | removed => rw [Ending.handed?_followedBy _ rfl] at hhanded; cases hhanded
  | @got index element ending _ hcopy =>
    cases ending with
    | value made =>
      obtain rfl : made = ⟨copy, some serial⟩ := by
        simpa [Ending.map, Ending.handed?] using hhanded
      have hserial := Strategy.serial_of_copy_marked hcopy
      exact ⟨rfl, by simpa using hserial, by simp⟩
    | error cause => simp [Ending.map, Ending.handed?] at hhanded
    | panicked text => simp [Ending.map, Ending.handed?] at hhanded
  | replaced => simp [Ending.handed?] at hhanded
  | spoiled => simp [Ending.handed?] at hhanded
  | @released value residue hdispose =>
    have hleft := Strategy.serial_of_dispose_marked hdispose
    rcases residue with ⟨left, _ | text⟩
    · obtain rfl : left = ⟨copy, some serial⟩ := by
        simpa [Residue.followedBy, Ending.handed?] using hhanded
      cases inner with
      | releaseValue value =>
        cases hplain
        simp [Marked.plain] at hleft
      | _ => cases hplain
    · simp [Residue.followedBy, Ending.handed?] at hhanded

/-- An operation of a list in use, as an episode. -/
abbrev Turn.episode (turn : Turn (Marked β)) (operation : Operation (Marked β))
    (elements : List (Marked β)) : Episode (Marked β) :=
  ⟨.call operation, some elements, turn.result, turn.calls, some turn.contents⟩

/-- The disposals of one copy when a value is copied and then another is disposed of. -/
theorem disposals_copied_disposed (serial : Nat) (source : Marked β) (ending : Ending (Marked β))
    (old : Marked β) (residue : Residue (Marked β)) :
    [.copied source ending, .disposed old residue].filterMap (HookCall.disposal? serial) =
      if old.serial = some serial then [residue] else [] := by
  by_cases hold : old.serial = some serial
  · simp [List.filterMap_cons, HookCall.disposal?, hold]
  · simp [List.filterMap_cons, HookCall.disposal?, hold]

theorem Operation.Effect.serial_of_makes
    (h : operation.Effect strategy.marked past elements turn) (serial : Nat)
    (hmakes : (turn.episode operation elements).Makes serial) : serial = past.length := by
  obtain ⟨_, source, copy, -, -, hcall⟩ := hmakes
  simpa using h.serial_of_copied hcall

section Update

variable {index : Nat} {value old replacement : Marked β} {residue : Residue (Marked β)}
  (helement : elements[index]? = some old)
  (hcopy : strategy.marked.copy past value = .value replacement)
  (hdispose : strategy.marked.dispose (past ++ [.copied value (.value replacement)]) old = residue)
  (hbound : 0 < copies serial (some elements) → serial < past.length)
include helement hcopy hdispose hbound

/-- An update stores the new copy and disposes of the old one. -/
theorem Operation.deals_replaced (hcalm : residue.panic = none) :
    ((⟨.value .done, elements.set index replacement,
      [.copied value (.value replacement), .disposed old residue]⟩ : Turn (Marked β)).episode
        (.update index value) elements).Deals serial := by
  have hserial := Strategy.serial_of_copy_marked hcopy
  have hcopies := copies_set serial helement replacement
  have hdisposals := disposals_copied_disposed serial value (.value replacement) old residue
  have hmakes := (Effect.replaced helement hcopy hdispose hcalm).serial_of_makes serial
  by_cases hold : old.serial = some serial
  · rw [if_pos hold] at hdisposals
    have hlt := hbound (copies_pos_of_getElem? helement hold)
    have hother : replacement.serial ≠ some serial := by
      rw [hserial, ne_eq, Option.some.injEq]
      omega
    refine .released ?_ residue hdisposals ?_
    · intro h
      have := hmakes h
      omega
    · simpa [hother, hold] using hcopies.symm
  · rw [if_neg hold] at hdisposals
    by_cases hnew : replacement.serial = some serial
    · obtain ⟨made, mark⟩ := replacement
      cases hnew
      refine .stored ⟨_, value, made, rfl, rfl, by simp⟩ hdisposals ?_
      simpa [hold] using hcopies
    · refine .untouched ?_ hdisposals ?_
      · intro h
        rw [hmakes h] at hnew
        exact hnew hserial
      · simpa [hold, hnew] using hcopies

/-- An update whose disposal panics keeps the old copy and drops the new one. -/
theorem Operation.deals_spoiled {text : String} (hpanic : residue.panic = some text) :
    ((⟨.panicked text, elements.set index residue.value,
      [.copied value (.value replacement), .disposed old residue]⟩ : Turn (Marked β)).episode
        (.update index value) elements).Deals serial := by
  have hserial := Strategy.serial_of_copy_marked hcopy
  have hcopies := copies_set serial helement residue.value
  rw [Strategy.serial_of_dispose_marked hdispose, Nat.add_right_cancel_iff] at hcopies
  have hdisposals := disposals_copied_disposed serial value (.value replacement) old residue
  have hmakes := (Effect.spoiled helement hcopy hdispose hpanic).serial_of_makes serial
  have hspoils : residue.panic ≠ none := by simp [hpanic]
  by_cases hold : old.serial = some serial
  · rw [if_pos hold] at hdisposals
    have hlt := hbound (copies_pos_of_getElem? helement hold)
    refine .spared ?_ residue hdisposals ⟨index, value, elements, old, rfl, rfl, helement, hold⟩
      hspoils hcopies
    intro h
    have := hmakes h
    omega
  · rw [if_neg hold] at hdisposals
    by_cases hnew : replacement.serial = some serial
    · obtain ⟨made, mark⟩ := replacement
      cases hnew
      exact .dropped ⟨_, value, made, rfl, rfl, by simp⟩ hdisposals hcopies
        (.replacement rfl rfl helement rfl hspoils)
    · refine .untouched ?_ hdisposals hcopies
      intro h
      rw [hmakes h] at hnew
      exact hnew hserial

end Update

/-- What an operation does about one copy. -/
theorem Operation.Effect.deals (h : operation.Effect strategy.marked past elements turn)
    {inner : Operation β} (hplain : inner.map Marked.plain = operation)
    (hbound : 0 < copies serial (some elements) → serial < past.length) :
    (turn.episode operation elements).Deals serial := by
  have hmakes : (turn.episode operation elements).Makes serial → serial = past.length :=
    h.serial_of_makes serial
  cases h with
  | idle => exact .untouched (by simp [Episode.Makes]) rfl rfl
  | stopped _ _ hstop =>
    refine .untouched ?_ rfl rfl
    rintro ⟨_, source, copy, -, -, hcall⟩
    simp only [List.mem_singleton, HookCall.copied.injEq] at hcall
    exact hstop _ hcall.2.symm
  | @added value stored hcopy =>
    by_cases hnew : stored.serial = some serial
    · obtain ⟨made, mark⟩ := stored
      cases hnew
      exact .stored ⟨_, value, made, rfl, rfl, by simp⟩ rfl (by simp)
    · refine .untouched ?_ rfl (by simp [hnew])
      intro h
      rw [hmakes h] at hnew
      exact hnew (Strategy.serial_of_copy_marked hcopy)
  | @withdrawn value stored residue cause hcopy hdispose =>
    have hdisposals := disposals_copied_disposed serial value (.value stored) stored residue
    by_cases hnew : stored.serial = some serial
    · rw [if_pos hnew] at hdisposals
      obtain ⟨made, mark⟩ := stored
      cases hnew
      exact .withdrawn ⟨_, value, made, rfl, rfl, by simp⟩ residue hdisposals rfl
    · rw [if_neg hnew] at hdisposals
      refine .untouched ?_ hdisposals rfl
      intro h
      rw [hmakes h] at hnew
      exact hnew (Strategy.serial_of_copy_marked hcopy)
  | @removed index old residue helement hdispose =>
    have hcopies := copies_eraseIdx serial helement
    by_cases hold : old.serial = some serial
    · rw [if_pos hold] at hcopies
      exact .released (by simp [Episode.Makes]) residue
        (by simp [Episode.disposals, HookCall.disposal?, hold]) hcopies
    · rw [if_neg hold] at hcopies
      exact .untouched (by simp [Episode.Makes])
        (by simp [Episode.disposals, HookCall.disposal?, hold]) hcopies.symm
  | got =>
    refine .untouched ?_ rfl rfl
    rintro ⟨_, source, copy, hstep, hstored, -⟩
    cases hstep
    cases hstored
  | replaced helement hcopy hdispose hcalm =>
    exact deals_replaced helement hcopy hdispose hbound hcalm
  | spoiled helement hcopy hdispose hpanic =>
    exact deals_spoiled helement hcopy hdispose hbound hpanic
  | @released value residue hdispose =>
    have hother : value.serial ≠ some serial := by
      cases inner with
      | releaseValue value => cases hplain; simp [Marked.plain]
      | _ => cases hplain
    exact .untouched (by simp [Episode.Makes])
      (by simp [Episode.disposals, HookCall.disposal?, hother]) rfl

/-- When values are disposed of one after another, a copy among them is disposed of once, unless it
stands behind one whose disposal panics. -/
theorem Strategy.disposeAll_marked (strategy : Strategy β) (past : List (HookCall (Marked β)))
    {elements : List (Marked β)} (hone : copies serial (some elements) ≤ 1) :
    let calls := (strategy.marked.disposeAll past elements).2
    let disposals := calls.filterMap (HookCall.disposal? serial)
    (copies serial (some elements) = 0 ∧ disposals = []) ∨
    (copies serial (some elements) = 1 ∧ ∃ residue, disposals = [residue]) ∨
    (copies serial (some elements) = 1 ∧ disposals = [] ∧ ∃ front value back residue,
      elements = front ++ value :: back ∧ 0 < copies serial (some back) ∧
      .disposed value residue ∈ calls ∧ residue.panic ≠ none) := by
  induction elements generalizing past with
  | nil => exact .inl ⟨rfl, rfl⟩
  | cons value rest ih =>
    rw [copies_cons] at hone ⊢
    rcases hresidue : strategy.marked.dispose past value with ⟨left, _ | text⟩
    · have hrest := ih (past ++ [.disposed value ⟨left, none⟩]) (by omega)
      simp only [disposeAll, hresidue]
      by_cases hserial : value.serial = some serial
      · -- The copy is this value, so it is not among the rest.
        simp only [hserial, if_true] at hone ⊢
        obtain ⟨-, hnone⟩ := hrest.resolve_right fun h => by
          rcases h with ⟨hcopies, -⟩ | ⟨hcopies, -⟩ <;> omega
        refine .inr (.inl ⟨by omega, ⟨left, none⟩, ?_⟩)
        simp [HookCall.disposal?, hserial, hnone]
      · simp only [hserial, if_false, Nat.add_zero] at hone ⊢
        simp only [List.filterMap_cons, HookCall.disposal?, hserial, if_false]
        rcases hrest with hnone | hreleased | ⟨hcopies, hnone, front, behind, back, residue, rfl,
          hback, hcall, hpanic⟩
        · exact .inl hnone
        · exact .inr (.inl hreleased)
        · exact .inr (.inr ⟨hcopies, hnone, value :: front, behind, back, residue, rfl, hback,
            .tail _ hcall, hpanic⟩)
    · simp only [disposeAll, hresidue]
      by_cases hserial : value.serial = some serial
      · simp only [hserial, if_true] at hone ⊢
        refine .inr (.inl ⟨by omega, ⟨left, some text⟩, ?_⟩)
        simp [HookCall.disposal?, hserial]
      · simp only [hserial, if_false, Nat.add_zero] at hone ⊢
        have hnone : [HookCall.disposed value ⟨left, some text⟩].filterMap
            (HookCall.disposal? serial) = [] := by
          simp [HookCall.disposal?, hserial]
        rcases Nat.eq_zero_or_pos (copies serial (some rest)) with hzero | hpos
        · exact .inl ⟨hzero, hnone⟩
        · exact .inr (.inr ⟨by omega, hnone, [], value, rest, ⟨left, some text⟩, rfl, hpos,
            .head _, by simp⟩)

/-- What a step does about one copy. -/
theorem ListMachine.deals_episode (strategy : Strategy β) (size : Nat)
    (answer : Except LockError Unit) (past : List (HookCall (Marked β)))
    {contents : Option (List (Marked β))} (hone : copies serial contents ≤ 1)
    (hbound : 0 < copies serial contents → serial < past.length) (step : Step β) :
    (ListMachine.episode strategy.marked size answer past contents
      (step.map Marked.plain)).Deals serial := by
  cases step with
  | call operation =>
    cases contents with
    | some elements => exact (Operation.effect_turn _ _ size answer past elements).deals rfl hbound
    | none => exact .untouched (by simp [Episode.Makes, episode, Step.map]) rfl rfl
  | destroy =>
    cases contents with
    | some elements =>
      have hmakes : ¬ (ListMachine.episode strategy.marked size answer past (some elements)
          .destroy).Makes serial := by
        simp [Episode.Makes, episode]
      rcases strategy.disposeAll_marked past hone with
        ⟨hzero, hnone⟩ | ⟨hcopies, residue, hreleased⟩
        | ⟨hcopies, hnone, front, value, back, residue, rfl, hback, hcall, hpanic⟩
      · exact .untouched hmakes hnone hzero.symm
      · exact .released hmakes residue hreleased hcopies
      · exact .abandoned hmakes hnone hcopies (.behind rfl rfl hback hcall hpanic)
    | none => exact .untouched (by simp [Episode.Makes, episode, Step.map]) rfl rfl

/-- A step makes and hands out no copies but those with the next number, and none that it made to
store it is handed out. -/
theorem ListMachine.serial_episode (serial : Nat) (strategy : Strategy β) (size : Nat)
    (answer : Except LockError Unit) (past : List (HookCall (Marked β)))
    (contents : Option (List (Marked β))) (step : Step β) :
    let episode := ListMachine.episode strategy.marked size answer past contents
      (step.map Marked.plain)
    (episode.Makes serial ∨ episode.Hands serial → serial = past.length ∧ episode.calls ≠ []) ∧
      (episode.Makes serial → ¬ episode.Hands serial) := by
  cases step with
  | call operation =>
    cases contents with
    | some elements =>
      have heffect := (operation.map Marked.plain).effect_turn strategy.marked size answer past
        elements
      refine ⟨?_, ?_⟩
      · rintro (hmakes | ⟨copy, hhands⟩)
        · refine ⟨heffect.serial_of_makes serial hmakes, ?_⟩
          obtain ⟨_, source, copy, -, -, hcall⟩ := hmakes
          exact List.ne_nil_of_mem hcall
        · exact (heffect.of_handed rfl hhands).2
      · rintro ⟨_, source, copy, hstep, hstored, -⟩ ⟨copy, hhands⟩
        cases hstep
        rw [(heffect.of_handed rfl hhands).1] at hstored
        cases hstored
    | none =>
      have hhands : ((operation.map Marked.plain).afterDestroy size).handed? = none := by
        cases operation <;> rfl
      simp [episode, Step.map, Episode.Makes, Episode.Hands, hhands]
  | destroy =>
    cases contents with
    | some elements =>
      have hhands := Ending.handed?_followedBy
        (⟨(), (strategy.marked.disposeAll past elements).1⟩ : Residue Unit)
        (rfl : (Ending.value .done : Ending (Reply (Marked β))).handed? = none)
      simp [episode, Step.map, Episode.Makes, Episode.Hands, hhands]
    | none => simp [episode, Step.map, Episode.Makes, Episode.Hands, Ending.handed?]

end Step

end GuardedList
