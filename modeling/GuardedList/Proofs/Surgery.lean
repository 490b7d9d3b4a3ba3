import GuardedList.Chain

/-!
# Chains changed in place

The operations of a chain are recursions that build a new chain. A program that keeps its chain in
place moves a cursor from link to link instead, and changes what hangs where the cursor has stopped
(`Chain.edit`, `Chain.putLast`). The links that the cursor passed stay, and a cursor that goes too
far leaves the whole chain as it is (`Cursor.edit_eq`); so both come to the same.

`Chain.Surgery` collects what becomes of a chain and of the nodes that are taken out of it.
-/

namespace GuardedList

variable {α β : Type}

/-- A place in a chain: the values of the links before it, the nearest one first, and what hangs
there. -/
structure Cursor (α : Type) where
  passed : List α
  link : Chain α

namespace Cursor

/-- The chain around the place. -/
def whole (cursor : Cursor α) : Chain α :=
  cursor.passed.foldl (fun chain value => .link value chain) cursor.link

/-- Goes `steps` links on. A cursor that comes to the end of the chain before is lost there. -/
def walk : Nat → Cursor α → Except (Cursor α) (Cursor α)
  | 0, cursor => .ok cursor
  | _ + 1, ⟨passed, .empty⟩ => .error ⟨passed, .empty⟩
  | steps + 1, ⟨passed, .link value next⟩ => walk steps ⟨value :: passed, next⟩

/-- Goes on to the place behind the last link. -/
def toEnd (passed : List α) : Chain α → Cursor α
  | .empty => ⟨passed, .empty⟩
  | .link value next => toEnd (value :: passed) next

/-- Goes `steps` links on and replaces the node that it finds there, with all that follows it, as
`change` says. The change has a result. Where no node is found the chain is left as it is. -/
def edit (change : Node α → β × Chain α) (steps : Nat) (cursor : Cursor α) :
    Option β × Chain α :=
  match cursor.walk steps with
  | .ok ⟨passed, .link value next⟩ =>
    let (result, link) := change ⟨value, next⟩
    (some result, whole ⟨passed, link⟩)
  | .ok stopped => (none, stopped.whole)
  | .error lost => (none, lost.whole)

/-- The links before a place stand before whatever hangs there. -/
@[simp] theorem toList_whole (cursor : Cursor α) :
    cursor.whole.toList = cursor.passed.reverse ++ cursor.link.toList := by
  obtain ⟨passed, link⟩ := cursor
  -- The nearest link goes back onto what hangs at the place, so the place varies.
  induction passed generalizing link with
  | nil => rfl
  | cons value passed ih =>
    have hwhole := ih (.link value link)
    simp only [whole, List.foldl_cons] at hwhole ⊢
    simp [hwhole]

/-- To have passed a link is to be at the same place in the same chain. -/
theorem whole_cons (passed : List α) (value : α) (next : Chain α) :
    (⟨value :: passed, next⟩ : Cursor α).whole = whole ⟨passed, .link value next⟩ := rfl

/-- A cursor that went to the end has passed everything. -/
theorem toEnd_eq (passed : List α) (chain : Chain α) :
    toEnd passed chain = ⟨chain.toList.reverse ++ passed, .empty⟩ := by
  induction chain generalizing passed with
  | empty => rfl
  | link value next ih => simp [toEnd, ih]

/-- An edit finds the node that is to be found at its index and keeps the links before it; if there
is none, it keeps the chain. -/
theorem edit_eq (change : Node α → β × Chain α) (passed : List α) (chain : Chain α) (index : Nat) :
    edit change index ⟨passed, chain⟩ =
      match chain.node? index with
      | none => (none, whole ⟨passed, chain⟩)
      | some node => (some (change node).1,
          whole ⟨(chain.toList.take index).reverse ++ passed, (change node).2⟩) := by
  induction chain generalizing passed index with
  | empty => cases index <;> rfl
  | link value next ih =>
    cases index with
    | zero => rfl
    | succ index =>
      -- The cursor has passed one link more, and the index counts from behind that link.
      have hedit : edit change (index + 1) ⟨passed, .link value next⟩ =
          edit change index ⟨value :: passed, next⟩ := rfl
      rw [hedit, ih, Chain.node?, whole_cons]
      cases next.node? index <;> simp

end Cursor

namespace Node

/-- A node with nothing after it. -/
def Loose (node : Node α) : Prop := node.next = .empty

/-- Takes a node out of its chain: it comes away loose, and what followed it hangs in its place. -/
def detach (node : Node α) : Node α × Chain α := ({ value := node.value }, node.next)

/-- Writes a value into a node and leaves what follows it. -/
def write (new : α) (node : Node α) : Unit × Chain α := ((), .link new node.next)

/-- The nodes that are handed out: new ones, and those taken out of some chain. -/
inductive Given : Node α → Prop
  | fresh (value : α) : Given { value }
  | unlinked {chain rest : Chain α} {index : Nat} {node : Node α}
      (h : chain.unlink? index = some (node, rest)) : Given node
  | popped {chain rest : Chain α} {node : Node α} (h : chain.popFront? = some (node, rest)) :
      Given node

theorem Given.loose {node : Node α} (h : node.Given) : node.Loose := by
  cases h with
  | fresh value => rfl
  | unlinked h => exact (Chain.unlink?_eq_some h).2.1
  | popped h =>
    rw [Chain.popFront?_eq_unlink?] at h
    exact (Chain.unlink?_eq_some h).2.1

end Node

namespace Chain

/-- Changes the node at `index` in place. -/
def edit (change : Node α → β × Chain α) (chain : Chain α) (index : Nat) : Option β × Chain α :=
  Cursor.edit change index ⟨[], chain⟩

/-- Hangs a node in at the end, in place. -/
def putLast (chain : Chain α) (node : Node α) : Chain α :=
  { Cursor.toEnd [] chain with link := .link node.value node.next }.whole

theorem toList_append_of_loose (chain : Chain α) {node : Node α} (h : node.Loose) :
    (chain.append node).toList = chain.toList ++ [node.value] := by
  rw [toList_append, h, toList_empty]

/-- The node at an index has the values from there on. -/
theorem node?_eq_some_iff {chain : Chain α} {index : Nat} {node : Node α} :
    chain.node? index = some node ↔
      chain.toList.drop index = node.value :: node.next.toList := by
  induction chain generalizing index with
  | empty => simp [node?]
  | link value next ih =>
    cases index with
    | zero =>
      rw [node?, Option.some.injEq, List.drop_zero, toList_link, List.cons.injEq]
      constructor
      · rintro rfl
        exact ⟨rfl, rfl⟩
      · rintro ⟨rfl, hnext⟩
        rw [toList_injective hnext]
    | succ index => exact ih

theorem drop_succ_of_node? {chain : Chain α} {index : Nat} {node : Node α}
    (h : chain.node? index = some node) : chain.toList.drop (index + 1) = node.next.toList := by
  rw [← List.tail_drop, node?_eq_some_iff.1 h, List.tail_cons]

/-- There is a node at the indices below the count. -/
theorem isSome_node? (chain : Chain α) (index : Nat) :
    (chain.node? index).isSome ↔ index < chain.count := by
  rw [← Option.isSome_map (f := Node.value), value_node?, count_eq]
  simp

/-- A node is found where one can be unlinked; it comes out alone, and the others stay. -/
theorem node?_and_unlink? (chain : Chain α) (index : Nat) :
    (chain.node? index = none ∧ chain.unlink? index = none) ∨
      ∃ node rest, chain.node? index = some node ∧
        chain.unlink? index = some ({ value := node.value }, rest) ∧
        rest.toList = chain.toList.eraseIdx index := by
  have hvalue := chain.value_node? index
  cases hnode : chain.node? index with
  | none =>
    rw [hnode] at hvalue
    exact .inl ⟨rfl, unlink?_eq_none_iff.2 (List.getElem?_eq_none_iff.1 hvalue.symm)⟩
  | some node =>
    rw [hnode] at hvalue
    cases hunlink : chain.unlink? index with
    | none => simp [List.getElem?_eq_none (unlink?_eq_none_iff.1 hunlink)] at hvalue
    | some taken =>
      obtain ⟨⟨value, next⟩, rest⟩ := taken
      obtain ⟨htaken, hloose, hrest⟩ := unlink?_eq_some hunlink
      have hsame : node.value = value := by simpa [htaken] using hvalue
      cases hloose
      exact .inr ⟨node, rest, rfl, by rw [hsame], hrest⟩

/-- A position is found or missed by `node?` and `focus?` alike; and what is written through the
focus stands in the node. -/
theorem node?_and_focus? (chain : Chain α) (index : Nat) :
    (chain.node? index = none ∧ chain.focus? index = none) ∨
      ∃ node focus, chain.node? index = some node ∧ chain.focus? index = some focus ∧
        focus.value = node.value ∧
        ∀ new, (focus.write new).node? index = some { node with value := new } := by
  have hvalue : (chain.node? index).map Node.value = (chain.focus? index).map Focus.value :=
    (chain.value_node? index).trans (chain.value_focus? index).symm
  cases hnode : chain.node? index with
  | none =>
    rw [hnode] at hvalue
    exact .inl ⟨rfl, Option.map_eq_none_iff.1 hvalue.symm⟩
  | some node =>
    rw [hnode] at hvalue
    cases hfocus : chain.focus? index with
    | none => simp [hfocus] at hvalue
    | some focus =>
      refine .inr ⟨node, focus, rfl, rfl, ?_, fun new => ?_⟩
      · simpa [hfocus] using hvalue.symm
      · rw [node?_eq_some_iff, toList_write hfocus, List.drop_set, if_neg (Nat.lt_irrefl index),
          Nat.sub_self, node?_eq_some_iff.1 hnode, List.set_cons_zero]

/-- Where no node is found nothing is changed. -/
theorem edit_of_missed (change : Node α → β × Chain α) {chain : Chain α} {index : Nat}
    (hnode : chain.node? index = none) : chain.edit change index = (none, chain) := by
  rw [edit, Cursor.edit_eq, hnode]
  rfl

/-- Where a node is found, what the change makes of it and of all that follows it comes after the
values before it. -/
theorem edit_of_found {change : Node α → β × Chain α} {chain changed : Chain α} {index : Nat}
    {node : Node α} (hnode : chain.node? index = some node)
    (hchanged : changed.toList = chain.toList.take index ++ (change node).2.toList) :
    chain.edit change index = (some (change node).1, changed) := by
  have hwhole : Cursor.whole ⟨(chain.toList.take index).reverse, (change node).2⟩ = changed := by
    apply toList_injective
    rw [hchanged, Cursor.toList_whole, List.reverse_reverse]
  rw [edit, Cursor.edit_eq, hnode, ← hwhole]
  simp

/-- To unlink a node is to detach it in place. -/
theorem edit_detach (chain : Chain α) (index : Nat) :
    chain.edit Node.detach index =
      match chain.unlink? index with
      | none => (none, chain)
      | some (node, rest) => (some node, rest) := by
  rcases chain.node?_and_unlink? index with ⟨hnode, hunlink⟩ | ⟨node, rest, hnode, hunlink, hrest⟩
  · rw [hunlink]
    exact edit_of_missed _ hnode
  · rw [hunlink]
    refine edit_of_found hnode ?_
    rw [hrest, List.eraseIdx_eq_take_drop_succ, drop_succ_of_node? hnode]
    rfl

/-- To write through a focus is to write to the node in place. -/
theorem edit_write (chain : Chain α) (index : Nat) (new : α) :
    chain.edit (Node.write new) index =
      match chain.focus? index with
      | none => (none, chain)
      | some focus => (some (), focus.write new) := by
  rcases chain.node?_and_focus? index with ⟨hnode, hfocus⟩ | ⟨node, focus, hnode, hfocus, -, -⟩
  · rw [hfocus]
    exact edit_of_missed _ hnode
  · -- The node is there, so `List.set` does split the values at the index.
    have hindex : index < chain.toList.length := by
      rw [← count_eq, ← isSome_node?, hnode]
      rfl
    rw [hfocus]
    refine edit_of_found hnode ?_
    rw [toList_write hfocus, List.set_eq_take_append_cons_drop, if_pos hindex,
      drop_succ_of_node? hnode]
    rfl

/-- To append a node is to put it last in place. -/
theorem putLast_eq_append (chain : Chain α) (node : Node α) :
    chain.putLast node = chain.append node := by
  apply toList_injective
  simp [putLast, Cursor.toEnd_eq]

/-- What becomes of a chain and of the nodes that are taken out of it or hung in. -/
structure Surgery (chain : Chain α) : Prop where
  /-- The node at an index comes out loose, and all the others stay in their order. -/
  taken {index : Nat} : index < chain.toList.length →
    ∃ node rest, chain.unlink? index = some (node, rest) ∧
      chain.edit Node.detach index = (some node, rest) ∧
      chain.toList[index]? = some node.value ∧ node.Loose ∧
      rest.toList = chain.toList.eraseIdx index
  /-- Where there is no node, none comes out and all of them stay. -/
  missed {index : Nat} : chain.toList.length ≤ index →
    chain.unlink? index = none ∧ chain.edit Node.detach index = (none, chain)
  popped : chain.popFront? = chain.unlink? 0
  /-- A loose node is hung in after all the others. -/
  appended {node : Node α} : node.Loose → chain.putLast node = chain.append node ∧
    (chain.append node).toList = chain.toList ++ [node.value]
  /-- Every node that was handed out is loose, and none brings anything along when it is hung in. -/
  given {node : Node α} : node.Given → node.Loose ∧
    (chain.append node).toList = chain.toList ++ [node.value]
  /-- To look at a position and to get write access to it is to find the same node. -/
  found (index : Nat) : (chain.node? index = none ∧ chain.focus? index = none) ∨
    ∃ node focus, chain.node? index = some node ∧ chain.focus? index = some focus ∧
      focus.value = node.value ∧
      ∀ new, (focus.write new).node? index = some { node with value := new }
  /-- What is written changes one position and no other. -/
  written {index : Nat} {focus : Focus α} : chain.focus? index = some focus → ∀ new,
    chain.edit (Node.write new) index = (some (), focus.write new) ∧
      (focus.write new).toList = chain.toList.set index new
  /-- The nodes that can be found are those that are counted, and passed on the way to the end. -/
  counted : chain.count = chain.toList.length ∧
    (Cursor.toEnd [] chain).passed.length = chain.count ∧
    ∀ index, (chain.node? index).isSome ↔ index < chain.count
  isEmpty : chain.isEmpty = true ↔ chain.count = 0

/-- Every chain is cut and joined without loss: by recursion as in place. -/
theorem surgery (chain : Chain α) : chain.Surgery where
  taken {index} hindex := by
    cases hunlink : chain.unlink? index with
    | none => exact absurd (unlink?_eq_none_iff.1 hunlink) (Nat.not_le.2 hindex)
    | some taken =>
      obtain ⟨node, rest⟩ := taken
      obtain ⟨hvalue, hloose, hrest⟩ := unlink?_eq_some hunlink
      exact ⟨node, rest, rfl, by rw [edit_detach, hunlink], hvalue, hloose, hrest⟩
  missed {index} hindex := by
    have hunlink : chain.unlink? index = none := unlink?_eq_none_iff.2 hindex
    exact ⟨hunlink, by rw [edit_detach, hunlink]⟩
  popped := chain.popFront?_eq_unlink?
  appended hloose := ⟨chain.putLast_eq_append _, chain.toList_append_of_loose hloose⟩
  given hgiven := ⟨hgiven.loose, chain.toList_append_of_loose hgiven.loose⟩
  found := chain.node?_and_focus?
  written hfocus new := ⟨by rw [edit_write, hfocus], toList_write hfocus new⟩
  counted := by
    refine ⟨chain.count_eq, ?_, chain.isSome_node?⟩
    rw [Cursor.toEnd_eq, List.append_nil, List.length_reverse, count_eq]
  isEmpty := by
    rw [isEmpty_eq, count_eq, List.isEmpty_iff, List.length_eq_zero_iff]

end Chain

end GuardedList
