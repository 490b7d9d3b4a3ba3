/-!
# Chains

The singly linked chain in which a list keeps its elements. A chain is read through `toList`; each
operation comes with the equation that says what it does to that view, and with those equations
nobody has to look inside a chain again.

`append`, `node?`, `focus?`, `unlink?` and `count` are separate walks from the head. `node?` looks
at a position, `focus?` gives write access to it, and `unlink?` splices it out.
-/

namespace GuardedList

/-- A chain of links, each with a value and the rest of the chain. -/
inductive Chain (α : Type) where
  | empty
  | link (value : α) (next : Chain α)

/-- A node: a value and what hangs after it. A fresh node has nothing after it. -/
structure Node (α : Type) where
  value : α
  next : Chain α := .empty

/-- Write access to one position of a chain: the value there, and the chain with another value
in its place. -/
structure Focus (α : Type) where
  value : α
  write : α → Chain α

namespace Chain

variable {α : Type}

/-- The values in order. -/
def toList : Chain α → List α
  | empty => []
  | link value next => value :: next.toList

/-- Whether there is no link at all. -/
def isEmpty : Chain α → Bool
  | empty => true
  | link _ _ => false

/-- Hangs a node in after the last link. -/
def append : Chain α → Node α → Chain α
  | empty, node => link node.value node.next
  | link value next, node => link value (next.append node)

/-- The node that `index` links precede, if the chain reaches that far. -/
def node? : Chain α → Nat → Option (Node α)
  | empty, _ => none
  | link value next, 0 => some ⟨value, next⟩
  | link _ next, index + 1 => next.node? index

/-- Write access to the position that `index` links precede, if the chain reaches that far. -/
def focus? : Chain α → Nat → Option (Focus α)
  | empty, _ => none
  | link value next, 0 => some ⟨value, fun new => link new next⟩
  | link value next, index + 1 =>
    (next.focus? index).map fun focus => ⟨focus.value, fun new => link value (focus.write new)⟩

/-- Takes out the node that `index` links precede and joins the two ends, if the chain reaches that
far. The node comes back with nothing after it. -/
def unlink? : Chain α → Nat → Option (Node α × Chain α)
  | empty, _ => none
  | link value next, 0 => some ({ value }, next)
  | link value next, index + 1 =>
    (next.unlink? index).map fun (node, rest) => (node, link value rest)

/-- Takes off the first node. -/
def popFront? : Chain α → Option (Node α × Chain α)
  | empty => none
  | link value next => some ({ value }, next)

/-- The number of links. -/
def count : Chain α → Nat
  | empty => 0
  | link _ next => next.count + 1

@[simp] theorem toList_empty : (empty : Chain α).toList = [] := rfl

@[simp] theorem toList_link (value : α) (next : Chain α) :
    (link value next).toList = value :: next.toList := rfl

/-- A chain has no content beyond its view. -/
theorem toList_injective {a b : Chain α} (h : a.toList = b.toList) : a = b := by
  induction a generalizing b with
  | empty => cases b <;> simp_all
  | link value next ih =>
    cases b with
    | empty => simp at h
    | link value' next' =>
      simp only [toList_link, List.cons.injEq] at h
      rw [h.1, ih h.2]

@[simp] theorem toList_append (chain : Chain α) (node : Node α) :
    (chain.append node).toList = chain.toList ++ node.value :: node.next.toList := by
  induction chain with
  | empty => rfl
  | link value next ih => simp [append, ih]

theorem isEmpty_eq (chain : Chain α) : chain.isEmpty = chain.toList.isEmpty := by
  cases chain <;> rfl

theorem count_eq (chain : Chain α) : chain.count = chain.toList.length := by
  induction chain with
  | empty => rfl
  | link value next ih => simp [count, ih]

theorem value_node? (chain : Chain α) (index : Nat) :
    (chain.node? index).map Node.value = chain.toList[index]? := by
  induction chain generalizing index with
  | empty => simp [node?]
  | link value next ih => cases index <;> simp [node?, ih]

theorem value_focus? (chain : Chain α) (index : Nat) :
    (chain.focus? index).map Focus.value = chain.toList[index]? := by
  induction chain generalizing index with
  | empty => simp [focus?]
  | link value next ih =>
    cases index with
    | zero => simp [focus?]
    | succ index => simp [focus?, ← ih, Function.comp_def]

/-- What is written through a focus lands at its position and nowhere else. -/
theorem toList_write {chain : Chain α} {index : Nat} {focus : Focus α}
    (h : chain.focus? index = some focus) (new : α) :
    (focus.write new).toList = chain.toList.set index new := by
  induction chain generalizing index focus with
  | empty => simp [focus?] at h
  | link value next ih =>
    cases index with
    | zero => simp only [focus?, Option.some.injEq] at h; subst h; rfl
    | succ index =>
      simp only [focus?, Option.map_eq_some_iff] at h
      obtain ⟨inner, hinner, rfl⟩ := h
      simp [ih hinner]

theorem unlink?_eq_none_iff {chain : Chain α} {index : Nat} :
    chain.unlink? index = none ↔ chain.toList.length ≤ index := by
  induction chain generalizing index with
  | empty => simp [unlink?]
  | link value next ih => cases index <;> simp [unlink?, ih]

/-- What is unlinked is the value at the position, alone, and what stays is all the rest. -/
theorem unlink?_eq_some {chain rest : Chain α} {index : Nat} {node : Node α}
    (h : chain.unlink? index = some (node, rest)) :
    chain.toList[index]? = some node.value ∧ node.next = empty ∧
      rest.toList = chain.toList.eraseIdx index := by
  induction chain generalizing index rest with
  | empty => simp [unlink?] at h
  | link value next ih =>
    cases index with
    | zero =>
      simp only [unlink?, Option.some.injEq, Prod.mk.injEq] at h
      obtain ⟨rfl, rfl⟩ := h
      simp
    | succ index =>
      simp only [unlink?, Option.map_eq_some_iff] at h
      obtain ⟨⟨inner, innerRest⟩, hinner, heq⟩ := h
      simp only [Prod.mk.injEq] at heq
      obtain ⟨rfl, rfl⟩ := heq
      obtain ⟨hvalue, hnext, hrest⟩ := ih hinner
      exact ⟨by simpa using hvalue, hnext, by simp [hrest]⟩

theorem popFront?_eq_unlink? (chain : Chain α) : chain.popFront? = chain.unlink? 0 := by
  cases chain <;> rfl

end Chain

end GuardedList
