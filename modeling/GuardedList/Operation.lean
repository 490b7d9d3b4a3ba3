import GuardedList.Chain
import GuardedList.Routine

/-!
# Operations

The operations of a list that may be called through a shared reference, the replies to them, and the
routine of each. Where an operation calls the hooks is part of its contract:

* `add` copies before it takes the lock, and disposes of the copy again, without the lock, when the
  lock is refused;
* `remove` takes the node out under the lock and disposes of its value after the lock is given up;
* `get` copies under the lock;
* `update` copies the new value, disposes of the old one and stores the copy, all under the lock.
  Between the last two the position holds what the disposal left there, and a disposal that panics
  leaves it so.

The element that `remove` took out and the one that `update` wrote over go when they have been
disposed of. That they do so unobserved, without a panic and without a call, is taken for granted
here (see `Routine`); what is shown of `remove` and `update` rests on it.
-/

namespace GuardedList

/-- A call of one of a list's operations. -/
inductive Operation (α : Type) where
  /-- Puts a copy of `value` at the end. -/
  | add (value : α)
  /-- Takes out the element at `index`; those behind it move up. -/
  | remove (index : Nat)
  /-- A copy of the element at `index`. -/
  | get (index : Nat)
  /-- Replaces the element at `index` by a copy of `value`. -/
  | update (index : Nat) (value : α)
  /-- The number of elements. -/
  | length
  /-- Whether there are no elements. -/
  | isEmpty
  /-- Disposes of a value that the caller owns. -/
  | releaseValue (value : α)
  /-- Whether the list can be used. -/
  | isInitialized
  /-- The size of an element in bytes. -/
  | elementSize

/-- What an operation that succeeds answers. -/
inductive Reply (α : Type) where
  | done
  | element (value : α)
  | count (number : Nat)
  | flag (holds : Bool)
  /-- The caller's value as the disposal left it. -/
  | released (value : α)

namespace Routine

variable {α : Type}

/-- Appends a copy of `value`. -/
def add (value : α) : Routine (Chain α) α Unit := do
  let stored ← copyOf value
  match ← askLock with
  | .error cause =>
    note (.additionRefused cause)
    settle (← disposalOf stored)
    fail (.lock cause)
  | .ok () =>
    put ((← guarded).append { value := stored })
    leave
    note .appended

/-- Takes the element at `index` out of the chain, if there is one. -/
def detach (index : Nat) : Routine (Chain α) α (Option (Node α)) := holding do
  match (← guarded).unlink? index with
  | none => pure none
  | some (node, rest) =>
    put rest
    pure (some node)

/-- Takes the element at `index` out and disposes of it. -/
def remove (index : Nat) : Routine (Chain α) α Unit := do
  match ← detach index with
  | none => fail .outOfRange
  | some node =>
    settle (← disposalOf node.value)
    note (.unlinked index)

/-- Copies the element at `index` out. -/
def get (index : Nat) : Routine (Chain α) α α := holding do
  match (← guarded).node? index with
  | none => fail .outOfRange
  | some node => copyOf node.value

/-- Replaces the element at `index` by a copy of `value`. -/
def update (index : Nat) (value : α) : Routine (Chain α) α Unit := holding do
  match (← guarded).focus? index with
  | none => fail .outOfRange
  | some position =>
    let replacement ← copyOf value
    let residue ← disposalOf position.value
    put (position.write residue.value)
    settle residue
    put (position.write replacement)
    note (.replaced index)

/-- Counts the elements. -/
def length : Routine (Chain α) α Nat := holding do
  return (← guarded).count

/-- Looks whether there is an element. -/
def isEmpty : Routine (Chain α) α Bool := holding do
  return (← guarded).isEmpty

/-- Disposes of a caller's value; the list's own elements are not looked at. -/
def releaseValue (value : α) : Routine (Chain α) α α := do
  let residue ← disposalOf value
  settle residue
  return residue.value

end Routine

namespace Operation

variable {α : Type}

/-- The routine of an operation on a list in use whose elements have `size` bytes. -/
def routine (size : Nat) : Operation α → Routine (Chain α) α (Reply α)
  | add value => do
    Routine.add value
    return .done
  | remove index => do
    Routine.remove index
    return .done
  | get index => return .element (← Routine.get index)
  | update index value => do
    Routine.update index value
    return .done
  | length => return .count (← Routine.length)
  | isEmpty => return .flag (← Routine.isEmpty)
  | releaseValue value => return .released (← Routine.releaseValue value)
  | isInitialized => return .flag true
  | elementSize => return .count size

/-- The answer of a list that is no longer in use. It still knows that, and the size of its
elements; all else is refused before any hook, the lock or the log is involved. -/
def afterDestroy (size : Nat) : Operation α → Ending (Reply α)
  | isInitialized => .value (.flag false)
  | elementSize => .value (.count size)
  | _ => .error .invalidArgument

end Operation

end GuardedList
