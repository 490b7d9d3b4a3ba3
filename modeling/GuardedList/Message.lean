import GuardedList.Error

/-!
# Messages

Everything that a list or a lock writes to the log, as data, with the level and the text of each
message. Where messages go is left to the memory that a session threads through its steps: any
type that can record a message will do (`Journal`).
-/

namespace GuardedList

/-- How much a message matters. -/
inductive Level where
  | trace
  | debug
  | warn
  deriving DecidableEq

/-- The name under which a log shows the level. -/
def Level.name : Level → String
  | trace => "TRACE"
  | debug => "DEBUG"
  | warn => "WARN"

/-- The messages of lists and locks. -/
inductive Message where
  /-- An element was put at the end. -/
  | appended
  /-- The element at `index` was taken out and disposed of. -/
  | unlinked (index : Nat)
  /-- The element at `index` was replaced. -/
  | replaced (index : Nat)
  /-- The list was destroyed, and with it `count` elements. -/
  | freed (count : Nat)
  /-- The lock refused an addition. -/
  | additionRefused (cause : LockError)
  /-- A poisoned lock turned somebody away. -/
  | acquireRefused
  /-- A poisoned lock was taken down. -/
  | poisonedDestroyed
  deriving DecidableEq

namespace Message

/-- Changes are traced, teardown is debug information, and trouble with a lock is a warning. -/
def level : Message → Level
  | appended | unlinked _ | replaced _ => .trace
  | freed _ => .debug
  | additionRefused _ | acquireRefused | poisonedDestroyed => .warn

/-- The line that a log shows. -/
def text : Message → String
  | appended => "add: appended element"
  | unlinked index => "remove: unlinked element " ++ toString index
  | replaced index => "update: replaced element " ++ toString index
  | freed count => "destroy: freed " ++ toString count ++ " elements"
  | additionRefused cause => "add: failed to acquire list lock: " ++ cause.message
  | acquireRefused => "refusing to acquire a poisoned list lock"
  | poisonedDestroyed => "destroying a poisoned list lock"

end Message

/-- A memory in which messages can be recorded. -/
class Journal (ω : Type) where
  record : Message → ω → ω

/-- The memory that holds nothing keeps no messages. -/
instance : Journal Unit where
  record _ memory := memory

/-- A list of messages keeps the latest in front. -/
instance : Journal (List Message) where
  record := List.cons

end GuardedList
