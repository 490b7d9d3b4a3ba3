/-!
# Errors

What a lock and a list report when they cannot do what was asked, the words for each error, and
the conversions into `ListError`. A `ListError` that comes from the lock keeps the lock's own
error as its cause.
-/

namespace GuardedList

/-- The reasons for which a lock refuses to be acquired or made. -/
inductive LockError where
  /-- A holder panicked while it held the lock. -/
  | poisoned
  deriving DecidableEq

namespace LockError

/-- The constructor's name, as debug output shows it. -/
def name : LockError → String
  | poisoned => "Poisoned"

/-- The sentence shown to a user. -/
def message : LockError → String
  | poisoned => "lock poisoned by a panicking holder"

end LockError

/-- The reasons for which an operation on a list fails. -/
inductive ListError where
  /-- The list was destroyed, or its elements have no size. -/
  | invalidArgument
  /-- The index is not smaller than the length. -/
  | outOfRange
  /-- No room for a value could be obtained. -/
  | outOfMemory
  /-- The list's lock reported an error. -/
  | lock (cause : LockError)
  deriving DecidableEq

namespace ListError

/-- The error in one line, as debug output shows it. -/
def name : ListError → String
  | invalidArgument => "InvalidArgument"
  | outOfRange => "OutOfRange"
  | outOfMemory => "OutOfMemory"
  | lock cause => "Lock(" ++ cause.name ++ ")"

/-- The error as indented debug output shows it: an error with a cause takes a line for each of
its parentheses and one for the cause. -/
def indentedName : ListError → String
  | lock cause => "Lock(\n    " ++ cause.name ++ ",\n)"
  | other => other.name

/-- The sentence shown to a user; that of a cause is part of it. -/
def message : ListError → String
  | invalidArgument => "invalid argument or list not initialized"
  | outOfRange => "index out of range"
  | outOfMemory => "out of memory"
  | lock cause => "list lock failed: " ++ cause.message

/-- The POSIX error number of the same meaning: EINVAL, ERANGE, ENOMEM and ENOTRECOVERABLE. -/
def errno : ListError → Nat
  | invalidArgument => 22
  | outOfRange => 34
  | outOfMemory => 12
  | lock .poisoned => 131

/-- The error that this one passes on. A `LockError` passes on no further one. -/
def cause? : ListError → Option LockError
  | lock cause => some cause
  | _ => none

end ListError

/-- The largest number of bytes that one block of storage may have. -/
def maxBlockSize : Nat := 0x7fffffffffffffff

/-- A request for storage that no allocator can meet. -/
structure ReserveError where
  amount : Nat

/-- Asks for a block of `amount` bytes. Storage itself is taken to be unlimited, so a request is
refused just when it passes the size of the largest block. -/
def reserve (amount : Nat) : Except ReserveError Unit :=
  if amount ≤ maxBlockSize then .ok () else .error ⟨amount⟩

/-- To a list, storage that cannot be had is memory that has run out. -/
def ListError.ofReserveError (_ : ReserveError) : ListError := .outOfMemory

end GuardedList
