import GuardedList.Error
import GuardedList.Message
import GuardedList.Chain
import GuardedList.Ending
import GuardedList.Routine
import GuardedList.Operation
import GuardedList.Hooks
import GuardedList.Mutex
import GuardedList.Lock
import GuardedList.Run
import GuardedList.Basic
import GuardedList.Section
import GuardedList.Pool
import GuardedList.Proofs.Strategy
import GuardedList.Proofs.Solo
import GuardedList.Proofs.Turn
import GuardedList.Proofs.Session
import GuardedList.Proofs.Refinement
import GuardedList.Proofs.Panic
import GuardedList.Proofs.Failure
import GuardedList.Proofs.Poisoning
import GuardedList.Proofs.Naturality
import GuardedList.Proofs.Copies
import GuardedList.Proofs.Ownership
import GuardedList.Proofs.Phases
import GuardedList.Proofs.Exclusion
import GuardedList.Proofs.Restoring
import GuardedList.Proofs.Simulation
import GuardedList.Proofs.Trace
import GuardedList.Proofs.Discipline
import GuardedList.Proofs.Callback
import GuardedList.Proofs.Seclusion
import GuardedList.Proofs.Lifecycle
import GuardedList.Proofs.Schedule
import GuardedList.Proofs.Interleaving
import GuardedList.Proofs.Linearization
import GuardedList.Proofs.Script
import GuardedList.Proofs.Progress
import GuardedList.Proofs.Completion
import GuardedList.Proofs.TurnTaking
import GuardedList.Proofs.Queue
import GuardedList.Proofs.Merge
import GuardedList.Proofs.Gathering
import GuardedList.Proofs.Drain
import GuardedList.Proofs.Reach
import GuardedList.Proofs.Register
import GuardedList.Proofs.Visits
import GuardedList.Proofs.Logging
import GuardedList.Proofs.Backends
import GuardedList.Proofs.Replay
import GuardedList.Proofs.Residues
import GuardedList.Proofs.Exchange
import GuardedList.Proofs.Teardown
import GuardedList.Proofs.Surgery
