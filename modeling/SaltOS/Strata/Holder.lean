import Mathlib.Logic.Function.Basic
import SaltOS.Lib.Run

/-!
# The holder of a stratum's namespace

`salt_run_ensure_holder`, `salt_run_holder_setup` and `salt_stratum_ns_stop` of
`src/halite/src/run.c`: calls of any number of processes that look for the
holder of one stratum or make one, the holders themselves, and calls that stop
the holder.  A step is one system call, and steps come in any order.

What is left out is time: a call that polls goes on as fast or as slowly as it
likes, and may be killed anywhere.  The kernel gives a process identifier to
one process only, so that the one in a stale file is that of no process.
-/

namespace SaltOS.Holder

abbrev Pid := Nat

/-! ## What processes share -/

/-- Where a holder is in `salt_run_holder_setup`: before it has laid down the
binds, before it has written the temporary file, before it renames it to the
pid file, and in its `pause`. -/
inductive Stage where
  | mounting
  | naming
  | publishing
  | pausing
  deriving DecidableEq, Repr

/-- A living holder; a signal that has been sent to it will end it. -/
structure Process where
  stage : Stage
  doomed : Bool
  deriving DecidableEq, Repr

structure Shared where
  pidFile : Option Pid
  /-- The call that has the `flock`. -/
  lock : Option Nat
  processes : Pid → Option Process
  nextPid : Pid

/-- `salt_run_holder_alive`. -/
def Shared.alive (shared : Shared) : Option Pid → Bool
  | none => false
  | some pid => (shared.processes pid).isSome

def Shared.setProcess (shared : Shared) (pid : Pid)
    (process : Option Process) : Shared :=
  { shared with
    processes := Function.update shared.processes pid process }

/-! ## Calls -/

/-- Where a call of `salt_run_ensure_holder` is.  Locations keep what
`salt_run_read_holder` has last given. -/
inductive Place where
  | start
  | looked (read : Option Pid)
  | opening
  | relooking
  | relooked (read : Option Pid)
  | clearing
  | forking
  /-- The process in the middle has forked the holder, or has not yet. -/
  | reaping (forked : Bool)
  | polling (round : Nat)
  | polled (round : Nat) (read : Option Pid)
  | leaving (read : Option Pid)
  | closed (read : Option Pid)
  | answered (holder : Option Pid)
  deriving DecidableEq, Repr

structure Caller where
  place : Place
  locked : Bool
  deriving DecidableEq, Repr

/-- How often the file is polled. -/
def rounds : Nat := 500

/-- `close(lockfd)`. -/
def Shared.release (shared : Shared) (locked : Bool) : Shared :=
  if locked then { shared with lock := none } else shared

/-- One step of `salt_run_ensure_holder`.  `works` says whether the lock can
be had and whether a `fork` succeeds; with the lock taken the call waits. -/
def Caller.advance (self : Nat) (works : Bool) (shared : Shared)
    (caller : Caller) : Option (Shared × Caller) :=
  match caller.place with
  | .start => some (shared, { caller with place := .looked shared.pidFile })
  | .looked read =>
      if shared.alive read then
        some (shared, { caller with place := .answered read })
      else some (shared, { caller with place := .opening })
  | .opening =>
      if works then
        match shared.lock with
        | none => some ({ shared with lock := some self },
            ⟨.relooking, true⟩)
        | some _ => none
      else some (shared, ⟨.relooking, false⟩)
  | .relooking =>
      some (shared, { caller with place := .relooked shared.pidFile })
  | .relooked read =>
      if shared.alive read then
        some (shared.release caller.locked, ⟨.answered read, false⟩)
      else some (shared, { caller with place := .clearing })
  | .clearing =>
      some ({ shared with pidFile := none },
        { caller with place := .forking })
  | .forking =>
      if works then some (shared, { caller with place := .reaping false })
      else some (shared.release caller.locked, ⟨.answered none, false⟩)
  | .reaping false =>
      if works then
        some ({ shared.setProcess shared.nextPid (some ⟨.mounting, false⟩) with
          nextPid := shared.nextPid + 1 },
          { caller with place := .reaping true })
      else some (shared, { caller with place := .reaping true })
  | .reaping true => some (shared, { caller with place := .polling 0 })
  | .polling round =>
      some (shared, { caller with place := .polled round shared.pidFile })
  | .polled round read =>
      if shared.alive read then
        some (shared, { caller with place := .leaving read })
      else if round + 1 < rounds then
        some (shared, { caller with place := .polling (round + 1) })
      else some (shared, { caller with place := .leaving read })
  | .leaving read =>
      some (shared.release caller.locked, ⟨.closed read, false⟩)
  | .closed read =>
      some (shared, { caller with
        place := .answered (if shared.alive read then read else none) })
  | .answered _ => none

/-- The process of a call is killed; the kernel closes its files. -/
def Caller.quit (shared : Shared) (caller : Caller) : Shared × Caller :=
  (shared.release caller.locked, ⟨.answered none, false⟩)

/-! ## Holders -/

/-- One step of a holder: it goes on, or it ends, because something failed or
because of a signal. -/
def advanceHolder (pid : Pid) (works : Bool) (shared : Shared) :
    Option Shared :=
  match shared.processes pid with
  | none => none
  | some process =>
      if works then
        match process.stage with
        | .mounting =>
            some (shared.setProcess pid (some { process with
              stage := .naming }))
        | .naming =>
            some (shared.setProcess pid (some { process with
              stage := .publishing }))
        | .publishing =>
            some { shared.setProcess pid (some { process with
              stage := .pausing }) with pidFile := some pid }
        | .pausing => none
      else some (shared.setProcess pid none)

/-! ## Stopping -/

/-- Where a call of `salt_stratum_ns_stop` is. -/
inductive Stop where
  | start
  | seen (read : Option Pid)
  | waiting (pid : Pid)
  | unlinking (read : Option Pid)
  | done
  deriving DecidableEq, Repr

/-- `kill`, with a signal that ends the process. -/
def Shared.kill (shared : Shared) (pid : Pid) : Shared :=
  match shared.processes pid with
  | none => shared
  | some process =>
      shared.setProcess pid (some { process with doomed := true })

/-- One step of `salt_stratum_ns_stop`, which takes no lock. -/
def Stop.advance (shared : Shared) : Stop → Option (Shared × Stop)
  | .start => some (shared, .seen shared.pidFile)
  | .seen none => some (shared, .unlinking none)
  | .seen (some pid) =>
      if shared.alive (some pid) then some (shared.kill pid, .waiting pid)
      else some (shared, .unlinking (some pid))
  | .waiting pid => some (shared, .unlinking (some pid))
  | .unlinking _ => some ({ shared with pidFile := none }, .done)
  | .done => none

/-! ## The system -/

structure System where
  shared : Shared
  callers : Nat → Caller
  stops : Nat → Stop

inductive Event where
  | call (self : Nat) (works : Bool)
  | quit (self : Nat)
  | holder (pid : Pid) (works : Bool)
  | stop (self : Nat)
  deriving DecidableEq, Repr

def System.step (system : System) : Event → Option System
  | .call self works =>
      ((system.callers self).advance self works system.shared).map
        fun (shared, caller) => { system with
          shared := shared
          callers := Function.update system.callers self caller }
  | .quit self =>
      let (shared, caller) := (system.callers self).quit system.shared
      some { system with
        shared := shared
        callers := Function.update system.callers self caller }
  | .holder pid works =>
      (advanceHolder pid works system.shared).map fun shared =>
        { system with shared := shared }
  | .stop self =>
      ((system.stops self).advance system.shared).map fun (shared, stop) =>
        { system with
          shared := shared
          stops := Function.update system.stops self stop }

def System.Step (before : System) (event : Event) (after : System) : Prop :=
  before.step event = some after

/-- Nothing has begun; the pid file is missing, or stale. -/
structure System.Fresh (system : System) : Prop where
  noProcess : ∀ pid, system.shared.processes pid = none
  noLock : system.shared.lock = none
  stale : ∀ pid, system.shared.pidFile = some pid →
    pid < system.shared.nextPid
  callers : ∀ self, system.callers self = ⟨.start, false⟩
  stops : ∀ self, system.stops self = .start

end SaltOS.Holder
