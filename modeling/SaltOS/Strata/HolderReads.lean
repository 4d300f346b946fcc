import SaltOS.Strata.Holder

/-!
# What is read from the pid file

Whatever a call or a stop has read from the pid file is a holder that has laid
down its binds and published itself, if it lives.  This holds in every run,
with or without the lock.
-/

namespace SaltOS.Holder

open Lib

/-! ## Holders -/

/-- A living holder that has not been told to end. -/
def Shared.Sound (shared : Shared) (pid : Pid) : Prop :=
  ∃ process, shared.processes pid = some process ∧ process.doomed = false

/-- A living holder that is not in the pid file yet. -/
def Shared.Settling (shared : Shared) (pid : Pid) : Prop :=
  ∃ process, shared.processes pid = some process ∧
    process.stage ≠ .pausing

/-- A process that is old enough to be in a pid file: it has got as far as
its `pause`, if it lives. -/
def Shared.Known (shared : Shared) (pid : Pid) : Prop :=
  pid < shared.nextPid ∧ ¬ shared.Settling pid

section

variable {shared : Shared} {pid other : Pid} {process : Process}

theorem alive_some_iff :
    shared.alive (some pid) = true ↔
      ∃ process, shared.processes pid = some process :=
  Option.isSome_iff_exists

theorem Shared.Sound.alive (sound : shared.Sound pid) :
    shared.alive (some pid) = true := by
  obtain ⟨process, isProcess, -⟩ := sound
  exact alive_some_iff.mpr ⟨process, isProcess⟩

theorem sound_setProcess (different : other ≠ pid)
    {process : Option Process} :
    (shared.setProcess pid process).Sound other ↔ shared.Sound other := by
  simp [Shared.Sound, Shared.setProcess, different]

theorem settling_setProcess (different : other ≠ pid)
    {process : Option Process} :
    (shared.setProcess pid process).Settling other ↔
      shared.Settling other := by
  simp [Shared.Settling, Shared.setProcess, different]

theorem sound_setProcess_self :
    (shared.setProcess pid (some process)).Sound pid ↔
      process.doomed = false := by
  simp [Shared.Sound, Shared.setProcess]

theorem settling_setProcess_self :
    (shared.setProcess pid (some process)).Settling pid ↔
      process.stage ≠ .pausing := by
  simp [Shared.Settling, Shared.setProcess]

theorem gone_setProcess_self :
    ¬ (shared.setProcess pid none).Sound pid ∧
      ¬ (shared.setProcess pid none).Settling pid := by
  simp [Shared.Sound, Shared.Settling, Shared.setProcess]

end

/-! ## Places -/

/-- The process that a call has last read of. -/
def Place.read : Place → Option Pid
  | .looked read => read
  | .relooked read => read
  | .polled _ read => read
  | .leaving read => read
  | .closed read => read
  | .answered read => read
  | _ => none

/-- Between taking the lock and closing its file. -/
def Place.inLock : Place → Bool
  | .relooking => true
  | .relooked _ => true
  | .clearing => true
  | .forking => true
  | .reaping _ => true
  | .polling _ => true
  | .polled _ _ => true
  | .leaving _ => true
  | _ => false

/-- The call has seen that there is no holder, and has made none. -/
def Place.cleared : Place → Bool
  | .clearing => true
  | .forking => true
  | .reaping forked => !forked
  | _ => false

/-- The call has removed the pid file, and has made no holder. -/
def Place.emptied : Place → Bool
  | .forking => true
  | .reaping forked => !forked
  | _ => false

/-- The call has made a holder and has not seen it. -/
def Place.awaits : Place → Bool
  | .reaping forked => forked
  | .polling _ => true
  | .polled _ read => read.isNone
  | _ => false

theorem inLock_of_cleared {place : Place} (cleared : place.cleared = true) :
    place.inLock = true := by
  cases place <;> first | rfl | cases cleared

theorem cleared_of_emptied {place : Place} (emptied : place.emptied = true) :
    place.cleared = true := by
  cases place with
  | forking => rfl
  | reaping forked => exact emptied
  | _ => cases emptied

theorem not_cleared_of_awaits {place : Place}
    (awaits : place.awaits = true) : place.cleared ≠ true := by
  cases place with
  | reaping forked =>
      have isForked : forked = true := awaits
      simp [Place.cleared, isForked]
  | clearing => cases awaits
  | forking => cases awaits
  | _ => simp [Place.cleared]

def Stop.read : Stop → Option Pid
  | .seen read => read
  | .waiting pid => some pid
  | .unlinking read => read
  | _ => none

/-- The holder that a stop has ended. -/
def Stop.target : Stop → Option Pid
  | .waiting pid => some pid
  | .unlinking read => read
  | _ => none

theorem read_of_target {stop : Stop} {pid : Pid}
    (isTarget : stop.target = some pid) : stop.read = some pid := by
  cases stop with
  | waiting other => exact isTarget
  | unlinking read => exact isTarget
  | _ => cases isTarget

/-! ## What every run keeps -/

/-- Whatever has been read from the pid file is a holder that has published
itself, or lives no longer. -/
structure Tracked (system : System) : Prop where
  living : ∀ pid process, system.shared.processes pid = some process →
    pid < system.shared.nextPid
  doomed : ∀ pid process, system.shared.processes pid = some process →
    process.doomed = true → process.stage = .pausing
  file : ∀ pid, system.shared.pidFile = some pid → system.shared.Known pid
  callers : ∀ self pid, (system.callers self).place.read = some pid →
    system.shared.Known pid
  stops : ∀ self pid, (system.stops self).read = some pid →
    system.shared.Known pid

theorem System.Fresh.tracked {system : System} (fresh : system.Fresh) :
    Tracked system := by
  constructor
  · intro pid process isProcess
    rw [fresh.noProcess] at isProcess
    cases isProcess
  · intro pid process isProcess
    rw [fresh.noProcess] at isProcess
    cases isProcess
  · intro pid isFile
    refine ⟨fresh.stale pid isFile, ?_⟩
    rintro ⟨process, isProcess, -⟩
    rw [fresh.noProcess] at isProcess
    cases isProcess
  · intro self pid isRead
    rw [fresh.callers] at isRead
    cases isRead
  · intro self pid isRead
    rw [fresh.stops] at isRead
    cases isRead

/-- A call makes at most one process, writes no file but to remove it, and
reads only what is there. -/
theorem advance_shared {self : Nat} {works : Bool} {shared shared' : Shared}
    {caller caller' : Caller}
    (step : caller.advance self works shared = some (shared', caller')) :
    (shared'.processes = shared.processes ∧
      shared'.nextPid = shared.nextPid ∨
      shared'.processes = (shared.setProcess shared.nextPid
        (some ⟨.mounting, false⟩)).processes ∧
      shared'.nextPid = shared.nextPid + 1) ∧
    (shared'.pidFile = shared.pidFile ∨ shared'.pidFile = none) ∧
    ∀ pid, caller'.place.read = some pid →
      caller.place.read = some pid ∨ shared.pidFile = some pid := by
  obtain ⟨place, locked⟩ := caller
  cases place <;>
    grind [Caller.advance, Shared.release, Shared.setProcess, Place.read]

/-- What the processes of a system may do without touching what is known. -/
structure Shared.Grows (before after : Shared) : Prop where
  living : ∀ pid process, after.processes pid = some process →
    before.processes pid = some process ∨ pid < after.nextPid ∧
      (process.doomed = true → process.stage = .pausing)
  next : before.nextPid ≤ after.nextPid
  known : ∀ pid, before.Known pid → after.Known pid

theorem Shared.Grows.of_eq {before after : Shared}
    (processes : after.processes = before.processes)
    (nextPid : after.nextPid = before.nextPid) : before.Grows after := by
  constructor
  · intro pid process isProcess
    rw [processes] at isProcess
    exact .inl isProcess
  · exact Nat.le_of_eq nextPid.symm
  · intro pid known
    rw [Known, Settling, processes, nextPid]
    exact known

theorem Shared.Grows.of_set {before after : Shared} {pid : Pid}
    {process : Option Process}
    (processes : after.processes =
      (before.setProcess pid process).processes)
    (next : before.nextPid ≤ after.nextPid)
    (isNew : ∀ new, process = some new → pid < after.nextPid ∧
      (new.doomed = true → new.stage = .pausing))
    (settled : before.Known pid → ∀ new, process = some new →
      new.stage = .pausing) : before.Grows after := by
  constructor
  · intro other new isProcess
    rw [processes] at isProcess
    by_cases same : other = pid
    · subst same
      right
      apply isNew new
      simpa [Shared.setProcess] using isProcess
    · left
      simpa [Shared.setProcess, same] using isProcess
  · exact next
  · rintro other ⟨old, notSettling⟩
    refine ⟨Nat.lt_of_lt_of_le old next, ?_⟩
    rintro ⟨new, isProcess, notPausing⟩
    rw [processes] at isProcess
    by_cases same : other = pid
    · subst same
      apply notPausing
      apply settled ⟨old, notSettling⟩ new
      simpa [Shared.setProcess] using isProcess
    · apply notSettling
      refine ⟨new, ?_, notPausing⟩
      simpa [Shared.setProcess, same] using isProcess

/-- What is tracked stays so when the processes grow and reads are of what was
there. -/
theorem Tracked.grows {before after : System} (tracked : Tracked before)
    (grows : before.shared.Grows after.shared)
    (file : ∀ pid, after.shared.pidFile = some pid →
      after.shared.Known pid)
    (callers : ∀ self pid, (after.callers self).place.read = some pid →
      (before.callers self).place.read = some pid ∨
        before.shared.pidFile = some pid)
    (stops : ∀ self pid, (after.stops self).read = some pid →
      (before.stops self).read = some pid ∨
        before.shared.pidFile = some pid) : Tracked after := by
  constructor
  · intro pid process isProcess
    rcases grows.living pid process isProcess with old | ⟨below, -⟩
    · exact Nat.lt_of_lt_of_le (tracked.living pid process old) grows.next
    · exact below
  · intro pid process isProcess isDoomed
    rcases grows.living pid process isProcess with old | ⟨-, pausing⟩
    · exact tracked.doomed pid process old isDoomed
    · exact pausing isDoomed
  · exact file
  · intro self pid isRead
    apply grows.known
    rcases callers self pid isRead with old | isFile
    · exact tracked.callers self pid old
    · exact tracked.file pid isFile
  · intro self pid isRead
    apply grows.known
    rcases stops self pid isRead with old | isFile
    · exact tracked.stops self pid old
    · exact tracked.file pid isFile

theorem Tracked.call {system : System} (tracked : Tracked system)
    {self : Nat} {works : Bool} {shared : Shared} {caller : Caller}
    (step : (system.callers self).advance self works system.shared =
      some (shared, caller)) :
    Tracked { system with
      shared := shared
      callers := Function.update system.callers self caller } := by
  obtain ⟨processes, file, reads⟩ := advance_shared step
  have grows : system.shared.Grows shared := by
    rcases processes with ⟨same, sameNext⟩ | ⟨made, next⟩
    · exact .of_eq same sameNext
    · apply Shared.Grows.of_set made
      · rw [next]
        exact Nat.le_succ _
      · intro new isNew
        cases isNew
        refine ⟨next ▸ Nat.lt_succ_self _, ?_⟩
        intro isDoomed
        cases isDoomed
      · rintro ⟨old, -⟩
        exact absurd old (Nat.lt_irrefl _)
  apply tracked.grows grows
  · intro pid isFile
    apply grows.known
    apply tracked.file
    rcases file with same | gone
    · rwa [← same]
    · rw [gone] at isFile
      cases isFile
  · intro other pid isRead
    by_cases same : other = self
    · subst same
      apply reads
      simpa using isRead
    · left
      simpa [same] using isRead
  · intro other pid isRead
    exact .inl isRead

theorem release_grows (shared : Shared) (locked : Bool) :
    shared.Grows (shared.release locked) ∧
      (shared.release locked).pidFile = shared.pidFile := by
  cases locked <;> exact ⟨.of_eq rfl rfl, rfl⟩

theorem Tracked.quit {system : System} (tracked : Tracked system)
    (self : Nat) :
    Tracked { system with
      shared := system.shared.release (system.callers self).locked
      callers := Function.update system.callers self
        ⟨.answered none, false⟩ } := by
  obtain ⟨grows, file⟩ :=
    release_grows system.shared (system.callers self).locked
  apply tracked.grows grows
  · intro pid isFile
    apply grows.known
    apply tracked.file
    rwa [← file]
  · intro other pid isRead
    by_cases same : other = self
    · subst same
      simp [Place.read] at isRead
    · left
      simpa [same] using isRead
  · intro other pid isRead
    exact .inl isRead

/-- A holder ends, goes on towards its name in the pid file, or gets it
there. -/
theorem advanceHolder_cases {pid : Pid} {works : Bool}
    {shared shared' : Shared}
    (step : advanceHolder pid works shared = some shared') :
    ∃ process, shared.processes pid = some process ∧
      (shared' = shared.setProcess pid none ∨
        process.stage ≠ .pausing ∧
          ((∃ stage : Stage, stage ≠ .pausing ∧
            shared' = shared.setProcess pid
              (some { process with stage := stage })) ∨
          shared' = { shared.setProcess pid
            (some { process with stage := .pausing }) with
              pidFile := some pid })) := by
  cases isProcess : shared.processes pid with
  | none => simp [advanceHolder, isProcess] at step
  | some process =>
      refine ⟨process, rfl, ?_⟩
      cases works with
      | false =>
          left
          simpa [advanceHolder, isProcess] using step.symm
      | true =>
          right
          cases isStage : process.stage with
          | mounting =>
              refine ⟨by simp, .inl ⟨.naming, by simp, ?_⟩⟩
              simpa [advanceHolder, isProcess, isStage] using step.symm
          | naming =>
              refine ⟨by simp, .inl ⟨.publishing, by simp, ?_⟩⟩
              simpa [advanceHolder, isProcess, isStage] using step.symm
          | publishing =>
              refine ⟨by simp, .inr ?_⟩
              simpa [advanceHolder, isProcess, isStage] using step.symm
          | pausing => simp [advanceHolder, isProcess, isStage] at step

theorem Tracked.holder {system : System} (tracked : Tracked system)
    {pid : Pid} {works : Bool} {shared : Shared}
    (step : advanceHolder pid works system.shared = some shared) :
    Tracked { system with shared := shared } := by
  obtain ⟨process, isProcess, ends⟩ := advanceHolder_cases step
  have below := tracked.living pid process isProcess
  have settles : process.stage ≠ .pausing → ∀ stage,
      system.shared.Grows (system.shared.setProcess pid
        (some { process with stage := stage })) := by
    intro notPausing stage
    apply Shared.Grows.of_set rfl (Nat.le_refl _)
    · intro new isNew
      cases isNew
      refine ⟨below, ?_⟩
      intro isDoomed
      exact absurd (tracked.doomed pid process isProcess isDoomed) notPausing
    · rintro ⟨-, notSettling⟩
      exact absurd ⟨process, isProcess, notPausing⟩ notSettling
  have stays : ∀ {after : Shared}, system.shared.Grows after →
      after.pidFile = system.shared.pidFile →
      ∀ other, after.pidFile = some other → after.Known other := by
    intro after grows same other isFile
    apply grows.known
    apply tracked.file
    rwa [← same]
  have grows : system.shared.Grows shared ∧
      ∀ other, shared.pidFile = some other → shared.Known other := by
    rcases ends with rfl | ⟨notPausing, ⟨stage, -, rfl⟩ | rfl⟩
    · have grows : system.shared.Grows
          (system.shared.setProcess pid none) := by
        apply Shared.Grows.of_set rfl (Nat.le_refl _)
        · intro new isNew
          cases isNew
        · intro _ new isNew
          cases isNew
      exact ⟨grows, stays grows rfl⟩
    · have grows := settles notPausing stage
      exact ⟨grows, stays grows rfl⟩
    · have grows := settles notPausing .pausing
      refine ⟨⟨grows.living, grows.next, grows.known⟩, ?_⟩
      intro other isFile
      cases isFile
      refine ⟨below, ?_⟩
      intro isSettling
      exact settling_setProcess_self.mp isSettling rfl
  apply tracked.grows grows.1 grows.2
  · exact fun _ _ isRead => .inl isRead
  · exact fun _ _ isRead => .inl isRead

/-- Only a holder in its `pause` is told to end. -/
theorem kill_grows {shared : Shared} {pid : Pid}
    (known : shared.Known pid) : shared.Grows (shared.kill pid) := by
  unfold Shared.kill
  cases isProcess : shared.processes pid with
  | none => exact .of_eq rfl rfl
  | some process =>
      have pausing : process.stage = .pausing := by
        by_contra notPausing
        exact known.2 ⟨process, isProcess, notPausing⟩
      apply Shared.Grows.of_set rfl (Nat.le_refl _)
      · intro new isNew
        cases isNew
        exact ⟨known.1, fun _ => pausing⟩
      · intro _ new isNew
        cases isNew
        exact pausing

theorem kill_pidFile (shared : Shared) (pid : Pid) :
    (shared.kill pid).pidFile = shared.pidFile ∧
      (shared.kill pid).lock = shared.lock := by
  unfold Shared.kill
  cases shared.processes pid <;> exact ⟨rfl, rfl⟩

/-- A stop reads the file, goes on with what it has read, sends a signal to
it, or removes the file. -/
theorem stop_cases {stop stop' : Stop} {shared shared' : Shared}
    (step : stop.advance shared = some (shared', stop')) :
    shared' = shared ∧ stop'.read = shared.pidFile ∧ stop'.target = none ∨
      shared' = shared ∧ stop'.read = stop.read ∧
        (∀ pid, stop'.target = some pid →
          stop.target = some pid ∨ shared.alive (some pid) = false) ∨
      (∃ pid, shared.alive (some pid) = true ∧ stop.read = some pid ∧
        shared' = shared.kill pid ∧ stop' = .waiting pid) ∨
      ∃ read, stop = .unlinking read ∧
        shared' = { shared with pidFile := none } ∧ stop' = .done := by
  cases stop with
  | start => grind [Stop.advance, Stop.read, Stop.target]
  | seen read =>
      cases read <;> grind [Stop.advance, Stop.read, Stop.target]
  | waiting pid => grind [Stop.advance, Stop.read, Stop.target]
  | unlinking read => grind [Stop.advance, Stop.read, Stop.target]
  | done => simp [Stop.advance] at step

theorem Tracked.stop {system : System} (tracked : Tracked system)
    {self : Nat} {shared : Shared} {stop : Stop}
    (step : (system.stops self).advance system.shared =
      some (shared, stop)) :
    Tracked { system with
      shared := shared
      stops := Function.update system.stops self stop } := by
  have same : system.shared.Grows shared ∧
      (shared.pidFile = system.shared.pidFile ∨ shared.pidFile = none) ∧
      ∀ pid, stop.read = some pid → (system.stops self).read = some pid ∨
        system.shared.pidFile = some pid := by
    rcases stop_cases step with ⟨rfl, isRead, -⟩ | ⟨rfl, isRead, -⟩ |
      ⟨pid, -, isRead, rfl, rfl⟩ | ⟨read, -, rfl, rfl⟩
    · refine ⟨.of_eq rfl rfl, .inl rfl, ?_⟩
      intro pid isNow
      exact .inr (isRead ▸ isNow)
    · refine ⟨.of_eq rfl rfl, .inl rfl, ?_⟩
      intro pid isNow
      exact .inl (isRead ▸ isNow)
    · refine ⟨kill_grows (tracked.stops self pid isRead),
        .inl (kill_pidFile _ _).1, ?_⟩
      rintro other ⟨⟩
      exact .inl isRead
    · refine ⟨.of_eq rfl rfl, .inr rfl, ?_⟩
      intro pid isNow
      cases isNow
  obtain ⟨grows, file, reads⟩ := same
  apply tracked.grows grows
  · intro pid isFile
    apply grows.known
    apply tracked.file
    rcases file with same | gone
    · rwa [← same]
    · rw [gone] at isFile
      cases isFile
  · exact fun _ _ isRead => .inl isRead
  · intro other pid isRead
    by_cases same : other = self
    · subst same
      apply reads
      simpa using isRead
    · left
      simpa [same] using isRead

/-- Everything a step does. -/
theorem System.Step.cases {before after : System} {event : Event}
    (step : before.Step event after) :
    (∃ self works shared caller, event = .call self works ∧
      (before.callers self).advance self works before.shared =
        some (shared, caller) ∧
      after = { before with
        shared := shared
        callers := Function.update before.callers self caller }) ∨
    (∃ self, event = .quit self ∧ after = { before with
      shared := before.shared.release (before.callers self).locked
      callers := Function.update before.callers self
        ⟨.answered none, false⟩ }) ∨
    (∃ pid works shared, event = .holder pid works ∧
      advanceHolder pid works before.shared = some shared ∧
      after = { before with shared := shared }) ∨
    ∃ self shared stop, event = .stop self ∧
      (before.stops self).advance before.shared = some (shared, stop) ∧
      after = { before with
        shared := shared
        stops := Function.update before.stops self stop } := by
  unfold System.Step System.step at step
  cases event with
  | call self works =>
      obtain ⟨⟨shared, caller⟩, advances, rfl⟩ :=
        Option.map_eq_some_iff.mp step
      exact .inl ⟨self, works, shared, caller, rfl, advances, rfl⟩
  | quit self =>
      cases step
      exact .inr (.inl ⟨self, rfl, rfl⟩)
  | holder pid works =>
      obtain ⟨shared, advances, rfl⟩ := Option.map_eq_some_iff.mp step
      exact .inr (.inr (.inl ⟨pid, works, shared, rfl, advances, rfl⟩))
  | stop self =>
      obtain ⟨⟨shared, stop⟩, advances, rfl⟩ :=
        Option.map_eq_some_iff.mp step
      exact .inr (.inr (.inr ⟨self, shared, stop, rfl, advances, rfl⟩))

theorem Tracked.step {before after : System} {event : Event}
    (tracked : Tracked before) (step : before.Step event after) :
    Tracked after := by
  rcases step.cases with ⟨self, works, shared, caller, -, advances, rfl⟩ |
    ⟨self, -, rfl⟩ | ⟨pid, works, shared, -, advances, rfl⟩ |
    ⟨self, shared, stop, -, advances, rfl⟩
  · exact tracked.call advances
  · exact tracked.quit self
  · exact tracked.holder advances
  · exact tracked.stop advances

end SaltOS.Holder
