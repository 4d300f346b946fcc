import SaltOS.Strata.HolderReads

/-!
# One holder at a time

Under the lock a call looks for a holder once more before it makes one.  As
long as it keeps the lock until its holder has published itself or gone, and a
stop removes no file but the one it has read, no second holder is made.
-/

namespace SaltOS.Holder

/-! ## What careful runs keep -/

/-- Every holder that lives has published itself. -/
def Shared.Settled (shared : Shared) : Prop :=
  ∀ pid, ¬ shared.Settling pid

/-- What the lock and the pid file cannot see to: that the lock can be had,
that a call neither gives up nor is killed with the lock while its holder is
on the way, and that a stop removes what it has read. -/
def Careful (system : System) : Event → Prop
  | .call self works =>
      ((system.callers self).place = .opening → works = true) ∧
        ∀ round read, (system.callers self).place = .polled round read →
          system.shared.alive read = true ∨ round + 1 < rounds ∨
            system.shared.Settled
  | .quit self =>
      (system.callers self).locked = true → system.shared.Settled
  | .holder _ _ => True
  | .stop self => ∀ read, system.stops self = .unlinking read →
      system.shared.pidFile = none ∨ system.shared.pidFile = read

/-- Holders are in the pid file, but for one that a call with the lock waits
for, which is then the only one. -/
structure Exclusive (system : System) : Prop where
  owner : ∀ self, (system.callers self).locked = true ↔
    system.shared.lock = some self
  inside : ∀ self, (system.callers self).place.inLock =
    (system.callers self).locked
  relooked : ∀ self read, (system.callers self).place = .relooked read →
    ∀ pid, system.shared.Sound pid → read = some pid
  cleared : ∀ self, (system.callers self).place.cleared = true →
    ∀ pid, ¬ system.shared.Sound pid
  emptied : ∀ self, (system.callers self).place.emptied = true →
    system.shared.pidFile = none
  named : ∀ pid, system.shared.Sound pid → ¬ system.shared.Settling pid →
    system.shared.pidFile = some pid
  unpublished : ∀ pid, system.shared.Settling pid →
    system.shared.pidFile = none ∧
      (∀ other, system.shared.Sound other → other = pid) ∧
      ∃ self, system.shared.lock = some self ∧
        (system.callers self).place.awaits = true
  stopped : ∀ self pid, (system.stops self).target = some pid →
    ¬ system.shared.Sound pid

theorem System.Fresh.exclusive {system : System} (fresh : system.Fresh) :
    Exclusive system := by
  have none : ∀ pid, ¬ system.shared.Sound pid := by
    rintro pid ⟨process, isProcess, -⟩
    rw [fresh.noProcess] at isProcess
    cases isProcess
  constructor
  · intro self
    rw [fresh.callers, fresh.noLock]
    simp
  · intro self
    rw [fresh.callers]
    rfl
  · intro self read _ pid sound
    exact absurd sound (none pid)
  · exact fun _ _ => none
  · intro self isEmptied
    rw [fresh.callers] at isEmptied
    cases isEmptied
  · intro pid sound
    exact absurd sound (none pid)
  · rintro pid ⟨process, isProcess, -⟩
    rw [fresh.noProcess] at isProcess
    cases isProcess
  · exact fun _ pid _ => none pid

section

variable {system : System}

/-- At most one holder lives that has not been told to end. -/
theorem Exclusive.unique (exclusive : Exclusive system) {pid other : Pid}
    (sound : system.shared.Sound pid) (alsoSound : system.shared.Sound other) :
    pid = other := by
  by_cases settling : system.shared.Settling other
  · exact (exclusive.unpublished other settling).2.1 pid sound
  by_cases alsoSettling : system.shared.Settling pid
  · exact ((exclusive.unpublished pid alsoSettling).2.1 other alsoSound).symm
  have isFile := exclusive.named pid sound alsoSettling
  rw [exclusive.named other alsoSound settling] at isFile
  exact (Option.some.inj isFile).symm

/-- While a call has the lock and waits for no holder, all have published
themselves. -/
theorem Exclusive.settled (exclusive : Exclusive system) {self : Nat}
    (isOwner : system.shared.lock = some self)
    (notWaiting : (system.callers self).place.awaits = false) :
    system.shared.Settled := by
  intro pid settling
  obtain ⟨-, -, other, otherOwner, waits⟩ :=
    exclusive.unpublished pid settling
  rw [isOwner] at otherOwner
  cases otherOwner
  rw [notWaiting] at waits
  cases waits

theorem Exclusive.others (exclusive : Exclusive system) {self : Nat}
    (isOwner : system.shared.lock = some self) :
    ∀ other, other ≠ self → (system.callers other).locked = false := by
  intro other different
  rw [← Bool.not_eq_true, exclusive.owner other, isOwner]
  intro same
  exact different (Option.some.inj same).symm

/-- A step of a call that does not have the lock, and shares nothing. -/
theorem Exclusive.moveOutside (exclusive : Exclusive system) {self : Nat}
    {caller : Caller} (notOwner : system.shared.lock ≠ some self)
    (isUnlocked : caller.locked = false)
    (isOutside : caller.place.inLock = false) :
    Exclusive { system with
      callers := Function.update system.callers self caller } := by
  have notCleared : caller.place.cleared = false := by
    by_contra isCleared
    rw [Bool.not_eq_false] at isCleared
    rw [inLock_of_cleared isCleared] at isOutside
    cases isOutside
  constructor
  · intro other
    by_cases same : other = self
    · subst same
      simpa [isUnlocked] using notOwner
    · simpa [Function.update_of_ne same] using exclusive.owner other
  · intro other
    by_cases same : other = self
    · subst same
      simp [isUnlocked, isOutside]
    · simpa [Function.update_of_ne same] using exclusive.inside other
  · intro other read isPlace
    by_cases same : other = self
    · subst same
      simp only [Function.update_self] at isPlace
      rw [isPlace] at isOutside
      cases isOutside
    · simp only [Function.update_of_ne same] at isPlace
      exact exclusive.relooked other read isPlace
  · intro other isCleared
    by_cases same : other = self
    · subst same
      simp only [Function.update_self] at isCleared
      rw [notCleared] at isCleared
      cases isCleared
    · simp only [Function.update_of_ne same] at isCleared
      exact exclusive.cleared other isCleared
  · intro other isEmptied
    by_cases same : other = self
    · subst same
      simp only [Function.update_self] at isEmptied
      rw [cleared_of_emptied isEmptied] at notCleared
      cases notCleared
    · simp only [Function.update_of_ne same] at isEmptied
      exact exclusive.emptied other isEmptied
  · exact exclusive.named
  · intro pid settling
    obtain ⟨noFile, alone, other, isOwner, waits⟩ :=
      exclusive.unpublished pid settling
    refine ⟨noFile, alone, other, isOwner, ?_⟩
    have different : other ≠ self := by
      rintro rfl
      exact notOwner isOwner
    simpa only [Function.update_of_ne different] using waits
  · exact exclusive.stopped

/-- A step of the only call that may have the lock; the others have nothing to
say about holders. -/
theorem Exclusive.move (exclusive : Exclusive system) {self : Nat}
    {shared : Shared} {caller : Caller}
    (others : ∀ other, other ≠ self →
      (system.callers other).locked = false)
    (lock : shared.lock = if caller.locked then some self else none)
    (inside : caller.place.inLock = caller.locked)
    (relooked : ∀ read, caller.place = .relooked read →
      ∀ pid, shared.Sound pid → read = some pid)
    (cleared : caller.place.cleared = true → ∀ pid, ¬ shared.Sound pid)
    (emptied : caller.place.emptied = true → shared.pidFile = none)
    (named : ∀ pid, shared.Sound pid → ¬ shared.Settling pid →
      shared.pidFile = some pid)
    (unpublished : ∀ pid, shared.Settling pid → shared.pidFile = none ∧
      (∀ other, shared.Sound other → other = pid) ∧
      caller.locked = true ∧ caller.place.awaits = true)
    (stopped : ∀ other pid, (system.stops other).target = some pid →
      ¬ shared.Sound pid) :
    Exclusive { system with
      shared := shared
      callers := Function.update system.callers self caller } := by
  have outside : ∀ other, other ≠ self →
      (system.callers other).place.inLock = false := by
    intro other different
    rw [exclusive.inside other]
    exact others other different
  constructor
  · intro other
    by_cases same : other = self
    · subst same
      cases isLocked : caller.locked <;> simp [lock, isLocked]
    · have otherOwner : shared.lock ≠ some other := by
        rw [lock]
        cases caller.locked
        · simp
        · simpa using Ne.symm same
      simp [Function.update_of_ne same, others other same, otherOwner]
  · intro other
    by_cases same : other = self
    · subst same
      simpa using inside
    · simpa [Function.update_of_ne same] using exclusive.inside other
  · intro other read isPlace
    by_cases same : other = self
    · subst same
      apply relooked
      simpa using isPlace
    · have out := outside other same
      simp only [Function.update_of_ne same] at isPlace
      rw [isPlace] at out
      cases out
  · intro other isCleared
    by_cases same : other = self
    · subst same
      apply cleared
      simpa using isCleared
    · simp only [Function.update_of_ne same] at isCleared
      have out := outside other same
      rw [inLock_of_cleared isCleared] at out
      cases out
  · intro other isEmptied
    by_cases same : other = self
    · subst same
      apply emptied
      simpa using isEmptied
    · simp only [Function.update_of_ne same] at isEmptied
      have out := outside other same
      rw [inLock_of_cleared (cleared_of_emptied isEmptied)] at out
      cases out
  · exact named
  · intro pid settling
    obtain ⟨noFile, alone, isLocked, waits⟩ := unpublished pid settling
    refine ⟨noFile, alone, self, ?_, ?_⟩
    · rw [lock, isLocked]
      rfl
    · simpa using waits
  · exact stopped

/-- A step of the call with the lock that leaves alone all that is shared. -/
theorem Exclusive.stays (exclusive : Exclusive system) {self : Nat}
    {place : Place} (isOwner : system.shared.lock = some self)
    (isInside : place.inLock = true)
    (relooked : ∀ read, place = .relooked read →
      ∀ pid, system.shared.Sound pid → read = some pid)
    (cleared : place.cleared = true → ∀ pid, ¬ system.shared.Sound pid)
    (emptied : place.emptied = true → system.shared.pidFile = none)
    (waits : ∀ pid, system.shared.Settling pid → place.awaits = true) :
    Exclusive { system with
      callers := Function.update system.callers self ⟨place, true⟩ } := by
  apply exclusive.move (exclusive.others isOwner) isOwner isInside relooked
    cleared emptied exclusive.named
  · intro pid settling
    obtain ⟨noFile, alone, -⟩ := exclusive.unpublished pid settling
    exact ⟨noFile, alone, rfl, waits pid settling⟩
  · exact exclusive.stopped

/-- The same, to a place behind the making of a holder. -/
theorem Exclusive.waits (exclusive : Exclusive system) {self : Nat}
    {place : Place} (isOwner : system.shared.lock = some self)
    (isInside : place.inLock = true)
    (notRelooked : ∀ read, place ≠ .relooked read)
    (notCleared : place.cleared = false)
    (waits : ∀ pid, system.shared.Settling pid → place.awaits = true) :
    Exclusive { system with
      callers := Function.update system.callers self ⟨place, true⟩ } := by
  apply exclusive.stays isOwner isInside
  · intro read isPlace
    exact absurd isPlace (notRelooked read)
  · intro isCleared
    rw [notCleared] at isCleared
    cases isCleared
  · intro isEmptied
    rw [cleared_of_emptied isEmptied] at notCleared
    cases notCleared
  · exact waits

/-- A call closes the file of the lock, with no holder on its way. -/
theorem Exclusive.leaves (exclusive : Exclusive system) {self : Nat}
    {place : Place} (isOwner : system.shared.lock = some self)
    (isOutside : place.inLock = false) (settled : system.shared.Settled) :
    Exclusive { system with
      shared := system.shared.release true
      callers := Function.update system.callers self ⟨place, false⟩ } := by
  apply exclusive.move (exclusive.others isOwner) rfl isOutside
  · rintro read rfl
    cases isOutside
  · intro isCleared
    rw [inLock_of_cleared isCleared] at isOutside
    cases isOutside
  · intro isEmptied
    rw [inLock_of_cleared (cleared_of_emptied isEmptied)] at isOutside
    cases isOutside
  · exact exclusive.named
  · intro pid settling
    exact absurd settling (settled pid)
  · exact exclusive.stopped

/-- A call makes the only holder. -/
theorem Exclusive.makes (exclusive : Exclusive system)
    (tracked : Tracked system) {self : Nat}
    (isOwner : system.shared.lock = some self)
    (settled : system.shared.Settled)
    (alone : ∀ pid, ¬ system.shared.Sound pid)
    (noFile : system.shared.pidFile = none) :
    Exclusive { system with
      shared := { system.shared.setProcess system.shared.nextPid
        (some ⟨.mounting, false⟩) with
          nextPid := system.shared.nextPid + 1 }
      callers := Function.update system.callers self
        ⟨.reaping true, true⟩ } := by
  have isNew : ∀ pid, (system.shared.setProcess system.shared.nextPid
      (some ⟨.mounting, false⟩)).Sound pid →
      pid = system.shared.nextPid := by
    intro pid sound
    by_contra different
    exact alone pid ((sound_setProcess different).mp sound)
  apply exclusive.move (exclusive.others isOwner) isOwner rfl
  · intro read isPlace
    cases isPlace
  · intro isCleared
    cases isCleared
  · intro isEmptied
    cases isEmptied
  · intro pid sound notSettling
    rw [isNew pid sound] at notSettling
    exact absurd (settling_setProcess_self.mpr (by simp)) notSettling
  · intro pid settling
    refine ⟨noFile, ?_, rfl, rfl⟩
    intro other sound
    rw [isNew other sound]
    by_contra different
    exact settled pid ((settling_setProcess (Ne.symm different)).mp settling)
  · intro other pid isTarget sound
    have old := (tracked.stops other pid (read_of_target isTarget)).1
    rw [isNew pid sound] at old
    exact Nat.lt_irrefl _ old

/-- A step of the call that has the lock. -/
theorem Exclusive.callInside (exclusive : Exclusive system)
    (tracked : Tracked system) {self : Nat} {works : Bool} {shared : Shared}
    {caller : Caller} (isOwner : system.shared.lock = some self)
    (careful : Careful system (.call self works))
    (step : (system.callers self).advance self works system.shared =
      some (shared, caller)) :
    Exclusive { system with
      shared := shared
      callers := Function.update system.callers self caller } := by
  have isLocked := (exclusive.owner self).mpr isOwner
  have inside := exclusive.inside self
  rw [isLocked] at inside
  have relooked := exclusive.relooked self
  have cleared := exclusive.cleared self
  have emptied := exclusive.emptied self
  have settled := exclusive.settled isOwner
  have patient := careful.2
  generalize system.callers self = caller₀ at *
  obtain ⟨place, locked⟩ := caller₀
  obtain rfl : locked = true := isLocked
  cases place with
  | relooking =>
      cases step
      have settled := settled rfl
      apply exclusive.stays isOwner
      · rfl
      · intro read isPlace pid sound
        cases isPlace
        exact exclusive.named pid sound (settled pid)
      · intro isCleared
        cases isCleared
      · intro isEmptied
        cases isEmptied
      · intro pid settling
        exact absurd settling (settled pid)
  | relooked read =>
      have settled := settled rfl
      simp only [Caller.advance] at step
      cases alive : system.shared.alive read with
      | true =>
          rw [alive, if_pos rfl] at step
          cases step
          exact exclusive.leaves isOwner rfl settled
      | false =>
          rw [alive, if_neg (by simp)] at step
          cases step
          apply exclusive.stays isOwner
          · rfl
          · intro other isPlace
            cases isPlace
          · intro _ pid sound
            rw [relooked read rfl pid sound, sound.alive] at alive
            cases alive
          · intro isEmptied
            cases isEmptied
          · intro pid settling
            exact absurd settling (settled pid)
  | clearing =>
      cases step
      have settled := settled rfl
      have none := cleared rfl
      apply exclusive.move (exclusive.others isOwner) isOwner rfl
      · intro read isPlace
        cases isPlace
      · exact fun _ => none
      · exact fun _ => rfl
      · intro pid sound
        exact absurd sound (none pid)
      · intro pid settling
        exact absurd settling (settled pid)
      · exact fun _ pid _ => none pid
  | forking =>
      have settled := settled rfl
      cases works with
      | true =>
          cases step
          apply exclusive.stays isOwner
          · rfl
          · intro read isPlace
            cases isPlace
          · exact fun _ => cleared rfl
          · exact fun _ => emptied rfl
          · intro pid settling
            exact absurd settling (settled pid)
      | false =>
          cases step
          exact exclusive.leaves isOwner rfl settled
  | reaping forked =>
      cases forked with
      | true =>
          cases step
          exact exclusive.waits isOwner rfl (by simp) rfl fun _ _ => rfl
      | false =>
          have settled := settled rfl
          have none := cleared rfl
          cases works with
          | false =>
              cases step
              exact exclusive.waits isOwner rfl (by simp) rfl fun _ _ => rfl
          | true =>
              cases step
              exact exclusive.makes tracked isOwner settled none (emptied rfl)
  | polling round =>
      cases step
      apply exclusive.waits isOwner rfl (by simp) rfl
      intro pid settling
      rw [(exclusive.unpublished pid settling).1]
      rfl
  | polled round read =>
      have noRead : ∀ pid, system.shared.Settling pid → read = none := by
        intro pid settling
        cases read with
        | none => rfl
        | some other => exact absurd settling (settled rfl pid)
      simp only [Caller.advance] at step
      cases alive : system.shared.alive read with
      | true =>
          rw [alive, if_pos rfl] at step
          cases step
          apply exclusive.waits isOwner rfl (by simp) rfl
          intro pid settling
          rw [noRead pid settling] at alive
          cases alive
      | false =>
          rw [alive, if_neg (by simp)] at step
          by_cases more : round + 1 < rounds
          · rw [if_pos more] at step
            cases step
            exact exclusive.waits isOwner rfl (by simp) rfl fun _ _ => rfl
          · rw [if_neg more] at step
            cases step
            apply exclusive.waits isOwner rfl (by simp) rfl
            intro pid settling
            rcases patient round read rfl with isAlive | again | settled
            · rw [alive] at isAlive
              cases isAlive
            · exact absurd again more
            · exact absurd settling (settled pid)
  | leaving read =>
      cases step
      exact exclusive.leaves isOwner rfl (settled rfl)
  | start => cases inside
  | looked read => cases inside
  | opening => cases inside
  | closed read => cases inside
  | answered holder => cases inside

/-- A step of a call that does not have the lock, which it may take. -/
theorem Exclusive.callOutside (exclusive : Exclusive system)
    {self : Nat} {works : Bool} {shared : Shared} {caller : Caller}
    (notOwner : system.shared.lock ≠ some self)
    (careful : Careful system (.call self works))
    (step : (system.callers self).advance self works system.shared =
      some (shared, caller)) :
    Exclusive { system with
      shared := shared
      callers := Function.update system.callers self caller } := by
  have notLocked : (system.callers self).locked = false := by
    rw [← Bool.not_eq_true, exclusive.owner self]
    exact notOwner
  have outside := exclusive.inside self
  rw [notLocked] at outside
  have works := careful.1
  -- Either the lock was free and is taken, or nothing is shared.
  have ends : (system.shared.lock = none ∧
      shared = { system.shared with lock := some self } ∧
      caller = ⟨.relooking, true⟩) ∨
      shared = system.shared ∧ caller.locked = false ∧
        caller.place.inLock = false := by
    generalize system.callers self = caller₀ at *
    obtain ⟨place, locked⟩ := caller₀
    obtain rfl : locked = false := notLocked
    cases place <;>
      grind [Caller.advance, Shared.release, Place.inLock]
  rcases ends with ⟨isFree, rfl, rfl⟩ | ⟨rfl, isUnlocked, isOutside⟩
  · -- With the lock free no holder is on its way.
    have settled : system.shared.Settled := by
      intro pid settling
      obtain ⟨-, -, other, isOwner, -⟩ := exclusive.unpublished pid settling
      rw [isFree] at isOwner
      cases isOwner
    have others : ∀ other, other ≠ self →
        (system.callers other).locked = false := by
      intro other _
      rw [← Bool.not_eq_true, exclusive.owner other, isFree]
      simp
    apply exclusive.move others rfl rfl
    · intro read isPlace
      cases isPlace
    · intro isCleared
      cases isCleared
    · intro isEmptied
      cases isEmptied
    · exact exclusive.named
    · intro pid settling
      exact absurd settling (settled pid)
    · exact exclusive.stopped
  · exact exclusive.moveOutside notOwner isUnlocked isOutside

theorem Exclusive.quit (exclusive : Exclusive system) {self : Nat}
    (careful : Careful system (.quit self)) :
    Exclusive { system with
      shared := system.shared.release (system.callers self).locked
      callers := Function.update system.callers self
        ⟨.answered none, false⟩ } := by
  cases isLocked : (system.callers self).locked with
  | true =>
      have isOwner := (exclusive.owner self).mp isLocked
      have settled := careful isLocked
      apply exclusive.move (exclusive.others isOwner) rfl rfl
      · intro read isPlace
        cases isPlace
      · intro isCleared
        cases isCleared
      · intro isEmptied
        cases isEmptied
      · exact exclusive.named
      · intro pid settling
        exact absurd settling (settled pid)
      · exact exclusive.stopped
  | false =>
      apply exclusive.moveOutside _ rfl rfl
      rw [ne_eq, ← exclusive.owner self, isLocked]
      simp

/-- A step that shares nothing but what happens to holders: those that live
afterwards are as before. -/
theorem Exclusive.shrinks (exclusive : Exclusive system) {shared : Shared}
    (lock : shared.lock = system.shared.lock)
    (file : shared.pidFile = system.shared.pidFile)
    (sound : ∀ pid, shared.Sound pid → system.shared.Sound pid)
    (settling : ∀ pid, shared.Settling pid → system.shared.Settling pid)
    (published : ∀ pid, shared.Sound pid → system.shared.Settling pid →
      shared.Settling pid) :
    Exclusive { system with shared := shared } := by
  constructor
  · intro self
    dsimp only
    rw [lock]
    exact exclusive.owner self
  · exact exclusive.inside
  · intro self read isPlace pid isSound
    exact exclusive.relooked self read isPlace pid (sound pid isSound)
  · intro self isCleared pid isSound
    exact exclusive.cleared self isCleared pid (sound pid isSound)
  · intro self isEmptied
    exact file.trans (exclusive.emptied self isEmptied)
  · intro pid isSound notSettling
    apply file.trans
    apply exclusive.named pid (sound pid isSound)
    intro isSettling
    exact notSettling (published pid isSound isSettling)
  · intro pid isSettling
    obtain ⟨noFile, alone, self, isOwner, waits⟩ :=
      exclusive.unpublished pid (settling pid isSettling)
    refine ⟨file.trans noFile, ?_, self, lock.trans isOwner, waits⟩
    intro other isSound
    exact alone other (sound other isSound)
  · intro self pid isTarget isSound
    exact exclusive.stopped self pid isTarget (sound pid isSound)

/-- A holder that has not published itself has not been told to end. -/
theorem Tracked.sound_of_settling (tracked : Tracked system) {pid : Pid}
    (settling : system.shared.Settling pid) : system.shared.Sound pid := by
  obtain ⟨process, isProcess, notPausing⟩ := settling
  refine ⟨process, isProcess, ?_⟩
  by_contra isDoomed
  rw [Bool.not_eq_false] at isDoomed
  exact notPausing (tracked.doomed pid process isProcess isDoomed)

/-- The holder that a call waits for gets into the pid file. -/
theorem Exclusive.publish (exclusive : Exclusive system)
    (tracked : Tracked system) {pid : Pid} {process : Process}
    (isProcess : system.shared.processes pid = some process)
    (notPausing : process.stage ≠ .pausing) :
    Exclusive { system with
      shared := { system.shared.setProcess pid
        (some { process with stage := .pausing }) with
          pidFile := some pid } } := by
  obtain ⟨-, alone, owner, isOwner, waits⟩ :=
    exclusive.unpublished pid ⟨process, isProcess, notPausing⟩
  have sound : ∀ other, (system.shared.setProcess pid
      (some { process with stage := .pausing })).Sound other →
      system.shared.Sound other := by
    intro other isSound
    by_cases same : other = pid
    · subst same
      have notDoomed := sound_setProcess_self.mp isSound
      exact ⟨process, isProcess, notDoomed⟩
    · exact (sound_setProcess same).mp isSound
  have settled : (system.shared.setProcess pid
      (some { process with stage := .pausing })).Settled := by
    intro other settling
    by_cases same : other = pid
    · subst same
      exact settling_setProcess_self.mp settling rfl
    · have also := (settling_setProcess same).mp settling
      exact same (alone other (tracked.sound_of_settling also))
  -- No call is at a place that says something about holders.
  have notCleared : ∀ self,
      (system.callers self).place.cleared = true → False := by
    intro self isCleared
    have isLocked := exclusive.inside self
    rw [inLock_of_cleared isCleared] at isLocked
    have also := (exclusive.owner self).mp isLocked.symm
    rw [isOwner] at also
    cases also
    exact not_cleared_of_awaits waits isCleared
  constructor
  · exact exclusive.owner
  · exact exclusive.inside
  · intro self read isPlace other isSound
    exact exclusive.relooked self read isPlace other (sound other isSound)
  · intro self isCleared
    exact (notCleared self isCleared).elim
  · intro self isEmptied
    exact (notCleared self (cleared_of_emptied isEmptied)).elim
  · intro other isSound _
    rw [alone other (sound other isSound)]
  · intro other settling
    exact absurd settling (settled other)
  · intro self other isTarget isSound
    exact exclusive.stopped self other isTarget (sound other isSound)

theorem Exclusive.holder (exclusive : Exclusive system)
    (tracked : Tracked system) {pid : Pid} {works : Bool} {shared : Shared}
    (step : advanceHolder pid works system.shared = some shared) :
    Exclusive { system with shared := shared } := by
  obtain ⟨process, isProcess, ends⟩ := advanceHolder_cases step
  rcases ends with rfl | ⟨notPausing, ⟨stage, stillNot, rfl⟩ | rfl⟩
  · apply Exclusive.shrinks exclusive
    · rfl
    · rfl
    · intro other sound
      by_cases same : other = pid
      · subst same
        exact absurd sound gone_setProcess_self.1
      · exact (sound_setProcess same).mp sound
    · intro other settling
      by_cases same : other = pid
      · subst same
        exact absurd settling gone_setProcess_self.2
      · exact (settling_setProcess same).mp settling
    · intro other sound settling
      by_cases same : other = pid
      · subst same
        exact absurd sound gone_setProcess_self.1
      · exact (settling_setProcess same).mpr settling
  · apply Exclusive.shrinks exclusive
    · rfl
    · rfl
    · intro other sound
      by_cases same : other = pid
      · subst same
        have notDoomed := sound_setProcess_self.mp sound
        exact ⟨process, isProcess, notDoomed⟩
      · exact (sound_setProcess same).mp sound
    · intro other settling
      by_cases same : other = pid
      · subst same
        exact ⟨process, isProcess, notPausing⟩
      · exact (settling_setProcess same).mp settling
    · intro other sound settling
      by_cases same : other = pid
      · subst same
        exact settling_setProcess_self.mpr stillNot
      · exact (settling_setProcess same).mpr settling
  · exact exclusive.publish tracked isProcess notPausing

/-- Nobody is told to end but a holder in its `pause`, and it is not one that
has been told to end. -/
theorem kill_spares {shared : Shared} {pid other : Pid}
    (sound : (shared.kill pid).Sound other) :
    shared.Sound other ∧ other ≠ pid := by
  unfold Shared.kill at sound
  cases isProcess : shared.processes pid with
  | none =>
      rw [isProcess] at sound
      refine ⟨sound, ?_⟩
      rintro rfl
      obtain ⟨process, isThere, -⟩ := sound
      rw [isProcess] at isThere
      cases isThere
  | some process =>
      rw [isProcess] at sound
      have different : other ≠ pid := by
        rintro rfl
        cases sound_setProcess_self.mp sound
      exact ⟨(sound_setProcess different).mp sound, different⟩

theorem kill_settling {shared : Shared} {pid other : Pid} :
    (shared.kill pid).Settling other ↔ shared.Settling other := by
  unfold Shared.kill
  cases isProcess : shared.processes pid with
  | none => rfl
  | some process =>
      by_cases same : other = pid
      · subst same
        apply settling_setProcess_self.trans
        simp [Shared.Settling, isProcess]
      · exact settling_setProcess same

/-- A stop at another place. -/
theorem Exclusive.restop (exclusive : Exclusive system) {self : Nat}
    {stop : Stop} (stopped : ∀ pid, stop.target = some pid →
      ¬ system.shared.Sound pid) :
    Exclusive { system with
      stops := Function.update system.stops self stop } := by
  constructor
  · exact exclusive.owner
  · exact exclusive.inside
  · exact exclusive.relooked
  · exact exclusive.cleared
  · exact exclusive.emptied
  · exact exclusive.named
  · exact exclusive.unpublished
  · intro other pid isTarget
    by_cases same : other = self
    · subst same
      apply stopped
      simpa using isTarget
    · apply exclusive.stopped other
      simpa [Function.update_of_ne same] using isTarget

theorem Exclusive.stop (exclusive : Exclusive system)
    {self : Nat} {shared : Shared} {stop : Stop}
    (careful : Careful system (.stop self))
    (step : (system.stops self).advance system.shared =
      some (shared, stop)) :
    Exclusive { system with
      shared := shared
      stops := Function.update system.stops self stop } := by
  rcases stop_cases step with ⟨rfl, -, noTarget⟩ | ⟨rfl, -, targets⟩ |
    ⟨pid, -, -, rfl, rfl⟩ | ⟨read, isStop, rfl, rfl⟩
  · apply exclusive.restop
    intro pid isTarget
    rw [noTarget] at isTarget
    cases isTarget
  · apply exclusive.restop
    intro pid isTarget sound
    rcases targets pid isTarget with old | dead
    · exact exclusive.stopped self pid old sound
    · rw [sound.alive] at dead
      cases dead
  · have killed : Exclusive { system with shared := system.shared.kill pid } := by
      apply Exclusive.shrinks exclusive
      · exact (kill_pidFile _ _).2
      · exact (kill_pidFile _ _).1
      · exact fun other sound => (kill_spares sound).1
      · exact fun other settling => kill_settling.mp settling
      · exact fun other _ settling => kill_settling.mpr settling
    apply killed.restop
    rintro other ⟨⟩ sound
    exact (kill_spares sound).2 rfl
  · have removed : Exclusive { system with
        shared := { system.shared with pidFile := none } } := by
      constructor
      · exact exclusive.owner
      · exact exclusive.inside
      · exact exclusive.relooked
      · exact exclusive.cleared
      · exact fun _ _ => rfl
      · intro pid sound notSettling
        have isFile := exclusive.named pid sound notSettling
        rcases careful read isStop with noFile | sameFile
        · rw [noFile] at isFile
          cases isFile
        · -- What is removed has been read, and has been ended.
          rw [sameFile] at isFile
          subst isFile
          exact absurd sound (exclusive.stopped self pid (by rw [isStop]; rfl))
      · intro pid settling
        exact ⟨rfl, (exclusive.unpublished pid settling).2⟩
      · exact exclusive.stopped
    apply removed.restop
    intro pid isTarget
    cases isTarget

theorem Exclusive.step {after : System} {event : Event}
    (exclusive : Exclusive system) (tracked : Tracked system)
    (careful : Careful system event) (step : system.Step event after) :
    Exclusive after := by
  rcases step.cases with ⟨self, works, shared, caller, rfl, advances, rfl⟩ |
    ⟨self, rfl, rfl⟩ | ⟨pid, works, shared, rfl, advances, rfl⟩ |
    ⟨self, shared, stop, rfl, advances, rfl⟩
  · by_cases isOwner : system.shared.lock = some self
    · exact exclusive.callInside tracked isOwner careful advances
    · exact exclusive.callOutside isOwner careful advances
  · exact exclusive.quit careful
  · exact exclusive.holder tracked advances
  · exact exclusive.stop careful advances

end

end SaltOS.Holder
