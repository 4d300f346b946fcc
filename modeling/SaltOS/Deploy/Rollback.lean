import SaltOS.Deploy.Prune

/-!
# Rollbacks that fail

`salt_rollback_to` on a root that is not Btrfs reverts the files of the target
first and restores its tables last, and what it writes after that does not
depend on whether the tables could be restored.
-/

namespace SaltOS.Deploy

open Lib Txn

/-! ## What a failing rollback should leave -/

/-- Tables, files and statuses are as before, and no rollback is recorded as
one that went through. -/
structure LeftAsItWas (root : Bytes) (before after : World) : Prop where
  tables : after.db.tables = before.db.tables
  leaves : ∀ top, before.disk.resolve root = .ok top → ∀ loc, top <:+ loc →
    after.disk.fs.leaf? loc = before.disk.fs.leaf? loc
  statuses : ∀ id, (txnRow before.db id).isSome →
    (txnRow after.db id).map TxnRow.status =
      (txnRow before.db id).map TxnRow.status
  unrecorded : ∀ row ∈ after.db.transactions,
    txnRow before.db row.id = none →
      ¬ (row.op = ascii "rollback" ∧ row.status = .ok)

theorem LeftAsItWas.refl (root : Bytes) (world : World) :
    LeftAsItWas root world world := by
  refine ⟨rfl, fun _ _ _ _ => rfl, fun _ _ => rfl, ?_⟩
  intro row member absent
  rw [txnRow, List.find?_eq_none] at absent
  exact absurd (decide_eq_true rfl) (absent row member)

/-- A rollback that fails leaves everything as it was. -/
def FailsCleanly (host : Host) (root : Bytes) (id : Nat) (world : World) :
    Prop :=
  Ends (rollbackTo host root id world) (fun _ _ => True)
    (fun _ after => LeftAsItWas root world after)

theorem FailsCleanly.left {host : Host} {root : Bytes} {id : Nat}
    {world : World} (clean : FailsCleanly host root id world)
    (failed : succeeded (rollbackTo host root id world) = false) :
    LeftAsItWas root world (finalState (rollbackTo host root id world)) := by
  unfold FailsCleanly at clean
  cases outcome : rollbackTo host root id world with
  | ok value after =>
      rw [outcome] at failed
      cases failed
  | error failure after =>
      rw [outcome] at clean
      exact clean

/-- Once the files have been reverted, the saved database of the target can be
attached, unless it is gone. -/
def Restorable (host : Host) (root : Bytes) (target : Nat) (world : World) :
    Prop :=
  let ready := finalState (prepareRollback host root target world)
  Util.pathExists ready.disk (beforePath root target) = true →
    ∃ bytes before, ready.disk.contents (beforePath root target) =
      .ok ⟨bytes, some before⟩

/-- Either nothing can be rolled back to, or all of the rollback can be
done. -/
def CanFinish (host : Host) (root : Bytes) (id : Nat) (world : World) :
    Prop :=
  ∀ target, chooseTarget world.disk root world.db id = .ok target →
    world.sqlFaults = [] ∧ Restorable host root target world

/-! ## Without failing statements -/

section

variable {world : World}

/-- Only the disk has changed, and no statement is going to fail. -/
def Calm (before after : World) : Prop :=
  after.db = before.db ∧ after.sqlFaults = []

theorem onDisk_calm {α : Type} (quiet : world.sqlFaults = [])
    (program : EStateM Failure (Disk Content) α) :
    EndsIn (onDisk program world) (Calm world) := by
  unfold onDisk
  cases program world.disk <;> exact ⟨rfl, quiet⟩

theorem Calm.trans {middle after : World} (first : Calm world middle)
    (second : Calm middle after) : Calm world after :=
  ⟨second.1.trans first.1, second.2⟩

theorem revertDeployments_calm (quiet : world.sqlFaults = [])
    (root : Bytes) (target : Nat) {bad : Failure → World → Prop} :
    Ends (revertDeployments root target world)
      (fun _ after => Calm world after) bad := by
  have begun : Calm world world := ⟨rfl, quiet⟩
  apply Ends.bindOk rfl
  apply Ends.forM_mem begun
  intro id _ before calm
  cases txnRow world.db id with
  | none => exact calm
  | some row =>
      apply Ends.ite
      · intro _
        exact Ends.ignore ((onDisk_calm calm.2 _).mono
          (fun _ _ more => calm.trans more) fun _ _ more => calm.trans more)
      · intro _
        exact calm

theorem vacuumInto_calm (quiet : world.sqlFaults = [])
    (image : Db → Bytes) (path : Bytes) :
    EndsIn (Db.vacuumInto image path world) (Calm world) := by
  apply Ends.bind (onDisk_calm quiet _)
  intro _ between calm
  apply Ends.bindOk rfl
  cases between.disk.lstat path with
  | ok node => exact calm
  | error errno =>
      apply Ends.bindOk (Sql.update_quiet calm.2 _ id)
      exact (onDisk_calm calm.2 _).mono (fun _ _ more => calm.trans more)
        fun _ _ more => calm.trans more

theorem txnNew_quiet (quiet : world.sqlFaults = []) (op : Bytes)
    {bad : Failure → World → Prop} :
    Ends (Db.txnNew op world)
      (fun id after => id = world.db.lastId + 1 ∧
        after.db = opened op world.db ∧ after.sqlFaults = []) bad := by
  apply Ends.bindOk (Sql.update_quiet quiet _ _)
  apply Ends.bindOk rfl
  exact ⟨rfl, rfl, quiet⟩

/-- A program whose outcome nobody looks at, and which only needs the disk. -/
theorem ignore_calm {α : Type} {program : Io α}
    (calm : EndsIn (program world) (Calm world))
    {bad : Failure → World → Prop} :
    Ends ((ignore program : Io Unit) world) (fun _ after => Calm world after)
      bad :=
  Ends.ignore calm

/-- The rollback is there, and nothing else in the database has changed. -/
theorem prepareRollback_quiet (quiet : world.sqlFaults = []) (host : Host)
    (root : Bytes) (target : Nat) {bad : Failure → World → Prop} :
    Ends (prepareRollback host root target world)
      (fun id after => id = world.db.lastId + 1 ∧
        after.db = opened (ascii "rollback") world.db ∧
        after.sqlFaults = []) bad := by
  apply Ends.bind (revertDeployments_calm quiet root target)
  rintro _ reverted ⟨sameDb, stillQuiet⟩
  apply Ends.bind (txnNew_quiet stillQuiet _)
  rintro id named ⟨isId, isOpened, namedQuiet⟩
  apply Ends.bind (ignore_calm (onDisk_calm namedQuiet _))
  intro _ made calm
  apply Ends.bind (ignore_calm (vacuumInto_calm calm.2 _ _))
  intro _ saved more
  rw [sameDb] at isId isOpened
  exact ⟨isId, (calm.trans more).1.trans isOpened, more.2⟩

theorem restoreTarget_ok (quiet : world.sqlFaults = []) (root : Bytes)
    (target : Nat)
    (restorable : Util.pathExists world.disk (beforePath root target) = true →
      ∃ bytes before, world.disk.contents (beforePath root target) =
        .ok ⟨bytes, some before⟩) {bad : Failure → World → Prop} :
    Ends (restoreTarget root target world) (fun _ _ => True) bad := by
  apply Ends.bindOk rfl
  apply Ends.ite
  · intro isThere
    obtain ⟨bytes, before, saved⟩ := restorable isThere
    unfold Db.restoreStateFrom
    apply Ends.bindOk rfl
    rw [saved]
    dsimp only
    rw [Sql.update_quiet quiet]
    trivial
  · intro _
    exact Ends.pure trivial

theorem restoreTarget_fails (quiet : world.sqlFaults = []) (root : Bytes)
    (target : Nat)
    (isThere : Util.pathExists world.disk (beforePath root target) = true)
    (notSaved : ¬ ∃ bytes before,
      world.disk.contents (beforePath root target) =
        .ok ⟨bytes, some before⟩) :
    Ends (restoreTarget root target world) (fun _ _ => False)
      (fun _ after => Calm world after) := by
  apply Ends.bindOk rfl
  rw [if_pos isThere]
  unfold Db.restoreStateFrom
  apply Ends.bindOk rfl
  cases read : world.disk.contents (beforePath root target) with
  | error errno => exact ⟨rfl, quiet⟩
  | ok content =>
      dsimp only
      cases database : content.database with
      | none => exact ⟨rfl, quiet⟩
      | some before =>
          have isSaved : content = ⟨content.bytes, some before⟩ := by
            rw [← database]
          exact absurd ⟨content.bytes, before, isSaved ▸ read⟩ notSaved

/-! ## The two ways to end -/

theorem rollbackFiles_ok (quiet : world.sqlFaults = []) (host : Host)
    (root : Bytes) (target : Nat)
    (restorable : Restorable host root target world)
    {bad : Failure → World → Prop} :
    Ends (rollbackFiles host root target world) (fun _ _ => True) bad := by
  have prepared : Ends (prepareRollback host root target world) _
      (fun _ _ => False) := prepareRollback_quiet quiet host root target
  cases outcome : prepareRollback host root target world with
  | error failure after =>
      rw [outcome] at prepared
      exact prepared.elim
  | ok id ready =>
      rw [outcome] at prepared
      have isReady : finalState (prepareRollback host root target world) =
        ready := by rw [outcome]; rfl
      unfold Restorable at restorable
      rw [isReady] at restorable
      apply Ends.bindOk outcome
      apply Ends.through (fun restored _ => ∃ value, restored = .ok value)
        (Ends.attempt ((restoreTarget_ok prepared.2.2 root target
          restorable).mono (fun value _ _ => ⟨value, rfl⟩)
            fun _ _ never => never))
      rintro _ between ⟨value, rfl⟩
      have any : ∀ {program : Io Unit} {now : World},
          Ends ((ignore program : Io Unit) now) (fun _ _ => True) bad :=
        Ends.ignore (endsIn_iff.mpr trivial)
      apply Ends.bind any
      intro _ _ _
      apply Ends.bind any
      intro _ _ _
      apply Ends.bind any
      intro _ _ _
      exact Ends.pure trivial

theorem recordMeta_rows (root : Bytes) (id : Nat) :
    EndsIn (recordMeta root id world) fun after =>
      after.db.transactions = world.db.transactions := by
  apply Ends.bind (ensureSchema_history.mono (fun _ _ same => same)
    (fun _ _ same => congrArg Db.transactions same))
  intro _ between same
  apply Ends.bindOk rfl
  apply Ends.ignore
  rw [← same]
  unfold Sql.update Sql.statement
  split <;> exact rfl

/-- When the tables cannot be restored, the rollback is recorded all the
same. -/
theorem rollbackFiles_recorded (quiet : world.sqlFaults = [])
    (numbered : Numbered world.db) (host : Host) (root : Bytes)
    (target : Nat)
    (notRestorable : ¬ Restorable host root target world) :
    Ends (rollbackFiles host root target world) (fun _ _ => False)
      (fun _ after => txnRow after.db (world.db.lastId + 1) =
        some ⟨world.db.lastId + 1, ascii "rollback", .ok, none⟩) := by
  have prepared : Ends (prepareRollback host root target world) _
      (fun _ _ => False) := prepareRollback_quiet quiet host root target
  cases outcome : prepareRollback host root target world with
  | error failure after =>
      rw [outcome] at prepared
      exact prepared.elim
  | ok id ready =>
      rw [outcome] at prepared
      obtain ⟨isId, isOpened, readyQuiet⟩ := prepared
      have isReady : finalState (prepareRollback host root target world) =
        ready := by rw [outcome]; rfl
      unfold Restorable at notRestorable
      rw [isReady] at notRestorable
      obtain ⟨isThere, notSaved⟩ := Classical.not_imp.mp notRestorable
      apply Ends.bindOk outcome
      apply Ends.through (fun restored after =>
        (∃ failure, restored = .error failure) ∧ Calm ready after)
        (Ends.attempt ((restoreTarget_fails readyQuiet root target isThere
          notSaved).mono (fun _ _ never => never.elim)
            fun failure _ calm => ⟨⟨failure, rfl⟩, calm⟩))
      rintro _ between ⟨⟨failure, rfl⟩, sameDb, stillQuiet⟩
      have undoes : Ends ((ignore (markUndone target id) : Io Unit) between)
          (fun _ after => after.db = undone target id ready.db ∧
            after.sqlFaults = []) (fun _ _ => False) := by
        apply Ends.ignore
        rw [markUndone, Sql.update_quiet stillQuiet, ← sameDb]
        exact ⟨rfl, stillQuiet⟩
      refine Ends.bind (undoes.mono (fun _ _ both => both)
        fun _ _ never => never.elim) ?_
      rintro _ marked ⟨markedDb, markedQuiet⟩
      have finishes : Ends ((ignore (Db.txnFinish id .ok) : Io Unit) marked)
          (fun _ after => after.db =
            (undone target id ready.db).updateTxn id
              ({ · with status := .ok })) (fun _ _ => False) := by
        apply Ends.ignore
        rw [Db.txnFinish, Sql.update_quiet markedQuiet, ← markedDb]
        exact rfl
      refine Ends.bind (finishes.mono (fun _ _ same => same)
        fun _ _ never => never.elim) ?_
      intro _ finished finishedDb
      refine Ends.through (fun _ after =>
        after.db.transactions = finished.db.transactions)
        (Ends.ignore (recordMeta_rows root id)) ?_
      intro _ recorded sameRows
      apply Ends.throw
      have sameRow : txnRow recorded.db (world.db.lastId + 1) =
          txnRow finished.db (world.db.lastId + 1) := by
        unfold txnRow
        rw [sameRows]
      have sameId : ∀ row : TxnRow,
          ({ row with status := .ok } : TxnRow).id = row.id := fun _ => rfl
      rw [sameRow, finishedDb, txnRow_updateTxn sameId, txnRow_undone,
        isOpened, txnRow_opened numbered, isId]
      simp [undoneRow]

/-! ## When a rollback fails cleanly -/

end

/-! ## A saved database that cannot be read -/

def plainRoot : Host where
  decompress := fun bytes => .ok bytes
  image := fun _ => []
  btrfs := none

/-- One deployment that replaced `/etc/motd`, with its backup and its saved
database. -/
def savedDisk (saved : Content) : Disk Content :=
  finalState ((do
    Util.writeFile (ascii "/etc/motd") (.raw (ascii "new")) 420
    Util.writeFile (Util.joinPath (backupDir (ascii "/") 1) (ascii "etc/motd"))
      (.raw (ascii "old")) 420
    Util.writeFile (beforePath (ascii "/") 1) saved 420 : DiskIo Unit)
    ⟨.bare Content, [], []⟩)

def savedWorld (saved : Content) : World :=
  { emptyWorld with
    disk := savedDisk saved
    db := transact (ascii "install") .ok .empty }

theorem savedWorld_reached (saved : Content) :
    Reached ⟨(savedWorld saved).db, []⟩ :=
  transact_reached Relation.ReflTransGen.refl (ascii "install") .ok

end SaltOS.Deploy
