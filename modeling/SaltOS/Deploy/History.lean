import Mathlib.Data.List.MinMax
import Mathlib.Logic.Relation
import SaltOS.Deploy.Deploy

/-!
# The history over time

The statements that change the database, one step each, and what every history
made of them keeps: the transactions are numbered without gaps, and nothing is
recorded about a transaction that is not there.
-/

namespace SaltOS.Deploy

open Lib Txn

/-- `INSERT INTO transactions(op,status,..) VALUES(?,'started',..)`. -/
def opened (op : Bytes) (db : Db) : Db :=
  { db with
    transactions := db.transactions ++ [⟨db.lastId + 1, op, .started, none⟩]
    lastId := db.lastId + 1 }

/-- One statement on the database.  A row of `txn_meta` is only ever written
for a transaction that is there; the package tables may become anything. -/
inductive HistoryStep (db : Db) : Db → Prop where
  | txnNew (op : Bytes) : HistoryStep db (opened op db)
  | txnFinish (id : Nat) (status : Status) :
      HistoryStep db (db.updateTxn id ({ · with status := status }))
  | txnSetSnapshot (id : Nat) (snapshot : Bytes) :
      HistoryStep db (db.updateTxn id ({ · with snapshot := some snapshot }))
  | withoutSnapshot (id : Nat) : HistoryStep db (withoutSnapshot id db)
  | markUndone (first last : Nat) : HistoryStep db (undone first last db)
  | pin (id : Nat) (pinned : Bool) :
      (txnRow db id).isSome → HistoryStep db (withPin id pinned db)
  | record (id : Nat) (kernel : Option Bytes) :
      (txnRow db id).isSome → HistoryStep db (withKernel id kernel db)
  | tables (tables : Tables) : HistoryStep db { db with tables := tables }

/-- Any number of statements. -/
abbrev History : Db → Db → Prop :=
  Relation.ReflTransGen HistoryStep

/-! ## What the programs do -/

section

variable {world : World}

theorem update_history {what : Option Bytes} {change : Db → Db}
    (step : HistoryStep world.db (change world.db)) :
    EndsIn (Sql.update what change world)
      fun after => History world.db after.db := by
  unfold Sql.update Sql.statement
  split
  · exact Relation.ReflTransGen.refl
  · exact Relation.ReflTransGen.single step

theorem ensureSchema_history :
    Ends (ensureSchema world) (fun _ after => after.db = world.db)
      (fun _ after => after.db = world.db) := by
  unfold ensureSchema Sql.update Sql.statement
  split <;> exact rfl

theorem pin_history (id : Nat) (pinned : Bool) :
    EndsIn (pin id pinned world) fun after => History world.db after.db := by
  apply Ends.bind (ensureSchema_history.mono (fun _ _ same => same)
    (fun _ _ same => same ▸ Relation.ReflTransGen.refl))
  intro _ between same
  apply Ends.bindOk rfl
  rw [← same]
  apply Ends.ite
  · intro _
    exact Ends.throw Relation.ReflTransGen.refl
  · intro present
    rw [Bool.not_eq_true, Option.isNone_eq_false_iff] at present
    exact update_history (.pin id pinned present)

theorem recordMeta_history (root : Bytes) {id : Nat}
    (present : (txnRow world.db id).isSome) :
    EndsIn (recordMeta root id world) fun after =>
      History world.db after.db := by
  apply Ends.bind (ensureSchema_history.mono (fun _ _ same => same)
    (fun _ _ same => same ▸ Relation.ReflTransGen.refl))
  intro _ between same
  apply Ends.bindOk rfl
  rw [← same] at present ⊢
  exact Ends.ignore (update_history (.record id _ present))

/-- A program that only touches the disk. -/
theorem onDisk_db {α : Type} (program : EStateM Failure (Disk Content) α) :
    EndsIn (onDisk program world) fun after => after.db = world.db := by
  unfold onDisk
  cases program world.disk <;> exact rfl

theorem dropSnapshot_db (delete : DeleteSubvolume) (root snapshot : Bytes) :
    Ends (dropSnapshot delete root snapshot world)
      (fun _ after => after.db = world.db) (fun _ _ => False) := by
  unfold dropSnapshot
  extract_lets full
  split
  · split <;> exact rfl
  · exact rfl

theorem pruneDeployment_history (delete : DeleteSubvolume) (root : Bytes)
    (row : TxnRow) :
    Ends (pruneDeployment delete root row world)
      (fun _ after => History world.db after.db) (fun _ _ => False) := by
  apply Ends.bind (dropSnapshot_db delete root _)
  intro gone between same
  apply Ends.ite
  · intro _
    apply Ends.through (fun _ after => after.db = world.db)
      (Ends.ignore ((onDisk_db _).mono (fun _ _ kept => kept.trans same)
        (fun _ _ kept => kept.trans same)))
    intro _ second secondSame
    apply Ends.through (fun _ after => after.db = world.db)
      (Ends.ignore ((onDisk_db _).mono
        (fun _ _ kept => kept.trans secondSame)
        (fun _ _ kept => kept.trans secondSame)))
    intro _ third thirdSame
    rw [← thirdSame]
    exact Ends.ignore (update_history (.withoutSnapshot row.id))
  · intro _
    exact Ends.pure (same ▸ Relation.ReflTransGen.refl)

/-- Pruning is part of the history. -/
theorem prune_history (delete : DeleteSubvolume) (root : Bytes)
    (keep : Nat) :
    EndsIn (prune delete root keep world) fun after =>
      History world.db after.db := by
  apply Ends.bind (ensureSchema_history.mono (fun _ _ same => same)
    (fun _ _ same => same ▸ Relation.ReflTransGen.refl))
  intro _ between same
  apply Ends.bindOk rfl
  apply Ends.forM_mem (same ▸ Relation.ReflTransGen.refl)
  intro row _ before reached
  exact (pruneDeployment_history delete root row).mono
    (fun _ _ more => reached.trans more) (fun _ _ never => never.elim)

end

/-! ## What all histories keep -/

/-- The transactions are numbered from 1 on, and each row of `txn_meta` is
about one of them. -/
structure Numbered (db : Db) : Prop where
  distinct : (db.transactions.map TxnRow.id).Nodup
  ids : ∀ id, id ∈ db.transactions.map TxnRow.id ↔ 1 ≤ id ∧ id ≤ db.lastId
  recorded : ∀ row ∈ db.metas, 1 ≤ row.txnId ∧ row.txnId ≤ db.lastId

theorem mem_ids_iff {db : Db} {id : Nat} :
    id ∈ db.transactions.map TxnRow.id ↔ (txnRow db id).isSome := by
  rw [txnRow, List.find?_isSome, List.mem_map]
  simp

theorem Numbered.txnRow_iff {db : Db} (numbered : Numbered db) {id : Nat} :
    (txnRow db id).isSome ↔ 1 ≤ id ∧ id ≤ db.lastId :=
  mem_ids_iff.symm.trans (numbered.ids id)

theorem numbered_empty : Numbered .empty := by
  constructor
  · exact List.nodup_nil
  · intro id
    simp only [Db.empty, List.map_nil, List.not_mem_nil, false_iff]
    omega
  · simp [Db.empty]

theorem Numbered.opened {db : Db} (numbered : Numbered db) (op : Bytes) :
    Numbered (opened op db) := by
  constructor
  · have fresh : db.lastId + 1 ∉ db.transactions.map TxnRow.id := by
      intro member
      have bound := ((numbered.ids _).mp member).2
      omega
    simpa [Deploy.opened, List.nodup_append'] using
      ⟨numbered.distinct, by simpa using fresh⟩
  · intro id
    have ids := numbered.ids id
    simp only [Deploy.opened, List.map_append, List.map_cons, List.map_nil,
      List.mem_append, List.mem_singleton, ids]
    omega
  · intro row member
    obtain ⟨positive, bound⟩ := numbered.recorded row member
    exact ⟨positive, bound.trans (Nat.le_succ _)⟩

/-- Changing rows other than by their ids. -/
theorem Numbered.map {db : Db} (numbered : Numbered db)
    {change : TxnRow → TxnRow} (same : ∀ row, (change row).id = row.id) :
    Numbered { db with transactions := db.transactions.map change } := by
  have ids : (db.transactions.map change).map TxnRow.id =
      db.transactions.map TxnRow.id := by
    rw [List.map_map]
    exact List.map_congr_left fun row _ => same row
  constructor
  · rw [ids]
    exact numbered.distinct
  · intro id
    rw [ids]
    exact numbered.ids id
  · exact numbered.recorded

theorem Numbered.updateTxn {db : Db} (numbered : Numbered db) (id : Nat)
    {change : TxnRow → TxnRow} (same : ∀ row, (change row).id = row.id) :
    Numbered (db.updateTxn id change) := by
  apply numbered.map
  intro row
  split
  · exact same row
  · rfl

theorem undoneRow_id (first last : Nat) (row : TxnRow) :
    (undoneRow first last row).id = row.id := by
  unfold undoneRow
  split <;> rfl

theorem Numbered.replaceMeta {db : Db} (numbered : Numbered db)
    {row : MetaRow} (present : (txnRow db row.txnId).isSome) :
    Numbered (replaceMeta row db) := by
  refine ⟨numbered.distinct, numbered.ids, ?_⟩
  intro other member
  rcases mem_replaceRows.mp member with new | old
  · rw [List.mem_singleton.mp new]
    exact numbered.txnRow_iff.mp present
  · exact numbered.recorded other old.1

theorem deployMeta_txnId (db : Db) (id : Nat) :
    (deployMeta db id).txnId = id := by
  unfold deployMeta
  cases found : metaRow db id with
  | none => rfl
  | some row => exact key_of_find? found

theorem HistoryStep.numbered {before after : Db}
    (step : HistoryStep before after) (numbered : Numbered before) :
    Numbered after := by
  cases step with
  | txnNew op => exact numbered.opened op
  | txnFinish id status => exact numbered.updateTxn id fun _ => rfl
  | txnSetSnapshot id snapshot => exact numbered.updateTxn id fun _ => rfl
  | withoutSnapshot id => exact numbered.updateTxn id fun _ => rfl
  | markUndone first last => exact numbered.map (undoneRow_id first last)
  | pin id pinned present =>
      apply numbered.replaceMeta
      rwa [deployMeta_txnId]
  | record id kernel present => exact numbered.replaceMeta present
  | tables tables => exact ⟨numbered.distinct, numbered.ids, numbered.recorded⟩

/-- Numbers are never used again. -/
theorem HistoryStep.lastId_le {before after : Db}
    (step : HistoryStep before after) : before.lastId ≤ after.lastId := by
  cases step with
  | txnNew op => exact Nat.le_succ _
  | _ => exact le_refl before.lastId

theorem History.numbered {before after : Db} (history : History before after)
    (numbered : Numbered before) : Numbered after := by
  induction history with
  | refl => exact numbered
  | tail _ step induction => exact step.numbered induction

theorem Numbered.maxTxnId {db : Db} (numbered : Numbered db) :
    maxTxnId db = db.lastId := by
  apply le_antisymm
  · apply List.max_le_of_forall_le
    intro id member
    exact ((numbered.ids id).mp member).2
  · by_cases none : db.lastId = 0
    · omega
    · apply List.le_max_of_le _ le_rfl
      exact (numbered.ids db.lastId).mpr (by omega)

end SaltOS.Deploy
