import SaltOS.Deploy.History

/-!
# The history across a rollback on Btrfs

`rollback_btrfs` of `src/halite/src/deploy.c`: the database of the snapshot gets
the newer part of the history from the running one.  The Btrfs commands and the
mounts around this are left out.

The history goes on as it was exactly when nothing older than the target has
changed since the snapshot.
-/

namespace SaltOS.Deploy

open Lib Txn

/-! ## The merged database -/

/-- The name of the snapshot of a transaction. -/
def rootName (id : Nat) : Bytes :=
  ascii "root-" ++ printBase 10 id

/-- `INSERT OR REPLACE .. SELECT * FROM cur.. WHERE id>=target`, for both
tables. -/
def takeHistory (target : Nat) (current db : Db) : Db :=
  let rows := current.transactions.filter (target ≤ ·.id)
  { db with
    transactions := upsertRows TxnRow.id rows db.transactions
    lastId := (rows.map TxnRow.id).foldr max db.lastId
    metas := upsertRows MetaRow.txnId
      (current.metas.filter (target ≤ ·.txnId)) db.metas }

/-- `INSERT INTO transactions(id,..)`. -/
def insertTxn (row : TxnRow) (db : Db) : Except Bytes Db :=
  if (txnRow db row.id).isSome then
    .error (ascii "UNIQUE constraint failed: transactions.id")
  else
    .ok { db with
      transactions := db.transactions ++ [row]
      lastId := max db.lastId row.id }

/-- The row of the rollback itself. -/
def rollbackRow (id : Nat) : TxnRow :=
  ⟨id, ascii "rollback", .ok, some (rootName id)⟩

/-- The database that `rollback_btrfs` writes into the new root, which has
`kernel` as its newest kernel. -/
def rollbackBtrfs (target : Nat) (kernel : Option Bytes)
    (current snapshot : Db) : Except Bytes Db := do
  let id := maxTxnId current + 1
  let db ← insertTxn (rollbackRow id) (takeHistory target current snapshot)
  return withKernel id kernel (undone target id db)

/-- What it writes into the database of the root that is left behind, as
`root-<id>`. -/
def leftBehind (id : Nat) (current : Db) : Db :=
  let db := opened (ascii "rollback") current
  let named := db.updateTxn db.lastId
    ({ · with snapshot := some (rootName id) })
  named.updateTxn db.lastId ({ · with status := .ok })

/-! ## Roots and their snapshots -/

/-- The database of the running root, and those in the snapshots, each with
the transaction before which it was taken. -/
structure Roots where
  current : Db
  snapshots : List (Nat × Db)
  deriving DecidableEq

/-- A snapshot is taken as soon as its transaction is there. -/
inductive RootsStep (roots : Roots) : Roots → Prop where
  | statement {db : Db} :
      HistoryStep roots.current db → RootsStep roots ⟨db, roots.snapshots⟩
  | snapshot (op : Bytes) :
      RootsStep roots ⟨opened op roots.current,
        (roots.current.lastId + 1, opened op roots.current) ::
          roots.snapshots⟩
  | rollback {target : Nat} {snapshot db : Db} (kernel : Option Bytes) :
      (target, snapshot) ∈ roots.snapshots →
      rollbackBtrfs target kernel roots.current snapshot = .ok db →
      RootsStep roots ⟨db,
        (maxTxnId roots.current + 1,
          leftBehind (maxTxnId roots.current + 1) roots.current) ::
          roots.snapshots⟩

/-- What can come of a new system. -/
def Reached (roots : Roots) : Prop :=
  Relation.ReflTransGen RootsStep ⟨.empty, []⟩ roots

/-- The target and what came after it are undone. -/
def undoneFrom (target : Nat) (row : TxnRow) : TxnRow :=
  if target ≤ row.id ∧ row.status = .ok then
    { row with status := .undone }
  else row

/-- The history goes on in `db`, with one new row. -/
structure KeepsHistory (target : Nat) (current db : Db) : Prop where
  rows : ∀ id, (txnRow current id).isSome →
    txnRow db id = (txnRow current id).map (undoneFrom target)
  metas : ∀ id, (txnRow current id).isSome →
    metaRow db id = metaRow current id
  rollback : ∀ id, txnRow current id = none →
    txnRow db id =
      if id = maxTxnId current + 1 then some (rollbackRow id) else none

/-- Nothing older than the target differs. -/
def SameOlder (target : Nat) (left right : Db) : Prop :=
  ∀ id < target,
    txnRow left id = txnRow right id ∧ metaRow left id = metaRow right id

/-! ## What is found where -/

theorem txnRow_updateTxn {db : Db} {id other : Nat}
    {change : TxnRow → TxnRow} (same : ∀ row, (change row).id = row.id) :
    txnRow (db.updateTxn id change) other =
      (txnRow db other).map fun row => if row.id = id then change row else row := by
  unfold txnRow Db.updateTxn
  rw [List.find?_map]
  congr 2
  funext row
  simp only [Function.comp_apply]
  split <;> simp [same]

theorem txnRow_opened {db : Db} (numbered : Numbered db) (op : Bytes) :
    txnRow (opened op db) (db.lastId + 1) =
      some ⟨db.lastId + 1, op, .started, none⟩ := by
  have absent : txnRow db (db.lastId + 1) = none := by
    rw [← Option.not_isSome_iff_eq_none, numbered.txnRow_iff]
    omega
  unfold txnRow at absent ⊢
  rw [opened, List.find?_append, absent]
  simp

theorem txnRow_undone (first last id : Nat) (db : Db) :
    txnRow (undone first last db) id =
      (txnRow db id).map (undoneRow first last) := by
  unfold txnRow undone
  rw [List.find?_map]
  congr 2
  funext row
  simp [undoneRow_id]

theorem txnRow_insertTxn {row : TxnRow} {db after : Db} {id : Nat}
    (inserted : insertTxn row db = .ok after) :
    txnRow after id = if id = row.id then some row else txnRow db id := by
  unfold insertTxn at inserted
  split at inserted
  · cases inserted
  next absent =>
    cases inserted
    rw [Bool.not_eq_true, Option.isSome_eq_false_iff,
      Option.isNone_iff_eq_none] at absent
    unfold txnRow at absent ⊢
    rw [List.find?_append]
    by_cases same : id = row.id
    · subst same
      simp [absent]
    · simp [same, Ne.symm same]

theorem distinct_insertTxn {row : TxnRow} {db after : Db}
    (inserted : insertTxn row db = .ok after)
    (distinct : (db.transactions.map TxnRow.id).Nodup) :
    (after.transactions.map TxnRow.id).Nodup := by
  unfold insertTxn at inserted
  split at inserted
  · cases inserted
  next absent =>
    cases inserted
    rw [← mem_ids_iff] at absent
    simpa [List.nodup_append'] using ⟨distinct, by simpa using absent⟩

theorem lastId_insertTxn {row : TxnRow} {db after : Db}
    (inserted : insertTxn row db = .ok after) :
    after.lastId = max db.lastId row.id := by
  unfold insertTxn at inserted
  split at inserted
  · cases inserted
  · cases inserted
    rfl

theorem metaRow_insertTxn {row : TxnRow} {db after : Db} {id : Nat}
    (inserted : insertTxn row db = .ok after) :
    metaRow after id = metaRow db id := by
  unfold insertTxn at inserted
  split at inserted
  · cases inserted
  · cases inserted
    rfl

theorem txnRow_takeHistory (target id : Nat) (current db : Db) :
    txnRow (takeHistory target current db) id =
      (if target ≤ id then txnRow current id else none).or
        (txnRow db id) := by
  have found := @find?_upsertRows_filter TxnRow Nat _ TxnRow.id
    (fun id => target ≤ id) current.transactions db.transactions id
  simp only [decide_eq_true_eq] at found
  exact found

theorem metaRow_takeHistory (target id : Nat) (current db : Db) :
    metaRow (takeHistory target current db) id =
      (if target ≤ id then metaRow current id else none).or
        (metaRow db id) := by
  have found := @find?_upsertRows_filter MetaRow Nat _ MetaRow.txnId
    (fun id => target ≤ id) current.metas db.metas id
  simp only [decide_eq_true_eq] at found
  exact found

@[simp] theorem txnRow_withKernel (id other : Nat) (kernel : Option Bytes)
    (db : Db) : txnRow (withKernel id kernel db) other = txnRow db other :=
  rfl

@[simp] theorem lastId_withKernel (id : Nat) (kernel : Option Bytes)
    (db : Db) : (withKernel id kernel db).lastId = db.lastId :=
  rfl

@[simp] theorem lastId_undone (first last : Nat) (db : Db) :
    (undone first last db).lastId = db.lastId :=
  rfl

@[simp] theorem metaRow_undone (first last id : Nat) (db : Db) :
    metaRow (undone first last db) id = metaRow db id :=
  rfl

theorem metaRow_withKernel (id other : Nat) (kernel : Option Bytes)
    (db : Db) :
    metaRow (withKernel id kernel db) other =
      if id = other then some ⟨id, kernel, isPinned db id⟩
      else metaRow db other :=
  find?_replaceRow

/-- Before the rollback, `undoneRow` is what the specification asks for. -/
theorem undoneRow_eq {target next : Nat} {row : TxnRow}
    (older : row.id < next) :
    undoneRow target next row = undoneFrom target row := by
  simp [undoneRow, undoneFrom, older]

theorem undoneFrom_older {target : Nat} {row : TxnRow}
    (older : row.id < target) : undoneFrom target row = row := by
  simp [undoneFrom, Nat.not_le.mpr older]

theorem undoneRow_older {target next : Nat} {row : TxnRow}
    (older : row.id < target) : undoneRow target next row = row := by
  simp [undoneRow, Nat.not_le.mpr older]

@[simp] theorem rollbackRow_id (id : Nat) : (rollbackRow id).id = id :=
  rfl

theorem undoneRow_rollback (target id : Nat) :
    undoneRow target id (rollbackRow id) = rollbackRow id := by
  simp [undoneRow, rollbackRow]

theorem txnRow_id {db : Db} {id : Nat} {row : TxnRow}
    (found : txnRow db id = some row) : row.id = id :=
  key_of_find? found

/-! ## One rollback -/

/-- A snapshot that was taken before `target`, at some time before now. -/
structure SoundSnapshot (current : Db) (target : Nat) (snapshot : Db) :
    Prop where
  numbered : Numbered snapshot
  newest : snapshot.lastId = target
  older : target ≤ current.lastId
  metas : ∀ row ∈ snapshot.metas, row.txnId < target

/-- Where each row of the merged database comes from. -/
structure Merged (target : Nat) (kernel : Option Bytes)
    (current snapshot db : Db) : Prop where
  distinct : (db.transactions.map TxnRow.id).Nodup
  lastId : db.lastId = current.lastId + 1
  rows : ∀ id, txnRow db id =
    if id = current.lastId + 1 then some (rollbackRow id)
    else if target ≤ id then (txnRow current id).map (undoneFrom target)
    else txnRow snapshot id
  metas : ∀ id, metaRow db id =
    if id = current.lastId + 1 then some ⟨id, kernel, false⟩
    else if target ≤ id then metaRow current id
    else metaRow snapshot id

section

variable {target : Nat} {current snapshot : Db} {kernel : Option Bytes}

theorem SoundSnapshot.metaRow_none
    (sound : SoundSnapshot current target snapshot) {id : Nat}
    (newer : target ≤ id) : metaRow snapshot id = none := by
  rw [metaRow, List.find?_eq_none]
  intro row member same
  have bound := sound.metas row member
  rw [of_decide_eq_true same] at bound
  omega

theorem txnRow_none {db : Db} (numbered : Numbered db) {id : Nat}
    (newer : db.lastId < id) : txnRow db id = none := by
  rw [← Option.not_isSome_iff_eq_none, numbered.txnRow_iff]
  omega

theorem metaRow_none {db : Db} (numbered : Numbered db) {id : Nat}
    (absent : ¬ (txnRow db id).isSome) : metaRow db id = none := by
  rw [metaRow, List.find?_eq_none]
  intro row member same
  apply absent
  rw [numbered.txnRow_iff, ← of_decide_eq_true same]
  exact numbered.recorded row member

/-- No transaction disappears. -/
theorem SoundSnapshot.known (sound : SoundSnapshot current target snapshot)
    (numbered : Numbered current) {id : Nat} :
    (txnRow snapshot id).isSome → (txnRow current id).isSome := by
  rw [sound.numbered.txnRow_iff, numbered.txnRow_iff, sound.newest]
  exact fun bounds => ⟨bounds.1, bounds.2.trans sound.older⟩

theorem Numbered.known {db : Db} (numbered : Numbered db) {id : Nat}
    (recorded : (metaRow db id).isSome) : (txnRow db id).isSome := by
  by_contra absent
  rw [metaRow_none numbered absent] at recorded
  cases recorded

/-- The rows that the first two statements leave. -/
theorem SoundSnapshot.rows (sound : SoundSnapshot current target snapshot)
    (numbered : Numbered current) (id : Nat) :
    txnRow (takeHistory target current snapshot) id =
      if target ≤ id then txnRow current id else txnRow snapshot id := by
  rw [txnRow_takeHistory]
  have known : (txnRow snapshot id).isSome → (txnRow current id).isSome :=
    sound.known numbered
  split
  · cases present : txnRow current id with
    | some row => rfl
    | none =>
        rw [present] at known
        exact Option.not_isSome_iff_eq_none.mp fun isSome =>
          Bool.false_ne_true (known isSome)
  · exact Option.none_or

theorem SoundSnapshot.metaRows
    (sound : SoundSnapshot current target snapshot) (id : Nat) :
    metaRow (takeHistory target current snapshot) id =
      if target ≤ id then metaRow current id else metaRow snapshot id := by
  rw [metaRow_takeHistory]
  split
  next newer => rw [sound.metaRow_none newer, Option.or_none]
  · exact Option.none_or

theorem takeHistory_lastId_le (sound : SoundSnapshot current target snapshot)
    (numbered : Numbered current) :
    (takeHistory target current snapshot).lastId ≤ current.lastId := by
  have base : ∀ ids : List Nat, (∀ id ∈ ids, id ≤ current.lastId) →
      ids.foldr max snapshot.lastId ≤ current.lastId := by
    intro ids within
    induction ids with
    | nil => exact sound.newest ▸ sound.older
    | cons id ids induction =>
        exact max_le (within id List.mem_cons_self)
          (induction fun other member =>
            within other (List.mem_cons_of_mem id member))
  apply base
  intro id member
  obtain ⟨row, inRows, rfl⟩ := List.mem_map.mp member
  exact ((numbered.ids _).mp
    (List.mem_map_of_mem (List.mem_of_mem_filter inRows))).2

/-- The rollback goes through, and merges the two histories. -/
theorem rollbackBtrfs_merged (numbered : Numbered current)
    (sound : SoundSnapshot current target snapshot)
    (kernel : Option Bytes) :
    ∃ db, rollbackBtrfs target kernel current snapshot = .ok db ∧
      Merged target kernel current snapshot db := by
  have fresh : txnRow (takeHistory target current snapshot)
      (current.lastId + 1) = none := by
    rw [sound.rows numbered, if_pos (by have := sound.older; omega)]
    exact txnRow_none numbered (Nat.lt_succ_self _)
  have noMeta : metaRow (takeHistory target current snapshot)
      (current.lastId + 1) = none := by
    rw [sound.metaRows, if_pos (by have := sound.older; omega)]
    apply metaRow_none numbered
    rw [numbered.txnRow_iff]
    omega
  obtain ⟨db, inserted⟩ : ∃ db, insertTxn (rollbackRow (current.lastId + 1))
      (takeHistory target current snapshot) = .ok db := by
    unfold insertTxn
    rw [if_neg (by simp [rollbackRow, fresh])]
    exact ⟨_, rfl⟩
  refine ⟨withKernel (current.lastId + 1) kernel
    (undone target (current.lastId + 1) db), ?_, ?_⟩
  · rw [rollbackBtrfs, numbered.maxTxnId]
    simp only [inserted]
    rfl
  constructor
  · have merged : ((takeHistory target current snapshot).transactions.map
        TxnRow.id).Nodup :=
      nodup_upsertRows
        (numbered.distinct.sublist (List.filter_sublist.map TxnRow.id))
        sound.numbered.distinct
    have sameIds : ((undone target (current.lastId + 1) db).transactions.map
        TxnRow.id) = db.transactions.map TxnRow.id := by
      rw [undone, List.map_map]
      exact List.map_congr_left fun row _ => undoneRow_id _ _ row
    exact sameIds ▸ distinct_insertTxn inserted merged
  · have bound := takeHistory_lastId_le sound numbered
    rw [lastId_withKernel, lastId_undone, lastId_insertTxn inserted]
    exact max_eq_right (bound.trans (Nat.le_succ _))
  · intro id
    rw [txnRow_withKernel, txnRow_undone, txnRow_insertTxn inserted,
      sound.rows numbered, rollbackRow_id]
    by_cases isNew : id = current.lastId + 1
    · rw [if_pos isNew, if_pos isNew, isNew, Option.map_some,
        undoneRow_rollback]
    · rw [if_neg isNew, if_neg isNew]
      by_cases newer : target ≤ id
      · rw [if_pos newer, if_pos newer]
        apply Option.map_congr
        intro row found
        have present : (txnRow current id).isSome := found ▸ rfl
        have within := (numbered.txnRow_iff.mp present).2
        have same := txnRow_id found
        exact undoneRow_eq (by omega)
      · rw [if_neg newer, if_neg newer]
        cases found : txnRow snapshot id with
        | none => rfl
        | some row =>
            have same := txnRow_id found
            rw [Option.map_some, undoneRow_older (by omega)]
  · intro id
    have unpinned : isPinned (undone target (current.lastId + 1) db)
        (current.lastId + 1) = false := by
      rw [isPinned, deployMeta, metaRow_undone, metaRow_insertTxn inserted,
        noMeta]
      rfl
    rw [metaRow_withKernel, metaRow_undone, metaRow_insertTxn inserted,
      sound.metaRows, unpinned]
    by_cases isNew : id = current.lastId + 1
    · rw [if_pos isNew, if_pos isNew.symm, isNew]
    · rw [if_neg isNew, if_neg (Ne.symm isNew)]

/-- The history goes on exactly when the snapshot has the older part of it. -/
theorem Merged.keepsHistory_iff {db : Db} (numbered : Numbered current)
    (sound : SoundSnapshot current target snapshot)
    (merged : Merged target kernel current snapshot db) :
    KeepsHistory target current db ↔ SameOlder target snapshot current := by
  have older := sound.older
  constructor
  · intro kept id isOlder
    have oldRow := merged.rows id
    have oldMeta := merged.metas id
    rw [if_neg (by omega), if_neg (by omega)] at oldRow oldMeta
    by_cases present : (txnRow current id).isSome
    · rw [← oldRow, ← oldMeta, kept.rows id present, kept.metas id present]
      refine ⟨?_, rfl⟩
      cases found : txnRow current id with
      | none => rfl
      | some row =>
          have same := txnRow_id found
          rw [Option.map_some, undoneFrom_older (by omega)]
    · -- The snapshot has no more transactions than there are now.
      have unknown : ¬ (txnRow snapshot id).isSome := fun known =>
        present (sound.known numbered known)
      rw [metaRow_none numbered present, metaRow_none sound.numbered unknown,
        Option.not_isSome_iff_eq_none.mp present,
        Option.not_isSome_iff_eq_none.mp unknown]
      exact ⟨rfl, rfl⟩
  · intro same
    constructor
    · intro id present
      have within := (numbered.txnRow_iff.mp present).2
      rw [merged.rows, if_neg (by omega)]
      split
      · rfl
      next isOlder =>
        rw [(same id (by omega)).1]
        cases found : txnRow current id with
        | none => rfl
        | some row =>
            have sameId := txnRow_id found
            rw [Option.map_some, undoneFrom_older (by omega)]
    · intro id present
      have within := (numbered.txnRow_iff.mp present).2
      rw [merged.metas, if_neg (by omega)]
      split
      · rfl
      · exact (same id (by omega)).2
    · intro id absent
      rw [merged.rows, numbered.maxTxnId]
      split
      · rfl
      · split
        · rw [absent, Option.map_none]
        · rw [(same id (by omega)).1, absent]

end

/-! ## All runs -/

structure Roots.Sound (roots : Roots) : Prop where
  numbered : Numbered roots.current
  snapshots : ∀ taken ∈ roots.snapshots,
    SoundSnapshot roots.current taken.1 taken.2

theorem SoundSnapshot.later {current later snapshot : Db} {target : Nat}
    (sound : SoundSnapshot current target snapshot)
    (grown : current.lastId ≤ later.lastId) :
    SoundSnapshot later target snapshot :=
  ⟨sound.numbered, sound.newest, sound.older.trans grown, sound.metas⟩

/-- A snapshot that is taken right after its transaction is there. -/
theorem soundSnapshot_of_opened {current db : Db}
    (numbered : Numbered current) (op : Bytes)
    (grown : current.lastId + 1 ≤ db.lastId) :
    SoundSnapshot db (current.lastId + 1) (opened op current) := by
  refine ⟨numbered.opened op, rfl, grown, ?_⟩
  intro row member
  exact Nat.lt_succ_of_le (numbered.recorded row member).2

theorem leftBehind_sound {current db : Db} (numbered : Numbered current)
    (grown : current.lastId + 1 ≤ db.lastId) :
    SoundSnapshot db (current.lastId + 1)
      (leftBehind (current.lastId + 1) current) := by
  have begun := soundSnapshot_of_opened numbered (ascii "rollback") grown
  refine ⟨?_, rfl, grown, begun.metas⟩
  unfold leftBehind
  apply Numbered.updateTxn
  · apply begun.numbered.updateTxn
    intro row
    rfl
  · intro row
    rfl

theorem Merged.numbered {target : Nat} {kernel : Option Bytes}
    {current snapshot db : Db} (numbered : Numbered current)
    (sound : SoundSnapshot current target snapshot)
    (merged : Merged target kernel current snapshot db) : Numbered db := by
  have newest := sound.newest
  have older := sound.older
  have rows : ∀ id, (txnRow db id).isSome ↔ 1 ≤ id ∧ id ≤ db.lastId := by
    intro id
    rw [merged.rows, merged.lastId]
    split
    next isNew =>
      simp only [Option.isSome_some, true_iff]
      omega
    · split
      · rw [Option.isSome_map, numbered.txnRow_iff]
        omega
      · rw [sound.numbered.txnRow_iff]
        omega
  have metas : ∀ id, (metaRow db id).isSome →
      1 ≤ id ∧ id ≤ db.lastId := by
    intro id recorded
    rw [merged.metas] at recorded
    rw [merged.lastId]
    split at recorded
    · omega
    · split at recorded
      · have known := numbered.txnRow_iff.mp (numbered.known recorded)
        omega
      · have known := sound.numbered.txnRow_iff.mp
          (sound.numbered.known recorded)
        omega
  refine ⟨merged.distinct, fun id => mem_ids_iff.trans (rows id), ?_⟩
  intro row member
  apply metas
  rw [metaRow, List.find?_isSome]
  exact ⟨row, member, by simp⟩

theorem RootsStep.sound {before after : Roots}
    (step : RootsStep before after) (sound : before.Sound) : after.Sound := by
  cases step with
  | statement history =>
      exact ⟨history.numbered sound.numbered, fun taken member =>
        (sound.snapshots taken member).later history.lastId_le⟩
  | snapshot op =>
      refine ⟨sound.numbered.opened op, ?_⟩
      intro taken member
      rcases List.mem_cons.mp member with rfl | earlier
      · exact soundSnapshot_of_opened sound.numbered op (le_refl _)
      · exact (sound.snapshots taken earlier).later (Nat.le_succ _)
  | rollback kernel taken result =>
      have taken := sound.snapshots _ taken
      obtain ⟨db, outcome, merged⟩ :=
        rollbackBtrfs_merged sound.numbered taken kernel
      rw [result] at outcome
      cases outcome
      refine ⟨merged.numbered sound.numbered taken, ?_⟩
      intro other member
      rw [sound.numbered.maxTxnId] at member
      rcases List.mem_cons.mp member with rfl | earlier
      · exact leftBehind_sound sound.numbered merged.lastId.ge
      · apply (sound.snapshots other earlier).later
        rw [merged.lastId]
        exact Nat.le_succ _

theorem Reached.sound {roots : Roots} (reached : Reached roots) :
    roots.Sound := by
  induction reached with
  | refl =>
      refine ⟨numbered_empty, ?_⟩
      intro taken member
      cases member
  | tail _ step induction => exact step.sound induction

/-- After any run, going back to before `target` keeps the history exactly
when what is older than `target` is still as it was when the snapshot was
taken. -/
theorem rollbackBtrfs_keepsHistory_iff {roots : Roots}
    (reached : Reached roots) {target : Nat} {snapshot : Db}
    (taken : (target, snapshot) ∈ roots.snapshots)
    (kernel : Option Bytes) :
    ∃ db, rollbackBtrfs target kernel roots.current snapshot = .ok db ∧
      (KeepsHistory target roots.current db ↔
        SameOlder target snapshot roots.current) := by
  have sound := reached.sound
  have snapshotSound := sound.snapshots _ taken
  obtain ⟨db, outcome, merged⟩ :=
    rollbackBtrfs_merged sound.numbered snapshotSound kernel
  exact ⟨db, outcome, merged.keepsHistory_iff sound.numbered snapshotSound⟩

/-! ## A pin on an older deployment -/

def firstInstall : Db :=
  opened (ascii "install") .empty

/-- The database as the snapshot before the second transaction has it. -/
def beforeUpdate : Db :=
  opened (ascii "update")
    (firstInstall.updateTxn 1 ({ · with status := .ok }))

def afterUpdate : Db :=
  beforeUpdate.updateTxn 2 ({ · with status := .ok })

def updatedRoots : Roots :=
  ⟨afterUpdate, [(2, beforeUpdate), (1, firstInstall)]⟩

theorem updatedRoots_reached : Reached updatedRoots := by
  have installing : Reached ⟨firstInstall, [(1, firstInstall)]⟩ :=
    Relation.ReflTransGen.single (.snapshot (ascii "install"))
  have installed : Reached ⟨firstInstall.updateTxn 1
      ({ · with status := .ok }), [(1, firstInstall)]⟩ :=
    installing.tail (.statement (.txnFinish 1 .ok))
  have updating : Reached
      ⟨beforeUpdate, [(2, beforeUpdate), (1, firstInstall)]⟩ :=
    installed.tail (.snapshot (ascii "update"))
  exact updating.tail (.statement (.txnFinish 2 .ok))

theorem updatedRoots_keepsHistory :
    ∃ db, rollbackBtrfs 2 none afterUpdate beforeUpdate = .ok db ∧
      KeepsHistory 2 afterUpdate db := by
  obtain ⟨db, outcome, kept⟩ :=
    rollbackBtrfs_keepsHistory_iff updatedRoots_reached
      (List.mem_cons_self : (2, beforeUpdate) ∈ updatedRoots.snapshots) none
  refine ⟨db, outcome, kept.mpr ?_⟩
  unfold SameOlder
  decide

/-- Deployment 1 is pinned after the snapshot has been taken. -/
def pinnedRoots : Roots :=
  { updatedRoots with current := withPin 1 true afterUpdate }

theorem pinnedRoots_reached : Reached pinnedRoots :=
  updatedRoots_reached.tail (.statement (.pin 1 true (by decide)))

theorem pin_lost :
    ¬ ∀ roots, Reached roots → ∀ target snapshot,
      (target, snapshot) ∈ roots.snapshots → ∀ kernel db,
        rollbackBtrfs target kernel roots.current snapshot = .ok db →
          KeepsHistory target roots.current db := by
  intro claim
  have kept := claim pinnedRoots pinnedRoots_reached 2 beforeUpdate
    List.mem_cons_self none _ rfl
  have pinned := kept.metas 1 (by decide)
  revert pinned
  decide

end SaltOS.Deploy
