import SaltOS.Base.Aside
import SaltOS.Deploy.Restore
import SaltOS.Deploy.RollbackBtrfs
import SaltOS.Deploy.StateDirs

/-!
# What pruning keeps

`salt_deploy_prune` counts every deployment that carries a snapshot, whatever
became of its transaction, and drops those without a pin behind the newest
ones.  A deployment that went through can so lose its snapshot to one that
failed.
-/

namespace SaltOS.Deploy

open Lib Disk Txn Util

/-! ## The rows behind the newest ones -/

/-- What is left of a descending list after its first items are those with
enough items before them. -/
theorem mem_drop_iff {ρ : Type} {key : ρ → Nat} {rows : List ρ}
    (descending : rows.Pairwise fun first second => key second < key first)
    {row : ρ} {count : Nat} :
    row ∈ rows.drop count ↔
      row ∈ rows ∧ count ≤ rows.countP fun other => key row < key other := by
  induction rows generalizing count with
  | nil => simp
  | cons head tail induction =>
      obtain ⟨newest, others⟩ := List.pairwise_cons.mp descending
      cases count with
      | zero => simp
      | succ count =>
          rw [List.drop_succ_cons, induction others, List.countP_cons]
          by_cases inTail : row ∈ tail
          · simp [inTail, newest row inTail]
          · by_cases isHead : row = head
            · have none : tail.countP (fun other => key row < key other) = 0 := by
                rw [List.countP_eq_zero]
                intro other member
                have smaller := newest other member
                simpa [isHead] using smaller.le
              have notNewer : ¬ key row < key head := isHead ▸ lt_irrefl _
              simp [inTail, notNewer, none]
            · simp [inTail, isHead]

theorem deployments_descending {db : Db}
    (distinct : (db.transactions.map TxnRow.id).Nodup) :
    (deployments db).Pairwise fun first second => second.id < first.id := by
  let newerFirst (first second : TxnRow) : Prop := second.id ≤ first.id
  have total : Std.Total newerFirst := ⟨fun first second => le_total _ _⟩
  have transitive : IsTrans TxnRow newerFirst :=
    ⟨fun first second third left right => le_trans right left⟩
  have sorted : (deployments db).Pairwise newerFirst :=
    List.pairwise_insertionSort newerFirst db.transactions
  have permuted : ((deployments db).map TxnRow.id).Nodup :=
    ((List.perm_insertionSort _ db.transactions).map TxnRow.id).nodup_iff.mpr
      distinct
  have apart := List.pairwise_map.mp permuted
  exact sorted.imp₂ (fun first second ordered differ =>
    lt_of_le_of_ne ordered (Ne.symm differ)) apart

theorem mem_deployments {db : Db} {row : TxnRow} :
    row ∈ deployments db ↔ row ∈ db.transactions :=
  List.mem_insertionSort _

/-- How many deployments without a pin that carry a snapshot are newer. -/
def newerCarriers (db : Db) (row : TxnRow) : Nat :=
  db.transactions.countP fun other =>
    (carries other && !isPinned db other.id) && decide (row.id < other.id)

theorem mem_victims_iff {db : Db} {keep : Nat} {row : TxnRow}
    (distinct : (db.transactions.map TxnRow.id).Nodup) :
    row ∈ victims db keep ↔
      row ∈ db.transactions ∧ carries row = true ∧
        isPinned db row.id = false ∧ keep ≤ newerCarriers db row := by
  have descending := (deployments_descending distinct).filter
    fun row => carries row && !isPinned db row.id
  have counted : ((deployments db).filter fun row =>
      carries row && !isPinned db row.id).countP
        (fun other => row.id < other.id) = newerCarriers db row := by
    rw [List.countP_filter, newerCarriers]
    refine ((List.perm_insertionSort _ db.transactions).countP_eq _).trans ?_
    congr 1
    funext other
    exact Bool.and_comm _ _
  rw [victims, mem_drop_iff descending, counted, List.mem_filter,
    mem_deployments]
  simp [and_assoc]

/-! ## One round -/

/-- Deleting a snapshot leaves the state directories alone. -/
def LeavesState (delete : DeleteSubvolume) (root : Bytes) (stateTop : Loc) :
    Prop :=
  ∀ path before after, delete path before = some after →
    StateTree before root stateTop → StateTree after root stateTop ∧
      ∀ id, KeptState stateTop id before after

/-- The row, with its snapshot, and the state directory of a deployment are as
before. -/
structure Retained (stateTop : Loc) (row : TxnRow) (before after : World) :
    Prop where
  found : txnRow after.db row.id = txnRow before.db row.id
  state : KeptState stateTop row.id before.disk after.disk

section

variable {delete : DeleteSubvolume} {root : Bytes} {stateTop : Loc}
  {world : World}

theorem Retained.refl (row : TxnRow) (world : World) :
    Retained stateTop row world world :=
  ⟨rfl, KeptState.refl world.disk⟩

theorem Retained.trans {row : TxnRow} {before middle after : World}
    (first : Retained stateTop row before middle)
    (second : Retained stateTop row middle after) :
    Retained stateTop row before after :=
  ⟨second.found.trans first.found, first.state.trans second.state⟩

/-- So far another deployment has been left alone. -/
def Spares (root : Bytes) (stateTop : Loc) (row : TxnRow)
    (start world : World) : Prop :=
  StateTree world.disk root stateTop ∧ Retained stateTop row start world

/-- A call in one state directory leaves the other deployments alone. -/
theorem onDisk_spares {α : Type} {start : World}
    {program : EStateM Failure (Disk Content) α} {id : Nat} {row : TxnRow}
    {bad : Failure → World → Prop} (differ : row.id ≠ id)
    (ends : EndsIn (program world.disk) fun after =>
      StateTree after root stateTop ∧
        OnlyState stateTop id world.disk after)
    (spares : Spares root stateTop row start world) :
    Ends ((ignore (onDisk program) : Io Unit) world)
      (fun _ after => Spares root stateTop row start after) bad := by
  refine Ends.ignore ((onDisk_endsIn ends).endsIn ?_ ?_) <;>
  · rintro _ after ⟨⟨tree, only⟩, same⟩
    rw [same]
    exact ⟨tree, spares.2.trans ⟨rfl, only.kept differ⟩⟩

theorem dropSnapshot_spares (leaves : LeavesState delete root stateTop)
    (row : TxnRow) (snapshot : Bytes)
    (tree : StateTree world.disk root stateTop)
    {bad : Failure → World → Prop} :
    Ends (dropSnapshot delete root snapshot world)
      (fun _ after => Spares root stateTop row world after) bad := by
  unfold dropSnapshot
  extract_lets full
  split
  · split
    next disk deleted =>
      obtain ⟨treeAfter, kept⟩ := leaves full world.disk disk deleted tree
      exact ⟨treeAfter, rfl, kept row.id⟩
    · exact ⟨tree, Retained.refl row world⟩
  · exact ⟨tree, Retained.refl row world⟩

/-- The statement of a round is about its own row. -/
theorem withoutSnapshot_spares {start : World} {row : TxnRow} {id : Nat}
    (differ : row.id ≠ id) (spares : Spares root stateTop row start world)
    {bad : Failure → World → Prop} :
    Ends ((ignore (Sql.update (some (ascii "db: ")) (withoutSnapshot id)) :
        Io Unit) world)
      (fun _ after => Spares root stateTop row start after) bad := by
  apply Ends.ignore
  unfold Sql.update Sql.statement
  split
  · exact ⟨spares.1, spares.2.found, spares.2.state⟩
  · refine ⟨spares.1, spares.2.trans ⟨?_, KeptState.refl _⟩⟩
    have sameId : ∀ other : TxnRow, ({ other with snapshot := none }).id =
      other.id := fun _ => rfl
    rw [withoutSnapshot, txnRow_updateTxn sameId]
    cases found : txnRow world.db row.id with
    | none => rfl
    | some other =>
        have isRow := txnRow_id found
        rw [Option.map_some, if_neg (by omega)]

/-- Another deployment keeps everything. -/
theorem pruneDeployment_spares (leaves : LeavesState delete root stateTop)
    {victim row : TxnRow} (differ : row.id ≠ victim.id)
    (tree : StateTree world.disk root stateTop)
    {bad : Failure → World → Prop} :
    Ends (pruneDeployment delete root victim world)
      (fun _ after => Spares root stateTop row world after) bad := by
  apply Ends.bind (dropSnapshot_spares leaves row _ tree)
  intro gone first spares
  apply Ends.ite
  · intro _
    have removed := @removeTree_state stateTop root victim.id first.disk
      spares.1 (ascii "backup") (by decide)
    apply Ends.bind (onDisk_spares differ removed spares)
    intro _ second spares
    have unlinked : EndsIn ((ignore (Disk.unlink (addedPath root victim.id) :
        EStateM Errno (Disk Content) Unit) : DiskIo Unit) second.disk) _ :=
      Ends.ignore (@unlink_state stateTop root victim.id second.disk spares.1
        (ascii "added.list") (by decide))
    apply Ends.bind (onDisk_spares differ unlinked spares)
    intro _ third spares
    exact withoutSnapshot_spares differ spares
  · intro _
    exact spares

/-- Whatever goes wrong, what is not among the victims is retained. -/
theorem prune_retains (leaves : LeavesState delete root stateTop)
    {keep : Nat} {row : TxnRow}
    (notVictim : ∀ victim ∈ victims world.db (max keep 1),
      row.id ≠ victim.id)
    (tree : StateTree world.disk root stateTop) :
    EndsIn (prune delete root keep world) fun after =>
      Retained stateTop row world after := by
  have begun : Ends (ensureSchema world)
      (fun _ after => after.db = world.db ∧ after.disk = world.disk)
      (fun _ after => after.db = world.db ∧ after.disk = world.disk) := by
    unfold ensureSchema Sql.update Sql.statement
    split <;> exact ⟨rfl, rfl⟩
  have same : ∀ after : World,
      after.db = world.db ∧ after.disk = world.disk →
        Spares root stateTop row world after := by
    rintro after ⟨db, disk⟩
    refine ⟨disk ▸ tree, ⟨by rw [db], ?_⟩⟩
    rw [disk]
    exact KeptState.refl _
  apply Ends.bind (begun.mono (fun _ _ both => both)
    (fun _ after both => (same after both).2))
  intro _ between both
  apply Ends.bindOk rfl
  have spared : ∀ victim ∈ victims between.db (max keep 1),
      row.id ≠ victim.id := by
    rw [both.1]
    exact notVictim
  have looped : Ends ((victims between.db (max keep 1)).forM
      (pruneDeployment delete root) between)
      (fun _ after => Spares root stateTop row world after)
      (fun _ after => Spares root stateTop row world after) := by
    apply Ends.forM_mem (same between both)
    intro victim member before spares
    have round : Ends (pruneDeployment delete root victim before)
        (fun _ after => Spares root stateTop row before after)
        (fun _ _ => False) :=
      pruneDeployment_spares leaves (spared victim member) spares.1
    exact round.mono
      (fun _ after more => ⟨more.1, spares.2.trans more.2⟩)
      (fun _ _ never => never.elim)
  exact looped.mono (fun _ _ spares => spares.2) fun _ _ spares => spares.2

/-! ## Without failures -/

/-- No statement fails, and every snapshot can be deleted. -/
structure Quiet (delete : DeleteSubvolume) (world : World) : Prop where
  statements : world.sqlFaults = []
  deletes : ∀ path disk, (delete path disk).isSome

/-- Only the disk and the row of the deployment change. -/
theorem pruneDeployment_quiet (quiet : Quiet delete world) (victim : TxnRow)
    {bad : Failure → World → Prop} :
    Ends (pruneDeployment delete root victim world)
      (fun _ after => Quiet delete after ∧
        after.db = withoutSnapshot victim.id world.db) bad := by
  have calm : ∀ disk : Disk Content,
      Quiet delete { world with disk := disk } ∧
        ({ world with disk := disk } : World).db = world.db :=
    fun disk => ⟨⟨quiet.statements, quiet.deletes⟩, rfl⟩
  have dropped : Ends (dropSnapshot delete root (victim.snapshot.getD [])
      world) (fun gone after => gone = true ∧ Quiet delete after ∧
        after.db = world.db) bad := by
    unfold dropSnapshot
    extract_lets full
    split
    · obtain ⟨disk, deleted⟩ :=
        Option.isSome_iff_exists.mp (quiet.deletes full world.disk)
      rw [deleted]
      exact ⟨rfl, calm disk⟩
    · exact ⟨rfl, quiet, rfl⟩
  have silent : ∀ {program : DiskIo Unit} {between : World},
      Quiet delete between ∧ between.db = world.db →
        Ends ((ignore (onDisk program) : Io Unit) between)
          (fun _ after => Quiet delete after ∧ after.db = world.db) bad := by
    rintro program between ⟨still, same⟩
    apply Ends.ignore
    unfold onDisk
    cases program between.disk <;>
      exact ⟨⟨still.statements, still.deletes⟩, same⟩
  apply Ends.bind dropped
  rintro gone first ⟨rfl, still⟩
  rw [if_pos rfl]
  apply Ends.bind (silent still)
  intro _ second still
  apply Ends.bind (silent still)
  rintro _ third ⟨still, same⟩
  apply Ends.ignore
  unfold Sql.update Sql.statement
  rw [still.statements]
  exact ⟨⟨rfl, still.deletes⟩, by rw [← same]⟩

/-- No row with the id carries a snapshot. -/
def Dropped (db : Db) (id : Nat) : Prop :=
  ∀ row, txnRow db id = some row → row.snapshot = none

theorem dropped_withoutSnapshot {db : Db} {id other : Nat}
    (dropped : id = other ∨ Dropped db other) :
    Dropped (withoutSnapshot id db) other := by
  intro row found
  have sameId : ∀ before : TxnRow, ({ before with snapshot := none }).id =
    before.id := fun _ => rfl
  rw [withoutSnapshot, txnRow_updateTxn sameId] at found
  obtain ⟨before, foundBefore, isRow⟩ := Option.map_eq_some_iff.mp found
  split at isRow
  · rw [← isRow]
  next differ =>
    rcases dropped with rfl | already
    · exact absurd (txnRow_id foundBefore) differ
    · exact isRow ▸ already before foundBefore

/-- A victim loses its snapshot. -/
theorem prune_drops (quiet : Quiet delete world) {keep : Nat} {row : TxnRow}
    (isVictim : row ∈ victims world.db (max keep 1)) :
    EndsIn (prune delete root keep world) fun after =>
      Dropped after.db row.id := by
  have begun : Ends (ensureSchema world)
      (fun _ after => Quiet delete after ∧ after.db = world.db)
      (fun _ after => Dropped after.db row.id) := by
    unfold ensureSchema Sql.update Sql.statement
    rw [quiet.statements]
    exact ⟨⟨rfl, quiet.deletes⟩, rfl⟩
  apply Ends.bind begun
  rintro _ between ⟨calm, same⟩
  apply Ends.bindOk rfl
  -- Until its round comes, the row is among the victims that are left.
  let pending (rest : List TxnRow) (after : World) : Prop :=
    Quiet delete after ∧ (row ∈ rest ∨ Dropped after.db row.id)
  have initial : pending (victims between.db (max keep 1)) between :=
    ⟨calm, .inl (same ▸ isVictim)⟩
  have looped : Ends ((victims between.db (max keep 1)).forM
      (pruneDeployment delete root) between)
      (fun _ after => pending [] after) (fun _ _ => False) := by
    apply Ends.forM initial
    rintro victim rest before ⟨still, left⟩
    refine (pruneDeployment_quiet still victim).mono ?_ fun _ _ never => never
    rintro _ after ⟨quietAfter, isAfter⟩
    refine ⟨quietAfter, ?_⟩
    rw [isAfter]
    rcases left with inList | already
    · rcases List.mem_cons.mp inList with rfl | later
      · exact .inr (dropped_withoutSnapshot (.inl rfl))
      · exact .inl later
    · exact .inr (dropped_withoutSnapshot (.inr already))
  refine looped.mono ?_ fun _ _ never => never.elim
  rintro _ after ⟨_, inNone | dropped⟩
  · cases inNone
  · exact dropped

end

/-! ## The promise -/

/-- The newest deployments that went through and carry a snapshot. -/
def promised (db : Db) (keep : Nat) : List TxnRow :=
  ((deployments db).filter fun row =>
    row.status = .ok && carries row).take keep

/-- Too few others carry a snapshot for this one to be pruned. -/
def Spared (db : Db) (keep : Nat) (row : TxnRow) : Prop :=
  isPinned db row.id = true ∨ newerCarriers db row < keep

theorem mem_of_promised {db : Db} {keep : Nat} {row : TxnRow}
    (isPromised : row ∈ promised db keep) :
    row ∈ db.transactions ∧ carries row = true := by
  have inFilter := List.mem_of_mem_take isPromised
  obtain ⟨member, both⟩ := List.mem_filter.mp inFilter
  rw [Bool.and_eq_true] at both
  exact ⟨mem_deployments.mp member, both.2⟩

/-- After every history, pruning retains a promised deployment exactly when
it is pinned or fewer than `keep` deployments without a pin that carry a
snapshot, those of failed transactions among them, are newer. -/
theorem prune_retains_iff {delete : DeleteSubvolume} {root : Bytes}
    {stateTop : Loc} {world : World} {snapshots : List (Nat × Db)}
    (reached : Reached ⟨world.db, snapshots⟩)
    (tree : StateTree world.disk root stateTop)
    (leaves : LeavesState delete root stateTop)
    {keep : Nat} (positive : 1 ≤ keep) :
    EndsIn (prune delete root keep world) fun after =>
      ∀ row ∈ promised world.db keep,
        (Spared world.db keep row → Retained stateTop row world after) ∧
        (Quiet delete world → Retained stateTop row world after →
          Spared world.db keep row) := by
  have distinct := reached.sound.numbered.distinct
  rw [endsIn_iff]
  intro row isPromised
  obtain ⟨member, carried⟩ := mem_of_promised isPromised
  have victim_iff : row ∈ victims world.db (max keep 1) ↔
      row ∈ world.db.transactions ∧ carries row = true ∧
        isPinned world.db row.id = false ∧
          max keep 1 ≤ newerCarriers world.db row :=
    mem_victims_iff distinct
  rw [max_eq_left positive] at victim_iff
  constructor
  · intro spared
    refine endsIn_iff.mp (prune_retains leaves ?_ tree)
    rw [max_eq_left positive]
    intro victim inVictims sameId
    have inRows := ((mem_victims_iff distinct).mp inVictims).1
    have isRow : row = victim :=
      List.inj_on_of_nodup_map distinct member inRows sameId
    obtain ⟨-, -, unpinned, many⟩ := victim_iff.mp (isRow ▸ inVictims)
    rcases spared with pinned | few
    · rw [unpinned] at pinned
      cases pinned
    · omega
  · intro quiet retained
    by_contra notSpared
    have isVictim : row ∈ victims world.db (max keep 1) := by
      rw [max_eq_left positive]
      refine victim_iff.mpr ⟨member, carried, ?_, ?_⟩
      · rw [← Bool.not_eq_true]
        exact fun pinned => notSpared (.inl pinned)
      · by_contra few
        exact notSpared (.inr (Nat.lt_of_not_le few))
    have dropped : Dropped (finalState (prune delete root keep world)).db
        row.id := endsIn_iff.mp (prune_drops quiet isVictim)
    have found : txnRow world.db row.id = some row :=
      find?_of_distinct distinct member
    have isNone := dropped row (retained.found.trans found)
    rw [carries, isNone] at carried
    cases carried

/-! ## A transaction that failed -/

/-- A whole transaction on a root that is not Btrfs. -/
def transact (op : Bytes) (status : Status) (db : Db) : Db :=
  let begun := opened op db
  let named := begun.updateTxn begun.lastId
    ({ · with snapshot := some (txnName begun.lastId) })
  named.updateTxn begun.lastId ({ · with status := status })

theorem transact_reached {db : Db} {snapshots : List (Nat × Db)}
    (reached : Reached ⟨db, snapshots⟩) (op : Bytes) (status : Status) :
    Reached ⟨transact op status db, snapshots⟩ := by
  have begun : Reached ⟨opened op db, snapshots⟩ :=
    reached.tail (.statement (.txnNew op))
  have named := begun.tail
    (.statement (.txnSetSnapshot (db.lastId + 1) (txnName (db.lastId + 1))))
  exact named.tail (.statement (.txnFinish (db.lastId + 1) status))

/-- A root with nothing but the directory of the state directories. -/
def stateDisk : Disk Content :=
  finalState (Util.mkdirs (stateDir (ascii "/")) 493 ⟨.bare Content, [], []⟩)

def stateNames : List Name :=
  [ascii "var", ascii "lib", ascii "salt", ascii "state"]

theorem stateDisk_tree :
    StateTree stateDisk (ascii "/") (descend [] stateNames) := by
  have linkFree : stateDisk.fs.LinkFree := by decide +kernel
  constructor
  · have aside : Aside [descend [] stateNames] stateDisk
        (stateDir (ascii "/")) (descend [] stateNames) :=
      Aside.of_isDir (by decide) (by decide) (by decide) (by decide)
        (by decide +kernel) (by decide)
    exact aside.rooted List.mem_cons_self (by decide)
  · intro id target
    exact linkFree.leaf?_ne_link target

/-- Nothing is on Btrfs here. -/
def noSnapshots : DeleteSubvolume := fun _ disk => some disk

theorem noSnapshots_leavesState :
    LeavesState noSnapshots (ascii "/") (descend [] stateNames) := by
  intro path before after deleted tree
  cases deleted
  exact ⟨tree, fun id => KeptState.refl before⟩

def historyWorld (statuses : List Status) : World :=
  { emptyWorld with
    disk := stateDisk
    db := statuses.foldl (fun db status =>
      transact (ascii "install") status db) .empty }

theorem historyWorld_tree (statuses : List Status) :
    StateTree (historyWorld statuses).disk (ascii "/")
      (descend [] stateNames) := by
  unfold historyWorld
  dsimp only
  exact stateDisk_tree

theorem historyWorld_reached (statuses : List Status) :
    Reached ⟨(historyWorld statuses).db, []⟩ := by
  have later : ∀ db, Reached ⟨db, []⟩ → Reached ⟨statuses.foldl
      (fun db status => transact (ascii "install") status db) db, []⟩ := by
    induction statuses with
    | nil => exact fun db reached => reached
    | cons status statuses induction =>
        exact fun db reached =>
          induction _ (transact_reached reached (ascii "install") status)
  exact later .empty Relation.ReflTransGen.refl

/-- Of two deployments that went through, the newer one is retained. -/
theorem newest_retained :
    EndsIn (prune noSnapshots (ascii "/") 1 (historyWorld [.ok, .ok]))
      fun after => ∀ row ∈ promised (historyWorld [.ok, .ok]).db 1,
        Retained (descend [] stateNames) row (historyWorld [.ok, .ok])
          after := by
  have few : ∀ row ∈ promised (historyWorld [.ok, .ok]).db 1,
      newerCarriers (historyWorld [.ok, .ok]).db row < 1 := by
    decide +kernel
  have tree : StateTree (historyWorld [.ok, .ok]).disk (ascii "/")
      (descend [] stateNames) := historyWorld_tree [.ok, .ok]
  have reached := historyWorld_reached [.ok, .ok]
  generalize historyWorld [.ok, .ok] = world at *
  have retains := prune_retains_iff reached tree noSnapshots_leavesState
    (le_refl 1)
  rw [endsIn_iff] at retains ⊢
  intro row isPromised
  exact (retains row isPromised).1 (.inr (few row isPromised))

/-- Between two deployments that went through one failed; with two to be
kept, the older one loses its snapshot. -/
theorem failed_counts :
    ¬ EndsIn (prune noSnapshots (ascii "/") 2 (historyWorld [.ok, .failed, .ok]))
      fun after => ∀ row ∈ promised (historyWorld [.ok, .failed, .ok]).db 2,
        Retained (descend [] stateNames) row
          (historyWorld [.ok, .failed, .ok]) after := by
  intro kept
  have oldest := endsIn_iff.mp kept
    ⟨1, ascii "install", .ok, some (txnName 1)⟩ (by decide +kernel)
  have found := oldest.found
  revert found
  decide +kernel

end SaltOS.Deploy
