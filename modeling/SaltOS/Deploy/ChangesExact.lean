import SaltOS.Deploy.Changes
import SaltOS.Deploy.Restore

/-!
# The recorded changes are the difference

Of two tables in which no name comes up twice, the three joins of
`record_with_before` have one row for every name whose version or release
differs, and no other.  The rows turn the versions of the one table into those
of the other.
-/

namespace SaltOS.Deploy

open Lib Txn

/-! ## Names and versions -/

/-- The version and the release that a table has for a name. -/
def versionOf (packages : List PackageRow) (name : Bytes) :
    Option (Bytes × Int) :=
  (packages.find? fun row => row.name = name).map fun row =>
    (row.version, row.release)

/-- The same as the changes have it. -/
def labelOf (packages : List PackageRow) (name : Bytes) : Option Bytes :=
  (packages.find? fun row => row.name = name).map versionRelease

def ChangeRow.change (row : ChangeRow) : Change Bytes Bytes :=
  ⟨row.name, row.oldVersion, row.newVersion⟩

/-- Rows of a transaction that are the difference between two tables. -/
structure IsDifference (id : Nat) (before packages : List PackageRow)
    (rows : List ChangeRow) : Prop where
  own : ∀ row ∈ rows, row.txnId = id
  once : (rows.map ChangeRow.name).Nodup
  names : ∀ name, name ∈ rows.map ChangeRow.name ↔
    versionOf before name ≠ versionOf packages name
  leads : (rows.map ChangeRow.change).foldlM patch (labelOf before) =
    some (labelOf packages)

section

variable {id : Nat} {before packages : List PackageRow}

theorem find?_eq_none_iff_any {rows : List PackageRow} {name : Bytes} :
    (rows.find? fun row => row.name = name) = none ↔
      ¬ (rows.any fun row => row.name = name) = true := by
  simp

/-- What a row says about the two tables. -/
structure ChangeRow.Fits (id : Nat) (before packages : List PackageRow)
    (row : ChangeRow) : Prop where
  own : row.txnId = id
  old : row.oldVersion = labelOf before row.name
  new : row.newVersion = labelOf packages row.name
  differs : versionOf before row.name ≠ versionOf packages row.name

variable (beforeDistinct : (before.map PackageRow.name).Nodup)
  (distinct : (packages.map PackageRow.name).Nodup)

include beforeDistinct in
theorem removedRows_fits : ∀ row ∈ removedRows id before packages,
    row.Fits id before packages := by
  intro row member
  obtain ⟨b, isRemoved, rfl⟩ := List.mem_map.mp member
  obtain ⟨inBefore, gone⟩ := List.mem_filter.mp isRemoved
  have isOld := find?_of_distinct beforeDistinct inBefore
  have isNew := find?_eq_none_iff_any.mpr (of_decide_eq_true gone)
  exact {
    own := rfl
    old := by rw [labelOf, isOld]; rfl
    new := by rw [labelOf, isNew]; rfl
    differs := by rw [versionOf, versionOf, isOld, isNew]; simp }

include distinct in
theorem addedRows_fits : ∀ row ∈ addedRows id before packages,
    row.Fits id before packages := by
  intro row member
  obtain ⟨p, isAdded, rfl⟩ := List.mem_map.mp member
  obtain ⟨inPackages, fresh⟩ := List.mem_filter.mp isAdded
  have isNew := find?_of_distinct distinct inPackages
  have isOld := find?_eq_none_iff_any.mpr (of_decide_eq_true fresh)
  exact {
    own := rfl
    old := by rw [labelOf, isOld]; rfl
    new := by rw [labelOf, isNew]; rfl
    differs := by rw [versionOf, versionOf, isOld, isNew]; simp }

include beforeDistinct distinct in
theorem changedRows_fits : ∀ row ∈ changedRows id before packages,
    row.Fits id before packages := by
  intro row member
  obtain ⟨p, inPackages, inJoin⟩ := List.mem_flatMap.mp member
  obtain ⟨b, isChanged, rfl⟩ := List.mem_map.mp inJoin
  obtain ⟨inBefore, both⟩ := List.mem_filter.mp isChanged
  obtain ⟨sameName, other⟩ := of_decide_eq_true both
  have isNew := find?_of_distinct distinct inPackages
  have isOld := find?_of_distinct beforeDistinct inBefore
  rw [sameName] at isOld
  exact {
    own := rfl
    old := by rw [labelOf, isOld]; rfl
    new := by rw [labelOf, isNew]; rfl
    differs := by
      rw [versionOf, versionOf, isOld, isNew]
      simp only [Option.map_some, ne_eq, Option.some.injEq, Prod.mk.injEq,
        not_and_or]
      exact other.imp Ne.symm Ne.symm }

/-! ## One row a name -/

/-- Each of the joins has a name once. -/
theorem nodup_removedRows (beforeDistinct : (before.map PackageRow.name).Nodup) :
    ((removedRows id before packages).map ChangeRow.name).Nodup := by
  rw [removedRows, List.map_map]
  exact beforeDistinct.sublist (List.filter_sublist.map PackageRow.name)

theorem nodup_addedRows (distinct : (packages.map PackageRow.name).Nodup) :
    ((addedRows id before packages).map ChangeRow.name).Nodup := by
  rw [addedRows, List.map_map]
  exact distinct.sublist (List.filter_sublist.map PackageRow.name)

include beforeDistinct distinct in
theorem nodup_changedRows :
    ((changedRows id before packages).map ChangeRow.name).Nodup := by
  rw [changedRows, List.map_flatMap, List.nodup_flatMap]
  constructor
  · intro p _
    rw [List.map_map]
    have names : ∀ b ∈ before.filter (fun b => b.name = p.name ∧
        (p.version ≠ b.version ∨ p.release ≠ b.release)),
        p.name = PackageRow.name b := fun b member =>
      (of_decide_eq_true (List.mem_filter.mp member).2).1.symm
    have sameNames := List.map_congr_left names
    change (List.map (fun _ => p.name) _).Nodup
    rw [sameNames]
    exact beforeDistinct.sublist (List.filter_sublist.map PackageRow.name)
  · have isName : ∀ {p : PackageRow} {name : Bytes},
        name ∈ ((before.filter fun b => b.name = p.name ∧
          (p.version ≠ b.version ∨ p.release ≠ b.release)).map fun b =>
            (⟨id, p.name, some (versionRelease b),
              some (versionRelease p)⟩ : ChangeRow)).map ChangeRow.name →
          name = p.name := by
      intro p name member
      rw [List.map_map] at member
      obtain ⟨b, -, rfl⟩ := List.mem_map.mp member
      rfl
    refine (List.pairwise_map.mp distinct).imp fun {p q} differ => ?_
    intro name inFirst inSecond
    exact differ ((isName inFirst).symm.trans (isName inSecond))

/-- A name is in one table only, or in both. -/
theorem mem_removedRows {name : Bytes} :
    name ∈ (removedRows id before packages).map ChangeRow.name ↔
      name ∈ before.map PackageRow.name ∧
        name ∉ packages.map PackageRow.name := by
  simp only [removedRows, List.map_map, List.mem_map, List.mem_filter]
  constructor
  · rintro ⟨b, ⟨inBefore, gone⟩, rfl⟩
    refine ⟨⟨b, inBefore, rfl⟩, ?_⟩
    rintro ⟨p, inPackages, same⟩
    apply of_decide_eq_true gone
    exact List.any_eq_true.mpr ⟨p, inPackages, decide_eq_true same⟩
  · rintro ⟨⟨b, inBefore, rfl⟩, gone⟩
    refine ⟨b, ⟨inBefore, decide_eq_true fun present => ?_⟩, rfl⟩
    obtain ⟨p, inPackages, same⟩ := List.any_eq_true.mp present
    exact gone ⟨p, inPackages, of_decide_eq_true same⟩

theorem mem_addedRows {name : Bytes} :
    name ∈ (addedRows id before packages).map ChangeRow.name ↔
      name ∈ packages.map PackageRow.name ∧
        name ∉ before.map PackageRow.name := by
  have swapped : (addedRows id before packages).map ChangeRow.name =
      (removedRows id packages before).map ChangeRow.name := by
    simp only [addedRows, removedRows, List.map_map]
    rfl
  rw [swapped]
  exact mem_removedRows

theorem mem_changedRows {name : Bytes}
    (member : name ∈ (changedRows id before packages).map ChangeRow.name) :
    name ∈ packages.map PackageRow.name ∧
      name ∈ before.map PackageRow.name := by
  obtain ⟨row, inRows, rfl⟩ := List.mem_map.mp member
  obtain ⟨p, inPackages, inJoin⟩ := List.mem_flatMap.mp inRows
  obtain ⟨b, isChanged, rfl⟩ := List.mem_map.mp inJoin
  obtain ⟨inBefore, both⟩ := List.mem_filter.mp isChanged
  exact ⟨List.mem_map_of_mem inPackages,
    (of_decide_eq_true both).1 ▸ List.mem_map_of_mem inBefore⟩

/-- The names of the rows in the order of the `SELECT`s. -/
theorem differenceRows_perm :
    (differenceRows id before packages).Perm
      (removedRows id before packages ++ addedRows id before packages ++
        changedRows id before packages) :=
  List.perm_insertionSort _ _

include beforeDistinct distinct in
theorem nodup_differenceRows :
    ((differenceRows id before packages).map ChangeRow.name).Nodup := by
  rw [(differenceRows_perm.map ChangeRow.name).nodup_iff]
  rw [List.map_append, List.map_append, List.nodup_append',
    List.nodup_append']
  refine ⟨⟨nodup_removedRows beforeDistinct, nodup_addedRows distinct, ?_⟩,
    nodup_changedRows beforeDistinct distinct, ?_⟩
  · intro name removed added
    exact (mem_removedRows.mp removed).2 (mem_addedRows.mp added).1
  · intro name alone changed
    obtain ⟨inPackages, inBefore⟩ := mem_changedRows changed
    rcases List.mem_append.mp alone with removed | added
    · exact (mem_removedRows.mp removed).2 inPackages
    · exact (mem_addedRows.mp added).2 inBefore

include beforeDistinct distinct in
theorem differenceRows_fits : ∀ row ∈ differenceRows id before packages,
    row.Fits id before packages := by
  intro row member
  rw [differenceRows_perm.mem_iff, List.mem_append, List.mem_append] at member
  rcases member with (removed | added) | changed
  · exact removedRows_fits beforeDistinct row removed
  · exact addedRows_fits distinct row added
  · exact changedRows_fits beforeDistinct distinct row changed

theorem mem_names_iff {rows : List PackageRow} {name : Bytes} :
    name ∈ rows.map PackageRow.name ↔
      (rows.find? fun row => row.name = name) ≠ none := by
  simp [List.find?_eq_none]

/-- A name that has no row is the same in both tables. -/
theorem find?_of_not_mem {name : Bytes}
    (absent : name ∉ (differenceRows id before packages).map ChangeRow.name) :
    versionOf before name = versionOf packages name ∧
      labelOf before name = labelOf packages name := by
  rw [(differenceRows_perm.map ChangeRow.name).mem_iff, List.map_append,
    List.map_append, List.mem_append, List.mem_append, not_or, not_or,
    mem_removedRows, mem_addedRows, mem_names_iff, mem_names_iff] at absent
  obtain ⟨⟨notRemoved, notAdded⟩, notChanged⟩ := absent
  unfold versionOf labelOf
  cases isOld : before.find? fun row => row.name = name with
  | none =>
      cases isNew : packages.find? fun row => row.name = name with
      | none => exact ⟨rfl, rfl⟩
      | some p => exact absurd ⟨by simp [isNew], by simp [isOld]⟩ notAdded
  | some b =>
      cases isNew : packages.find? fun row => row.name = name with
      | none => exact absurd ⟨by simp [isOld], by simp [isNew]⟩ notRemoved
      | some p =>
          have nameOld := key_of_find? isOld
          have nameNew := key_of_find? isNew
          have same : p.version = b.version ∧ p.release = b.release := by
            by_contra other
            apply notChanged
            rw [changedRows, List.map_flatMap, List.mem_flatMap]
            refine ⟨p, List.mem_of_find?_eq_some isNew, ?_⟩
            rw [List.map_map, List.mem_map]
            refine ⟨b, List.mem_filter.mpr ⟨List.mem_of_find?_eq_some isOld,
              ?_⟩, nameNew⟩
            exact decide_eq_true ⟨nameOld.trans nameNew.symm,
              not_and_or.mp other⟩
          simp [versionRelease, same.1, same.2]

include beforeDistinct distinct in
theorem isDifference_differenceRows :
    IsDifference id before packages (differenceRows id before packages) := by
  have fits : ∀ row ∈ differenceRows id before packages,
      row.Fits id before packages :=
    differenceRows_fits beforeDistinct distinct
  have keys : ((differenceRows id before packages).map
      ChangeRow.change).map Change.key =
      (differenceRows id before packages).map ChangeRow.name := by
    rw [List.map_map]
    rfl
  refine ⟨fun row member => (fits row member).own,
    nodup_differenceRows beforeDistinct distinct, ?_, ?_⟩
  · intro name
    constructor
    · intro member
      obtain ⟨row, inRows, rfl⟩ := List.mem_map.mp member
      exact (fits row inRows).differs
    · intro differs
      by_contra absent
      exact differs (find?_of_not_mem absent).1
  · apply foldlM_patch
    constructor
    · rw [keys]
      exact nodup_differenceRows beforeDistinct distinct
    · intro change member
      obtain ⟨row, inRows, rfl⟩ := List.mem_map.mp member
      exact (fits row inRows).old.symm
    · intro change member
      obtain ⟨row, inRows, rfl⟩ := List.mem_map.mp member
      exact (fits row inRows).new.symm
    · intro name absent
      rw [keys] at absent
      exact (find?_of_not_mem absent).2

end

/-! ## Recording -/

section

variable {root path : Bytes} {id : Nat} {state : ChangesWorld} {before : Db}

theorem onWorld_ok {α : Type} {program : Io α} {value : α} {after : World}
    (outcome : program state.world = .ok value after) :
    onWorld program state = .ok value { state with world := after } := by
  unfold onWorld
  rw [outcome]

theorem execChanges_quiet (quiet : state.world.sqlFaults = [])
    (change : ChangesWorld → List ChangeRow) :
    execChanges change state =
      .ok () { state with changes := change state } :=
  bind_run (onWorld_ok (Sql.update_quiet quiet _ _))

theorem attachBefore_quiet (quiet : state.world.sqlFaults = [])
    (saved : databaseAt state.world.disk path = some before) :
    attachBefore path state = .ok (some before) state := by
  have attached : (attempt (onWorld (Sql.update none fun db => db)) :
      ChangesIo (Except Failure Unit)) state = .ok (.ok ()) state := by
    unfold attempt
    rw [onWorld_ok (Sql.update_quiet quiet _ _)]
  refine (bind_run rfl).trans ?_
  rw [saved]
  exact bind_run attached

theorem pathExists_of_database
    (saved : databaseAt state.world.disk path = some before) :
    Util.pathExists state.world.disk path = true := by
  unfold databaseAt Disk.contents at saved
  unfold Util.pathExists
  cases isNode : state.world.disk.stat path with
  | error errno =>
      rw [isNode] at saved
      cases saved
  | ok node => rfl

/-- What a record leaves. -/
def recorded (root : Bytes) (id : Nat) (before : Db) (state : ChangesWorld) :
    ChangesWorld where
  world := { state.world with
    db := withKernel id (newestKernel state.world.disk root) state.world.db }
  changes := state.changes.filter (·.txnId ≠ id) ++
    differenceRows id before.tables.packages state.world.db.tables.packages

theorem recordWithBefore_quiet (quiet : state.world.sqlFaults = [])
    (saved : databaseAt state.world.disk path = some before) :
    recordWithBefore root id path state =
      .ok () (recorded root id before state) := by
  have schema : onWorld ensureSchema state = .ok () state :=
    onWorld_ok (Sql.update_quiet quiet _ _)
  have replaced : replaceChanges id before state =
      .ok () ⟨state.world, (recorded root id before state).changes⟩ := by
    refine (bind_run (execChanges_quiet quiet _)).trans ?_
    apply execChanges_quiet
    exact quiet
  refine (bind_run schema).trans ((bind_run rfl).trans ?_)
  rw [if_pos (pathExists_of_database saved)]
  refine (bind_run (attachBefore_quiet quiet saved)).trans ?_
  have ignored : (ignore (replaceChanges id before) : ChangesIo Unit) state =
      .ok () ⟨state.world, (recorded root id before state).changes⟩ := by
    unfold ignore
    rw [replaced]
    rfl
  refine (bind_run ignored).trans ?_
  have detached : (ignore (onWorld (Sql.update (some (ascii "db: "))
      fun db => db)) : ChangesIo Unit)
        ⟨state.world, (recorded root id before state).changes⟩ =
      .ok () ⟨state.world, (recorded root id before state).changes⟩ := by
    unfold ignore onWorld
    dsimp only
    rw [Sql.update_quiet quiet]
    rfl
  have kernel : recordKernel root id state.world =
      .ok () (recorded root id before state).world := by
    refine (bind_run rfl).trans ?_
    unfold ignore
    rw [Sql.update_quiet quiet]
    rfl
  refine (bind_run detached).trans ?_
  exact onWorld_ok kernel

theorem differenceRows_own {old packages : List PackageRow} :
    ∀ row ∈ differenceRows id old packages, row.txnId = id := by
  intro row member
  rw [differenceRows_perm.mem_iff, List.mem_append, List.mem_append] at member
  rcases member with (removed | added) | changed
  · obtain ⟨b, -, rfl⟩ := List.mem_map.mp removed
    rfl
  · obtain ⟨p, -, rfl⟩ := List.mem_map.mp added
    rfl
  · obtain ⟨p, -, inJoin⟩ := List.mem_flatMap.mp changed
    obtain ⟨b, -, rfl⟩ := List.mem_map.mp inJoin
    rfl

/-- The rows of a transaction are those of its last record. -/
theorem rows_recorded :
    (recorded root id before state).changes.filter (·.txnId = id) =
      differenceRows id before.tables.packages
        state.world.db.tables.packages := by
  have others : (state.changes.filter (·.txnId ≠ id)).filter
      (·.txnId = id) = [] := by
    rw [List.filter_eq_nil_iff]
    intro row member
    simpa using (List.mem_filter.mp member).2
  rw [recorded, List.filter_append, others, List.nil_append,
    List.filter_eq_self]
  intro row member
  exact decide_eq_true (differenceRows_own row member)

theorem deployChanges_recorded (quiet : state.world.sqlFaults = []) :
    deployChanges id (recorded root id before state) =
      .ok (differenceRows id before.tables.packages
        state.world.db.tables.packages) (recorded root id before state) := by
  have schema : onWorld ensureSchema (recorded root id before state) =
      .ok () (recorded root id before state) := by
    apply onWorld_ok
    apply Sql.update_quiet
    exact quiet
  have sorted : (differenceRows id before.tables.packages
      state.world.db.tables.packages).Pairwise
        fun first second => first.name ≤ second.name :=
    List.pairwise_insertionSort _ _
  refine (bind_run schema).trans ((bind_run rfl).trans ?_)
  rw [rows_recorded, sorted.insertionSort_eq]
  rfl

/-- A second record drops what the first one wrote and writes it again. -/
theorem recorded_again : (recorded root id before
    (recorded root id before state)).changes =
      (recorded root id before state).changes := by
  have kept : (recorded root id before state).changes.filter
      (·.txnId ≠ id) = state.changes.filter (·.txnId ≠ id) := by
    have own : (differenceRows id before.tables.packages
        state.world.db.tables.packages).filter (·.txnId ≠ id) = [] := by
      rw [List.filter_eq_nil_iff]
      intro row member
      simpa using differenceRows_own row member
    rw [recorded, List.filter_append, own, List.append_nil,
      List.filter_filter]
    simp
  rw [recorded, kept]
  rfl

theorem recordWithBefore_exact (quiet : state.world.sqlFaults = [])
    (saved : databaseAt state.world.disk path = some before)
    (beforeDistinct : (before.tables.packages.map PackageRow.name).Nodup)
    (distinct : (state.world.db.tables.packages.map PackageRow.name).Nodup) :
    ∃ after rows, recordWithBefore root id path state = .ok () after ∧
      after.changes.filter (·.txnId = id) = rows ∧
      deployChanges id after = .ok rows after ∧
      IsDifference id before.tables.packages state.world.db.tables.packages
        rows ∧
      ∃ again, recordWithBefore root id path after = .ok () again ∧
        again.changes = after.changes := by
  refine ⟨recorded root id before state, _,
    recordWithBefore_quiet quiet saved, rows_recorded,
    deployChanges_recorded quiet,
    isDifference_differenceRows beforeDistinct distinct,
    _, recordWithBefore_quiet quiet saved, recorded_again⟩

end

/-- A package without anything but a version. -/
def bareRow (name version : String) (release : Int) : PackageRow where
  name := ascii name
  version := ascii version
  release := release
  arch := []
  summary := []
  license := []
  repo := []
  sigStatus := []
  txnId := 1
  filename := none
  sha256 := none

def packagesDb (packages : List PackageRow) : Db :=
  { Db.empty with tables := { Tables.empty with packages := packages } }

/-- A world whose disk holds a saved database. -/
def upgradedWorld (before packages : List PackageRow) : World :=
  { emptyWorld with
    disk := finalState (Util.writeFile (ascii "/db.before")
      ⟨[], some (packagesDb before)⟩ 420 emptyWorld.disk)
    db := packagesDb packages }

theorem recordWithBefore_upgrade :
    ∃ after rows, recordWithBefore (ascii "/") 7 (ascii "/db.before")
        ⟨upgradedWorld [bareRow "app" "1.0" 1, bareRow "old" "2" 1]
          [bareRow "new" "3" 1, bareRow "app" "1.0" 2], []⟩ = .ok () after ∧
      after.changes.filter (·.txnId = 7) = rows ∧
      deployChanges 7 after = .ok rows after ∧
      IsDifference 7 [bareRow "app" "1.0" 1, bareRow "old" "2" 1]
        [bareRow "new" "3" 1, bareRow "app" "1.0" 2] rows ∧
      ∃ again, recordWithBefore (ascii "/") 7 (ascii "/db.before") after =
          .ok () again ∧ again.changes = after.changes := by
  have saved : databaseAt (upgradedWorld
      [bareRow "app" "1.0" 1, bareRow "old" "2" 1]
      [bareRow "new" "3" 1, bareRow "app" "1.0" 2]).disk
        (ascii "/db.before") =
      some (packagesDb [bareRow "app" "1.0" 1, bareRow "old" "2" 1]) := by
    decide +kernel
  exact @recordWithBefore_exact (ascii "/") (ascii "/db.before") 7
    ⟨upgradedWorld _ _, []⟩ _ rfl saved (by decide) (by decide)

example : differenceRows 7 [bareRow "app" "1.0" 1, bareRow "old" "2" 1]
    [bareRow "new" "3" 1, bareRow "app" "1.0" 2] =
    [⟨7, ascii "app", some (ascii "1.0-1"), some (ascii "1.0-2")⟩,
      ⟨7, ascii "new", none, some (ascii "3-1")⟩,
      ⟨7, ascii "old", some (ascii "2-1"), none⟩] := by decide +kernel

end SaltOS.Deploy
