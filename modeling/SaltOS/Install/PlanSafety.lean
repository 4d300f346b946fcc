import SaltOS.Install.Plan

/-!
# What a plan leaves behind

A native transaction changes nothing, or replaces the rows of the packages of
its plan.  From this follow what its two checks are good for.
-/

namespace SaltOS.Install

open Lib Repo Txn

/-! ## Outcomes -/

/-- The tables after the packages of a plan were removed and installed. -/
def Applied (session : Session) (flags : TxnFlags) (plan : NativePlan)
    (before after : Tables) : Prop :=
  ∃ id planned, fetchAll session flags plan.install = .ok planned ∧
    after = Plan.change ⟨plan.remove, planned⟩ id before ∧
      ∀ one ∈ planned, one.Valid session.arch

/-- How a native transaction ends. -/
inductive Outcome (session : Session) (flags : TxnFlags) (plan : NativePlan)
    (before : Db) (code : Nat) (after : World) : Prop where
  | unchanged :
      after.closed.tables = before.tables →
      (code = 0 → flags.dryRun = true ∨ flags.downloadOnly = true ∨
        plan.remove = [] ∧ plan.install = []) →
      Outcome session flags plan before code after
  | applied :
      code = 0 →
      checkConflicts before plan = true →
      checkDangling before plan = true →
      after.saved = none →
      Applied session flags plan before.tables after.db.tables →
      Outcome session flags plan before code after

theorem nativeTransaction_outcome (session : Session) (flags : TxnFlags)
    (op : Bytes) (plan : NativePlan) {world : World}
    (idle : world.saved = none) (deletesRun : world.DeletesRun) :
    Ends (nativeTransaction session flags op plan world)
      (fun code after => Outcome session flags plan world.db code after)
      (fun _ _ => False) := by
  have closed : world.closed = world.db := by
    rw [World.closed, idle]
    rfl
  have stopped : (flags.dryRun = true ∨ flags.downloadOnly = true ∨
      plan.remove = [] ∧ plan.install = []) →
      Outcome session flags plan world.db 0 world :=
    fun reason => .unchanged (by rw [closed]) fun _ => reason
  have failed : Outcome session flags plan world.db 1 world :=
    .unchanged (by rw [closed]) fun isZero => by cases isZero
  refine Ends.ite (fun empty => stopped (.inr (.inr empty))) fun _ => ?_
  refine Ends.bindOk rfl ?_
  refine Ends.ite (fun _ => failed) fun conflictsOk => ?_
  refine Ends.ite (fun _ => failed) fun danglingOk => ?_
  refine Ends.ite (fun dry => stopped (.inl dry)) fun _ => ?_
  refine Ends.ite (fun _ => failed) fun _ => ?_
  cases fetched : fetchAll session flags plan.install with
  | error _ => exact failed
  | ok planned =>
      refine Ends.ite (fun only => stopped (.inr (.inl only))) fun _ => ?_
      have ended := nativeTransaction_ends session.host session.arch
        session.root ⟨plan.remove, planned⟩ op idle deletesRun
      apply Ends.attempted ended
      · rintro _ after ⟨saved, ⟨id, changed⟩, valid⟩
        exact .applied rfl (by simpa using conflictsOk)
          (by simpa using danglingOk) saved
          ⟨id, planned, fetched, changed, valid⟩
      · intro _ after back
        exact .unchanged back fun isZero => by cases isZero

/-! ## Rows of an applied plan -/

/-- The hash of an artifact that was fetched. -/
def fetchedHash (session : Session) (flags : TxnFlags) (entry : Entry) :
    Bytes :=
  match fetchAndVerify session flags entry with
  | .ok sha256 => sha256
  | .error _ => []

def plannedFor (session : Session) (flags : TxnFlags) (entry : Entry) :
    Planned :=
  plannedOf session entry (fetchedHash session flags entry)

theorem fetchAll_planned {session : Session} {flags : TxnFlags}
    {entries : List Entry} {planned : List Planned}
    (fetched : fetchAll session flags entries = .ok planned) :
    planned = entries.map (plannedFor session flags) ∧
      ∀ entry ∈ entries, fetchAndVerify session flags entry =
        .ok (fetchedHash session flags entry) := by
  induction entries generalizing planned with
  | nil =>
      cases fetched
      exact ⟨rfl, by simp⟩
  | cons entry entries induction =>
      unfold fetchAll at fetched
      cases verified : fetchAndVerify session flags entry with
      | error code =>
          rw [verified] at fetched
          cases fetched
      | ok sha256 =>
          have isHash : fetchedHash session flags entry = sha256 := by
            rw [fetchedHash, verified]
          cases others : fetchAll session flags entries with
          | error code =>
              rw [verified, others] at fetched
              cases fetched
          | ok rest =>
              rw [verified, others] at fetched
              cases fetched
              obtain ⟨rfl, hashes⟩ := induction others
              refine ⟨by rw [List.map_cons, plannedFor, isHash], ?_⟩
              intro other member
              rcases List.mem_cons.mp member with rfl | inside
              · rw [verified, isHash]
              · exact hashes other inside

/-- The artifact of an entry was fetched and opens as an archive of its
name. -/
structure Brought (session : Session) (flags : TxnFlags) (entry : Entry)
    (archive : Archive) : Prop where
  verified : fetchAndVerify session flags entry =
    .ok (fetchedHash session flags entry)
  opened : (session.artifact entry).opened = some archive
  name : archive.pkg.name = entry.name

/-- An artifact whose entry has a valid digest is the one of this digest. -/
theorem fetchAndVerify_hash {session : Session} {flags : TxnFlags}
    {entry : Entry} {hex : Bytes}
    (verified : fetchAndVerify session flags entry = .ok hex)
    (hashOk : entry.hashOk = true) : hex = entry.sha256 := by
  simp only [fetchAndVerify] at verified
  split at verified
  · cases verified
  split at verified
  · cases verified
  split at verified
  · cases verified
  split at verified
  · cases verified
  · rename_i matching
    cases verified
    by_contra different
    exact matching ⟨hashOk, different⟩

def Installed (tables : Tables) (name : Bytes) : Prop :=
  name ∈ tables.packages.map PackageRow.name

theorem isInstalled_iff {db : Db} {name : Bytes} :
    db.isInstalled name = true ↔ Installed db.tables name := by
  simp [Db.isInstalled, Installed]

section

variable {session : Session} {flags : TxnFlags} {plan : NativePlan}
  {before after : Tables}

theorem Applied.brought (applied : Applied session flags plan before after)
    {entry : Entry} (member : entry ∈ plan.install) :
    ∃ archive, Brought session flags entry archive := by
  obtain ⟨id, planned, fetched, -, valid⟩ := applied
  obtain ⟨rfl, hashes⟩ := fetchAll_planned fetched
  obtain ⟨archive, opened, -, name⟩ := valid _ (List.mem_map_of_mem member)
  exact ⟨archive, hashes entry member, opened, name⟩

/-- The rows of a table after a plan, in terms of its entries. -/
theorem Applied.mem_table (applied : Applied session flags plan before after)
    (distinct : plan.names.Nodup) {ρ : Type} {table : Tables → List ρ}
    {key : ρ → Bytes} {new : Nat → Planned → Archive → List ρ}
    (column : Column table key new) :
    ∃ id, ∀ row, row ∈ table after ↔
      (∃ entry ∈ plan.install, ∃ archive,
        Brought session flags entry archive ∧
          row ∈ new id (plannedFor session flags entry) archive) ∨
      row ∈ table before ∧ key row ∉ plan.remove ∧
        key row ∉ plan.names := by
  have brought : ∀ entry ∈ plan.install,
      ∃ archive, Brought session flags entry archive :=
    fun _ member => applied.brought member
  obtain ⟨id, planned, fetched, rfl, valid⟩ := applied
  obtain ⟨rfl, -⟩ := fetchAll_planned fetched
  have names : (plan.install.map (plannedFor session flags)).map
      Planned.entryName = plan.names := by
    rw [List.map_map]
    rfl
  refine ⟨id, fun row => ?_⟩
  rw [column.mem_change valid (names ▸ distinct), names]
  apply or_congr_left
  constructor
  · rintro ⟨one, member, archive, opened, isRow⟩
    obtain ⟨entry, inPlan, rfl⟩ := List.mem_map.mp member
    obtain ⟨other, isBrought⟩ := brought entry inPlan
    obtain rfl : archive = other :=
      Option.some.inj (opened.symm.trans isBrought.opened)
    exact ⟨entry, inPlan, archive, isBrought, isRow⟩
  · rintro ⟨entry, inPlan, archive, isBrought, isRow⟩
    exact ⟨_, List.mem_map_of_mem inPlan, archive, isBrought.opened, isRow⟩

theorem Applied.installed_iff
    (applied : Applied session flags plan before after)
    (distinct : plan.names.Nodup) {name : Bytes} :
    Installed after name ↔
      name ∈ plan.names ∨ Installed before name ∧ name ∉ plan.remove := by
  obtain ⟨id, mem⟩ := applied.mem_table distinct packages_column
  constructor
  · intro installed
    obtain ⟨row, isRow, rfl⟩ := List.mem_map.mp installed
    rcases (mem row).mp isRow with
      ⟨entry, inPlan, archive, brought, isNew⟩ | ⟨old, kept, -⟩
    · left
      rw [List.mem_singleton.mp isNew]
      exact List.mem_map.mpr ⟨entry, inPlan, brought.name.symm⟩
    · exact .inr ⟨List.mem_map_of_mem old, kept⟩
  · intro either
    by_cases planned : name ∈ plan.names
    · obtain ⟨entry, inPlan, rfl⟩ := List.mem_map.mp planned
      obtain ⟨archive, brought⟩ := applied.brought inPlan
      refine List.mem_map.mpr ⟨_, (mem _).mpr (.inl ⟨entry, inPlan, archive,
        brought, List.mem_singleton.mpr rfl⟩), brought.name⟩
    · obtain ⟨installed, kept⟩ := either.resolve_left planned
      obtain ⟨row, isRow, rfl⟩ := List.mem_map.mp installed
      exact List.mem_map_of_mem ((mem row).mpr (.inr ⟨isRow, kept, planned⟩))

/-- The rows of a package that a plan does not touch. -/
theorem Applied.getPkg_untouched {db after : Db}
    (applied : Applied session flags plan db.tables after.tables)
    {name : Bytes} (notRemoved : name ∉ plan.remove)
    (notPlanned : name ∉ plan.names) :
    after.getPkg name = db.getPkg name := by
  obtain ⟨id, planned, fetched, changed, valid⟩ := applied
  obtain ⟨rfl, -⟩ := fetchAll_planned fetched
  have names : (plan.install.map (plannedFor session flags)).map
      Planned.entryName = plan.names := by
    rw [List.map_map]
    rfl
  rw [Db.getPkg, Db.getPkg, ← List.head?_filter, ← List.head?_filter,
    changed]
  congr 1
  apply packages_column.untouched valid notRemoved
  change name ∉ (plan.install.map (plannedFor session flags)).map
    Planned.entryName
  rw [names]
  exact notPlanned

/-- The row of a package that a plan installs comes from its artifact. -/
theorem Applied.getPkg_planned {db after : Db}
    (applied : Applied session flags plan db.tables after.tables)
    (distinct : plan.names.Nodup) {entry : Entry}
    (member : entry ∈ plan.install) :
    ∃ archive id, Brought session flags entry archive ∧
      after.getPkg entry.name =
        some ((plannedFor session flags entry).row archive id) := by
  have planned : entry.name ∈ plan.names := List.mem_map_of_mem member
  have installed : Installed after.tables entry.name :=
    (applied.installed_iff distinct).mpr (.inl planned)
  obtain ⟨row, isRow⟩ : ∃ row, after.getPkg entry.name = some row := by
    rw [← Option.isSome_iff_exists, Db.getPkg, List.find?_isSome]
    obtain ⟨row, isRow, sameName⟩ := List.mem_map.mp installed
    exact ⟨row, isRow, by simpa using sameName⟩
  have rowName : row.name = entry.name := by
    simpa using List.find?_some isRow
  obtain ⟨id, mem⟩ := applied.mem_table distinct packages_column
  rcases (mem row).mp (List.mem_of_find?_eq_some isRow) with
    ⟨other, inPlan, archive, brought, isNew⟩ | ⟨-, -, notPlanned⟩
  · obtain rfl := List.mem_singleton.mp isNew
    obtain rfl : other = entry := List.inj_on_of_nodup_map distinct inPlan
      member (brought.name.symm.trans rowName)
    exact ⟨archive, id, brought, isRow⟩
  · exact absurd (rowName ▸ planned) notPlanned

/-- The entries of an index say of their archives what these say. -/
def DepsAgree (session : Session) (entry : Entry) : Prop :=
  ∀ archive, (session.artifact entry).opened = some archive →
    archive.pkg.deps = entry.deps

def ConflictsAgree (session : Session) (entry : Entry) : Prop :=
  ∀ archive, (session.artifact entry).opened = some archive →
    archive.pkg.conflicts = entry.conflicts

/-- A table of names that packages declare, after a plan. -/
theorem Applied.mem_pairs (applied : Applied session flags plan before after)
    (distinct : plan.names.Nodup) {table : Tables → List (Bytes × Bytes)}
    {declared : Pkg.PkgMeta → List Bytes} {listed : Entry → List Bytes}
    (column : Column table Prod.fst (fun _ _ archive =>
      (declared archive.pkg).map (archive.pkg.name, ·)))
    (agree : ∀ entry ∈ plan.install, ∀ archive,
      (session.artifact entry).opened = some archive →
        declared archive.pkg = listed entry) {name other : Bytes} :
    (name, other) ∈ table after ↔
      (∃ entry ∈ plan.install, entry.name = name ∧ other ∈ listed entry) ∨
      (name, other) ∈ table before ∧ name ∉ plan.remove ∧
        name ∉ plan.names := by
  obtain ⟨id, mem⟩ := applied.mem_table distinct column
  rw [mem (name, other)]
  apply or_congr_left
  constructor
  · rintro ⟨entry, inPlan, archive, brought, isNew⟩
    simp only [List.mem_map, Prod.mk.injEq, exists_eq_right_right] at isNew
    refine ⟨entry, inPlan, brought.name.symm.trans isNew.2, ?_⟩
    rw [← agree entry inPlan archive brought.opened]
    exact isNew.1
  · rintro ⟨entry, inPlan, rfl, isListed⟩
    obtain ⟨archive, brought⟩ := applied.brought inPlan
    refine ⟨entry, inPlan, archive, brought, ?_⟩
    rw [agree entry inPlan archive brought.opened, brought.name]
    exact List.mem_map_of_mem isListed

theorem Applied.mem_deps (applied : Applied session flags plan before after)
    (distinct : plan.names.Nodup)
    (agree : ∀ entry ∈ plan.install, DepsAgree session entry)
    {name dep : Bytes} :
    (name, dep) ∈ after.deps ↔
      (∃ entry ∈ plan.install, entry.name = name ∧ dep ∈ entry.deps) ∨
      (name, dep) ∈ before.deps ∧ name ∉ plan.remove ∧
        name ∉ plan.names :=
  applied.mem_pairs distinct deps_column agree

theorem Applied.mem_conflicts
    (applied : Applied session flags plan before after)
    (distinct : plan.names.Nodup)
    (agree : ∀ entry ∈ plan.install, ConflictsAgree session entry)
    {name conflict : Bytes} :
    (name, conflict) ∈ after.conflicts ↔
      (∃ entry ∈ plan.install, entry.name = name ∧
        conflict ∈ entry.conflicts) ∨
      (name, conflict) ∈ before.conflicts ∧ name ∉ plan.remove ∧
        name ∉ plan.names :=
  applied.mem_pairs distinct conflicts_column agree

end

/-! ## A small system -/

/-- A compressed tar archive of no member, and what it decompresses to. -/
def emptyFrame : Bytes :=
  [0x28, 0xB5, 0x2F, 0xFD, 0x60, 0x00, 0x03, 0x03, 0x20, 0x00, 0x00]

def emptyTar : Bytes := List.replicate 1024 0

def smallHost : Host where
  decompress := fun input =>
    if input = emptyFrame then .ok emptyTar else .error ⟨.format, none⟩
  image := fun _ => ascii "SQLite format 3" ++ [0]
  btrfs := none

def smallArchive (entry : Entry) : Archive where
  pkg := {
    name := entry.name
    version := entry.version
    release := entry.release
    arch := entry.arch
    summary := none
    license := none
    reproStatus := none
    reproReason := none
    deps := entry.deps
    conflicts := entry.conflicts
    hooks := fun _ => none }
  manifest := []
  payload := emptyFrame
  scripts := []

def smallHash : Bytes := List.replicate 64 48

def smallEntry (name version : String) (deps conflicts : List Bytes) :
    Entry where
  name := ascii name
  version := ascii version
  release := 1
  arch := ascii "any"
  filename := ascii name ++ ascii ".grain"
  url := none
  sha256 := smallHash
  size := 11
  summary := []
  deps := deps
  conflicts := conflicts

def smallSession : Session where
  host := smallHost
  arch := ascii "x86_64"
  root := ascii "/"
  repo := ascii "core"
  confirmed := true
  signedOk := true
  artifact := fun entry =>
    ⟨none, true, some smallHash, some (smallArchive entry)⟩

def plainFlags : TxnFlags := ⟨false, false, false, false, false⟩

def smallRow (name : String) : PackageRow where
  name := ascii name
  version := ascii "1"
  release := 1
  arch := ascii "any"
  summary := []
  license := []
  repo := ascii "core"
  sigStatus := ascii "signed"
  txnId := 1
  filename := some (ascii name ++ ascii ".grain")
  sha256 := some smallHash

/-- `app` depends on `lib` and is in conflict with `old`. -/
def smallDb : Db where
  tables := {
    packages := [smallRow "app", smallRow "lib"]
    files := []
    deps := [(ascii "app", ascii "lib")]
    conflicts := [(ascii "app", ascii "old")]
    hooks := [] }
  transactions := []
  lastId := 1
  metas := []

def smallWorld : World where
  disk := ⟨.bare Content, [], []⟩
  db := smallDb
  saved := none
  sqlFaults := []
  deleteFaults := []
  picks := []
  hookEnds := []

theorem smallWorld_idle : smallWorld.saved = none := rfl

theorem smallWorld_deletesRun : smallWorld.DeletesRun := by
  intro fault member
  cases member

theorem small_agree (entry : Entry) :
    DepsAgree smallSession entry ∧ ConflictsAgree smallSession entry := by
  constructor
  · rintro archive opened
    cases opened
    rfl
  · rintro archive opened
    cases opened
    rfl

/-- The exit code of a command. -/
def exitCode (result : EStateM.Result Failure World Nat) : Option Nat :=
  match result with
  | .ok code _ => some code
  | .error _ _ => none

theorem ends_of_exitCode {result : EStateM.Result Failure World Nat}
    {code : Nat} {good : Nat → World → Prop} {bad : Failure → World → Prop}
    (done : exitCode result = some code) (ends : Ends result good bad) :
    ∃ after, result = .ok code after ∧ good code after := by
  cases result with
  | ok other after =>
      obtain rfl : other = code := Option.some.inj done
      exact ⟨after, rfl, ends⟩
  | error failure after => cases done

/-! ## Conflicts -/

/-- No installed package declares a conflict with another installed one. -/
def ConflictFree (tables : Tables) : Prop :=
  ∀ name conflict, (name, conflict) ∈ tables.conflicts → name ≠ conflict →
    Installed tables name → ¬ Installed tables conflict

theorem mem_namesWith {rows : List (Bytes × Bytes)} {name value : Bytes} :
    name ∈ Db.namesWith rows value ↔ (name, value) ∈ rows := by
  simp [Db.namesWith, List.mem_insertionSort]

/-- What `check_conflicts` accepts, pairing by pairing. -/
theorem checkConflicts_iff {db : Db} {plan : NativePlan} :
    checkConflicts db plan = true ↔ ∀ entry ∈ plan.install,
      (∀ conflict ∈ entry.conflicts, conflict ≠ entry.name →
        conflict ∉ plan.names ∧
          (Installed db.tables conflict → conflict ∈ plan.remove)) ∧
      ∀ who, (who, entry.name) ∈ db.tables.conflicts → who ≠ entry.name →
        who ∈ plan.remove ∨ who ∈ plan.names := by
  simp only [checkConflicts, List.all_eq_true, Bool.and_eq_true]
  apply forall₂_congr
  intro entry member
  apply and_congr
  · rw [declaresFree, List.all_eq_true]
    apply forall₂_congr
    intro conflict declared
    rw [decide_eq_true_iff, isInstalled_iff, NativePlan.leaving,
      decide_eq_true_iff]
    tauto
  · simp only [declaredFree, List.all_eq_true, Db.conflictsWith,
      mem_namesWith]
    apply forall₂_congr
    intro who row
    rw [decide_eq_true_iff, NativePlan.leaving, decide_eq_true_iff]
    tauto

/-- An applied plan that `check_conflicts` accepted brings no conflict. -/
theorem Applied.conflictFree {session : Session} {flags : TxnFlags}
    {plan : NativePlan} {db : Db} {after : Tables}
    (applied : Applied session flags plan db.tables after)
    (distinct : plan.names.Nodup)
    (agree : ∀ entry ∈ plan.install, ConflictsAgree session entry)
    (checked : checkConflicts db plan = true)
    (free : ConflictFree db.tables) : ConflictFree after := by
  have accepted := checkConflicts_iff.mp checked
  intro name conflict row different nameAfter conflictAfter
  rw [applied.installed_iff distinct] at nameAfter conflictAfter
  rcases (applied.mem_conflicts distinct agree).mp row with
    ⟨entry, inPlan, rfl, declared⟩ | ⟨old, notRemoved, notPlanned⟩
  · -- The package that declares the conflict arrives.
    obtain ⟨notArriving, leaves⟩ := (accepted entry inPlan).1 conflict
      declared (Ne.symm different)
    obtain ⟨installed, kept⟩ := conflictAfter.resolve_left notArriving
    exact kept (leaves installed)
  · -- It was there before and stays.
    obtain ⟨installed, -⟩ := nameAfter.resolve_left notPlanned
    rcases conflictAfter with arriving | ⟨stays, -⟩
    · obtain ⟨entry, inPlan, rfl⟩ := List.mem_map.mp arriving
      rcases (accepted entry inPlan).2 name old different with
        removed | planned
      · exact notRemoved removed
      · exact notPlanned planned
    · exact free name conflict old different installed stays

/-- Whatever becomes of a native transaction, no two installed packages are in
conflict afterwards if none were before. -/
theorem nativeTransaction_conflictFree (session : Session)
    (flags : TxnFlags) (op : Bytes) (plan : NativePlan) {world : World}
    (idle : world.saved = none) (deletesRun : world.DeletesRun)
    (distinct : plan.names.Nodup)
    (agree : ∀ entry ∈ plan.install, ConflictsAgree session entry)
    (free : ConflictFree world.db.tables) :
    Ends (nativeTransaction session flags op plan world)
      (fun _ after => ConflictFree after.closed.tables)
      (fun _ _ => False) := by
  apply (nativeTransaction_outcome session flags op plan idle
    deletesRun).mono
  · intro code after outcome
    cases outcome with
    | unchanged same _ =>
        rw [same]
        exact free
    | applied _ checked _ saved applied =>
        have closed : after.closed = after.db := by
          rw [World.closed, saved]
          rfl
        rw [closed]
        exact applied.conflictFree distinct agree checked free
  · exact fun _ _ impossible => impossible

/-- `lib` gives way to `core`, which `app` then needs. -/
def swapPlan : NativePlan where
  remove := [ascii "lib"]
  install := [smallEntry "core" "1" [] [],
    smallEntry "app" "2" [ascii "core"] [ascii "old"]]

theorem smallDb_conflictFree : ConflictFree smallDb.tables := by
  intro name conflict row _ _ installed
  obtain ⟨-, rfl⟩ : name = ascii "app" ∧ conflict = ascii "old" := by
    simpa [smallDb] using row
  revert installed
  rw [← isInstalled_iff]
  decide

theorem swapPlan_done :
    exitCode (nativeTransaction smallSession plainFlags (ascii "lock-apply")
      swapPlan smallWorld) = some 0 := by
  decide +kernel

theorem swapPlan_conflictFree : ∃ after,
    nativeTransaction smallSession plainFlags (ascii "lock-apply") swapPlan
      smallWorld = .ok 0 after ∧ ConflictFree after.closed.tables := by
  have distinct : swapPlan.names.Nodup := by decide
  have idle := smallWorld_idle
  have deletesRun := smallWorld_deletesRun
  have free : ConflictFree smallWorld.db.tables := smallDb_conflictFree
  have done := swapPlan_done
  -- Nothing below may run the program on the concrete world.
  generalize smallWorld = world at *
  have ends := nativeTransaction_conflictFree smallSession plainFlags
    (ascii "lock-apply") swapPlan idle deletesRun distinct
    (fun entry _ => (small_agree entry).2) free
  exact ends_of_exitCode done ends

/-! ## Dangling dependencies -/

theorem checkDangling_iff {db : Db} {plan : NativePlan} :
    checkDangling db plan = true ↔ ∀ name ∈ plan.gone, ∀ who,
      (who, name) ∈ db.tables.deps → Installed db.tables who →
        who ∈ plan.gone ∨ who ∈ plan.names := by
  simp only [checkDangling, List.all_eq_true, Db.revdeps, mem_namesWith]
  apply forall₂_congr
  intro name gone
  apply forall₂_congr
  intro who row
  rw [decide_eq_true_iff, isInstalled_iff]
  tauto

theorem mem_gone {plan : NativePlan} {name : Bytes} :
    name ∈ plan.gone ↔ name ∈ plan.remove ∧ name ∉ plan.names := by
  simp [NativePlan.gone]

/-- No installed package depends on one that the plan removed and did not
install. -/
def NoDangling (plan : NativePlan) (tables : Tables) : Prop :=
  ∀ name dep, (name, dep) ∈ tables.deps → Installed tables name →
    dep ∉ plan.gone

/-- No package that the plan installs depends on one that it removes. -/
def NativePlan.KeepsOwnDeps (plan : NativePlan) : Prop :=
  ∀ entry ∈ plan.install, ∀ dep ∈ entry.deps, dep ∉ plan.gone

theorem Applied.noDangling_iff {session : Session} {flags : TxnFlags}
    {plan : NativePlan} {db : Db} {after : Tables}
    (applied : Applied session flags plan db.tables after)
    (distinct : plan.names.Nodup)
    (agree : ∀ entry ∈ plan.install, DepsAgree session entry)
    (checked : checkDangling db plan = true) :
    NoDangling plan after ↔ plan.KeepsOwnDeps := by
  constructor
  · intro noDangling entry inPlan dep isDep
    apply noDangling entry.name dep
    · exact (applied.mem_deps distinct agree).mpr
        (.inl ⟨entry, inPlan, rfl, isDep⟩)
    · exact (applied.installed_iff distinct).mpr
        (.inl (List.mem_map_of_mem inPlan))
  · intro keeps name dep row nameAfter isGone
    rcases (applied.mem_deps distinct agree).mp row with
      ⟨entry, inPlan, rfl, isDep⟩ | ⟨old, notRemoved, notPlanned⟩
    · exact keeps entry inPlan dep isDep isGone
    · -- A dependent that stays is the one that the check looks at.
      rw [applied.installed_iff distinct] at nameAfter
      obtain ⟨installed, -⟩ := nameAfter.resolve_left notPlanned
      rcases checkDangling_iff.mp checked dep isGone name old installed with
        gone | planned
      · exact notRemoved (mem_gone.mp gone).1
      · exact notPlanned planned

/-- After a native transaction that was carried out, no installed package
depends on a removed one exactly when no package of the plan does: the check
skips the dependents that the plan replaces, and never looks at what their new
versions depend on. -/
theorem nativeTransaction_noDangling_iff (session : Session)
    (flags : TxnFlags) (op : Bytes) (plan : NativePlan) {world : World}
    (idle : world.saved = none) (deletesRun : world.DeletesRun)
    (distinct : plan.names.Nodup)
    (agree : ∀ entry ∈ plan.install, DepsAgree session entry)
    (wetRun : flags.dryRun = false) (installs : flags.downloadOnly = false) :
    Ends (nativeTransaction session flags op plan world)
      (fun code after => code = 0 →
        (NoDangling plan after.closed.tables ↔ plan.KeepsOwnDeps))
      (fun _ _ => False) := by
  apply (nativeTransaction_outcome session flags op plan idle
    deletesRun).mono
  · intro code after outcome isOk
    cases outcome with
    | unchanged _ reason =>
        rcases reason isOk with dry | only | ⟨noRemove, noInstall⟩
        · rw [wetRun] at dry
          cases dry
        · rw [installs] at only
          cases only
        · simp [NoDangling, NativePlan.KeepsOwnDeps, NativePlan.gone,
            noRemove, noInstall]
    | applied _ _ checked saved applied =>
        have closed : after.closed = after.db := by
          rw [World.closed, saved]
          rfl
        rw [closed]
        exact applied.noDangling_iff distinct agree checked
  · exact fun _ _ impossible => impossible

theorem swapPlan_noDangling : ∃ after,
    nativeTransaction smallSession plainFlags (ascii "lock-apply") swapPlan
      smallWorld = .ok 0 after ∧ (0 = 0 →
        (NoDangling swapPlan after.closed.tables ↔
          swapPlan.KeepsOwnDeps)) := by
  have distinct : swapPlan.names.Nodup := by decide
  have idle := smallWorld_idle
  have deletesRun := smallWorld_deletesRun
  have done := swapPlan_done
  generalize smallWorld = world at *
  have ends := nativeTransaction_noDangling_iff smallSession plainFlags
    (ascii "lock-apply") swapPlan idle deletesRun distinct
    (fun entry _ => (small_agree entry).1) rfl rfl
  exact ends_of_exitCode done ends

/-- `lib` is removed, although the new `app` still depends on it. -/
def danglingPlan : NativePlan where
  remove := [ascii "lib"]
  install := [smallEntry "app" "2" [ascii "lib"] []]

theorem danglingPlan_done :
    exitCode (nativeTransaction smallSession plainFlags (ascii "lock-apply")
      danglingPlan smallWorld) = some 0 := by
  decide +kernel

theorem upgraded_dependent_dangles : ∃ after,
    nativeTransaction smallSession plainFlags (ascii "lock-apply")
      danglingPlan smallWorld = .ok 0 after ∧
        ¬ NoDangling danglingPlan after.closed.tables := by
  have distinct : danglingPlan.names.Nodup := by decide
  have idle := smallWorld_idle
  have deletesRun := smallWorld_deletesRun
  have done := danglingPlan_done
  generalize smallWorld = world at *
  obtain ⟨after, isResult, outcome⟩ := ends_of_exitCode done
    (nativeTransaction_outcome smallSession plainFlags (ascii "lock-apply")
      danglingPlan idle deletesRun)
  refine ⟨after, isResult, ?_⟩
  cases outcome with
  | unchanged _ reason => exact absurd (reason rfl) (by decide)
  | applied _ _ checked saved applied =>
      have closed : after.closed = after.db := by
        rw [World.closed, saved]
        rfl
      rw [closed, applied.noDangling_iff distinct
        (fun entry _ => (small_agree entry).1) checked]
      intro keeps
      exact keeps _ List.mem_cons_self (ascii "lib") (by decide) (by decide)

end SaltOS.Install
