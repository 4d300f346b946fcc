import SaltOS.Install.Ownership
import SaltOS.Install.Newest
import SaltOS.Lock.LockApply

/-!
# Updates rise and settle

A run of updates, against whatever indexes and however each of them ends,
takes no package away and none down.  An update that was carried out leaves
every package at or above everything that the index offers of it, so that
another one has nothing to do.
-/

namespace SaltOS.Install

open Lib Repo Lock Txn

/-- No installed package is gone, and none has a lower version or release. -/
def NotLowered (before after : Tables) : Prop :=
  ∀ row ∈ before.packages, ∃ later ∈ after.packages,
    later.name = row.name ∧
      ¬ Above row.version row.release later.version later.release

theorem NotLowered.refl (tables : Tables) : NotLowered tables tables := by
  intro row member
  refine ⟨row, member, rfl, ?_⟩
  rw [above_iff]
  exact lt_irrefl _

theorem NotLowered.trans {before middle after : Tables}
    (first : NotLowered before middle) (second : NotLowered middle after) :
    NotLowered before after := by
  intro row member
  obtain ⟨later, isLater, sameName, notAbove⟩ := first row member
  obtain ⟨last, isLast, alsoName, alsoNotAbove⟩ := second later isLater
  refine ⟨last, isLast, alsoName.trans sameName, ?_⟩
  rw [above_iff, not_lt] at notAbove alsoNotAbove ⊢
  exact notAbove.trans alsoNotAbove

/-- Every installed package stands at or above all that the index has of its
name. -/
def Current (index : Index) (tables : Tables) : Prop :=
  ∀ row ∈ tables.packages, ∀ entry ∈ index.items, entry.name = row.name →
    ¬ Above entry.version entry.release row.version row.release

/-- A package that the index has something above is a target. -/
theorem mem_updateTargets_of_above {index : Index} {db : Db}
    {row : PackageRow} (member : row ∈ db.tables.packages) {entry : Entry}
    (isEntry : entry ∈ index.items) (isName : entry.name = row.name)
    (above : Above entry.version entry.release row.version row.release) :
    row.name ∈ updateTargets index db := by
  cases found : index.find row.name with
  | none =>
      apply absurd _ (find_none.mp found)
      rw [← isName]
      exact List.mem_map_of_mem isEntry
  | some newest =>
      have highest := (find_newest found).highest entry isEntry isName
      refine mem_updateTargets.mpr ⟨row, member, rfl, newest, found, ?_⟩
      rw [above_iff] at above ⊢
      rw [above_iff, not_lt] at highest
      exact above.trans_le highest

theorem updateTargets_eq_nil_iff {index : Index} {db : Db} :
    updateTargets index db = [] ↔ Current index db.tables := by
  rw [List.eq_nil_iff_forall_not_mem]
  constructor
  · intro none row member entry isEntry isName above
    exact none row.name
      (mem_updateTargets_of_above member isEntry isName above)
  · intro current name target
    obtain ⟨row, member, rfl, entry, found, above⟩ :=
      mem_updateTargets.mp target
    obtain ⟨isName, isEntry⟩ := find_some found
    exact current row member entry isEntry isName above

/-! ## Plans -/

section

variable {index : Index} {db : Db} {nodeps : Bool} {targets : List Bytes}

/-- With `nodeps` too, a plan without problems has each name once, and every
target. -/
theorem resolveAll_planned
    (noProblems : (resolveAll index db targets nodeps).problems = []) :
    ((resolveAll index db targets nodeps).order.map Entry.name).Nodup ∧
      ∀ name ∈ targets,
        name ∈ (resolveAll index db targets nodeps).order.map Entry.name := by
  have follows : Resolution.Follows index
      (resolveAll index db targets nodeps) _ := resolveAll_follows
  obtain ⟨distinct, starts, -⟩ :=
    visitAll_closed (@wantedDeps_bounded index db targets nodeps) targets
      (fun _ _ => trivial) index_enough
  rw [follows.order, names_filterMap (follows.problems.mp noProblems)]
  exact ⟨distinct, starts⟩

variable {session : Session} {flags : TxnFlags} {after : Tables}

/-- The row of a planned entry has the version of the entry. -/
theorem Applied.version_planned {plan : NativePlan} {before : Tables}
    (applied : Applied session flags plan before after)
    (distinct : plan.names.Nodup)
    (agree : ∀ entry ∈ plan.install, VersionAgrees session entry)
    {row : PackageRow} (member : row ∈ after.packages)
    (planned : row.name ∈ plan.names) :
    ∃ entry ∈ plan.install, entry.name = row.name ∧
      row.version = entry.version ∧ row.release = entry.release := by
  obtain ⟨id, mem⟩ := applied.mem_table distinct packages_column
  rcases (mem row).mp member with
    ⟨entry, inPlan, archive, brought, isNew⟩ | ⟨-, -, notPlanned⟩
  · obtain rfl := List.mem_singleton.mp isNew
    obtain ⟨version, release⟩ := agree entry inPlan archive brought.opened
    exact ⟨entry, inPlan, brought.name.symm, version, release⟩
  · exact absurd planned notPlanned

/-- The plan of an update. -/
def updatePlan (index : Index) (db : Db) (nodeps : Bool) : NativePlan :=
  ⟨[], (resolveAll index db (updateTargets index db) nodeps).order⟩

theorem updatePlan_planned
    (noProblems : (resolveAll index db (updateTargets index db)
      nodeps).problems = []) :
    (updatePlan index db nodeps).names.Nodup ∧
      ∀ name ∈ updateTargets index db,
        name ∈ (updatePlan index db nodeps).names :=
  resolveAll_planned noProblems

theorem updatePlan_agree
    (agree : ∀ entry ∈ index.items, VersionAgrees session entry) :
    ∀ entry ∈ (updatePlan index db nodeps).install,
      VersionAgrees session entry := by
  intro entry inPlan
  exact agree entry (find_some (resolveAll_wanted inPlan).1).2

theorem Applied.notLowered
    (noProblems : (resolveAll index db (updateTargets index db)
      nodeps).problems = [])
    (applied : Applied session flags (updatePlan index db nodeps) db.tables
      after)
    (agree : ∀ entry ∈ index.items, VersionAgrees session entry)
    (distinct : (db.tables.packages.map PackageRow.name).Nodup) :
    NotLowered db.tables after := by
  obtain ⟨apart, -⟩ := updatePlan_planned noProblems
  intro row member
  by_cases planned : row.name ∈ (updatePlan index db nodeps).names
  · have installed : Installed after row.name :=
      (applied.installed_iff apart).mpr (.inl planned)
    obtain ⟨later, isLater, sameName⟩ := List.mem_map.mp installed
    refine ⟨later, isLater, sameName, ?_⟩
    obtain ⟨entry, inPlan, isName, version, release⟩ :=
      applied.version_planned apart (updatePlan_agree agree) isLater
        (sameName ▸ planned)
    have above := update_above distinct inPlan member
      (isName.trans sameName).symm
    rw [version, release, above_iff, not_lt]
    exact ((above_iff _ _ _ _).mp above).le
  · obtain ⟨id, mem⟩ := applied.mem_table apart packages_column
    have stays : row ∈ after.packages :=
      (mem row).mpr (.inr ⟨member, List.not_mem_nil, planned⟩)
    refine ⟨row, stays, rfl, ?_⟩
    rw [above_iff]
    exact lt_irrefl _

theorem Applied.current
    (noProblems : (resolveAll index db (updateTargets index db)
      nodeps).problems = [])
    (applied : Applied session flags (updatePlan index db nodeps) db.tables
      after)
    (agree : ∀ entry ∈ index.items, VersionAgrees session entry) :
    Current index after := by
  obtain ⟨apart, hasTargets⟩ := updatePlan_planned noProblems
  intro row member entry isEntry isName above
  by_cases planned : row.name ∈ (updatePlan index db nodeps).names
  · -- What was installed is the newest entry of its name.
    obtain ⟨newest, inPlan, sameName, version, release⟩ :=
      applied.version_planned apart (updatePlan_agree agree) member planned
    have found := (resolveAll_wanted inPlan).1
    rw [version, release] at above
    exact (find_newest found).highest entry isEntry
      (isName.trans sameName.symm) above
  · -- What was left alone was not a target.
    obtain ⟨id, mem⟩ := applied.mem_table apart packages_column
    rcases (mem row).mp member with
      ⟨other, inPlan, archive, brought, isNew⟩ | ⟨old, -, -⟩
    · apply planned
      rw [List.mem_singleton.mp isNew]
      exact List.mem_map.mpr ⟨other, inPlan, brought.name.symm⟩
    · apply planned
      apply hasTargets
      exact mem_updateTargets_of_above old isEntry isName above

end

/-! ## Commands -/

/-- What an update leaves of the tables: with the exit code 0 it has looked at
everything the index offers. -/
structure Updated (machine : Machine) (flags : TxnFlags) (before : Tables)
    (code : Nat) (after : Tables) : Prop where
  notLowered : NotLowered before after
  current : code = 0 → flags.dryRun = false → flags.downloadOnly = false →
    ∃ index, machine.index = some index ∧ Current index after

/-- The index agrees with the archives about versions. -/
def Machine.VersionsAgree (machine : Machine) : Prop :=
  ∀ index, machine.index = some index → ∀ entry ∈ index.items,
    VersionAgrees machine.session entry

section

variable {machine : Machine} {flags : TxnFlags} {world : World}

theorem Updated.failed {code : Nat} (notZero : code ≠ 0)
    (idle : world.saved = none) :
    Updated machine flags world.db.tables code world.closed.tables := by
  constructor
  · rw [World.closed, idle]
    exact .refl _
  · intro isZero
    exact absurd isZero notZero

theorem doInstall_updated (agree : machine.VersionsAgree)
    (checkOnly : Bool) (idle : world.saved = none)
    (deletesRun : world.DeletesRun)
    (distinct : (world.db.tables.packages.map PackageRow.name).Nodup) :
    Ends (doInstall machine [] true flags checkOnly world)
      (fun code after =>
        Updated machine flags world.db.tables code after.closed.tables)
      (fun _ _ => False) := by
  unfold doInstall
  cases isIndex : machine.index with
  | none => exact Updated.failed one_ne_zero idle
  | some index =>
      apply Ends.ite
      · intro _
        exact Updated.failed one_ne_zero idle
      intro _
      apply Ends.bindOk rfl
      apply Ends.ite
      · intro _
        change Updated _ _ _ (if updateTargets index world.db = [] then 0
          else 100) _
        by_cases none : updateTargets index world.db = []
        · rw [if_pos none]
          constructor
          · rw [World.closed, idle]
            exact .refl _
          · intro _ _ _
            refine ⟨index, isIndex, ?_⟩
            rw [World.closed, idle]
            exact updateTargets_eq_nil_iff.mp none
        · rw [if_neg none]
          exact Updated.failed (by decide) idle
      intro isTargets
      apply Ends.ite
      · intro _
        exact Updated.failed one_ne_zero idle
      intro hasProblems
      have noProblems : (resolveAll index world.db
          (updateTargets index world.db) flags.nodeps).problems = [] := by
        simpa using hasProblems
      apply (nativeTransaction_outcome machine.session flags
        (ascii "update") (updatePlan index world.db flags.nodeps) idle
        deletesRun).mono
      · intro code after outcome
        cases outcome with
        | unchanged same reason =>
            rw [same]
            refine ⟨.refl _, ?_⟩
            intro isZero wetRun installs
            rcases reason isZero with dry | only | ⟨-, noInstall⟩
            · rw [wetRun] at dry
              cases dry
            · rw [installs] at only
              cases only
            · -- An empty plan has no targets, and those were looked at.
              refine ⟨index, isIndex, updateTargets_eq_nil_iff.mp ?_⟩
              rw [List.eq_nil_iff_forall_not_mem]
              intro name target
              have planned := (updatePlan_planned noProblems).2 name target
              rw [NativePlan.names, noInstall] at planned
              cases planned
        | applied _ _ _ saved applied =>
            have closed : after.closed = after.db := by
              rw [World.closed, saved]
              rfl
            rw [closed]
            constructor
            · exact applied.notLowered noProblems (agree index isIndex)
                distinct
            · intro _ _ _
              exact ⟨index, isIndex,
                applied.current noProblems (agree index isIndex)⟩
      · exact fun _ _ impossible => impossible

/-- With everything current an update does nothing. -/
theorem doInstall_current {index : Index}
    (isIndex : machine.index = some index) (opens : machine.opens = true)
    (current : Current index world.db.tables) (checkOnly : Bool) :
    doInstall machine [] true flags checkOnly world = .ok 0 world := by
  have none : updateTargets index world.db = [] :=
    updateTargets_eq_nil_iff.mpr current
  unfold doInstall
  rw [isIndex]
  dsimp only
  rw [if_neg (not_not.mpr opens)]
  apply (bind_run rfl).trans
  simp only [none, if_true, true_or, and_self]
  rfl

/-- A command line of an update of native packages. -/
def NativeUpdate (args : List Bytes) : Prop :=
  args = [ascii "--check"] ∨
    ∃ line, parseTxnFlags args = some line ∧ line.args = []

/-- A command line of an update that is carried out, or of a check. -/
def CarriesOut (args : List Bytes) : Prop :=
  args = [ascii "--check"] ∨
    ∃ line, parseTxnFlags args = some line ∧ line.args = [] ∧
      line.flags.dryRun = false ∧ line.flags.downloadOnly = false

theorem cmdUpdate_current {index : Index}
    (isIndex : machine.index = some index) (opens : machine.opens = true)
    (current : Current index world.db.tables) {args : List Bytes}
    (native : NativeUpdate args) :
    cmdUpdate machine args world = .ok 0 world := by
  unfold cmdUpdate
  by_cases checks : args = [ascii "--check"]
  · rw [if_pos checks]
    exact doInstall_current isIndex opens current true
  · rw [if_neg checks]
    obtain ⟨line, parsed, noArgs⟩ := native.resolve_left checks
    rw [parsed]
    dsimp only
    rw [if_neg (not_not.mpr noArgs)]
    exact doInstall_current isIndex opens current false

theorem cmdUpdate_updated (agree : machine.VersionsAgree)
    (args : List Bytes) (idle : world.saved = none)
    (deletesRun : world.DeletesRun)
    (distinct : (world.db.tables.packages.map PackageRow.name).Nodup) :
    Ends (cmdUpdate machine args world)
      (fun code after => NotLowered world.db.tables after.closed.tables ∧
        (code = 0 → CarriesOut args →
          ∃ index, machine.index = some index ∧
            Current index after.closed.tables))
      (fun _ _ => False) := by
  have stays : NotLowered world.db.tables world.closed.tables := by
    rw [World.closed, idle]
    exact .refl _
  unfold cmdUpdate
  by_cases checks : args = [ascii "--check"]
  · rw [if_pos checks]
    apply (doInstall_updated agree true idle deletesRun distinct).mono
    · intro code after updated
      refine ⟨updated.notLowered, ?_⟩
      intro isZero _
      exact updated.current isZero rfl rfl
    · exact fun _ _ impossible => impossible
  · rw [if_neg checks]
    cases parsed : parseTxnFlags args with
    | none =>
        refine ⟨stays, ?_⟩
        intro isZero
        cases isZero
    | some line =>
        apply Ends.ite
        · intro hasArgs
          refine ⟨stays, ?_⟩
          intro _ carriesOut
          obtain ⟨other, isLine, noArgs, -⟩ := carriesOut.resolve_left checks
          cases parsed.symm.trans isLine
          exact absurd noArgs hasArgs
        · intro _
          apply (doInstall_updated agree false idle deletesRun distinct).mono
          · intro code after updated
            refine ⟨updated.notLowered, ?_⟩
            intro isZero carriesOut
            obtain ⟨other, isLine, -, wetRun, installs⟩ :=
              carriesOut.resolve_left checks
            cases parsed.symm.trans isLine
            exact updated.current isZero wetRun installs
          · exact fun _ _ impossible => impossible

end

/-! ## Runs -/

/-- An update against an index that agrees with the archives. -/
structure Invocation.Updates (invocation : Invocation) (args : List Bytes) :
    Prop where
  isUpdate : invocation.command = .update args
  agree : invocation.machine.VersionsAgree
  deletesRun : ∀ fault ∈ invocation.deleteFaults, fault = false

/-- The exit code of an invocation. -/
def Invocation.code (invocation : Invocation) (db : Db) : Option Nat :=
  exitCode (invocation.command.run invocation.machine (invocation.world db))

theorem Invocation.Updates.leaves {invocation : Invocation}
    {args : List Bytes} (updates : invocation.Updates args) {db : Db}
    (owned : Owned db.tables) :
    Owned (invocation.leaves db).tables ∧
      NotLowered db.tables (invocation.leaves db).tables ∧
      (invocation.code db = some 0 → CarriesOut args →
        ∃ index, invocation.machine.index = some index ∧
          Current index (invocation.leaves db).tables) := by
  have isOwned : Owned (invocation.leaves db).tables :=
    (invocation.command.run_leavesOwned invocation.machine).final rfl
      updates.deletesRun owned
  have isRun : invocation.command.run invocation.machine =
      cmdUpdate invocation.machine args := by
    rw [updates.isUpdate]
    rfl
  have ends := @cmdUpdate_updated invocation.machine (invocation.world db)
    updates.agree args rfl updates.deletesRun owned.distinct
  rw [← isRun] at ends
  refine ⟨isOwned, ?_⟩
  unfold Invocation.leaves Invocation.code
  cases isResult : invocation.command.run invocation.machine
      (invocation.world db) with
  | ok code after =>
      rw [isResult] at ends
      refine ⟨ends.1, ?_⟩
      intro done
      exact ends.2 (Option.some.inj done)
  | error failure after =>
      rw [isResult] at ends
      exact ends.elim

theorem soloDb_owned : Owned soloDb.tables where
  distinct := List.nodup_singleton _
  files := .nil
  deps := .nil
  conflicts := .nil
  hooks := .nil
  oneHook := List.nodup_nil

theorem soloInvocation_updates (args : List Bytes) :
    (soloInvocation (.update args)).Updates args where
  isUpdate := rfl
  agree := by
    intro index _ entry _ archive opened
    cases opened
    exact ⟨rfl, rfl⟩
  deletesRun := (soloInvocation_assumed (.update args)).deletesRun

end SaltOS.Install
