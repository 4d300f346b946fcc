import SaltOS.Config.Native
import SaltOS.Install.Closure
import SaltOS.Lib.References

/-!
# Rows belong to installed packages

The tables of files, dependencies, conflicts and hooks name their package
without a foreign key, and nothing but the order of the statements in
`salt_db_record_install` and `salt_db_record_remove` keeps them in step with
the table of packages.  They stay in step whatever commands are run and
however these end.
-/

namespace SaltOS.Install

open Lib Repo Lock Txn Pkg

/-- Every package has one row, and at most one for each of its hooks; every
other row belongs to an installed package. -/
structure Owned (tables : Tables) : Prop where
  distinct : (tables.packages.map PackageRow.name).Nodup
  files : References FileRow.name PackageRow.name tables.files
    tables.packages
  deps : References Prod.fst PackageRow.name tables.deps tables.packages
  conflicts : References Prod.fst PackageRow.name tables.conflicts
    tables.packages
  hooks : References Prod.fst PackageRow.name tables.hooks tables.packages
  oneHook : (tables.hooks.map fun row => (row.1, row.2.1)).Nodup

theorem empty_owned : Owned Db.empty.tables where
  distinct := List.nodup_nil
  files := .nil
  deps := .nil
  conflicts := .nil
  hooks := .nil
  oneHook := List.nodup_nil

/-! ## One package -/

theorem Owned.remove {tables : Tables} (owned : Owned tables)
    (name : Bytes) : Owned (tables.remove name) := by
  have none : ∀ {ρ : Type} {key : ρ → Bytes}, ∀ row ∈ ([] : List ρ),
      key row = name := by
    intro ρ key row member
    cases member
  constructor
  · apply nodup_replaceRows (fun _ _ same => same) none List.nodup_nil
    exact owned.distinct
  · exact owned.files.replace none fun other => absurd rfl other
  · exact owned.deps.replace none fun other => absurd rfl other
  · exact owned.conflicts.replace none fun other => absurd rfl other
  · exact owned.hooks.replace none fun other => absurd rfl other
  · apply nodup_replaceRows _ none List.nodup_nil owned.oneHook
    intro row other same
    exact (Prod.mk.inj same).1

/-- The rows of some of the hooks that a package declares. -/
def hookRowsOf (pkg : PkgMeta) (hooks : List Hook) :
    List (Bytes × Bytes × Bytes) :=
  hooks.flatMap fun hook =>
    ((pkg.hooks hook).map fun body => (pkg.name, hook.name, body)).toList

theorem hookRowsOf_own {pkg : PkgMeta} {hooks : List Hook}
    {row : Bytes × Bytes × Bytes} (member : row ∈ hookRowsOf pkg hooks) :
    row.1 = pkg.name ∧ row.2.1 ∈ hooks.map Hook.name := by
  obtain ⟨hook, isHook, isRow⟩ := List.mem_flatMap.mp member
  obtain ⟨body, -, rfl⟩ := Option.map_eq_some_iff.mp
    (Option.mem_toList.mp isRow)
  exact ⟨rfl, List.mem_map_of_mem isHook⟩

theorem hookRowsOf_nodup {pkg : PkgMeta} {hooks : List Hook}
    (distinct : (hooks.map Hook.name).Nodup) :
    ((hookRowsOf pkg hooks).map fun row => (row.1, row.2.1)).Nodup := by
  induction hooks with
  | nil => exact List.nodup_nil
  | cons hook hooks induction =>
      obtain ⟨fresh, others⟩ := List.nodup_cons.mp distinct
      have rest := induction others
      rw [hookRowsOf, List.flatMap_cons, ← hookRowsOf]
      cases pkg.hooks hook with
      | none => exact rest
      | some body =>
          apply List.nodup_cons.mpr
          constructor
          · intro again
            obtain ⟨row, isRow, same⟩ := List.mem_map.mp again
            have sameHook : row.2.1 = hook.name := (Prod.mk.inj same).2
            apply fresh
            rw [← sameHook]
            exact (hookRowsOf_own isRow).2
          · exact rest

theorem Owned.install {tables : Tables} (owned : Owned tables)
    (pkg : PkgMeta) (manifest : Manifest) {row : PackageRow}
    (isName : row.name = pkg.name) :
    Owned (tables.install pkg manifest row) := by
  have isOwner : pkg.name ∈ [row].map PackageRow.name := by
    simp [isName]
  have hooksOwn : ∀ hook ∈ hookRows pkg, hook.1 = pkg.name :=
    fun hook member => (hookRowsOf_own member).1
  have hooksApart : ((hookRows pkg).map fun hook =>
      (hook.1, hook.2.1)).Nodup := hookRowsOf_nodup (by decide)
  constructor
  · have single : ([row].map PackageRow.name).Nodup :=
      List.nodup_singleton _
    apply nodup_replaceRows (fun _ _ same => same) _ single owned.distinct
    intro other member
    rw [List.mem_singleton.mp member, isName]
  · apply owned.files.replace _ fun _ => isOwner
    intro file member
    obtain ⟨entry, -, rfl⟩ := List.mem_map.mp member
    rfl
  · apply owned.deps.replace _ fun _ => isOwner
    intro dep member
    obtain ⟨name, -, rfl⟩ := List.mem_map.mp member
    rfl
  · apply owned.conflicts.replace _ fun _ => isOwner
    intro conflict member
    obtain ⟨name, -, rfl⟩ := List.mem_map.mp member
    rfl
  · exact owned.hooks.replace hooksOwn fun _ => isOwner
  · apply nodup_replaceRows _ hooksOwn hooksApart owned.oneHook
    intro row other same
    exact (Prod.mk.inj same).1

/-! ## Plans -/

theorem Owned.change {tables : Tables} (owned : Owned tables)
    (plan : Plan) (id : Nat) : Owned (plan.change id tables) := by
  have removed : ∀ (names : List Bytes) {tables : Tables}, Owned tables →
      Owned (names.foldl (fun tables name => tables.remove name) tables) := by
    intro names
    induction names with
    | nil => exact fun owned => owned
    | cons name names induction =>
        intro tables owned
        exact induction (owned.remove name)
  have installed : ∀ (installs : List Planned) {tables : Tables},
      Owned tables → Owned (installs.foldl (Planned.change id) tables) := by
    intro installs
    induction installs with
    | nil => exact fun owned => owned
    | cons planned installs induction =>
        intro tables owned
        apply induction
        unfold Planned.change
        cases planned.opened with
        | none => exact owned
        | some archive => exact owned.install _ _ rfl
  exact installed plan.install (removed plan.remove owned)

/-! ## Programs -/

/-- A program that keeps rows owned, once the database is closed. -/
def LeavesOwned {α : Type} (program : Io α) : Prop :=
  ∀ world : World, world.saved = none → world.DeletesRun →
    Owned world.db.tables →
      Ends (program world) (fun _ after => Owned after.closed.tables)
        (fun _ _ => False)

theorem LeavesOwned.pure {α : Type} (value : α) :
    LeavesOwned (pure value) := by
  intro world idle _ owned
  have same : world.closed = world.db := by
    rw [World.closed, idle]
    rfl
  change Owned world.closed.tables
  rw [same]
  exact owned

theorem nativeTransaction_leavesOwned (session : Session)
    (flags : TxnFlags) (op : Bytes) (plan : NativePlan) :
    LeavesOwned (nativeTransaction session flags op plan) := by
  intro world idle deletesRun owned
  apply (nativeTransaction_outcome session flags op plan idle
    deletesRun).mono
  · intro code after outcome
    cases outcome with
    | unchanged same _ =>
        rw [same]
        exact owned
    | applied _ _ _ saved applied =>
        have closed : after.closed = after.db := by
          rw [World.closed, saved]
          rfl
        obtain ⟨id, planned, -, changed, -⟩ := applied
        rw [closed, changed]
        exact owned.change _ id
  · exact fun _ _ impossible => impossible

section

variable (machine : Machine) (flags : TxnFlags)

theorem doInstall_leavesOwned (names : List Bytes)
    (isUpdate checkOnly : Bool) :
    LeavesOwned (doInstall machine names isUpdate flags checkOnly) := by
  unfold doInstall
  cases machine.index with
  | none => exact .pure 1
  | some index =>
      dsimp only
      split
      · exact .pure 1
      intro world idle deletesRun owned
      have stays := fun code : Nat =>
        LeavesOwned.pure code world idle deletesRun owned
      apply Ends.bindOk rfl
      apply Ends.ite (fun _ => stays _)
      intro _
      apply Ends.ite (fun _ => stays _)
      intro _
      exact nativeTransaction_leavesOwned _ _ _ _ world idle deletesRun owned

theorem nativeRemove_leavesOwned (args : List Bytes) :
    LeavesOwned (nativeRemove machine args flags) := by
  intro world idle deletesRun owned
  have stays := fun code : Nat =>
    LeavesOwned.pure code world idle deletesRun owned
  apply Ends.ite (fun _ => stays _)
  intro _
  apply Ends.bindOk rfl
  apply Ends.ite (fun _ => stays _)
  intro _
  exact nativeTransaction_leavesOwned _ _ _ _ world idle deletesRun owned

theorem lockApply_leavesOwned (path : Bytes) :
    LeavesOwned (lockApply machine path flags) := by
  unfold lockApply
  cases machine.lock path with
  | error message => exact .pure 1
  | ok file =>
      dsimp only
      split
      · exact .pure 1
      intro world idle deletesRun owned
      have stays := fun code : Nat =>
        LeavesOwned.pure code world idle deletesRun owned
      apply Ends.bindOk rfl
      cases lockPlan machine.index (compareLock world.db file.native) with
      | none => exact stays _
      | some plan =>
          apply Ends.ite (fun _ => stays _)
          intro _
          exact nativeTransaction_leavesOwned _ _ _ _ world idle deletesRun
            owned

theorem applyNative_leavesOwned (config : Config.SystemConfig) :
    LeavesOwned (Config.applyNative machine config flags) := by
  unfold Config.applyNative
  cases machine.index with
  | none => exact .pure _
  | some index =>
      dsimp only
      split
      · exact .pure _
      cases Config.resolveNative index config with
      | none => exact .pure _
      | some desired =>
          intro world idle deletesRun owned
          apply Ends.bindOk rfl
          apply Ends.ite
          · intro _
            exact LeavesOwned.pure _ world idle deletesRun owned
          · intro _
            apply Ends.bind (nativeTransaction_leavesOwned _ _ _ _ world idle
              deletesRun owned)
            exact fun _ _ kept => kept

theorem Command.run_leavesOwned (command : Command) :
    LeavesOwned (command.run machine) := by
  cases command with
  | install args =>
      change LeavesOwned (cmdInstall machine args)
      unfold cmdInstall
      split
      · exact .pure 2
      split
      · split
        · exact .pure 2
        · exact lockApply_leavesOwned machine _ _
      split
      · exact .pure 2
      dsimp only
      split
      · exact .pure 0
      · exact doInstall_leavesOwned machine _ _ _ _
  | update args =>
      change LeavesOwned (cmdUpdate machine args)
      unfold cmdUpdate
      split
      · exact doInstall_leavesOwned machine _ _ _ _
      split
      · exact .pure 2
      split
      · exact .pure 0
      · exact doInstall_leavesOwned machine _ _ _ _
  | remove args =>
      change LeavesOwned (cmdRemove machine args)
      unfold cmdRemove
      split
      · exact .pure 2
      split
      · exact .pure 2
      dsimp only
      split
      · exact .pure 0
      · exact nativeRemove_leavesOwned machine _ _

end

/-! ## Runs -/

/-- One command that runs native transactions, in any world in which SQLite
carries out the deletions whose outcome nobody looks at. -/
inductive NativeStep (before : Db) : Db → Prop where
  | command (machine : Machine) (command : Command) {world : World} :
      world.db = before → world.saved = none → world.DeletesRun →
      NativeStep before (finalState (command.run machine world)).closed
  | configApply (machine : Machine) (config : Config.SystemConfig)
      (flags : TxnFlags) {world : World} :
      world.db = before → world.saved = none → world.DeletesRun →
      NativeStep before
        (finalState (Config.applyNative machine config flags world)).closed

theorem LeavesOwned.final {α : Type} {program : Io α}
    (leaves : LeavesOwned program) {world : World}
    (idle : world.saved = none) (deletesRun : world.DeletesRun)
    (owned : Owned world.db.tables) :
    Owned (finalState (program world)).closed.tables := by
  have ends := leaves world idle deletesRun owned
  cases outcome : program world with
  | ok value after =>
      rw [outcome] at ends
      exact ends
  | error failure after =>
      rw [outcome] at ends
      exact ends.elim

theorem NativeStep.owned {before after : Db} (step : NativeStep before after)
    (owned : Owned before.tables) : Owned after.tables := by
  cases step with
  | command machine command isDb idle deletesRun =>
      subst isDb
      exact (command.run_leavesOwned machine).final idle deletesRun owned
  | configApply machine config flags isDb idle deletesRun =>
      subst isDb
      exact (applyNative_leavesOwned machine flags config).final idle
        deletesRun owned

def freshInstall : Invocation := soloInvocation (.install [ascii "app"])

end SaltOS.Install
