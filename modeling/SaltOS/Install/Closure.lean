import SaltOS.Install.Commands
import SaltOS.Lib.Run

/-!
# Dependencies stay installed

Whatever sequence of commands is run, and however each of them ends, every
dependency of an installed package is installed.
-/

namespace SaltOS.Install

open Lib Repo Lock

/-- Every dependency of an installed package is installed. -/
def Closed (tables : Tables) : Prop :=
  ∀ name dep, (name, dep) ∈ tables.deps → Installed tables name →
    Installed tables dep

/-! ## Plans -/

/-- Installing what `resolve` found. -/
theorem Applied.closed_of_resolved {session : Session} {flags : TxnFlags}
    {index : Index} {db : Db} {targets : List Bytes} {order : List Entry}
    {after : Tables}
    (applied : Applied session flags ⟨[], order⟩ db.tables after)
    (resolved : Resolved index db targets order)
    (agree : ∀ entry ∈ index.items, DepsAgree session entry)
    (closed : Closed db.tables) : Closed after := by
  have distinct : (NativePlan.mk [] order).names.Nodup := resolved.distinct
  have installed_iff : ∀ name, Installed after name ↔
      name ∈ order.map Entry.name ∨ Installed db.tables name := by
    intro name
    rw [applied.installed_iff distinct]
    simp [NativePlan.names]
  intro name dep row nameAfter
  rw [installed_iff] at nameAfter ⊢
  rcases (applied.mem_deps distinct fun entry member =>
    agree entry (resolved.fromIndex entry member)).mp row with
    ⟨entry, inPlan, rfl, isDep⟩ | ⟨old, -, notPlanned⟩
  · rcases resolved.deps entry inPlan dep isDep with present | planned
    · exact .inr (isInstalled_iff.mp present)
    · exact .inl planned
  · exact .inr (closed name dep old (nameAfter.resolve_left notPlanned))

/-- Removing what `check_dangling` lets go. -/
theorem Applied.closed_of_removed {session : Session} {flags : TxnFlags}
    {db : Db} {names : List Bytes} {after : Tables}
    (applied : Applied session flags ⟨names, []⟩ db.tables after)
    (checked : checkDangling db ⟨names, []⟩ = true)
    (closed : Closed db.tables) : Closed after := by
  have distinct : (NativePlan.mk names []).names.Nodup := List.nodup_nil
  have noneBrought : ∀ name, name ∉ (NativePlan.mk names []).names := by
    simp [NativePlan.names]
  have installed_iff : ∀ name, Installed after name ↔
      Installed db.tables name ∧ name ∉ names := by
    intro name
    rw [applied.installed_iff distinct]
    simp [NativePlan.names]
  intro name dep row nameAfter
  rw [installed_iff] at nameAfter ⊢
  have old : (name, dep) ∈ db.tables.deps := by
    rcases (applied.mem_deps distinct (by simp)).mp row with
      ⟨entry, inPlan, -⟩ | ⟨old, -⟩
    · cases inPlan
    · exact old
  refine ⟨closed name dep old nameAfter.1, ?_⟩
  intro removed
  rcases checkDangling_iff.mp checked dep
    (mem_gone.mpr ⟨removed, noneBrought dep⟩) name old nameAfter.1 with
    gone | planned
  · exact nameAfter.2 (mem_gone.mp gone).1
  · exact noneBrought name planned

/-! ## What is removed -/

theorem nodup_toSet (names : List Bytes) : (toSet names).Nodup :=
  (List.perm_insertionSort _ _).nodup_iff.mpr names.nodup_dedup

theorem removeOrder_perm (db : Db) {names : List Bytes}
    (distinct : names.Nodup) : (removeOrder db names).Perm names := by
  apply visitAll_perm distinct
  · intro name _ successor isNext
    simpa using (List.mem_filter.mp isNext).2
  · exact Nat.lt_succ_self _

/-- The installed names that are not in the set. -/
def cascadeRoom (db : Db) (set : List Bytes) : Nat :=
  ((db.tables.packages.map PackageRow.name).toFinset.filter
    (· ∉ set)).card

/-- A stack that still has to be worked on may have dependents outside. -/
def Cascade.Closed (db : Db) (state : Cascade) : Prop :=
  ∀ name ∈ state.set, name ∉ state.work → ∀ who ∈ db.revdeps name,
    db.isInstalled who = true → who ∈ state.set

/-- What a number of additions does. -/
structure Cascade.Added (db : Db) (names : List Bytes)
    (before after : Cascade) : Prop where
  set : ∀ name ∈ before.set, name ∈ after.set
  work : ∀ name ∈ before.work, name ∈ after.work
  new : ∀ name ∈ after.set, name ∈ before.set ∨ name ∈ after.work
  all : ∀ who ∈ names, db.isInstalled who = true → who ∈ after.set
  room : cascadeRoom db after.set + after.work.length ≤
    cascadeRoom db before.set + before.work.length

theorem cascadeAdd_room {db : Db} {set : List Bytes} {who : Bytes}
    (fresh : who ∉ set) (installed : db.isInstalled who = true) :
    cascadeRoom db (who :: set) + 1 ≤ cascadeRoom db set := by
  apply Finset.card_lt_card
  rw [Finset.ssubset_iff_of_subset]
  · refine ⟨who, ?_, by simp⟩
    rw [Finset.mem_filter, List.mem_toFinset]
    exact ⟨isInstalled_iff.mp installed, by simpa using fresh⟩
  · intro other member
    simp only [Finset.mem_filter, List.mem_cons, not_or] at member ⊢
    exact ⟨member.1, member.2.2⟩

theorem cascadeAdd_added (db : Db) (names : List Bytes) (state : Cascade) :
    Cascade.Added db names state (names.foldl (cascadeAdd db) state) := by
  induction names generalizing state with
  | nil =>
      exact ⟨fun _ member => member, fun _ member => member,
        fun _ member => .inl member, by simp, le_rfl⟩
  | cons who names induction =>
      rw [List.foldl_cons]
      obtain ⟨set, work, new, all, room⟩ := induction (cascadeAdd db state who)
      by_cases added : who ∉ state.set ∧ db.isInstalled who = true
      · rw [cascadeAdd, if_pos added] at set work new all room ⊢
        have less := cascadeAdd_room added.1 added.2
        refine ⟨?_, ?_, ?_, ?_, ?_⟩
        · exact fun name member => set name (List.mem_cons_of_mem who member)
        · exact fun name member => work name (List.mem_cons_of_mem who member)
        · intro name member
          rcases new name member with old | isNew
          · rcases List.mem_cons.mp old with rfl | before
            · exact .inr (work name List.mem_cons_self)
            · exact .inl before
          · exact .inr isNew
        · intro other member installed
          rcases List.mem_cons.mp member with rfl | inside
          · exact set other List.mem_cons_self
          · exact all other inside installed
        · simp only [List.length_cons] at room
          omega
      · rw [cascadeAdd, if_neg added] at set work new all room ⊢
        refine ⟨set, work, new, ?_, room⟩
        intro other member installed
        rcases List.mem_cons.mp member with rfl | inside
        · apply set
          by_contra fresh
          exact added ⟨fresh, installed⟩
        · exact all other inside installed

theorem cascade_closed {db : Db} {fuel : Nat} {state : Cascade}
    (closed : state.Closed db)
    (enough : cascadeRoom db state.set + state.work.length ≤ fuel) :
    ∀ name ∈ cascade db fuel state, ∀ who ∈ db.revdeps name,
      db.isInstalled who = true → who ∈ cascade db fuel state := by
  induction fuel generalizing state with
  | zero =>
      have noWork : state.work = [] := by
        rw [← List.length_eq_zero_iff]
        omega
      intro name member
      exact closed name member (by simp [noWork])
  | succ fuel induction =>
      rw [cascade]
      split
      · rename_i noWork
        intro name member
        exact closed name member (by simp [noWork])
      · rename_i name work isWork
        have added := cascadeAdd_added db (db.revdeps name)
          ⟨state.set, work⟩
        apply induction
        · -- The name that was taken from the stack has its dependents now.
          intro other member notWork who isDependent installed
          rcases added.new other member with before | isNew
          · by_cases isName : other = name
            · subst isName
              exact added.all who isDependent installed
            · apply added.set
              apply closed other before _ who isDependent installed
              rw [isWork, List.mem_cons, not_or]
              exact ⟨isName, fun inWork => notWork (added.work other inWork)⟩
          · exact absurd isNew notWork
        · refine added.room.trans ?_
          rw [isWork, List.length_cons] at enough
          dsimp only
          omega

/-- The set of a cascade that has ended. -/
def cascadeSet (db : Db) (args : List Bytes) : List Bytes :=
  cascade db (args.length + db.tables.packages.length) ⟨args, args.reverse⟩

theorem cascade_enough (db : Db) (args : List Bytes) :
    cascadeRoom db args + args.reverse.length ≤
      args.length + db.tables.packages.length := by
  have room : cascadeRoom db args ≤ db.tables.packages.length := by
    have card := (Finset.card_filter_le
      (db.tables.packages.map PackageRow.name).toFinset (· ∉ args)).trans
      (List.toFinset_card_le _)
    rwa [List.length_map] at card
  rw [List.length_reverse]
  omega

theorem cascadeSet_closed (db : Db) (args : List Bytes) :
    ∀ name ∈ cascadeSet db args, ∀ who ∈ db.revdeps name,
      db.isInstalled who = true → who ∈ cascadeSet db args := by
  have start : (Cascade.mk args args.reverse).Closed db := by
    intro name member notWork
    exact absurd (List.mem_reverse.mpr member) notWork
  exact cascade_closed start (cascade_enough db args)

/-- With `--cascade` nothing is left that depends on what is removed. -/
theorem cascade_not_dangling (db : Db) (args : List Bytes) :
    checkDangling db
      ⟨removeOrder db (removeSet db args true), []⟩ = true := by
  have order := removeOrder_perm db (nodup_toSet (cascadeSet db args))
  have mem_order : ∀ name, name ∈ removeOrder db (removeSet db args true) ↔
      name ∈ cascadeSet db args := by
    intro name
    rw [removeSet, if_pos rfl, ← cascadeSet, order.mem_iff, mem_toSet]
  rw [checkDangling_iff]
  intro name gone who row installed
  rw [mem_gone] at gone ⊢
  refine .inl ⟨?_, by simp [NativePlan.names]⟩
  apply (mem_order who).mpr
  apply cascadeSet_closed db args name ((mem_order name).mp gone.1) who
  · rw [Db.revdeps, mem_namesWith]
    exact row
  · exact isInstalled_iff.mpr installed

/-! ## Programs -/

/-- A program that leaves the dependencies of installed packages installed,
once the database is closed. -/
def LeavesClosed (program : Io Nat) : Prop :=
  ∀ world : World, world.saved = none → world.DeletesRun →
    Closed world.db.tables →
    Ends (program world) (fun _ after => Closed after.closed.tables)
      (fun _ _ => False)

theorem LeavesClosed.pure (code : Nat) : LeavesClosed (pure code) := by
  intro world idle _ closed
  have same : world.closed = world.db := by
    rw [World.closed, idle]
    rfl
  change Closed world.closed.tables
  rw [same]
  exact closed

theorem nativeTransaction_leavesClosed (session : Session)
    (flags : TxnFlags) (op : Bytes) {plan : NativePlan} {world : World}
    (idle : world.saved = none) (deletesRun : world.DeletesRun)
    (closed : Closed world.db.tables)
    (keeps : ∀ after, checkDangling world.db plan = true →
      Applied session flags plan world.db.tables after → Closed after) :
    Ends (nativeTransaction session flags op plan world)
      (fun _ after => Closed after.closed.tables) (fun _ _ => False) := by
  apply (nativeTransaction_outcome session flags op plan idle
    deletesRun).mono
  · intro code after outcome
    cases outcome with
    | unchanged same _ =>
        rw [same]
        exact closed
    | applied _ _ checked saved applied =>
        have same : after.closed = after.db := by
          rw [World.closed, saved]
          rfl
        rw [same]
        exact keeps _ checked applied
  · exact fun _ _ impossible => impossible

/-- The dependencies that the entries of the index list are those of their
archives. -/
def Machine.DepsAgree (machine : Machine) : Prop :=
  ∀ index, machine.index = some index → ∀ entry ∈ index.items,
    Install.DepsAgree machine.session entry

section

variable {machine : Machine} {flags : TxnFlags}

theorem doInstall_leavesClosed (agree : machine.DepsAgree)
    (withDeps : flags.nodeps = false) (names : List Bytes)
    (isUpdate checkOnly : Bool) :
    LeavesClosed (doInstall machine names isUpdate flags checkOnly) := by
  unfold doInstall
  cases isIndex : machine.index with
  | none => exact .pure 1
  | some index =>
      dsimp only
      split
      · exact .pure 1
      intro world idle deletesRun closed
      have stays := fun code => LeavesClosed.pure code world idle deletesRun
        closed
      refine Ends.bindOk rfl ?_
      refine Ends.ite (fun _ => stays _) fun _ => ?_
      refine Ends.ite (fun _ => stays _) fun noProblems => ?_
      apply nativeTransaction_leavesClosed _ _ _ idle deletesRun closed
      intro after _ applied
      rw [withDeps, ne_eq, not_not] at noProblems
      rw [withDeps] at applied
      exact applied.closed_of_resolved (resolveAll_resolved noProblems)
        (agree index isIndex) closed

theorem nativeRemove_leavesClosed (args : List Bytes) :
    LeavesClosed (nativeRemove machine args flags) := by
  intro world idle deletesRun closed
  have stays := fun code => LeavesClosed.pure code world idle deletesRun
    closed
  refine Ends.ite (fun _ => stays _) fun _ => ?_
  refine Ends.bindOk rfl ?_
  refine Ends.ite (fun _ => stays _) fun _ => ?_
  apply nativeTransaction_leavesClosed _ _ _ idle deletesRun closed
  exact fun after checked applied => applied.closed_of_removed checked closed

end

/-! ## Command lines -/

/-- A command line without `--nodeps`, `--locked` and `--lockfile`. -/
structure PlainLine (args : List Bytes) : Prop where
  noNodeps : ascii "--nodeps" ∉ args
  noLocked : ascii "--locked" ∉ args
  noLockfile : ascii "--lockfile" ∉ args

theorem parseArgs_nodeps {args : List Bytes} {start line : CommandLine}
    (parsed : parseArgs start args = some line)
    (absent : ascii "--nodeps" ∉ args) :
    line.flags.nodeps = start.flags.nodeps := by
  fun_induction parseArgs start args with
  | case1 =>
    cases parsed
    rfl
  | _ => grind

theorem parseArgs_locked {args : List Bytes} {start line : CommandLine}
    (parsed : parseArgs start args = some line)
    (noLocked : ascii "--locked" ∉ args)
    (noLockfile : ascii "--lockfile" ∉ args) :
    line.locked = start.locked := by
  fun_induction parseArgs start args with
  | case1 =>
    cases parsed
    rfl
  | _ => grind

/-! ## Commands -/

/-- The commands that resolve what they install. -/
def Command.Plain : Command → Prop
  | .install args => PlainLine args
  | .update args => ascii "--nodeps" ∉ args
  | .remove _ => True

theorem Command.run_leavesClosed {machine : Machine}
    (agree : machine.DepsAgree) {command : Command}
    (plain : command.Plain) : LeavesClosed (command.run machine) := by
  cases command with
  | install args =>
      change LeavesClosed (cmdInstall machine args)
      unfold cmdInstall
      split
      · exact .pure 2
      · rename_i line parsed
        have withDeps : line.flags.nodeps = false :=
          parseArgs_nodeps parsed plain.noNodeps
        have unlocked : line.locked = false :=
          parseArgs_locked parsed plain.noLocked plain.noLockfile
        rw [unlocked, if_neg (by simp)]
        split
        · exact .pure 2
        · dsimp only
          split
          · exact .pure 0
          · exact doInstall_leavesClosed agree withDeps _ _ _
  | update args =>
      change LeavesClosed (cmdUpdate machine args)
      unfold cmdUpdate
      split
      · exact doInstall_leavesClosed agree rfl _ _ _
      split
      · exact .pure 2
      · rename_i line parsed
        have withDeps : line.flags.nodeps = false :=
          parseArgs_nodeps parsed plain
        split
        · exact .pure 0
        · exact doInstall_leavesClosed agree withDeps _ _ _
  | remove args =>
      change LeavesClosed (cmdRemove machine args)
      unfold cmdRemove
      split
      · exact .pure 2
      split
      · exact .pure 2
      · dsimp only
        split
        · exact .pure 0
        · exact nativeRemove_leavesClosed _

/-! ## Runs -/

/-- A command together with everything it meets: the machine, the disk, and
what will fail. -/
structure Invocation where
  command : Command
  machine : Machine
  disk : Disk Content
  sqlFaults : List Bool
  deleteFaults : List Bool
  picks : List Nat
  hookEnds : List HookEnd

/-- The world in which a command opens the database. -/
def Invocation.world (invocation : Invocation) (db : Db) : World where
  disk := invocation.disk
  db := db
  saved := none
  sqlFaults := invocation.sqlFaults
  deleteFaults := invocation.deleteFaults
  picks := invocation.picks
  hookEnds := invocation.hookEnds

/-- The database that a command leaves behind. -/
def Invocation.leaves (invocation : Invocation) (db : Db) : Db :=
  (finalState (invocation.command.run invocation.machine
    (invocation.world db))).closed

def Invocation.Step (before : Db) (invocation : Invocation) (after : Db) :
    Prop :=
  after = invocation.leaves before

/-- The index agrees with the archives, and SQLite carries out the deletions
whose outcome nobody looks at. -/
structure Invocation.Assumed (invocation : Invocation) : Prop where
  agree : invocation.machine.DepsAgree
  deletesRun : ∀ fault ∈ invocation.deleteFaults, fault = false

theorem Invocation.leaves_closed {invocation : Invocation}
    (assumed : invocation.Assumed) (plain : invocation.command.Plain)
    {db : Db} (closed : Closed db.tables) :
    Closed (invocation.leaves db).tables := by
  have ends := Command.run_leavesClosed assumed.agree plain
    (invocation.world db) rfl assumed.deletesRun closed
  unfold Invocation.leaves
  cases isResult : invocation.command.run invocation.machine
      (invocation.world db) with
  | ok code after =>
      rw [isResult] at ends
      exact ends
  | error failure after =>
      rw [isResult] at ends
      exact ends.elim

/-- After any run of commands that resolve what they install, whether they
succeed or fail, every dependency of an installed package is installed. -/
theorem runs_leave_closed {start final : Db}
    {invocations : List Invocation}
    (run : Run (Guarded (fun _ (invocation : Invocation) =>
      invocation.Assumed ∧ invocation.command.Plain) Invocation.Step)
      start invocations final) (closed : Closed start.tables) :
    Closed final.tables := by
  have preserved : ∀ before (invocation : Invocation) after,
      Closed before.tables → Guarded (fun _ (invocation : Invocation) =>
        invocation.Assumed ∧ invocation.command.Plain) Invocation.Step
        before invocation after → Closed after.tables := by
    rintro before invocation after beforeClosed ⟨⟨assumed, plain⟩, rfl⟩
    exact Invocation.leaves_closed assumed plain beforeClosed
  exact @Run.invariant _ _ _ _ _ _ (fun db => Closed db.tables) closed
    preserved run

/-- `app` is installed; its next version depends on `lib`. -/
def soloDb : Db where
  tables := {
    packages := [smallRow "app"]
    files := []
    deps := []
    conflicts := []
    hooks := [] }
  transactions := []
  lastId := 1
  metas := []

/-- The lock pins `app` alone. -/
def soloMachine : Machine where
  session := smallSession
  index := some {
    repoName := some (ascii "current")
    arch := some (ascii "x86_64")
    items := [smallEntry "lib" "1" [] [],
      smallEntry "app" "2" [ascii "lib"] []] }
  opens := true
  lock := fun _ => .ok {
    native := [⟨ascii "app", ascii "2", 1, [], smallHash,
      ascii "current", []⟩]
    strata := [] }

def soloInvocation (command : Command) : Invocation where
  command := command
  machine := soloMachine
  disk := ⟨.bare Content, [], []⟩
  sqlFaults := []
  deleteFaults := []
  picks := []
  hookEnds := []

theorem soloDb_closed : Closed soloDb.tables := by
  intro name dep row
  cases row

theorem soloInvocation_assumed (command : Command) :
    (soloInvocation command).Assumed where
  agree := fun _ _ entry _ => (small_agree entry).1
  deletesRun := by
    intro fault member
    cases member

def plainUpdate : Invocation := soloInvocation (.update [])

/-- A plain update brings `lib` along. -/
theorem plainUpdate_closed : ∃ final,
    Run (Guarded (fun _ (invocation : Invocation) =>
      invocation.Assumed ∧ invocation.command.Plain) Invocation.Step)
      soloDb [plainUpdate] final ∧
      Closed final.tables ∧ final.isInstalled (ascii "lib") = true := by
  have plain : plainUpdate.command.Plain := by
    change ascii "--nodeps" ∉ []
    simp
  have run : Run (Guarded (fun _ (invocation : Invocation) =>
      invocation.Assumed ∧ invocation.command.Plain) Invocation.Step)
      soloDb [plainUpdate] (plainUpdate.leaves soloDb) :=
    .snoc .nil ⟨⟨soloInvocation_assumed _, plain⟩, rfl⟩
  have brought : (plainUpdate.leaves soloDb).isInstalled (ascii "lib") =
      true := by
    decide +kernel
  exact ⟨_, run, runs_leave_closed run soloDb_closed, brought⟩

/-- The commands of which only an installation has to do without
`--nodeps`. -/
def Command.InstallsDeps : Command → Prop
  | .install args => ascii "--nodeps" ∉ args
  | .update _ => True
  | .remove _ => True

/-- An installed package with a dependency that is not. -/
def hasOpenDep (db : Db) : Bool :=
  db.tables.deps.any fun row =>
    db.isInstalled row.1 && !db.isInstalled row.2

theorem not_closed_of_hasOpenDep {db : Db} (isOpen : hasOpenDep db = true) :
    ¬ Closed db.tables := by
  intro closed
  obtain ⟨⟨name, dep⟩, row, both⟩ := List.any_eq_true.mp isOpen
  simp only [Bool.and_eq_true, Bool.not_eq_true'] at both
  have present := isInstalled_iff.mpr
    (closed name dep row (isInstalled_iff.mp both.1))
  rw [both.2] at present
  cases present

/-- From a closed database the command, which claims to install
dependencies, runs into one that is not closed. -/
def Opens (command : Command) : Prop :=
  command.InstallsDeps ∧ ∃ final,
    Run (Guarded (fun _ (invocation : Invocation) => invocation.Assumed)
      Invocation.Step) soloDb [soloInvocation command] final ∧
      Closed soloDb.tables ∧ ¬ Closed final.tables

theorem opens_of_hasOpenDep {command : Command}
    (hasOpen : hasOpenDep ((soloInvocation command).leaves soloDb) = true)
    (installs : command.InstallsDeps) : Opens command :=
  ⟨installs, _, .snoc .nil ⟨soloInvocation_assumed _, rfl⟩,
    soloDb_closed, not_closed_of_hasOpenDep hasOpen⟩

/-- `update` takes `--nodeps` too, and `install --locked` installs what the
lock pins without looking at dependencies. -/
theorem update_nodeps_opens :
    Opens (.update [ascii "--nodeps"]) ∧
      Opens (.install [ascii "--locked"]) := by
  constructor
  · exact opens_of_hasOpenDep (by decide +kernel) trivial
  · refine opens_of_hasOpenDep (by decide +kernel) ?_
    change ascii "--nodeps" ∉ [ascii "--locked"]
    decide

end SaltOS.Install
