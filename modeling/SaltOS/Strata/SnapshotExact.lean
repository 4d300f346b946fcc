import SaltOS.Strata.SnapshotSteps

/-!
# When snapshots stay what they were

In a run whose steps all fit, each snapshot holds the tree that the stratum
had when it was taken, and a rollback brings that tree back.  Two snapshots
with one label in one second do not fit: the second is merged into the first.
-/

namespace SaltOS.Strata

open Lib Util Disk

variable {γ : Type} {machine : Machine γ}
  {start before middle after final state : State γ}
  {name label path : Bytes} {clock : Int} {refusal : Option Bytes}
  {earlier later : List Event}

/-! ## Runs -/

theorem changed_effect (ready : Ready machine before)
    (changed : Changed machine name before after) :
    Effect machine before after := by
  obtain ⟨⟨strata, snapshots, lastId⟩, cwd, row, top, found, resolved, isDir,
    outside⟩ := changed
  have isTop : top ∈ before.tops machine :=
    mem_tops.mpr ⟨row, State.mem_of_stratum found, resolved⟩
  obtain ⟨there, aside⟩ := ready.installed row (State.mem_of_stratum found)
  have same : there = top := by
    rw [aside.resolve] at resolved
    exact Except.ok.inj resolved
  rw [same] at aside
  refine ⟨strata, .of_below isTop cwd aside.isDir isDir outside, ?_,
    ⟨[], ?_, fun _ member => nomatch member⟩, Nat.le_of_eq lastId.symm⟩
  · intro snap isSnap other resolvedOther rel
    obtain ⟨_, _, _, kept, asideKept, apart⟩ := ready.sheltered snap isSnap
    have sameKept : kept = other := by
      rw [asideKept.resolve] at resolvedOther
      exact Except.ok.inj resolvedOther
    rw [← sameKept]
    exact outside _ ((apart top isTop).symm.not_below
      (List.suffix_append rel kept))
  · rw [snapshots, List.append_nil]

/-- A step that fits disturbs nothing. -/
theorem step_effect (laws : ShellLaws machine.system)
    (noBtrfs : machine.useBtrfs = false) (ready : Ready machine before)
    {event : Event} (fits : Fits machine before event)
    (step : Step machine before event after) : Effect machine before after := by
  cases event with
  | create name label clock refusal =>
      cases step
      exact (snapshotCreate_effect laws noBtrfs ready fits).1
  | change name => exact changed_effect ready step
  | rollback name id clock =>
      cases step
      exact (rollback_effect laws ready fits).1

theorem run_ready (laws : ShellLaws machine.system)
    (noBtrfs : machine.useBtrfs = false) (ready : Ready machine start)
    (run : Run (Guarded (Fits machine) (Step machine)) start later final) :
    Ready machine final := by
  refine run.invariant ready ?_
  rintro before event after still ⟨fits, step⟩
  exact (step_effect laws noBtrfs still fits step).ready still

theorem run_strata (laws : ShellLaws machine.system)
    (noBtrfs : machine.useBtrfs = false) (ready : Ready machine start)
    (run : Run (Guarded (Fits machine) (Step machine)) start later final) :
    final.strata = start.strata := by
  have both : Ready machine final ∧ final.strata = start.strata := by
    apply run.invariant
    · exact ⟨ready, rfl⟩
    · rintro before event after ⟨still, same⟩ ⟨fits, step⟩
      have effect := step_effect laws noBtrfs still fits step
      exact ⟨effect.ready still, effect.strata.trans same⟩
  exact both.2

/-- What a snapshot holds, it holds after every run. -/
theorem run_holds (laws : ShellLaws machine.system)
    (noBtrfs : machine.useBtrfs = false) {id : Nat}
    {tree : Loc → Option (Node γ)} (ready : Ready machine start)
    (positive : 0 < id) (holds : Holds start name id tree)
    (run : Run (Guarded (Fits machine) (Step machine)) start later final) :
    Holds final name id tree := by
  have both : Ready machine final ∧ Holds final name id tree := by
    apply run.invariant
    · exact ⟨ready, holds⟩
    · rintro before event after ⟨still, holdsYet⟩ ⟨fits, step⟩
      have effect := step_effect laws noBtrfs still fits step
      exact ⟨effect.ready still, effect.holds still positive holdsYet⟩
  exact both.2

/-! ## Snapshots -/

/-- A rollback to the snapshot succeeds and makes the tree of the stratum
equal to the given one. -/
def Restores (machine : Machine γ) (state : State γ) (name : Bytes) (id : Nat)
    (clock : Int) (tree : Loc → Option (Node γ)) : Prop :=
  ∃ restored row top, rollback machine name id clock state =
      (.ok (), restored) ∧ restored.stratum name = some row ∧
    restored.disk.resolve (machine.stratumTarget row.root) = .ok top ∧
    ∀ rel, restored.disk.fs.node? (rel ++ top) = tree rel

theorem Ready.of_fresh (installed : Installed machine start)
    (fresh : start.snapshots = []) : Ready machine start := by
  refine ⟨installed, fun snap member => ?_⟩
  rw [fresh] at member
  cases member

/-- The reading of the clock at an event. -/
def Event.clock? : Event → Option Int
  | .create _ _ clock _ => some clock
  | .change _ => none
  | .rollback _ _ clock => some clock

/-- Whatever else happens while the clock does not go back, a snapshot keeps
the tree that the stratum had when it was taken, and a rollback brings it
back. -/
def SnapshotsStay (machine : Machine γ) (start : State γ) : Prop :=
  ∀ earlier before name label clock refusal id after later final row top,
    Run (Step machine) start earlier before →
    snapshotCreate machine name label clock refusal before =
      (.ok id, after) →
    Run (Step machine) after later final →
    ((earlier ++ .create name label clock refusal :: later).filterMap
      Event.clock?).Pairwise (· ≤ ·) →
    before.stratum name = some row →
    before.disk.resolve (machine.stratumTarget row.root) = .ok top →
    Holds final name id (fun rel => before.disk.fs.node? (rel ++ top)) ∧
      ∀ clock, Restores machine final name id clock
        fun rel => before.disk.fs.node? (rel ++ top)

/-- In a run whose steps fit, a snapshot keeps the tree that the stratum had
when it was taken, and a rollback that fits brings it back. -/
theorem snapshot_exact (laws : ShellLaws machine.system)
    (noBtrfs : machine.useBtrfs = false)
    (installed : Installed machine start) (fresh : start.snapshots = [])
    (run : Run (Guarded (Fits machine) (Step machine)) start earlier before)
    (fits : Fits machine before (.create name label clock refusal))
    {id : Nat} (created : snapshotCreate machine name label clock refusal
      before = (.ok id, after))
    (onward : Run (Guarded (Fits machine) (Step machine)) after later final)
    {row : StratumRow} {top : Loc} (isRow : before.stratum name = some row)
    (resolved : before.disk.resolve (machine.stratumTarget row.root) =
      .ok top) :
    let tree := fun rel => before.disk.fs.node? (rel ++ top)
    Holds final name id tree ∧ ∀ clock,
      Fits machine final (.rollback name id clock) →
      Restores machine final name id clock tree := by
  intro tree
  have ready := run_ready laws noBtrfs (.of_fresh installed fresh) run
  obtain ⟨effect, exact_⟩ :=
    snapshotCreate_effect laws noBtrfs ready fits
  rw [created] at effect exact_
  obtain ⟨positive, holds⟩ := exact_ id rfl
  have readyAfter := effect.ready ready
  have readyFinal := run_ready laws noBtrfs readyAfter onward
  have stillHolds := run_holds laws noBtrfs readyAfter positive
    (holds row top isRow resolved) onward
  refine ⟨stillHolds, fun clock fitsRollback => ?_⟩
  obtain ⟨snap, kept, selected, resolvedKept, isTree⟩ := stillHolds
  have strata := (run_strata laws noBtrfs readyAfter onward).trans
    effect.strata
  have isRowFinal : final.stratum name = some row := by
    unfold State.stratum at isRow ⊢
    rwa [strata]
  obtain ⟨place, aside⟩ :=
    readyFinal.installed row (State.mem_of_stratum isRowFinal)
  obtain ⟨rollbackEffect, restores⟩ :=
    rollback_effect laws readyFinal fitsRollback
  obtain ⟨isOk, resolvedThen, isRestored⟩ := restores row snap place kept
    isRowFinal selected aside.resolve resolvedKept
  refine ⟨_, row, place, Prod.ext isOk rfl, ?_, resolvedThen, fun rel => ?_⟩
  · unfold State.stratum at isRowFinal ⊢
    rwa [rollbackEffect.strata]
  · exact (isRestored rel).trans (isTree rel)

/-! ## A shell with the two tools -/

/-- `cp -a` onto a directory. -/
def copyOnto (top : Loc) (target : Bytes) (disk : Disk γ) : Bool × Disk γ :=
  match disk.resolve target with
  | .error _ => (false, disk)
  | .ok onto =>
      if Lib.Apart top onto ∧ disk.fs.Graftable top onto then
        (true, { disk with fs := disk.fs.graft top onto })
      else (false, disk)

def copyTool (source target : Bytes) (disk : Disk γ) : Bool × Disk γ :=
  match disk.resolve source with
  | .error _ => (false, disk)
  | .ok top =>
      if ¬ disk.fs.IsDir top then (false, disk)
      else
        match mkdirPlan target 493 disk with
        | .ok fs => copyOnto top target { disk with fs := fs }
        | .error _ => copyOnto top target disk

def findTool (target : Bytes) (disk : Disk γ) : Bool × Disk γ :=
  match disk.lstat target, disk.resolve target with
  | .ok (.dir _), .ok top => (true, { disk with fs := disk.fs.emptied top })
  | _, _ => (false, disk)

/-- A shell that knows the commands on plain files; the names stand between
quotes. -/
def toolShell (command : Bytes) (disk : Disk γ) : Bool × Disk γ :=
  match command.splitOn 39 with
  | [tool, source, [32], target, []] =>
      if tool = ascii "cp -ax --reflink=auto " ∨
          tool = ascii "cp -a --reflink=auto " then
        copyTool source.dropLast.dropLast target.dropLast disk
      else (false, disk)
  | [tool, target, rest] =>
      if tool = ascii "find " ∧ rest = ascii " -mindepth 1 -delete" then
        findTool target disk
      else (false, disk)
  | _ => (false, disk)

theorem toolShell_copy {options source target : Bytes} (disk : Disk γ)
    (isOption : options ∈ [ascii "-ax", ascii "-a"]) (unquoted : 39 ∉ source)
    (unquotedTarget : 39 ∉ target) :
    toolShell (copyCommand options source target) disk =
      copyTool source target disk := by
  have pieces : (copyCommand options source target).splitOn 39 =
      [ascii "cp " ++ options ++ ascii " --reflink=auto ",
        source ++ ascii "/.", [32], target ++ ascii "/", []] := by
    have isJoin : copyCommand options source target = [39].intercalate
        [ascii "cp " ++ options ++ ascii " --reflink=auto ",
          source ++ ascii "/.", [32], target ++ ascii "/", []] := by
      simp [copyCommand, quoted, List.intercalate]
    rw [isJoin]
    apply List.splitOn_intercalate
    · intro piece member
      simp only [List.mem_cons, List.not_mem_nil, or_false] at member
      rcases member with rfl | rfl | rfl | rfl | rfl
      · simp only [List.mem_cons, List.not_mem_nil, or_false] at isOption
        rcases isOption with rfl | rfl <;> decide
      · simp [unquoted, ascii]
      · decide
      · simp [unquotedTarget, ascii]
      · simp
    · simp
  have isTool : ascii "cp " ++ options ++ ascii " --reflink=auto " =
        ascii "cp -ax --reflink=auto " ∨
      ascii "cp " ++ options ++ ascii " --reflink=auto " =
        ascii "cp -a --reflink=auto " := by
    simp only [List.mem_cons, List.not_mem_nil, or_false] at isOption
    rcases isOption with rfl | rfl
    · exact .inl (by decide)
    · exact .inr (by decide)
  unfold toolShell
  rw [pieces]
  simp only [if_pos isTool]
  simp [ascii]

theorem toolShell_clear {target : Bytes} (disk : Disk γ)
    (unquoted : 39 ∉ target) :
    toolShell (clearCommand target) disk = findTool target disk := by
  have pieces : (clearCommand target).splitOn 39 =
      [ascii "find ", target, ascii " -mindepth 1 -delete"] := by
    have isJoin : clearCommand target = [39].intercalate
        [ascii "find ", target, ascii " -mindepth 1 -delete"] := by
      simp [clearCommand, quoted, List.intercalate]
    rw [isJoin]
    apply List.splitOn_intercalate
    · intro piece member
      simp only [List.mem_cons, List.not_mem_nil, or_false] at member
      rcases member with rfl | rfl | rfl
      · decide
      · exact unquoted
      · decide
    · simp
  unfold toolShell
  rw [pieces]
  simp

theorem copyTool_eq {source target : Bytes} {disk : Disk γ} {top : Loc}
    (resolved : disk.resolve source = .ok top) (isDir : disk.fs.IsDir top) :
    copyTool source target disk =
      match mkdirPlan target 493 disk with
      | .ok fs => copyOnto top target { disk with fs := fs }
      | .error _ => copyOnto top target disk := by
  simp only [copyTool, resolved, not_true_eq_false, isDir, if_false]

theorem toolShell_laws : ShellLaws (@toolShell γ) := by
  constructor
  · intro options isOption source target disk top onto unquoted
      unquotedTarget resolved resolvedTarget apart able
    have there : ∃ errno, mkdirPlan target 493 disk = .error errno :=
      mkdirPlan_of_resolve resolvedTarget
    obtain ⟨errno, planned⟩ := there
    rw [toolShell_copy disk isOption unquoted unquotedTarget,
      copyTool_eq resolved able.fromDir, planned]
    simp only [copyOnto, resolvedTarget]
    rw [if_pos ⟨apart, able⟩]
  · intro options isOption source target disk top fs unquoted unquotedTarget
      resolved isDir planned
    obtain ⟨made, onto, resolvedOnto, _⟩ := made_of_mkdirPlan planned
    have there : ∃ errno, mkdirPlan target 493 { disk with fs := fs } =
        .error errno := mkdirPlan_of_resolve resolvedOnto
    obtain ⟨errno, plannedThen⟩ := there
    rw [toolShell_copy disk isOption unquoted unquotedTarget,
      toolShell_copy _ isOption unquoted unquotedTarget,
      copyTool_eq resolved isDir, planned,
      copyTool_eq (made.grown.resolve resolved) (made.grown.isDir isDir),
      plannedThen]
  · intro options isOption source target disk errno unquoted unquotedTarget
      notDir planned
    rw [toolShell_copy disk isOption unquoted unquotedTarget]
    have fails : ∀ top, copyOnto top target disk = (false, disk) := by
      intro top
      unfold copyOnto
      rcases resolved : disk.resolve target with error | onto
      · rfl
      · exact if_neg fun both => notDir onto resolved both.2.ontoDir
    unfold copyTool
    rcases disk.resolve source with error | top
    · rfl
    · simp only [planned, fails, ite_self]
  · intro target disk top mode unquoted isEntry resolved
    rw [toolShell_clear disk unquoted, findTool]
    simp only [isEntry, resolved]

/-! ## Two snapshots in one second -/

def boxMachine : Machine Bytes where
  root := ascii "/"
  useBtrfs := false
  system := toolShell

/-- A stratum with one file, below the default directory. -/
def boxFiles : FileSystem Bytes :=
  (((FileSystem.bare Bytes).replace (ascii "strata") []
    (some (.dir 493))).replace (ascii "box") [ascii "strata"]
      (some (.dir 493))).replace (ascii "old") [ascii "box", ascii "strata"]
        (some (.file [1] 420))

def boxStart : State Bytes where
  disk := ⟨boxFiles, [], []⟩
  strata := [⟨ascii "box", ascii "/strata/box"⟩]
  snapshots := []
  lastId := 0

/-- Where the tree of the stratum lies. -/
def boxTop : Loc := [ascii "box", ascii "strata"]

def boxSnapshot : SnapshotRow where
  id := 1
  stratum := ascii "box"
  label := ascii "manual"
  path := ascii "/strata/.snapshots/box/manual-20240229T123456Z"
  kind := .copy

/-- Where the tree of the snapshot lies. -/
def boxKept : Loc :=
  [ascii "manual-20240229T123456Z", ascii "box", ascii ".snapshots",
    ascii "strata"]

/-- What the shell makes of the commands of a snapshot.  It is only evaluated
as a whole. -/
@[irreducible]
def boxCopied (disk : Disk Bytes) : Bool × Disk Bytes :=
  toolShell (copyCommand (ascii "-ax") (ascii "/strata/box") boxSnapshot.path)
    (made boxSnapshot.path (made (ascii "/strata/.snapshots/box") disk))

theorem boxCopied_eq (disk : Disk Bytes) :
    boxMachine.system (copyCommand (ascii "-ax") (ascii "/strata/box")
      boxSnapshot.path) (made boxSnapshot.path
        (made (ascii "/strata/.snapshots/box") disk)) = boxCopied disk := by
  have isShell : boxMachine.system = toolShell := rfl
  delta boxCopied
  rw [isShell]

/-- The state after a snapshot. -/
def boxRecorded (state : State Bytes) : State Bytes :=
  state.record (ascii "box") (ascii "manual") boxSnapshot.path
    (boxCopied state.disk).2

def boxTaken : State Bytes :=
  boxRecorded boxStart

/-- Something replaced the file of the stratum by another one. -/
def boxChanged : State Bytes :=
  { boxTaken with
    disk := { boxTaken.disk with
      fs := (boxTaken.disk.fs.replace (ascii "old") boxTop none).replace
        (ascii "new") boxTop (some (.file [2] 420)) } }

/-- The second snapshot, in the same second. -/
def boxTwice : State Bytes :=
  boxRecorded boxChanged

/-- What the paths and the rows of the stratum are. -/
theorem box_texts :
    boxMachine.snapshotPath (ascii "box") (ascii "manual") 1709210096 =
        boxSnapshot.path ∧
      boxMachine.snapshotDir (ascii "box") =
        ascii "/strata/.snapshots/box" ∧
      boxMachine.stratumTarget (ascii "/strata/box") =
        ascii "/strata/box" ∧
      boxStart.disk.resolve (ascii "/strata/box") = .ok boxTop ∧
      (∀ state ∈ [boxStart, boxTaken, boxChanged],
        state.stratum (ascii "box") =
          some ⟨ascii "box", ascii "/strata/box"⟩) ∧
      boxTwice.snapshot (ascii "box") (1 : Nat) = some boxSnapshot := by
  decide +kernel

/-- What the two snapshots and the change between them leave on the disk. -/
theorem box_disks :
    (boxCopied boxStart.disk).1 = true ∧
      boxTaken.disk.resolve (ascii "/strata/box") = .ok boxTop ∧
      boxChanged.disk.fs.IsDir boxTop ∧
      boxChanged.disk.lstat (ascii "/strata/box") = .ok (.dir 493) ∧
      (boxCopied boxChanged.disk).1 = true ∧
      boxTwice.disk.resolve boxSnapshot.path = .ok boxKept ∧
      boxTwice.disk.fs.node? ([ascii "new"] ++ boxKept) ≠
        boxStart.disk.fs.node? ([ascii "new"] ++ boxTop) := by
  decide +kernel

theorem boxMachine_path : boxMachine.snapshotPath (ascii "box")
    (ascii "manual") 1709210096 = boxSnapshot.path :=
  box_texts.1

theorem boxMachine_target : boxMachine.stratumTarget (ascii "/strata/box") =
    ascii "/strata/box" :=
  box_texts.2.2.1

theorem box_stratum : ∀ state ∈ [boxStart, boxTaken, boxChanged],
    state.stratum (ascii "box") = some ⟨ascii "box", ascii "/strata/box"⟩ :=
  box_texts.2.2.2.2.1

theorem boxMachine_create {state : State Bytes}
    (isRow : state.stratum (ascii "box") =
      some ⟨ascii "box", ascii "/strata/box"⟩)
    (isCopy : (boxCopied state.disk).1 = true) :
    snapshotCreate boxMachine (ascii "box") (ascii "manual") 1709210096 none
      state = (.ok (state.lastId + 1), boxRecorded state) := by
  have isDir := box_texts.2.1
  have noBtrfs : boxMachine.useBtrfs = false := rfl
  unfold snapshotCreate takeCopy boxRecorded
  simp only [isRow, boxMachine_target, isDir, boxMachine_path, noBtrfs,
    boxCopied_eq, Bool.false_eq_true, if_false]
  generalize boxCopied state.disk = result at isCopy
  obtain ⟨copied, disk⟩ := result
  cases isCopy
  rfl

theorem boxTop_resolves :
    boxStart.disk.resolve (boxMachine.stratumTarget (ascii "/strata/box")) =
      .ok boxTop := by
  rw [boxMachine_target]
  exact box_texts.2.2.2.1

theorem boxStart_installed : Installed boxMachine boxStart := by
  intro row member
  rw [show boxStart.strata = [⟨ascii "box", ascii "/strata/box"⟩] from rfl,
    List.mem_singleton] at member
  subst member
  refine ⟨descend [] [ascii "strata", ascii "box"], ?_⟩
  apply Aside.of_isDir
  all_goals decide +kernel

theorem boxTaken_eq :
    snapshotCreate boxMachine (ascii "box") (ascii "manual") 1709210096 none
      boxStart = (.ok 1, boxTaken) :=
  boxMachine_create (box_stratum _ (by simp)) box_disks.1

theorem boxChanged_changed :
    Changed boxMachine (ascii "box") boxTaken boxChanged := by
  refine ⟨⟨rfl, rfl, rfl⟩, rfl, ⟨ascii "box", ascii "/strata/box"⟩, boxTop,
    box_stratum _ (by simp), ?_, box_disks.2.2.1, ?_⟩
  · rw [boxMachine_target]
    exact box_disks.2.1
  · intro loc outside
    have notNew : loc ≠ ascii "new" :: boxTop := by
      rintro rfl
      exact outside (List.suffix_cons _ _)
    have notOld : loc ≠ ascii "old" :: boxTop := by
      rintro rfl
      exact outside (List.suffix_cons _ _)
    exact (FileSystem.node?_replace_of_ne _ notNew).trans
      (FileSystem.node?_replace_of_ne _ notOld)

/-! ### The first snapshot alone -/

/-- The locations to be made are found by walking. -/
theorem forall_missing {disk : Disk γ} {texts : List Bytes}
    {property : Loc → Prop}
    (holds : ∀ text ∈ texts, ∀ cut ∈ (components text).inits,
      ∀ loc ∈ (walk (lookMade disk.fs []) maxSymlinks (baseOf disk.cwd text)
        cut).toOption, disk.fs.node? loc = none → property loc) :
    ∀ loc, Missing disk texts loc → property loc := by
  rintro loc ⟨absent, text, member, cut, isCut, links, within, walked⟩
  refine holds text member cut ((List.mem_inits _ _).mpr isCut) loc ?_ absent
  rw [walk_complete within walked]
  rfl

theorem boxCreate_fits : Fits boxMachine boxStart
    (.create (ascii "box") (ascii "manual") 1709210096 none) := by
  intro row isRow
  rw [box_stratum boxStart (by simp)] at isRow
  cases isRow
  have atEnd : ∀ onto, WillLead [] boxStart.disk boxSnapshot.path
      (components boxSnapshot.path) onto → onto = boxKept := by
    rintro onto ⟨links, within, walked⟩
    have found : walk (lookMade boxStart.disk.fs []) maxSymlinks
        (baseOf boxStart.disk.cwd boxSnapshot.path)
        (components boxSnapshot.path) = .ok boxKept := by
      decide +kernel
    have here := walk_complete within walked
    exact Except.ok.inj (here.symm.trans found)
  rw [boxMachine_path]
  refine ⟨by decide +kernel, ?_, ?_⟩
  · apply forall_missing
    intro text member cut isCut loc found absent
    refine ⟨?_, fun snap isSnap => nomatch isSnap⟩
    revert text cut loc
    decide +kernel
  · intro top onto resolved leads _
    cases resolved.symm.trans boxTop_resolves
    cases atEnd onto leads
    refine ⟨?_, by decide +kernel, ?_, .inr ⟨?_, ?_⟩⟩
    · exact walk_eq_ok_iff.mp (by decide +kernel)
    · apply forall_missing
      decide +kernel
    · intro snap isSnap
      cases isSnap
    · intro rel there found
      have above : [ascii ".snapshots", ascii "strata"] <:+ rel ++ boxKept :=
        List.IsSuffix.trans (by decide) (List.suffix_append rel boxKept)
      have differs : [ascii ".snapshots", ascii "strata"] ≠
          rel ++ boxKept := by
        intro same
        have lengths := congrArg List.length same
        simp [boxKept] at lengths
      have exists_ : boxStart.disk.fs.node? (rel ++ boxKept) ≠ none := by
        simp [found]
      have notDir : ¬ boxStart.disk.fs.IsDir
          [ascii ".snapshots", ascii "strata"] := by
        decide +kernel
      exact absurd (FileSystem.isDir_of_above exists_ above differs) notDir

/-- The first snapshot outlives the change of the stratum, and the file that
was replaced can be brought back. -/
theorem boxChanged_exact :
    Holds boxChanged (ascii "box") 1
        (fun rel => boxStart.disk.fs.node? (rel ++ boxTop)) ∧
      Restores boxMachine boxChanged (ascii "box") 1 1709210100
        fun rel => boxStart.disk.fs.node? (rel ++ boxTop) := by
  have onward : Run (Guarded (Fits boxMachine) (Step boxMachine)) boxTaken
      [.change (ascii "box")] boxChanged :=
    .snoc .nil ⟨trivial, boxChanged_changed⟩
  obtain ⟨holds, restores⟩ := snapshot_exact toolShell_laws rfl
    boxStart_installed rfl .nil boxCreate_fits boxTaken_eq onward
    (box_stratum boxStart (by simp)) boxTop_resolves
  refine ⟨holds, restores 1709210100 ?_⟩
  intro row snap isRow _
  rw [box_stratum boxChanged (by simp)] at isRow
  cases isRow
  rw [boxMachine_target]
  exact ⟨by decide, 493, box_disks.2.2.2.1⟩

/-- Both snapshots are taken, and the first one holds the file that came
between them. -/
theorem boxTwice_merged :
    ShellLaws boxMachine.system ∧ Installed boxMachine boxStart ∧
      ¬ SnapshotsStay boxMachine boxStart := by
  refine ⟨toolShell_laws, boxStart_installed, fun stay => ?_⟩
  obtain ⟨-, -, -, -, copied, isKept, differs⟩ := box_disks
  have again := @boxMachine_create boxChanged (box_stratum _ (by simp))
    copied
  have onward : Run (Step boxMachine) boxTaken
      [.change (ascii "box"), .create (ascii "box") (ascii "manual")
        1709210096 none] boxTwice :=
    .snoc (.snoc .nil boxChanged_changed) (congrArg Prod.snd again).symm
  obtain ⟨⟨snap, kept, selected, resolved, same⟩, _⟩ := stay [] boxStart _ _
    _ _ _ _ _ _ ⟨ascii "box", ascii "/strata/box"⟩ boxTop .nil boxTaken_eq
    onward (by decide) (box_stratum boxStart (by simp))
    boxTop_resolves
  cases selected.symm.trans box_texts.2.2.2.2.2
  cases resolved.symm.trans isKept
  exact differs (same [ascii "new"])

end SaltOS.Strata
