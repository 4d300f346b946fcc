import SaltOS.Lock.LockExact
import SaltOS.Lock.StrataApply
import SaltOS.Strata.SnapshotKeeps

/-!
# Applying a lockfile to a stratum, all or nothing

When `apply_stratum` succeeds, the packages of the stratum are the ones of the
lock.  When it fails, the tree of the stratum is the one that it found, unless
no snapshot of it could be taken.  The trees of the other strata are never
touched.
-/

namespace SaltOS.Lock

open Lib Util Repo Txn
open Strata (StratumRow State Machine snapshotCreate rollback Ready Effect
  Changed ShellLaws SameTree mem_tops)

variable {γ : Type} {machine : Machine γ} {managers : Managers γ}
  {state before middle after : State γ} {row : StratumRow} {top : Loc}

/-! ## Package managers -/

/-- Something has happened below a directory, and nowhere else. -/
structure Within (top : Loc) (before after : Disk γ) : Prop where
  cwd : after.cwd = before.cwd
  isDir : before.fs.IsDir top → after.fs.IsDir top
  outside : ∀ loc, ¬ top <:+ loc →
    after.fs.node? loc = before.fs.node? loc

theorem Within.refl (top : Loc) (disk : Disk γ) : Within top disk disk :=
  ⟨rfl, id, fun _ _ => rfl⟩

theorem Within.trans {before middle after : Disk γ}
    (first : Within top before middle) (second : Within top middle after) :
    Within top before after where
  cwd := second.cwd.trans first.cwd
  isDir := second.isDir ∘ first.isDir
  outside loc notBelow :=
    (second.outside loc notBelow).trans (first.outside loc notBelow)

/-- A package manager works in the tree of its stratum, and what its tools
print depends on this tree. -/
structure Managed (machine : Machine γ) (managers : Managers γ) : Prop where
  confined : ∀ row argv (disk : Disk γ) top,
    disk.resolve (machine.stratumTarget row.root) = .ok top →
    disk.fs.IsDir top →
    Within top disk (managers.exec (managers.stratum row) argv disk).2
  reads : ∀ row (before after : Disk γ) top,
    before.resolve (machine.stratumTarget row.root) = .ok top →
    after.resolve (machine.stratumTarget row.root) = .ok top →
    SameTree before after top →
    managers.tools (managers.stratum row) after =
      managers.tools (managers.stratum row) before

section

variable {disk : Disk γ} {tops : List Loc} {target : Bytes}

/-- A path aside from a directory leads there whatever happens below. -/
theorem Within.aside {before after : Disk γ} (within : Within top before after)
    (member : top ∈ tops) (aside : Aside tops before target top) :
    Aside tops after target top :=
  aside.steady (.of_below member within.cwd aside.isDir
    (within.isDir aside.isDir) within.outside)

theorem Managed.stratumPkg_within (managed : Managed machine managers)
    (aside : Aside tops disk (machine.stratumTarget row.root) top)
    (op : Bytes) (pkgs : List Bytes) :
    Within top disk
      (managers.stratumPkg (managers.stratum row) op pkgs disk).2 := by
  unfold Managers.stratumPkg
  split
  · exact .refl top disk
  · split
    · exact .refl top disk
    · exact managed.confined row _ disk top aside.resolve aside.isDir

theorem Managed.installExact_within (managed : Managed machine managers)
    (aside : Aside tops disk (machine.stratumTarget row.root) top)
    (pins : List ForeignPin) :
    Within top disk
      (managers.installExact (managers.stratum row) pins disk).2 := by
  unfold Managers.installExact
  split
  · exact .refl top disk
  · split
    · exact .refl top disk
    · split
      · exact .refl top disk
      · exact managed.confined row _ disk top aside.resolve aside.isDir

/-- Removing and installing stays in the tree. -/
theorem Managed.change_within (managed : Managed machine managers)
    (member : top ∈ tops)
    (aside : Aside tops disk (machine.stratumTarget row.root) top)
    (compare : StratumCompare) :
    Within top disk
      (managers.change (managers.stratum row) compare disk).2 := by
  have removes : Within top disk (if compare.extra = [] then (true, disk)
      else Managers.succeeded (managers.stratumPkg (managers.stratum row)
        (ascii "remove") compare.extra disk)).2 := by
    split
    · exact .refl top disk
    · exact managed.stratumPkg_within aside (ascii "remove") compare.extra
  unfold Managers.change
  extract_lets removed
  change Within top disk removed.2 at removes
  split
  · apply removes.trans
    exact managed.installExact_within (removes.aside member aside) _
  · exact removes

end

/-! ## What is kept -/

/-- The strata are where they were, their snapshots are sheltered, and the
trees but one are the same. -/
structure Kept (machine : Machine γ) (top : Loc) (before after : State γ) :
    Prop where
  strata : after.strata = before.strata
  ready : Ready machine after
  tops : after.tops machine = before.tops machine
  steady : Steady (before.tops machine) before.disk after.disk
  others : ∀ other ∈ before.tops machine, Lib.Apart top other →
    SameTree before.disk after.disk other

namespace Kept

theorem refl (ready : Ready machine state) : Kept machine top state state where
  strata := rfl
  ready := ready
  tops := rfl
  steady := .refl _
  others _ _ _ _ := rfl

theorem trans (first : Kept machine top before middle)
    (second : Kept machine top middle after) :
    Kept machine top before after where
  strata := second.strata.trans first.strata
  ready := second.ready
  tops := second.tops.trans first.tops
  steady := first.steady.trans (first.tops ▸ second.steady)
  others other member apart := by
    apply (first.others other member apart).trans
    exact second.others other (first.tops ▸ member) apart

theorem of_effect (ready : Ready machine before)
    (effect : Effect machine before after)
    (others : ∀ other ∈ before.tops machine, Lib.Apart top other →
      SameTree before.disk after.disk other) :
    Kept machine top before after where
  strata := effect.strata
  ready := effect.ready ready
  tops := effect.tops_eq ready.installed
  steady := effect.steady
  others := others

/-- A stratum that was there is there. -/
theorem stratum (kept : Kept machine top before after) (name : Bytes) :
    after.stratum name = before.stratum name := by
  unfold State.stratum
  rw [kept.strata]

end Kept

/-! ## A stratum that is there -/

/-- The tree of the stratum of a row lies at a location, and its path names a
directory. -/
structure Located (machine : Machine γ) (state : State γ) (name : Bytes)
    (row : StratumRow) (top : Loc) : Prop where
  found : state.stratum name = some row
  aside : Aside (state.tops machine) state.disk
    (machine.stratumTarget row.root) top
  isEntry : ∃ mode, state.disk.lstat (machine.stratumTarget row.root) =
    .ok (.dir mode)

namespace Located

variable {name : Bytes}

theorem member (located : Located machine state name row top) :
    top ∈ state.tops machine :=
  mem_tops.mpr ⟨row, Strata.State.mem_of_stratum located.found,
    located.aside.resolve⟩

theorem kept {other : Loc} (located : Located machine before name row top)
    (kept : Kept machine other before after) :
    Located machine after name row top where
  found := (kept.stratum name).trans located.found
  aside := kept.tops ▸ located.aside.steady kept.steady
  isEntry := by
    obtain ⟨mode, isEntry⟩ := located.isEntry
    exact located.aside.lstat_dir kept.steady isEntry

/-- A command that stays in the tree changes it, and nothing else. -/
theorem changed {disk : Disk γ} (located : Located machine state name row top)
    (within : Within top state.disk disk) :
    Changed machine name state { state with disk := disk } where
  rows := ⟨rfl, rfl, rfl⟩
  cwd := within.cwd
  below := ⟨row, top, located.found, located.aside.resolve,
    within.isDir located.aside.isDir, within.outside⟩

end Located

/-! ## All or nothing -/

/-- The snapshot that `apply_stratum` takes. -/
def safetySnapshot (machine : Machine γ) (circumstances : Circumstances)
    (name : Bytes) (state : State γ) : Except Failure Nat × State γ :=
  snapshotCreate machine name (ascii "pre-lock-apply") circumstances.clock
    circumstances.refusal state

/-- A run of `apply_stratum` that ended with a code. -/
structure Outcome (machine : Machine γ) (managers : Managers γ)
    (circumstances : Circumstances) (lock : StratumLock) (row : StratumRow)
    (top : Loc) (before : State γ) (code : Nat) (after : State γ) : Prop where
  kept : Kept machine top before after
  done : code = 0 → managers.verified row lock after.disk = true
  undone : code ≠ 0 →
    (∃ id, (safetySnapshot machine circumstances lock.name before).1 =
      .ok id) →
    SameTree before.disk after.disk top

section

variable {circumstances : Circumstances} {lock : StratumLock}

theorem created_kept (laws : ShellLaws machine.system)
    (noBtrfs : machine.useBtrfs = false) (ready : Ready machine state)
    (fits : Strata.Fits machine state (.create lock.name
      (ascii "pre-lock-apply") circumstances.clock circumstances.refusal)) :
    Kept machine top state
      (safetySnapshot machine circumstances lock.name state).2 := by
  apply Kept.of_effect ready
  · exact (Strata.snapshotCreate_effect laws noBtrfs ready fits).1
  · intro other member _
    exact Strata.snapshotCreate_sameTree laws noBtrfs ready fits member

theorem changed_kept {name : Bytes} {disk : Disk γ}
    (ready : Ready machine state)
    (located : Located machine state name row top)
    (within : Within top state.disk disk) :
    Kept machine top state { state with disk := disk } := by
  apply Kept.of_effect ready
  · exact Strata.changed_effect ready (located.changed within)
  · intro other _ apart rel
    apply within.outside
    exact apart.symm.not_below (List.suffix_append rel other)

/-- Going back to the snapshot of an id brings back the tree that it holds. -/
theorem rollback_outcome (laws : ShellLaws machine.system) {name : Bytes}
    {id : Nat} {clock : Int} {tree : Loc → Option (Node γ)}
    (ready : Ready machine state)
    (located : Located machine state name row top)
    (unquoted : 39 ∉ machine.stratumTarget row.root)
    (holds : Strata.Holds state name id tree) :
    let after := (rollback machine name id clock state).2
    Kept machine top state after ∧
      ∀ rel, after.disk.fs.node? (rel ++ top) = tree rel := by
  have fits : Strata.Fits machine state (.rollback name id clock) := by
    intro other snap found _
    obtain rfl : row = other :=
      Option.some.inj (located.found.symm.trans found)
    exact ⟨unquoted, located.isEntry⟩
  obtain ⟨effect, restores⟩ := Strata.rollback_effect laws ready fits
  constructor
  · apply Kept.of_effect ready effect
    intro other _ apart
    exact Strata.rollback_sameTree laws ready fits located.found
      located.aside.resolve apart
  · obtain ⟨snap, kept, selected, resolvedKept, isTree⟩ := holds
    obtain ⟨-, -, restored⟩ := restores row snap top kept located.found
      selected located.aside.resolve resolvedKept
    intro rel
    exact (restored rel).trans (isTree rel)

/-- The part of `apply_stratum` that changes a stratum. -/
theorem convergeStratum_outcome (laws : ShellLaws machine.system)
    (noBtrfs : machine.useBtrfs = false)
    (managed : Managed machine managers) (ready : Ready machine state)
    (located : Located machine state lock.name row top)
    (fits : Strata.Fits machine state (.create lock.name
      (ascii "pre-lock-apply") circumstances.clock circumstances.refusal))
    (compare : StratumCompare) :
    let result := convergeStratum machine managers circumstances lock row
      compare state
    Outcome machine managers circumstances lock row top state result.1
      result.2 := by
  intro result
  have created : Kept machine top state
      (safetySnapshot machine circumstances lock.name state).2 :=
    created_kept laws noBtrfs ready fits
  have holds := (Strata.snapshotCreate_effect laws noBtrfs ready fits).2
  rcases isTaken : snapshotCreate machine lock.name (ascii "pre-lock-apply")
    circumstances.clock circumstances.refusal state with ⟨snap, taken⟩
  rw [isTaken] at holds
  rw [safetySnapshot, isTaken] at created
  -- What the package manager leaves, whether or not it is what was wanted.
  have locatedThen := located.kept created
  have within := managed.change_within locatedThen.member locatedThen.aside
    compare
  have changed := changed_kept created.ready locatedThen within
  simp only [result, convergeStratum, isTaken]
  generalize managers.change (managers.stratum row) compare taken.disk =
    left at *
  obtain ⟨success, disk⟩ := left
  have both := created.trans changed
  split
  · rename_i isDone
    exact ⟨both, fun _ => isDone.2, fun nonzero => absurd rfl nonzero⟩
  cases snap with
  | error failure =>
      refine ⟨both, fun isZero => absurd isZero Nat.one_ne_zero, ?_⟩
      rintro - ⟨id, isOk⟩
      rw [safetySnapshot, isTaken] at isOk
      cases isOk
  | ok id =>
      obtain ⟨positive, holdsTree⟩ := holds id rfl
      have effect := Strata.changed_effect created.ready
        (locatedThen.changed within)
      have still := effect.holds created.ready positive
        (holdsTree row top located.found located.aside.resolve)
      obtain ⟨rolledBack, restored⟩ := rollback_outcome laws changed.ready
        (located.kept both) (fits row located.found).unquoted.1 still
      refine ⟨both.trans rolledBack, fun isZero => absurd isZero Nat.one_ne_zero, ?_⟩
      exact fun _ _ => restored

theorem Outcome.unchanged {code : Nat} (ready : Ready machine state)
    (done : code = 0 → managers.verified row lock state.disk = true) :
    Outcome machine managers circumstances lock row top state code state where
  kept := .refl ready
  done := done
  undone _ _ _ := rfl

theorem applyPresent_outcome (laws : ShellLaws machine.system)
    (noBtrfs : machine.useBtrfs = false)
    (managed : Managed machine managers) (ready : Ready machine state)
    (located : Located machine state lock.name row top)
    (fits : Strata.Fits machine state (.create lock.name
      (ascii "pre-lock-apply") circumstances.clock circumstances.refusal)) :
    let result := applyPresent machine managers circumstances false lock state
    Outcome machine managers circumstances lock row top state result.1
      result.2 := by
  have failed : Outcome machine managers circumstances lock row top state 1
      state :=
    .unchanged ready fun isZero => absurd isZero Nat.one_ne_zero
  simp only [applyPresent, located.found]
  split
  · exact failed
  split
  · exact failed
  rename_i live isLive
  split
  · rename_i isClean
    apply Outcome.unchanged ready
    intro _
    have noDiffs : (compareStratum lock live).diffs = 0 := by
      simpa using isClean
    simp only [Managers.verified, isLive, noDiffs, decide_true]
  · split
    · exact failed
    · exact convergeStratum_outcome laws noBtrfs managed ready located fits _

end

/-! ## A package manager that fails -/

/-- What the tools of a stratum of Alpine print. -/
def boxTools : Tools where
  root := ascii "/strata/box"
  listing := .ok (ascii "musl-1.2.5-r0\n")
  digests := .ok (ascii "P:musl\nV:1.2.5-r0\nC:Q1abc=\n\n")
  hasFile _ := false
  hostSha256 _ := none
  dpkgInfo := []

def brokenManagers : Managers Bytes where
  family _ := some (ascii "alpine")
  packageManager _ := none
  tools _ _ := boxTools
  cached _ _ := none
  exec _ _ disk := (.ok 1, disk)

def boxCircumstances : Circumstances where
  opensFirst := true
  opensQuery := true
  opensApply := true
  clock := 1709210096
  rollbackClock := 1709210100
  refusal := none

/-- A lock that wants `zlib` in the place of `musl`. -/
def zlibLock : StratumLock where
  name := ascii "box"
  family := ascii "alpine"
  packageManager := []
  packages := [⟨ascii "zlib", ascii "1.3-r0", ascii "apk-checksum:Q1x="⟩]

theorem brokenManagers_managed : Managed Strata.boxMachine brokenManagers where
  confined _ _ disk top _ _ := .refl top disk
  reads _ _ _ _ _ _ _ := rfl

theorem box_located : Located Strata.boxMachine Strata.boxStart (ascii "box")
    ⟨ascii "box", ascii "/strata/box"⟩ Strata.boxTop where
  found := by decide +kernel
  aside := by
    obtain ⟨top, aside⟩ := Strata.boxStart_installed
      ⟨ascii "box", ascii "/strata/box"⟩ List.mem_cons_self
    have resolved := aside.resolve
    rw [Strata.boxTop_resolves] at resolved
    rw [Except.ok.inj resolved]
    exact aside
  isEntry := ⟨493, by decide +kernel⟩

theorem box_fits : Strata.Fits Strata.boxMachine Strata.boxStart
    (.create (ascii "box") (ascii "pre-lock-apply") 1709210096 none) := by
  apply Strata.fits_of_fresh [ascii "pre-lock-apply-20240229T123456Z",
    ascii "box", ascii ".snapshots", ascii "strata"]
    [ascii ".snapshots", ascii "strata"] box_located.found
  all_goals decide +kernel

end SaltOS.Lock
