import SaltOS.Strata.SnapshotExact

/-!
# What snapshots and rollbacks leave alone

A snapshot that fits leaves the tree of every stratum as it is, and a rollback
that fits the trees of the other strata.  Whatever happens below the strata, a
stratum whose path names a directory keeps naming one, so that the condition
on a rollback can be read off the state before.
-/

namespace SaltOS.Util

open Lib Disk

variable {γ : Type} {tops : List Loc} {before after : Disk γ} {path : Bytes}
  {loc : Loc}

/-- A path aside from the tops that names a directory, and no link to one,
still does so when only what lies below the tops has changed. -/
theorem Aside.lstat_dir (aside : Aside tops before path loc)
    (steady : Steady tops before after) {mode : Nat}
    (isEntry : before.lstat path = .ok (.dir mode)) :
    ∃ mode, after.lstat path = .ok (.dir mode) := by
  -- The directory that the last component is looked up in.
  obtain ⟨parent, last, isSlot, isNode⟩ : ∃ parent last,
      before.slot path (components path) = .ok (parent, last) ∧
        before.fs.node? (entryLoc parent last) = some (.dir mode) := by
    unfold lstat at isEntry
    rw [if_neg aside.nonempty] at isEntry
    cases isSlot : before.slot path (components path) with
    | error errno => simp [isSlot] at isEntry
    | ok found =>
        obtain ⟨parent, last⟩ := found
        simp only [isSlot] at isEntry
        cases isNode : before.fs.node? (entryLoc parent last) with
        | none => simp [isNode] at isEntry
        | some node =>
            rw [isNode] at isEntry
            exact ⟨parent, last, rfl, isNode.trans
              (congrArg some (Except.ok.inj isEntry))⟩
  obtain ⟨⟨links, within, walkedParent⟩, -, isLast⟩ := slot_eq_ok isSlot
  obtain ⟨whole, wholeWithin, walked⟩ := aside.walked
  have split : components path = (components path).dropLast ++ [last] := by
    rw [← isLast, dropLast_append_getLastD (components_ne_nil path)]
  rw [split] at walked
  obtain ⟨middle, first, second, walkedFront, walkedLast, sum⟩ :=
    walked.of_append
  have seen : ∀ other node, lookOutside before.fs tops other = some node →
      before.fs.node? other = some node := by
    intro other node found
    unfold lookOutside at found
    split at found
    · exact found
    · cases found
  have sameParent : middle = parent := by
    exact (walkedFront.grow seen).deterministic walkedParent
  rw [sameParent] at walkedFront walkedLast
  have parentSeen := walkedLast.isDir_start (List.cons_ne_nil last [])
  have parentOutside : Outside tops parent := by
    by_contra inside
    rw [lookOutside, if_neg inside] at parentSeen
    obtain ⟨_, impossible⟩ := isDirIn_iff.mp parentSeen
    cases impossible
  have isLoc : loc = entryLoc parent last := by
    cases walkedLast with
    | dot _ isDot rest =>
        cases rest
        exact (if_pos isDot).symm
    | up _ rest =>
        cases rest
        rw [entryLoc, if_neg (by decide), if_pos rfl]
    | entry _ notDot notUp _ _ rest =>
        cases rest
        rw [entryLoc, if_neg notDot, if_neg notUp]
    | follow _ notDot notUp isLink =>
        rw [entryLoc, if_neg notDot, if_neg notUp, seen _ _ isLink] at isNode
        cases isNode
  -- Afterwards the same directory is found in the same one.
  have parentDir : after.fs.IsDir parent := by
    apply steady.dirs parent parentOutside
    rw [lookOutside, if_pos parentOutside] at parentSeen
    exact parentSeen
  have walkedThen : Walk after.fs.node? (baseOf after.cwd path)
      (components path).dropLast parent first := by
    rw [steady.cwd]
    apply walkedFront.mono
    · exact parentSeen
    · intro other isDir
      unfold lookOutside at isDir
      split at isDir
      · rename_i outside
        exact steady.dirs other outside isDir
      · obtain ⟨_, impossible⟩ := isDirIn_iff.mp isDir
        cases impossible
    · intro other target found
      unfold lookOutside at found
      split at found
      · rename_i outside
        exact steady.links other target outside found
      · cases found
  have slotThen := slot_of_walk (by omega : first ≤ maxSymlinks) walkedThen
    parentDir
  obtain ⟨newMode, isDirThen⟩ := FileSystem.isDir_iff.mp
    (steady.dirs loc aside.outside aside.isDir)
  refine ⟨newMode, ?_⟩
  unfold lstat
  rw [if_neg aside.nonempty, slotThen, isLast]
  simp only
  rw [← isLoc, isDirThen]

end SaltOS.Util

namespace SaltOS.Strata

open Lib Util Disk

variable {γ : Type} {machine : Machine γ} {before middle after state : State γ}
  {name label path : Bytes} {clock : Int} {refusal : Option Bytes}

/-! ## The trees of the strata -/

/-- The tree at a location is the same. -/
def SameTree (before after : Disk γ) (top : Loc) : Prop :=
  ∀ rel, after.fs.node? (rel ++ top) = before.fs.node? (rel ++ top)

theorem SameTree.trans {before middle after : Disk γ} {top : Loc}
    (first : SameTree before middle top) (second : SameTree middle after top) :
    SameTree before after top :=
  fun rel => (second rel).trans (first rel)

/-- What a copy onto a fitting place leaves alone. -/
theorem SnapshotFits.copy_sameTree {target : Bytes} {top : Loc}
    (fits : SnapshotFits machine state name path target)
    (laws : ShellLaws machine.system)
    (aside : Aside (state.tops machine) state.disk target top)
    (member : top ∈ state.tops machine) {other : Loc}
    (isTop : other ∈ state.tops machine) :
    SameTree state.disk (machine.system (copyCommand (ascii "-ax") target path)
      (made path (made (machine.snapshotDir name) state.disk))).2 other := by
  let texts := [machine.snapshotDir name, path]
  have both : Prepared texts state.disk
      (made path (made (machine.snapshotDir name) state.disk)) :=
    ((Prepared.refl state.disk).further List.mem_cons_self
      (mkdirs_made _ 493 _)).further (by simp) (mkdirs_made _ 493 _)
  have asideThen := aside.steady (.of_grown both.grown)
  rcases copy_outcome laws List.mem_cons_self fits.unquoted (by simp [texts])
      both asideThen.resolve asideThen.isDir with
    failed | ⟨ground, onto, prepared, resolved, ontoDir, isCopy⟩
  · rw [failed]
    exact fits.same_top both isTop
  · have lands := fits.lands prepared aside.resolve resolved ontoDir
    have placed : Placed machine state name path top onto ground :=
      ⟨prepared, lands, resolved, ontoDir, aside.isDir,
        fits.same_top prepared member⟩
    have asideGround := aside.steady (.of_grown prepared.grown)
    rw [isCopy, laws.copies (ascii "-ax") List.mem_cons_self target path
      ground top onto fits.unquoted.1 fits.unquoted.2 asideGround.resolve
      resolved (lands.apart top member) placed.graftable]
    intro rel
    rw [← fits.same_top prepared isTop rel]
    apply FileSystem.node?_graft_outside
    exact (lands.apart other isTop).not_below (List.suffix_append rel other)

theorem snapshotCreate_sameTree (laws : ShellLaws machine.system)
    (noBtrfs : machine.useBtrfs = false) (ready : Ready machine state)
    (fits : Fits machine state (.create name label clock refusal))
    {other : Loc} (isTop : other ∈ state.tops machine) :
    SameTree state.disk
      (snapshotCreate machine name label clock refusal state).2.disk other := by
  cases found : state.stratum name with
  | none =>
      simp only [snapshotCreate, found]
      exact fun _ => rfl
  | some row =>
      obtain ⟨top, aside⟩ := ready.installed row (State.mem_of_stratum found)
      have member : top ∈ state.tops machine :=
        mem_tops.mpr ⟨row, State.mem_of_stratum found, aside.resolve⟩
      have same := (fits row found).copy_sameTree laws aside member isTop
      simp only [snapshotCreate, found, takeCopy, noBtrfs]
      generalize machine.system _ _ = result at same
      obtain ⟨success, disk⟩ := result
      cases success with
      | false => exact same
      | true =>
          cases refusal with
          | some message => exact same
          | none => exact same

theorem rollback_sameTree (laws : ShellLaws machine.system) {id : Int}
    (ready : Ready machine state)
    (fits : Fits machine state (.rollback name id clock))
    {row : StratumRow} {top : Loc} (found : state.stratum name = some row)
    (resolved : state.disk.resolve (machine.stratumTarget row.root) = .ok top)
    {other : Loc} (apart : Lib.Apart top other) :
    SameTree state.disk (rollback machine name id clock state).2.disk
      other := by
  cases selected : state.snapshot name id with
  | none =>
      simp only [rollback, found, selected]
      exact fun _ => rfl
  | some snap =>
      obtain ⟨place, aside⟩ :=
        ready.installed row (State.mem_of_stratum found)
      obtain rfl : place = top := by
        rw [aside.resolve] at resolved
        exact Except.ok.inj resolved
      have member : place ∈ state.tops machine :=
        mem_tops.mpr ⟨row, State.mem_of_stratum found, resolved⟩
      obtain ⟨isCopy, unquoted, _, kept, asideKept, keptApart⟩ :=
        ready.sheltered snap (State.mem_of_snapshot selected).1
      obtain ⟨targetUnquoted, mode, isEntry⟩ := fits row snap found selected
      obtain ⟨success, restored⟩ := @restoreTree_restored γ machine name clock
        laws snap _ place kept state.disk _ mode isCopy
        ⟨targetUnquoted, unquoted⟩ member isEntry aside asideKept
        (keptApart place member)
      intro rel
      have outside := restored.outside (rel ++ other)
        (apart.symm.not_below (List.suffix_append rel other))
      simp only [rollback, found, selected]
      generalize restoreTree machine name snap _ clock state.disk =
        result at *
      obtain ⟨isDone, disk⟩ := result
      cases success
      exact outside

/-! ## The first snapshot of a system -/

/-- The locations to be made on the way of one of the paths. -/
def madeOnWay (disk : Disk γ) (texts : List Bytes) : List Loc :=
  texts.flatMap fun text =>
    ((components text).inits.filterMap fun cut =>
      (walk (lookMade disk.fs []) maxSymlinks (baseOf disk.cwd text)
        cut).toOption).filter fun loc => (disk.fs.node? loc).isNone

theorem mem_madeOnWay {disk : Disk γ} {texts : List Bytes} {loc : Loc}
    (missing : Missing disk texts loc) : loc ∈ madeOnWay disk texts := by
  obtain ⟨absent, text, member, cut, isCut, links, within, walked⟩ := missing
  apply List.mem_flatMap.mpr
  refine ⟨text, member, List.mem_filter.mpr ⟨?_, by rw [absent]; rfl⟩⟩
  apply List.mem_filterMap.mpr
  refine ⟨cut, (List.mem_inits _ _).mpr isCut, ?_⟩
  rw [walk_complete within walked]
  rfl

/-- Where there are no snapshots yet, nor the directory that they go to, a
snapshot fits if its path leads there away from the strata. -/
theorem fits_of_fresh {row : StratumRow} (kept above : Loc)
    (isRow : state.stratum name = some row) (fresh : state.snapshots = [])
    (unquoted : 39 ∉ machine.stratumTarget row.root ∧
      39 ∉ machine.snapshotPath name label clock)
    (making : ∀ loc ∈ madeOnWay state.disk [machine.snapshotDir name,
      machine.snapshotPath name label clock],
      (∀ top ∈ state.tops machine, ¬ top <:+ loc) ∧ ¬ StrictlyBelow kept loc)
    (leads : ∀ tops ∈ [[], state.tops machine],
      walk (lookMade state.disk.fs tops) maxSymlinks
        (baseOf state.disk.cwd (machine.snapshotPath name label clock))
        (components (machine.snapshotPath name label clock)) = .ok kept)
    (apart : ∀ top ∈ state.tops machine, Lib.Apart top kept)
    (isAbove : above <:+ kept) (differ : above.length ≠ kept.length)
    (notDir : ¬ state.disk.fs.IsDir above) :
    Fits machine state (.create name label clock refusal) := by
  intro other isOther
  obtain rfl : row = other := Option.some.inj (isRow.symm.trans isOther)
  have noSnapshot : ∀ snap, snap ∉ state.snapshots := by
    rw [fresh]
    exact fun snap => List.not_mem_nil
  refine ⟨unquoted, ?_, ?_⟩
  · intro loc missing
    refine ⟨(making loc (mem_madeOnWay missing)).1, ?_⟩
    exact fun snap member => absurd member (noSnapshot snap)
  · rintro top onto - ⟨links, within, walked⟩ -
    obtain rfl : onto = kept := by
      have here := walk_complete within walked
      exact Except.ok.inj
        (here.symm.trans (leads [] List.mem_cons_self))
    refine ⟨?_, apart, ?_, .inr ⟨?_, ?_⟩⟩
    · exact walk_eq_ok_iff.mp (leads _ (by simp))
    · exact fun loc missing => (making loc (mem_madeOnWay missing)).2
    · exact fun snap member => absurd member (noSnapshot snap)
    · -- Nothing is there, since a directory on the way is missing.
      intro rel there found
      have exists_ : state.disk.fs.node? (rel ++ onto) ≠ none := by
        rw [found]
        exact Option.some_ne_none there
      have shorter : above ≠ rel ++ onto := by
        intro same
        have lengths := congrArg List.length same
        have le := isAbove.length_le
        rw [List.length_append] at lengths
        omega
      exact absurd (FileSystem.isDir_of_above exists_
        (isAbove.trans (List.suffix_append rel onto)) shorter) notDir

end SaltOS.Strata
