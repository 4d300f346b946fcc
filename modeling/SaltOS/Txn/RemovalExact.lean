import SaltOS.Txn.Removal

/-!
# Exactly what a removal leaves alone

Where no path passes a symbolic link, the longest-first order reaches what is
in a directory before the directory.  A removal that returns, without faults,
then takes away everything that does not stay.
-/

namespace SaltOS.Txn

open Lib Disk Util Pkg

/-! ## Programs that meet no fault -/

/-- The program meets no fault when none is to come. -/
def Calm {ε α γ : Type} (program : EStateM ε (Disk γ) α) : Prop :=
  ∀ disk, disk.faults = [] →
    EndsIn (program disk) fun after => after.faults = []

namespace Calm

variable {ε ε' α β γ : Type}

theorem pure (value : α) : Calm (pure value : EStateM ε (Disk γ) α) :=
  fun _ quiet => quiet

theorem throw (error : ε) :
    Calm (throwThe ε error : EStateM ε (Disk γ) α) :=
  fun _ quiet => quiet

theorem get : Calm (get : EStateM ε (Disk γ) (Disk γ)) :=
  fun _ quiet => quiet

theorem bind {first : EStateM ε (Disk γ) β}
    {next : β → EStateM ε (Disk γ) α} (firstCalm : Calm first)
    (nextCalm : ∀ value, Calm (next value)) : Calm (first >>= next) :=
  fun disk quiet => Ends.bind (firstCalm disk quiet)
    fun value between still => nextCalm value between still

theorem ignore {program : EStateM ε (Disk γ) α} (calm : Calm program) :
    Calm (ignore program : EStateM ε' (Disk γ) Unit) :=
  fun disk quiet => Ends.ignore (calm disk quiet)

theorem attempt {program : EStateM ε (Disk γ) α} (calm : Calm program) :
    Calm (attempt program : EStateM ε' (Disk γ) (Except ε α)) :=
  fun disk quiet => Ends.attempt (calm disk quiet)

theorem call (plan : Disk γ → Except Errno (FileSystem γ)) :
    Calm (Disk.call plan) := by
  intro disk quiet
  refine call_ends.endsIn ?_ ?_
  · rintro _ _ ⟨fs, -, rfl⟩
    simp [Disk.tick, quiet]
  · rintro _ _ ⟨rfl, -⟩
    simp [Disk.tick, quiet]

theorem checked (what : String) (path : Bytes)
    {program : EStateM Errno (Disk γ) Unit} (calm : Calm program) :
    Calm (checked what path program) :=
  fun disk quiet => checked_ends (calm disk quiet)

theorem mkdirs (path : Bytes) (mode : Nat) :
    Calm (mkdirs path mode : EStateM Failure (Disk γ) Unit) :=
  fun _ quiet => endsIn_iff.mpr (mkdirs_quiet path mode quiet)

theorem makeDirname (path : Bytes) :
    Calm (makeDirname path : EStateM Failure (Disk γ) Unit) :=
  fun _ quiet => endsIn_iff.mpr (makeDirname_quiet path quiet)

theorem writeFile (path : Bytes) (content : γ) (mode : Nat) :
    Calm (writeFile path content mode) :=
  bind (makeDirname path) fun _ => bind (checked _ _ (call _))
    fun _ => checked _ _ (call _)

theorem copyLink (src dst : Bytes) : Calm (copyLink src dst) := by
  refine bind get fun disk => ?_
  split
  · exact throw _
  · refine bind (ignore (call _)) fun _ => bind (attempt (call _))
      fun outcome => ?_
    cases outcome with
    | ok _ => exact pure ()
    | error _ => exact throw _

theorem readFile (path : Bytes) :
    Calm (readFile path : EStateM Failure (Disk γ) γ) := by
  refine bind get fun disk => ?_
  split
  · exact pure _
  · exact throw _

theorem copyFile (src dst : Bytes) :
    Calm (copyFile src dst : EStateM Failure (Disk γ) Unit) := by
  refine bind (attempt (readFile src)) fun outcome => ?_
  cases outcome with
  | ok content =>
      refine bind (pure content) fun _ => bind get fun disk => ?_
      exact writeFile dst _ _
  | error failure => exact throw _

theorem backupFile (root backup rel : Bytes) :
    Calm (backupFile root backup rel) := by
  refine bind get fun disk => ?_
  split
  · exact pure ()
  · rename_i node _
    have saved : Calm (backupNode (joinPath root rel) (joinPath backup rel)
        node) := by
      cases node with
      | dir mode => exact pure ()
      | file content mode => exact copyFile _ _
      | symlink target => exact copyLink _ _
    refine bind (ignore (mkdirs _ _)) fun _ => bind (attempt saved)
      fun outcome => ?_
    cases outcome with
    | ok _ => exact pure ()
    | error _ => exact throw _

theorem removeEntry (root backup : Bytes) (entry : ManifestEntry) :
    Calm (removeEntry root backup entry) := by
  unfold Txn.removeEntry
  split
  · split
    · exact ignore (call _)
    · exact bind (backupFile _ _ _) fun _ => ignore (call _)
  · exact pure ()

end Calm

/-! ## Calls that succeed -/

section Success

variable {γ : Type} {disk : Disk γ} {root path : Bytes} {top : Loc}
  {comps : List Name}

/-- Without a fault, a file or link is gone after `unlink`. -/
theorem unlink_gone (rooted : Rooted disk root top)
    (under : Under root path comps) (names : Names comps)
    (quiet : disk.faults = []) {node : Node γ}
    (found : disk.fs.node? (descend top comps) = some node)
    (isLeaf : node.isDir = false) :
    (finalState (Disk.unlink path disk)).fs.node? (descend top comps) =
      none := by
  have exists_ : disk.fs.node? (descend top comps) ≠ none := by
    simp [found]
  have parentIsDir := FileSystem.isDir_of_cut exists_
    (List.dropLast_prefix comps) (dropLast_ne_self names.nonempty)
  have isEntry := @descend_dropLast top comps names.nonempty
  have slots := rooted.slot under names parentIsDir
  have planned : unlinkPlan path disk = .ok (disk.fs.replace
      (comps.getLastD []) (descend top comps.dropLast) none) := by
    unfold unlinkPlan
    rw [if_neg (under.path_ne_nil names.nonempty), slots]
    dsimp only
    rw [if_neg names.last_not_special, isEntry, found]
    cases node with
    | dir mode => cases isLeaf
    | file content mode => rfl
    | symlink target => rfl
  obtain ⟨parent, last, ⟨isSlot, replaceable, result⟩, -⟩ :=
    unlinkPlan_ok planned
  rw [slots] at isSlot
  obtain ⟨rfl, rfl⟩ := Prod.mk.inj (Except.ok.inj isSlot)
  unfold Disk.unlink
  rw [call_of_ok quiet planned]
  change (disk.fs.replace _ _ none).node? _ = none
  rw [FileSystem.node?_replace replaceable, isEntry, if_pos rfl]

/-- Without a fault, an empty directory is gone after `rmdir`. -/
theorem rmdir_gone (rooted : Rooted disk root top)
    (under : Under root path comps) (names : Names comps)
    (quiet : disk.faults = [])
    (isDir : disk.fs.IsDir (descend top comps))
    (childless : disk.fs.children (descend top comps) = []) :
    (finalState (Disk.rmdir path disk)).fs.node? (descend top comps) =
      none := by
  obtain ⟨mode, found⟩ := FileSystem.isDir_iff.mp isDir
  have exists_ : disk.fs.node? (descend top comps) ≠ none := by
    simp [found]
  have parentIsDir := FileSystem.isDir_of_cut exists_
    (List.dropLast_prefix comps) (dropLast_ne_self names.nonempty)
  have isEntry := @descend_dropLast top comps names.nonempty
  have slots := rooted.slot under names parentIsDir
  have trims := under.trimmed_eq names
  have planned : rmdirPlan path disk = .ok (disk.fs.replace
      (comps.getLastD []) (descend top comps.dropLast) none) := by
    unfold rmdirPlan
    rw [if_neg (under.path_ne_nil names.nonempty), trims,
      if_neg (components_ne_nil path), slots]
    dsimp only
    rw [if_neg (not_or.mp names.last_not_special).1,
      if_neg (not_or.mp names.last_not_special).2, isEntry, found]
    dsimp only
    rw [if_pos childless]
  obtain ⟨parent, last, ⟨isSlot, replaceable, result⟩, -⟩ :=
    rmdirPlan_ok planned
  rw [trims, slots] at isSlot
  obtain ⟨rfl, rfl⟩ := Prod.mk.inj (Except.ok.inj isSlot)
  unfold Disk.rmdir
  rw [call_of_ok quiet planned]
  change (disk.fs.replace _ _ none).node? _ = none
  rw [FileSystem.node?_replace replaceable, isEntry, if_pos rfl]

end Success

/-! ## Paths that pass no link -/

/-- The paths of the package are normalised and pass no symbolic link below
the root, and so does the state directory lie there. -/
structure Straight (root : Bytes) (rootTop top : Loc) (manifest : Manifest)
    (disk : Disk Content) : Prop where
  rooted : Rooted disk root rootTop
  above : rootTop <:+ top
  normal : ∀ entry ∈ manifest, pathIsConfined entry.path = true →
    Names (components entry.path)
  plain : ∀ entry ∈ manifest, pathIsConfined entry.path = true →
    Plain disk.fs rootTop (components entry.path)

section Straight

variable {root sdir path : Bytes} {rootTop top loc : Loc}
  {manifest done rest : Manifest} {entry : ManifestEntry}
  {start now before : Disk Content}

theorem under_joinPath (nonempty : root ≠ [])
    (names : Names (components path)) :
    Under root (joinPath root path) (components path) := by
  obtain ⟨pathNonempty, relative⟩ := names_relative names
  exact Under.joinPath nonempty pathNonempty relative

theorem takenLoc_some (taken : takenLoc root start entry = some loc) :
    pathIsConfined entry.path = true ∧
      ∃ parent last node, loc = last :: parent ∧
        start.slot (joinPath root entry.path) (removedNames root entry) =
          .ok (parent, last) ∧
        start.fs.node? loc = some node ∧
        node.isDir = decide (entry.typeflag = Tar.typeDir) := by
  unfold takenLoc at taken
  split at taken
  · rename_i confined
    refine ⟨confined, ?_⟩
    cases isSlot : start.slot (joinPath root entry.path)
        (removedNames root entry) with
    | error errno => simp [isSlot] at taken
    | ok slot =>
        obtain ⟨parent, last⟩ := slot
        simp only [isSlot] at taken
        cases found : start.fs.node? (last :: parent) with
        | none => simp [found] at taken
        | some node =>
            simp only [found] at taken
            split at taken
            · rename_i isKind
              cases taken
              exact ⟨parent, last, node, rfl, rfl, found, isKind⟩
            · cases taken
  · cases taken

namespace Straight

theorem removedNames_eq (straight : Straight root rootTop top manifest start)
    (member : entry ∈ manifest)
    (confined : pathIsConfined entry.path = true) :
    removedNames root entry = components (joinPath root entry.path) := by
  have names := straight.normal entry member confined
  unfold removedNames
  split
  · exact (under_joinPath straight.rooted.nonempty names).trimmed_eq names
  · rfl

/-- Such a path takes what its names lead to. -/
theorem taken (straight : Straight root rootTop top manifest start)
    (member : entry ∈ manifest)
    (taken : takenLoc root start entry = some loc) :
    pathIsConfined entry.path = true ∧
      loc = descend rootTop (components entry.path) ∧
      ∃ node, start.fs.node? loc = some node ∧
        node.isDir = decide (entry.typeflag = Tar.typeDir) := by
  obtain ⟨confined, parent, last, node, rfl, isSlot, found, isKind⟩ :=
    takenLoc_some taken
  rw [straight.removedNames_eq member confined] at isSlot
  have names := straight.normal entry member confined
  obtain ⟨isEntry, -, -⟩ := straight.rooted.slot_eq
    (under_joinPath straight.rooted.nonempty names) names
    (straight.plain entry member confined) isSlot
  exact ⟨confined, isEntry, node, found, isKind⟩

theorem not_below (straight : Straight root rootTop top manifest start)
    (notBelow : ¬ StrictlyBelow rootTop loc) : ¬ StrictlyBelow top loc := by
  intro strictly
  refine notBelow ⟨straight.above.trans strictly.1, ?_⟩
  rintro rfl
  exact strictly.2 (straight.above.eq_of_length_le strictly.1.length_le)

theorem rooted_of (straight : Straight root rootTop top manifest start)
    (removing : Removing root manifest top start now) :
    Rooted now root rootTop := by
  apply straight.rooted.of_outside removing.cwd
  intro loc notBelow
  rcases removing.nodes loc (straight.not_below notBelow) with same |
    ⟨-, entry, member, taken⟩
  · exact same
  · obtain ⟨confined, rfl, -⟩ := straight.taken member taken
    have names := straight.normal entry member confined
    exact absurd (strictlyBelow_descend names.nonempty) notBelow

end Straight

/-! ## What is gone -/

theorem Stays.of_below {below : Loc}
    (stays : Stays root manifest top start below) (isBelow : loc <:+ below) :
    Stays root manifest top start loc := by
  obtain ⟨lowest, member, isLowest, outside, untaken⟩ := stays
  exact ⟨lowest, member, isBelow.trans isLowest, outside, untaken⟩

/-- What does not stay is the place of some path of the package. -/
theorem taken_of_not_stays (exists_ : start.fs.node? loc ≠ none)
    (outside : ¬ StrictlyBelow top loc)
    (leaves : ¬ Stays root manifest top start loc) :
    ∃ entry ∈ manifest, takenLoc root start entry = some loc := by
  by_contra untaken
  push Not at untaken
  exact leaves ⟨loc, AList.mem_keys.mp (FileSystem.mem_nodes_iff.mpr exists_),
    List.suffix_refl loc, outside, untaken⟩

theorem Ground.top_stays (ground : Ground root sdir manifest top start) :
    Stays root manifest top start top := by
  obtain ⟨mode, found⟩ := isDirIn_iff.mp ground.isDir
  exact (lookStays_some found).1

theorem Ground.taken_outside (ground : Ground root sdir manifest top start)
    (member : entry ∈ manifest)
    (taken : takenLoc root start entry = some loc) :
    ¬ StrictlyBelow top loc := by
  obtain ⟨confined, parent, last, node, rfl, isSlot, found, isKind⟩ :=
    takenLoc_some taken
  exact (ground.takes (.refl start) member confined isSlot found isKind).2

/-- As far as the paths have been gone through, what does not stay has
gone. -/
structure Clearing (root : Bytes) (manifest : Manifest) (top : Loc)
    (start : Disk Content) (done : Manifest) (now : Disk Content) : Prop where
  removing : Removing root manifest top start now
  quiet : now.faults = []
  cleared : ∀ entry ∈ done, ∀ loc, takenLoc root start entry = some loc →
    ¬ Stays root manifest top start loc → now.fs.node? loc = none

/-- At its turn, a directory that does not stay is empty. -/
theorem Clearing.childless (ground : Ground root sdir manifest top start)
    (straight : Straight root rootTop top manifest start)
    (ordered : manifest.Pairwise fun first second =>
      Db.charLength second.path ≤ Db.charLength first.path)
    (whole : done ++ entry :: rest = manifest)
    (clearing : Clearing root manifest top start done before)
    (taken : takenLoc root start entry = some loc)
    (leaves : ¬ Stays root manifest top start loc) :
    before.fs.children loc = [] := by
  have member : entry ∈ manifest := by simp [← whole]
  have outside := ground.taken_outside member taken
  obtain ⟨-, isLoc, -⟩ := straight.taken member taken
  rw [FileSystem.children_eq_nil_iff]
  intro name
  by_contra exists_
  have childOutside : ¬ StrictlyBelow top (name :: loc) := by
    rintro ⟨isBelow, differs⟩
    rcases List.suffix_cons_iff.mp isBelow with same | above
    · exact differs same.symm
    · by_cases isTop : loc = top
      · exact leaves (isTop ▸ ground.top_stays)
      · exact outside ⟨above, isTop⟩
  have existed : start.fs.node? (name :: loc) ≠ none := by
    rcases clearing.removing.nodes _ childOutside with same | ⟨gone, -⟩
    · rwa [← same]
    · exact absurd gone exists_
  have childLeaves : ¬ Stays root manifest top start (name :: loc) :=
    fun stays => leaves (stays.of_below (List.suffix_cons name loc))
  obtain ⟨child, isChild, childTaken⟩ :=
    taken_of_not_stays existed childOutside childLeaves
  obtain ⟨-, isPlace, -⟩ := straight.taken isChild childTaken
  have longer : components child.path = components entry.path ++ [name] := by
    rw [isLoc, ← descend_concat] at isPlace
    exact (descend_inj.mp isPlace).symm
  -- A child has the longer path, so its turn was before.
  have isDone : child ∈ done := by
    rw [← whole] at isChild
    rcases List.mem_append.mp isChild with isDone | isLater
    · exact isDone
    · have short : Db.charLength child.path ≤ Db.charLength entry.path := by
        rcases List.mem_cons.mp isLater with rfl | isRest
        · exact Nat.le_refl _
        · rw [← whole] at ordered
          exact (List.pairwise_cons.mp
            (List.pairwise_append.mp ordered).2.1).1 child isRest
      have same := components_eq_of_charLength (longer ▸
        List.prefix_append _ _) short
      rw [longer] at same
      simp at same
  exact exists_ (clearing.cleared child isDone _ childTaken childLeaves)

/-- At its turn, what does not stay goes. -/
theorem Clearing.gone (ground : Ground root sdir manifest top start)
    (straight : Straight root rootTop top manifest start)
    (ordered : manifest.Pairwise fun first second =>
      Db.charLength second.path ≤ Db.charLength first.path)
    (whole : done ++ entry :: rest = manifest)
    (clearing : Clearing root manifest top start done before)
    (copyable : Copyable top (entry :: rest) before)
    (taken : takenLoc root start entry = some loc)
    (leaves : ¬ Stays root manifest top start loc)
    (there : before.fs.node? loc ≠ none) :
    Ends (removeEntry root (joinPath sdir (ascii "backup")) entry before)
      (fun _ after => after.fs.node? loc = none) (fun _ _ => True) := by
  have member : entry ∈ manifest := by simp [← whole]
  have outside := ground.taken_outside member taken
  have rooted := straight.rooted_of clearing.removing
  obtain ⟨confined, isLoc, node, found, isKind⟩ :=
    straight.taken member taken
  have foundNow : before.fs.node? loc = some node := by
    rcases clearing.removing.nodes loc outside with same | ⟨gone, -⟩
    · rw [same, found]
    · exact absurd gone there
  have names := straight.normal entry member confined
  have under := under_joinPath straight.rooted.nonempty names
  unfold removeEntry
  refine Ends.ite (fun _ => Ends.ite (fun isDirEntry => ?_)
    (fun notDir => ?_)) (fun notConfined => absurd confined notConfined)
  · have childless := clearing.childless ground straight ordered whole taken
      leaves
    subst isLoc
    refine rmdir_gone rooted under names clearing.quiet ?_ childless
    cases node with
    | dir mode => exact FileSystem.isDir_iff.mpr ⟨mode, foundNow⟩
    | file content mode => simp [Node.isDir, isDirEntry] at isKind
    | symlink target => simp [Node.isDir, isDirEntry] at isKind
  · have plain := copyable entry List.mem_cons_self confined notDir
    have stored : EndsIn (backupFile root (joinPath sdir (ascii "backup"))
        entry.path before)
        (Stores top (ascii "backup" :: components entry.path) before) :=
      backupFile_stores (ground.rooted clearing.removing)
        (under_backup ground.nonempty names) (names_backup names) plain
    have quiet := Calm.backupFile root (joinPath sdir (ascii "backup"))
      entry.path before clearing.quiet
    unfold takeAway
    refine Ends.bind ((stored.and quiet).mono (fun _ _ both => both)
      (fun _ _ _ => trivial)) ?_
    rintro _ between ⟨stores, quietBetween⟩
    have still := straight.rooted_of (clearing.removing.stores stores)
    have foundStill := (stores.outside loc outside).trans foundNow
    subst isLoc
    exact unlink_gone still under names quietBetween foundStill
      (by simpa [notDir] using isKind)

theorem Clearing.step (ground : Ground root sdir manifest top start)
    (straight : Straight root rootTop top manifest start)
    (ordered : manifest.Pairwise fun first second =>
      Db.charLength second.path ≤ Db.charLength first.path)
    (whole : done ++ entry :: rest = manifest)
    (clearing : Clearing root manifest top start done before)
    (copyable : Copyable top (entry :: rest) before) :
    Ends (removeEntry root (joinPath sdir (ascii "backup")) entry before)
      (fun _ after => Clearing root manifest top start (done ++ [entry])
        after ∧ Copyable top rest after) (fun _ _ => True) := by
  have member : entry ∈ manifest := by simp [← whole]
  have shorter : ∀ other ∈ rest,
      Db.charLength other.path ≤ Db.charLength entry.path := by
    have split := ordered
    rw [← whole] at split
    exact (List.pairwise_cons.mp (List.pairwise_append.mp split).2.1).1
  have removed := removeEntry_ends ground clearing.removing member copyable
    shorter
  have calm := Calm.removeEntry root (joinPath sdir (ascii "backup")) entry
    before clearing.quiet
  have gone : Ends (removeEntry root (joinPath sdir (ascii "backup")) entry
      before) (fun _ after => ∀ loc, takenLoc root start entry = some loc →
        ¬ Stays root manifest top start loc → before.fs.node? loc ≠ none →
          after.fs.node? loc = none) (fun _ _ => True) := by
    by_cases goes : ∃ loc, takenLoc root start entry = some loc ∧
        ¬ Stays root manifest top start loc ∧ before.fs.node? loc ≠ none
    · obtain ⟨loc, taken, leaves, there⟩ := goes
      refine (clearing.gone ground straight ordered whole copyable taken
        leaves there).mono ?_ (fun _ _ => id)
      intro _ after absent other otherTaken _ _
      rw [taken, Option.some.injEq] at otherTaken
      rwa [← otherTaken]
    · push Not at goes
      refine removed.mono (fun _ after _ loc taken leaves there => ?_)
        (fun _ _ _ => trivial)
      exact absurd (goes loc taken leaves) there
  refine ((removed.and calm).and gone).mono ?_ (fun _ _ _ => trivial)
  rintro _ after ⟨⟨⟨removing, copyableAfter, fewer⟩, quiet⟩, goes⟩
  refine ⟨⟨removing, quiet, ?_⟩, copyableAfter⟩
  intro other isDone loc taken leaves
  have isMember : other ∈ manifest := by
    rw [← whole]
    rcases List.mem_append.mp isDone with isEarlier | isLast
    · exact List.mem_append_left _ isEarlier
    · rw [List.mem_singleton.mp isLast]
      simp
  have absentLater (absent : before.fs.node? loc = none) :
      after.fs.node? loc = none := by
    rcases fewer loc (ground.taken_outside isMember taken) with same | none
    · rw [same, absent]
    · exact none
  rcases List.mem_append.mp isDone with isEarlier | isLast
  · exact absentLater (clearing.cleared other isEarlier loc taken leaves)
  · rw [List.mem_singleton.mp isLast] at taken
    by_cases absent : before.fs.node? loc = none
    · exact absentLater absent
    · exact goes loc taken leaves absent

/-- After all its paths, what does not stay has gone. -/
theorem removeEntries_clearing (ground : Ground root sdir manifest top start)
    (straight : Straight root rootTop top manifest start)
    (ordered : manifest.Pairwise fun first second =>
      Db.charLength second.path ≤ Db.charLength first.path)
    (clearing : Clearing root manifest top start [] now)
    (copyable : Copyable top manifest now) :
    Ends (manifest.forM (removeEntry root (joinPath sdir (ascii "backup")))
      now) (fun _ after => Clearing root manifest top start manifest after)
      (fun _ _ => True) := by
  have loop (rest done : Manifest) (before : Disk Content)
      (whole : done ++ rest = manifest)
      (clearing : Clearing root manifest top start done before)
      (copyable : Copyable top rest before) :
      Ends (rest.forM (removeEntry root (joinPath sdir (ascii "backup")))
        before) (fun _ after => Clearing root manifest top start manifest
          after) (fun _ _ => True) := by
    induction rest generalizing done before with
    | nil =>
        rw [List.append_nil] at whole
        exact whole ▸ clearing
    | cons entry rest induction =>
        refine Ends.bind (clearing.step ground straight ordered whole
          copyable) ?_
        rintro _ between ⟨still, copyableStill⟩
        exact induction (done ++ [entry]) between (by simp [← whole]) still
          copyableStill
  exact loop manifest [] now rfl clearing copyable

/-! ## Other paths -/

/-- Nothing that is not strictly below the root goes. -/
theorem Straight.outside_stays
    (straight : Straight root rootTop top manifest start)
    (exists_ : start.fs.node? loc ≠ none)
    (notBelow : ¬ StrictlyBelow rootTop loc) :
    Stays root manifest top start loc := by
  by_contra leaves
  obtain ⟨entry, member, taken⟩ := taken_of_not_stays exists_
    (straight.not_below notBelow) leaves
  obtain ⟨confined, rfl, -⟩ := straight.taken member taken
  exact notBelow (strictlyBelow_descend
    (straight.normal entry member confined).nonempty)

/-- A path whose end stays is sheltered. -/
theorem Straight.sheltered
    (straight : Straight root rootTop top manifest start)
    (names : Names (components path))
    (exists_ : start.fs.node? (descend rootTop (components path)) ≠ none)
    (stays : Stays root manifest top start
      (descend rootTop (components path))) :
    Sheltered root manifest top start (joinPath root path)
      (descend rootTop (components path).dropLast) := by
  have under := under_joinPath straight.rooted.nonempty names
  have stillThere {loc : Loc} {node : Node Content}
      (stays : Stays root manifest top start loc)
      (found : start.fs.node? loc = some node) :
      lookStays root manifest top start loc = some node := by
    rw [lookStays, if_pos stays, found]
  obtain ⟨links, within, walked⟩ := straight.rooted.walked
  have toRoot : Walk (lookStays root manifest top start)
      (baseOf start.cwd root) (dirFront root) rootTop links := by
    apply walked.grow
    intro loc node looked
    have notBelow : ¬ StrictlyBelow rootTop loc := by
      intro isBelow
      rw [lookAround_eq.1 isBelow] at looked
      cases looked
    rw [lookAround_eq.2 notBelow] at looked
    exact stillThere (straight.outside_stays (by simp [looked]) notBelow)
      looked
  have dirs (cut : List Name) (isCut : cut <+: (components path).dropLast) :
      IsDirIn (lookStays root manifest top start (descend rootTop cut)) := by
    have isFront := isCut.trans (List.dropLast_prefix _)
    have proper : cut ≠ components path := by
      rintro rfl
      have short := isCut.length_le
      have nonempty := List.length_pos_of_ne_nil names.nonempty
      rw [List.length_dropLast] at short
      omega
    obtain ⟨mode, found⟩ := FileSystem.isDir_iff.mp
      (FileSystem.isDir_of_cut exists_ isFront proper)
    exact isDirIn_iff.mpr ⟨mode, stillThere
      (stays.of_below (descend_suffix isFront)) found⟩
  have further := walk_dirs (fun comp member =>
    names.valid comp (List.dropLast_subset _ member)) dirs
  have isDropped : (components (joinPath root path)).dropLast =
      dirFront root ++ (components path).dropLast := by
    rw [under.split, List.dropLast_append_of_ne_nil names.nonempty]
  have isLast : (components (joinPath root path)).getLastD [] =
      (components path).getLastD [] := by
    rw [under.split]
    obtain ⟨front, last, isConcat⟩ :=
      (List.eq_nil_or_concat (components path)).resolve_left names.nonempty
    rw [isConcat, List.concat_eq_append, ← List.append_assoc,
      List.getLastD_concat, List.getLastD_concat]
  refine ⟨under.path_ne_nil names.nonempty, ⟨links, within, ?_⟩,
    dirs _ (List.prefix_refl _), ?_⟩
  · rw [under.base, isDropped]
    exact toRoot.append further
  · have notUp : (components path).getLastD [] ≠ dotDot :=
      names.last_valid.2.2.1
    rwa [isLast, entryLoc, if_neg names.last_valid.notDot, if_neg notUp,
      descend_dropLast names.nonempty]

/-- A path whose end does not stay leads nowhere afterwards. -/
theorem Clearing.lost
    (straight : Straight root rootTop top manifest start)
    (clearing : Clearing root manifest top start manifest now)
    (names : Names (components path))
    (plain : Plain start.fs rootTop (components path))
    (outside : ¬ StrictlyBelow top (descend rootTop (components path)))
    (exists_ : start.fs.node? (descend rootTop (components path)) ≠ none)
    (leaves : ¬ Stays root manifest top start
      (descend rootTop (components path))) (node : Node Content) :
    now.lstat (joinPath root path) ≠ .ok node := by
  obtain ⟨entry, member, taken⟩ :=
    taken_of_not_stays exists_ outside leaves
  have gone := clearing.cleared entry member _ taken leaves
  have stillPlain : Plain now.fs rootTop (components path) := by
    intro cut target isCut proper isLink
    have cutOutside : ¬ StrictlyBelow top (descend rootTop cut) := by
      rintro ⟨isBelow, differs⟩
      have longer := isBelow.trans (descend_suffix isCut)
      refine outside ⟨longer, ?_⟩
      intro same
      have between : descend rootTop cut <:+
          descend rootTop (components path) := descend_suffix isCut
      rw [same] at between
      exact differs (between.eq_of_length_le isBelow.length_le)
    rcases clearing.removing.nodes _ cutOutside with same | ⟨absent, -⟩
    · rw [FileSystem.leaf?, same] at isLink
      exact plain cut target isCut proper isLink
    · rw [FileSystem.leaf?_of_absent absent] at isLink
      cases isLink
  rw [ne_eq, (straight.rooted_of clearing.removing).lstat_eq_ok
    (under_joinPath straight.rooted.nonempty names) names stillPlain, gone]
  simp

end Straight

/-! ## The removal of a package -/

section Package

variable {root name : Bytes} {id : Nat} {rootTop top : Loc} {world : World}

theorem removePkg_clearing
    (ground : Ground root (txnStateDir root id) (world.db.pkgManifest name)
      top world.disk)
    (straight : Straight root rootTop top (world.db.pkgManifest name)
      world.disk)
    (quiet : world.disk.faults = []) :
    Ends (removePkg root name id world) (fun _ after =>
      Clearing root (world.db.pkgManifest name) top world.disk
        (world.db.pkgManifest name) after.disk) (fun _ _ => True) := by
  obtain ⟨removing, copyable⟩ := begun_copyable ground
  have initial : Clearing root (world.db.pkgManifest name) top world.disk []
      (finalState (mkdirs (backupDir root id) 493 world.disk)) :=
    ⟨removing, mkdirs_quiet _ 493 quiet, fun _ isDone => by cases isDone⟩
  have removed := removeEntries_clearing ground straight
    (pkgManifest_ordered world.db name) initial copyable
  exact (removePkg_ends trivial trivial removed).mono
    (fun _ _ clearing => clearing) (fun _ _ _ => trivial)

end Package

/-- The paths that the database records for other installed packages, and
what is there. -/
def OtherPath (root name : Bytes) (world : World) (path : Bytes)
    (node : Node Content) : Prop :=
  (∃ row ∈ world.db.tables.files, row.path = path ∧ row.name ≠ name ∧
    world.db.isInstalled row.name = true) ∧
  world.disk.lstat (joinPath root path) = .ok node

/-- Every path of another package that was there has its node. -/
def SparesOthers (root name : Bytes) (world after : World) : Prop :=
  ∀ path node, OtherPath root name world path node →
    after.disk.lstat (joinPath root path) = .ok node

/-- Nodes put one after the other into an empty file system. -/
def grow (nodes : List (Name × Loc × Node Content)) : FileSystem Content :=
  nodes.foldl (fun fs entry => fs.replace entry.1 entry.2.1 (some entry.2.2))
    (.bare Content)

/-- The way to the state directory of transaction 1, from the last name
on. -/
def txnLoc : Loc :=
  [ascii "txn-1", ascii "state", ascii "salt", ascii "lib", ascii "var"]

def packageNamed (name : String) : PackageRow :=
  ⟨ascii name, ascii "1", 1, ascii "any", [], [], [], [], 1, none, none⟩

def fileNamed (pkg path : String) (type : UInt8) : FileRow :=
  ⟨ascii pkg, ascii path, 493, 0, [], type, []⟩

/-- `tool` and `data` both record the directory `opt`, which holds a file of
`tool` and whatever else. -/
def optWorld (more : List (Name × Loc × Node Content)) : World where
  disk := ⟨grow ([
    (ascii "var", [], .dir 493),
    (ascii "lib", txnLoc.drop 4, .dir 493),
    (ascii "salt", txnLoc.drop 3, .dir 493),
    (ascii "state", txnLoc.drop 2, .dir 493),
    (ascii "txn-1", txnLoc.drop 1, .dir 493),
    (ascii "opt", [], .dir 493),
    (ascii "tool", [ascii "opt"], .file (.raw []) 493)] ++ more), [], []⟩
  db := { Db.empty with
    tables := { Tables.empty with
      packages := [packageNamed "tool", packageNamed "data"]
      files := [fileNamed "tool" "opt" 53, fileNamed "tool" "opt/tool" 48,
        fileNamed "data" "opt" 53] } }
  saved := none
  sqlFaults := []
  deleteFaults := []
  picks := []
  hookEnds := []

/-- With a file of the administrator in it, the directory stays. -/
def notesWorld : World :=
  optWorld [(ascii "notes", [ascii "opt"], .file (.raw []) 420)]

def toolManifest : Manifest :=
  notesWorld.db.pkgManifest (ascii "tool")

theorem toolManifest_eq : toolManifest =
    [Db.rowEntry (fileNamed "tool" "opt/tool" 48),
      Db.rowEntry (fileNamed "tool" "opt" 53)] := by
  decide +kernel

theorem notes_normal (entry : ManifestEntry)
    (member : entry ∈ toolManifest) : Names (components entry.path) := by
  rw [toolManifest_eq] at member
  rcases List.mem_pair.mp member with rfl | rfl
  · exact ⟨by decide +kernel, by decide +kernel⟩
  · exact ⟨by decide +kernel, by decide +kernel⟩

theorem notes_linkFree : notesWorld.disk.fs.LinkFree := by
  decide +kernel

theorem notes_ground : Ground [47] (txnStateDir [47] 1) toolManifest txnLoc
    notesWorld.disk := by
  have looks (loc : Loc) (member : loc ∈ txnLoc.tails) :
      lookStays [47] toolManifest txnLoc notesWorld.disk loc =
        some (.dir 493) := by
    revert loc
    decide +kernel
  have away (entry : ManifestEntry) (member : entry ∈ toolManifest) :
      ¬ ComesTo notesWorld.disk.fs.node? txnLoc []
        (removedNames [47] entry).dropLast := by
    rw [toolManifest_eq] at member
    have rootIsAway : ([] : Loc) ≠ txnLoc := by decide
    rcases List.mem_pair.mp member with rfl | rfl
    · have isWay : (removedNames [47] (Db.rowEntry
          (fileNamed "tool" "opt/tool" 48))).dropLast = [[], ascii "opt"] := by
        decide +kernel
      have isOpt : notesWorld.disk.fs.node? [ascii "opt"] =
          some (.dir 493) := by
        decide +kernel
      rw [isWay]
      exact ComesTo.not_dot rootIsAway (by decide) (ComesTo.not_entry
        rootIsAway (by decide) isOpt rfl (ComesTo.not_nil (by decide)))
    · have isWay : (removedNames [47] (Db.rowEntry
          (fileNamed "tool" "opt" 53))).dropLast = [[]] := by
        decide +kernel
      rw [isWay]
      exact ComesTo.not_dot rootIsAway (by decide)
        (ComesTo.not_nil rootIsAway)
  have isBase (entry : ManifestEntry) (member : entry ∈ toolManifest) :
      baseOf notesWorld.disk.cwd (joinPath [47] entry.path) = [] := by
    revert entry
    decide +kernel
  constructor
  · decide +kernel
  · have isFront : dirFront (txnStateDir [47] 1) = [] :: txnLoc.reverse := by
      decide +kernel
    have sdirBase : baseOf notesWorld.disk.cwd (txnStateDir [47] 1) = [] := by
      decide +kernel
    have dirs (cut : List Name) (isCut : cut <+: txnLoc.reverse) :
        IsDirIn (lookStays [47] toolManifest txnLoc notesWorld.disk
          (descend [] cut)) := by
      have isBelow : descend [] cut <:+ txnLoc := by
        have isSuffix : descend [] cut <:+ descend [] txnLoc.reverse :=
          descend_suffix isCut
        simpa [descend] using isSuffix
      rw [looks _ ((List.mem_tails _ _).mpr isBelow)]
      rfl
    refine ⟨0, Nat.zero_le _, ?_⟩
    rw [isFront, sdirBase]
    have further := walk_dirs (by decide +kernel) dirs
    exact .dot (dirs [] List.nil_prefix) (by decide) further
  · rw [looks _ (by decide)]
    rfl
  · intro entry member _ isBelow
    rw [isBase entry member] at isBelow
    exact absurd (List.suffix_nil.mp isBelow) (by decide)
  · intro entry member _
    rw [isBase entry member]
    exact away entry member
  · intro entry member _ _
    exact notes_normal entry member
  · exact fun _ _ _ _ => .of_linkFree notes_linkFree _ _

theorem notes_straight : Straight [47] [] txnLoc toolManifest
    notesWorld.disk := by
  refine ⟨?_, List.nil_suffix, fun entry member _ =>
    notes_normal entry member, fun _ _ _ => .of_linkFree notes_linkFree _ _⟩
  refine ⟨by decide, ⟨0, Nat.zero_le _, ?_⟩, by decide +kernel⟩
  have isFront : dirFront [47] = [[]] := by decide
  have isBase : baseOf notesWorld.disk.cwd [47] = [] := by decide +kernel
  rw [isFront, isBase]
  exact .dot (by decide +kernel) (by decide) (.nil _)

end SaltOS.Txn
