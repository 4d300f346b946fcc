import SaltOS.Lib.ComesTo
import SaltOS.Txn.Backup

/-!
# What a removal leaves alone

`salt_remove_pkg` takes away what the paths of the package lead to, and looks
at no other package.  A path keeps its node when its way passes only entries
that stay: something at or below them is the place of no path of the package.
-/

namespace SaltOS.Txn

open Lib Disk Util Pkg

/-! ## The copies -/

section Copies

variable {γ : Type} {disk before middle after : Disk γ} {path root : Bytes}
  {top : Loc} {comps other : List Name}

/-- Below a directory, one entry may have a new node, and directories were
added. -/
structure Stores (top : Loc) (comps : List Name) (before after : Disk γ) :
    Prop where
  cwd : after.cwd = before.cwd
  outside : ∀ loc, ¬ StrictlyBelow top loc →
    after.fs.node? loc = before.fs.node? loc
  nodes : ∀ loc, loc ≠ descend top comps →
    after.fs.node? loc = before.fs.node? loc ∨
      before.fs.node? loc = none ∧ IsDirIn (after.fs.node? loc)

theorem Stores.refl (disk : Disk γ) : Stores top comps disk disk :=
  ⟨rfl, fun _ _ => rfl, fun _ _ => .inl rfl⟩

theorem Stores.of_grown (grown : GrownBelow top before after) :
    Stores top comps before after :=
  ⟨grown.cwd, fun _ => grown.outside, fun loc _ =>
    (grown.nodes loc).imp_right fun added => ⟨added.1, added.2.1⟩⟩

theorem Stores.of_onlyEntry (names : Names comps)
    (only : OnlyEntry top comps before after) :
    Stores top comps before after := by
  refine ⟨only.cwd, fun loc away => only.nodes loc ?_,
    fun loc differs => .inl (only.nodes loc differs)⟩
  rintro rfl
  exact away (strictlyBelow_descend names.nonempty)

theorem Stores.trans (first : Stores top comps before middle)
    (second : Stores top comps middle after) :
    Stores top comps before after := by
  refine ⟨second.cwd.trans first.cwd, fun loc away =>
    (second.outside loc away).trans (first.outside loc away), ?_⟩
  intro loc differs
  rcases first.nodes loc differs with same | ⟨absent, isDir⟩
  · rw [← same]
    exact second.nodes loc differs
  · rcases second.nodes loc differs with same | ⟨gone, -⟩
    · exact .inr ⟨absent, same ▸ isDir⟩
    · rw [gone] at isDir
      cases isDir

theorem Stores.rooted (stores : Stores top comps before after)
    (rooted : Rooted before root top) : Rooted after root top :=
  rooted.of_outside stores.cwd stores.outside

/-- A path stays plain unless it leads on from the entry. -/
theorem Stores.plain (stores : Stores top comps before after)
    (apart : comps <+: other → comps = other)
    (plain : Plain before.fs top other) : Plain after.fs top other := by
  intro cut target isCut proper isLink
  have differs : descend top cut ≠ descend top comps := by
    intro same
    have isComps := descend_inj.mp same
    subst isComps
    exact proper (apart isCut)
  rcases stores.nodes _ differs with same | ⟨-, isDir⟩
  · rw [FileSystem.leaf?, same] at isLink
    exact plain cut target isCut proper isLink
  · rw [FileSystem.leaf?_of_isDir isDir] at isLink
    cases isLink

theorem symlink_stores {target : Name} (rooted : Rooted disk root top)
    (under : Under root path comps) (names : Names comps)
    (plain : Plain disk.fs top comps) :
    Stores top comps disk (finalState (Disk.symlink target path disk)) := by
  apply endsIn_iff.mp
  refine call_ends.endsIn ?_ ?_
  · rintro _ _ ⟨fs, planned, rfl⟩
    obtain ⟨parent, last, replaces, -⟩ := symlinkPlan_ok planned
    exact .of_onlyEntry names
      (onlyEntry_of_replaces rooted under names plain replaces).1
  · rintro _ _ ⟨rfl, -⟩
    exact ⟨rfl, fun _ _ => rfl, fun _ _ => .inl rfl⟩

theorem writeFile_stores {content : γ} {mode : Nat}
    (rooted : Rooted disk root top) (under : Under root path comps)
    (names : Names comps) (plain : Plain disk.fs top comps) :
    EndsIn (writeFile path content mode disk) (Stores top comps disk) := by
  unfold writeFile
  refine Ends.through (fun _ now => GrownBelow top disk now) ?_ ?_
  · have made := makeDirname_grown rooted under names plain
    exact (endsIn_iff.mpr made).mono (fun _ _ grown => grown)
      (fun _ _ grown => .of_grown grown)
  rintro _ ready grown
  refine Ends.through (fun _ now => GrownBelow top disk now) ?_ ?_
  · have temporary : EndsIn (Disk.mkstemp path ready)
        (fun now => GrownBelow top disk now) := by
      refine call_ends.endsIn ?_ ?_
      · rintro _ _ ⟨fs, planned, rfl⟩
        rw [mkstempPlan_ok planned]
        exact ⟨grown.cwd, grown.nodes⟩
      · rintro _ _ ⟨rfl, _⟩
        exact ⟨grown.cwd, grown.nodes⟩
    exact (checked_ends temporary).mono (fun _ _ still => still)
      (fun _ _ still => .of_grown still)
  rintro _ now still
  refine checked_ends (call_ends.endsIn ?_ ?_)
  · rintro _ _ ⟨fs, planned, rfl⟩
    obtain ⟨parent, last, replaces, -⟩ := renamePlan_ok planned
    obtain ⟨only, -⟩ := onlyEntry_of_replaces (still.rooted rooted) under
      names (still.plain plain) replaces
    exact (Stores.of_grown still).trans (.of_onlyEntry names only)
  · rintro _ _ ⟨rfl, _⟩
    exact .of_grown ⟨still.cwd, still.nodes⟩

/-- A call that removes an entry leaves the others. -/
theorem call_fewer {plan : Disk γ → Except Errno (FileSystem γ)}
    (removes : ∀ fs, plan disk = .ok fs → ∃ parent last,
      disk.fs.Replaceable last parent ∧
        fs = disk.fs.replace last parent none) (loc : Loc) :
    (finalState (Disk.call plan disk)).fs.node? loc = disk.fs.node? loc ∨
      (finalState (Disk.call plan disk)).fs.node? loc = none := by
  have ends : EndsIn (Disk.call plan disk) (fun after =>
      after.fs.node? loc = disk.fs.node? loc ∨
        after.fs.node? loc = none) := by
    refine call_ends.endsIn ?_ ?_
    · rintro _ _ ⟨fs, planned, rfl⟩
      obtain ⟨parent, last, replaceable, rfl⟩ := removes fs planned
      rw [Disk.tick, FileSystem.node?_replace replaceable]
      split
      · exact .inr rfl
      · exact .inl rfl
    · rintro _ _ ⟨rfl, -⟩
      exact .inl rfl
  exact endsIn_iff.mp ends

theorem rmdir_fewer (path : Bytes) (disk : Disk γ) (loc : Loc) :
    (finalState (Disk.rmdir path disk)).fs.node? loc = disk.fs.node? loc ∨
      (finalState (Disk.rmdir path disk)).fs.node? loc = none := by
  apply call_fewer
  intro fs planned
  obtain ⟨parent, last, ⟨-, replaceable, same⟩, -⟩ := rmdirPlan_ok planned
  exact ⟨parent, last, replaceable, same⟩

theorem unlink_fewer (path : Bytes) (disk : Disk γ) (loc : Loc) :
    (finalState (Disk.unlink path disk)).fs.node? loc = disk.fs.node? loc ∨
      (finalState (Disk.unlink path disk)).fs.node? loc = none := by
  apply call_fewer
  intro fs planned
  obtain ⟨parent, last, ⟨-, replaceable, same⟩, -⟩ := unlinkPlan_ok planned
  exact ⟨parent, last, replaceable, same⟩

end Copies

section Backup

variable {disk : Disk Content} {root base src dst rel : Bytes} {top : Loc}
  {comps : List Name}

theorem copyLink_stores (rooted : Rooted disk base top)
    (under : Under base dst comps) (names : Names comps)
    (plain : Plain disk.fs top comps) :
    Stores top comps disk (finalState (copyLink src dst disk)) := by
  cases found : disk.readlink src with
  | error errno =>
      have failed : copyLink src dst disk = .error ⟨.io, none⟩ disk := by
        unfold copyLink
        refine (bind_run rfl).trans ?_
        rw [found]
        rfl
      rw [failed]
      exact .refl disk
  | ok target =>
      rw [copyLink_eq found]
      have unlinked := unlink_onlyEntry rooted under names plain
      have first := Stores.of_onlyEntry names unlinked
      have linked := @symlink_stores _ _ dst base top comps
        (linkTarget target) (first.rooted rooted) under names
        (unlinked.plain plain)
      have whole := first.trans linked
      cases outcome : Disk.symlink (linkTarget target) dst
          (finalState (Disk.unlink dst disk)) with
      | ok _ made => rwa [outcome] at whole
      | error errno kept => rwa [outcome] at whole

theorem copyFile_stores (rooted : Rooted disk base top)
    (under : Under base dst comps) (names : Names comps)
    (plain : Plain disk.fs top comps) :
    EndsIn (copyFile src dst disk) (Stores top comps disk) := by
  unfold copyFile
  refine Ends.through (fun _ now => now = disk) (Ends.attempt ?_) ?_
  · unfold readFile
    refine Ends.bindOk rfl ?_
    cases disk.contents src <;> rfl
  rintro outcome _ rfl
  cases outcome with
  | error failure => exact Ends.throw (.refl _)
  | ok content =>
      refine Ends.bindOk rfl ?_
      exact writeFile_stores rooted under names plain

/-- Whatever becomes of a backup, it stays at its entry. -/
theorem backupFile_stores (rooted : Rooted disk base top)
    (under : Under base (joinPath dst rel) comps) (names : Names comps)
    (plain : Plain disk.fs top comps) :
    EndsIn (backupFile root dst rel disk) (Stores top comps disk) := by
  unfold backupFile
  refine Ends.bindOk rfl ?_
  cases found : disk.lstat (joinPath root rel) with
  | error errno => exact .refl disk
  | ok node =>
      have grown := makeParent_grown rooted under names plain
      have stillRooted := grown.rooted rooted
      have stillPlain := grown.plain plain
      have made : makeParent (joinPath dst rel) disk =
          .ok () (finalState (makeParent (joinPath dst rel) disk)) := rfl
      refine Ends.bindOk made ?_
      generalize finalState (makeParent (joinPath dst rel) disk) = ready at *
      refine Ends.through (fun _ now => Stores top comps disk now)
        (Ends.attempt ?_) ?_
      · have stored : EndsIn (backupNode (joinPath root rel)
            (joinPath dst rel) node ready) (Stores top comps ready) := by
          cases node with
          | dir mode => exact .refl ready
          | file content mode =>
              exact copyFile_stores stillRooted under names stillPlain
          | symlink target =>
              exact endsIn_iff.mpr
                (copyLink_stores stillRooted under names stillPlain)
        have first : Stores top comps disk ready := .of_grown grown
        exact stored.mono (fun _ _ => first.trans) (fun _ _ => first.trans)
      · intro outcome now stores
        cases outcome with
        | ok _ => exact stores
        | error failure => exact Ends.throw stores

end Backup

/-! ## What stays -/

/-- The names by which a removal finds what a path of the package leads to:
`rmdir` takes no notice of trailing slashes. -/
def removedNames (root : Bytes) (entry : ManifestEntry) : List Name :=
  if entry.typeflag = Tar.typeDir then trimmed (joinPath root entry.path)
  else components (joinPath root entry.path)

/-- What a path of the package leads to, when it is of the kind that a
removal takes away there. -/
def takenLoc (root : Bytes) (disk : Disk Content) (entry : ManifestEntry) :
    Option Loc :=
  if pathIsConfined entry.path then
    match disk.slot (joinPath root entry.path) (removedNames root entry) with
    | .error _ => none
    | .ok (parent, last) =>
        match disk.fs.node? (last :: parent) with
        | none => none
        | some node =>
            if node.isDir = decide (entry.typeflag = Tar.typeDir) then
              some (last :: parent)
            else none
  else none

/-- Outside the state directory of the transaction, something at or below the
location is the place of no path of the package. -/
def Stays (root : Bytes) (manifest : Manifest) (top : Loc)
    (disk : Disk Content) (loc : Loc) : Prop :=
  ∃ below ∈ disk.fs.nodes.keys, loc <:+ below ∧ ¬ StrictlyBelow top below ∧
    ∀ entry ∈ manifest, takenLoc root disk entry ≠ some below

instance (root : Bytes) (manifest : Manifest) (top : Loc)
    (disk : Disk Content) (loc : Loc) :
    Decidable (Stays root manifest top disk loc) :=
  inferInstanceAs (Decidable (∃ below ∈ disk.fs.nodes.keys, _))

/-- The lookup that sees only what stays. -/
def lookStays (root : Bytes) (manifest : Manifest) (top : Loc)
    (disk : Disk Content) (loc : Loc) : Option (Node Content) :=
  if Stays root manifest top disk loc then disk.fs.node? loc else none

/-- The way of a path passes only what stays, and so does its end. -/
structure Sheltered (root : Bytes) (manifest : Manifest) (top : Loc)
    (disk : Disk Content) (path : Bytes) (parent : Loc) : Prop where
  nonempty : path ≠ []
  walked : ∃ links, links ≤ maxSymlinks ∧
    Walk (lookStays root manifest top disk) (baseOf disk.cwd path)
      (components path).dropLast parent links
  isDir : IsDirIn (lookStays root manifest top disk parent)
  stays : Stays root manifest top disk
    (entryLoc parent ((components path).getLastD []))

section Frame

variable {root sdir : Bytes} {manifest rest : Manifest} {entry : ManifestEntry}
  {top loc parent : Loc} {start now after : Disk Content}

/-- Some of what the paths of the package lead to has gone. -/
structure Removing (root : Bytes) (manifest : Manifest) (top : Loc)
    (start now : Disk Content) : Prop where
  cwd : now.cwd = start.cwd
  nodes : ∀ loc, ¬ StrictlyBelow top loc →
    now.fs.node? loc = start.fs.node? loc ∨
      now.fs.node? loc = none ∧
        ∃ entry ∈ manifest, takenLoc root start entry = some loc

theorem Removing.refl (disk : Disk Content) :
    Removing root manifest top disk disk :=
  ⟨rfl, fun _ _ => .inl rfl⟩

theorem Stays.outside (stays : Stays root manifest top start loc) :
    ¬ StrictlyBelow top loc := by
  obtain ⟨below, -, isBelow, outside, -⟩ := stays
  intro strictly
  refine outside ⟨strictly.1.trans isBelow, ?_⟩
  rintro rfl
  exact strictly.2 (isBelow.eq_of_length_le strictly.1.length_le)

/-- What stays has stayed. -/
theorem Removing.stays (removing : Removing root manifest top start now)
    (stays : Stays root manifest top start loc) :
    now.fs.node? loc = start.fs.node? loc := by
  obtain ⟨below, member, isBelow, outside, untaken⟩ := stays
  have exists_ : start.fs.node? below ≠ none :=
    FileSystem.mem_nodes_iff.mp (AList.mem_keys.mpr member)
  have same : now.fs.node? below = start.fs.node? below := by
    rcases removing.nodes below outside with same | ⟨-, entry, isEntry, taken⟩
    · exact same
    · exact absurd taken (untaken entry isEntry)
  rcases removing.nodes loc (Stays.outside
    ⟨below, member, isBelow, outside, untaken⟩) with unchanged | ⟨gone, -⟩
  · exact unchanged
  · by_cases isEnd : loc = below
    · rw [isEnd, same]
    · obtain ⟨mode, found⟩ := FileSystem.isDir_iff.mp
        (FileSystem.isDir_of_above (same ▸ exists_) isBelow isEnd)
      rw [gone] at found
      cases found

theorem lookStays_some {node : Node Content}
    (found : lookStays root manifest top start loc = some node) :
    Stays root manifest top start loc ∧ start.fs.node? loc = some node := by
  unfold lookStays at found
  split at found
  · rename_i stays
    exact ⟨stays, found⟩
  · cases found

theorem Removing.look {node : Node Content}
    (removing : Removing root manifest top start now)
    (found : lookStays root manifest top start loc = some node) :
    ¬ StrictlyBelow top loc ∧ now.fs.node? loc = some node := by
  obtain ⟨stays, there⟩ := lookStays_some found
  exact ⟨stays.outside, (removing.stays stays).trans there⟩

/-- A sheltered path leads to the same node. -/
theorem Sheltered.lstat {path : Bytes}
    (sheltered : Sheltered root manifest top start path parent)
    (removing : Removing root manifest top start now) :
    now.lstat path = start.lstat path := by
  have slotIn {disk : Disk Content} (sameCwd : disk.cwd = start.cwd)
      (more : ∀ loc node, lookStays root manifest top start loc = some node →
        disk.fs.node? loc = some node) :
      disk.slot path (components path) =
        .ok (parent, (components path).getLastD []) := by
    obtain ⟨links, within, walked⟩ := sheltered.walked
    obtain ⟨mode, found⟩ := isDirIn_iff.mp sheltered.isDir
    refine slot_of_walk within ?_ (isDirIn_iff.mpr ⟨mode, more _ _ found⟩)
    rw [sameCwd]
    exact walked.grow more
  have slotNow := slotIn removing.cwd fun _ _ found => (removing.look found).2
  have slotStart := slotIn rfl fun _ _ found => (lookStays_some found).2
  unfold Disk.lstat
  rw [if_neg sheltered.nonempty, if_neg sheltered.nonempty, slotNow, slotStart]
  dsimp only
  rw [removing.stays sheltered.stays]

/-- The state directory of the transaction is there and stays, the paths of
the package lead past it, and the copies go to places of their own in it. -/
structure Ground (root sdir : Bytes) (manifest : Manifest) (top : Loc)
    (disk : Disk Content) : Prop where
  nonempty : sdir ≠ []
  walked : ∃ links, links ≤ maxSymlinks ∧
    Walk (lookStays root manifest top disk) (baseOf disk.cwd sdir)
      (dirFront sdir) top links
  isDir : IsDirIn (lookStays root manifest top disk top)
  rootAway : ∀ entry ∈ manifest, pathIsConfined entry.path = true →
    ¬ top <:+ baseOf disk.cwd (joinPath root entry.path)
  past : ∀ entry ∈ manifest, pathIsConfined entry.path = true →
    ¬ ComesTo disk.fs.node? top (baseOf disk.cwd (joinPath root entry.path))
      (removedNames root entry).dropLast
  normal : ∀ entry ∈ manifest, pathIsConfined entry.path = true →
    entry.typeflag ≠ Tar.typeDir → Names (components entry.path)
  plain : ∀ entry ∈ manifest, pathIsConfined entry.path = true →
    entry.typeflag ≠ Tar.typeDir →
      Plain disk.fs top (ascii "backup" :: components entry.path)

theorem Ground.topIsDir (ground : Ground root sdir manifest top start) :
    start.fs.IsDir top := by
  obtain ⟨mode, found⟩ := isDirIn_iff.mp ground.isDir
  exact isDirIn_iff.mpr ⟨mode, (lookStays_some found).2⟩

theorem Ground.rooted (ground : Ground root sdir manifest top start)
    (removing : Removing root manifest top start now) :
    Rooted now sdir top := by
  obtain ⟨links, within, walked⟩ := ground.walked
  obtain ⟨mode, found⟩ := isDirIn_iff.mp ground.isDir
  refine ⟨ground.nonempty, ⟨links, within, ?_⟩,
    isDirIn_iff.mpr ⟨mode, (removing.look found).2⟩⟩
  rw [removing.cwd]
  apply walked.grow
  intro loc node looked
  obtain ⟨outside, there⟩ := removing.look looked
  rwa [lookAround_eq.2 outside]

/-- What a path leads to at its turn is what it led to at the start. -/
theorem Ground.takes (ground : Ground root sdir manifest top start)
    (removing : Removing root manifest top start now)
    (member : entry ∈ manifest) (confined : pathIsConfined entry.path = true)
    {last : Name} {node : Node Content}
    (isSlot : now.slot (joinPath root entry.path) (removedNames root entry) =
      .ok (parent, last))
    (found : now.fs.node? (last :: parent) = some node)
    (isKind : node.isDir = decide (entry.typeflag = Tar.typeDir)) :
    takenLoc root start entry = some (last :: parent) ∧
      ¬ StrictlyBelow top (last :: parent) := by
  obtain ⟨⟨links, within, walked⟩, isDir, isLast⟩ := slot_eq_ok isSlot
  have same (loc : Loc) (node : Node Content) (away : ¬ StrictlyBelow top loc)
      (there : now.fs.node? loc = some node) :
      start.fs.node? loc = some node := by
    rcases removing.nodes loc away with unchanged | ⟨gone, -⟩
    · exact unchanged ▸ there
    · rw [gone] at there
      cases there
  rw [removing.cwd] at walked
  obtain ⟨walkedStart, away⟩ := walked.of_avoids ground.topIsDir
    (fun loc node notAt => same loc node fun strictly => notAt strictly.1)
    (ground.past entry member confined)
    (ground.rootAway entry member confined)
  have outside : ¬ StrictlyBelow top (last :: parent) := by
    intro strictly
    rcases List.suffix_cons_iff.mp strictly.1 with isTop | above
    · exact strictly.2 isTop.symm
    · exact away above
  obtain ⟨mode, isParent⟩ := FileSystem.isDir_iff.mp isDir
  have parentIsDir : start.fs.IsDir parent := FileSystem.isDir_iff.mpr
    ⟨mode, same _ _ (fun strictly => away strictly.1) isParent⟩
  refine ⟨?_, outside⟩
  unfold takenLoc
  rw [if_pos confined, slot_of_walk within walkedStart parentIsDir, isLast]
  dsimp only
  rw [same _ _ outside found]
  dsimp only
  rw [if_pos isKind]

/-- One of the locations is removed. -/
theorem Removing.taken (removing : Removing root manifest top start now)
    (member : entry ∈ manifest) {last : Name}
    (taken : takenLoc root start entry = some (last :: parent))
    (replaceable : now.fs.Replaceable last parent) :
    Removing root manifest top start
      (now.tick (now.fs.replace last parent none)) := by
  refine ⟨removing.cwd, fun loc outside => ?_⟩
  rw [Disk.tick, FileSystem.node?_replace replaceable]
  by_cases here : loc = last :: parent
  · rw [if_pos here, here]
    exact .inr ⟨rfl, entry, member, taken⟩
  · rw [if_neg here]
    exact removing.nodes loc outside

theorem Removing.stores {comps : List Name}
    (removing : Removing root manifest top start now)
    (stores : Stores top comps now after) :
    Removing root manifest top start after := by
  refine ⟨stores.cwd.trans removing.cwd, fun loc outside => ?_⟩
  rw [stores.outside loc outside]
  exact removing.nodes loc outside

/-- Removing a directory of the package. -/
theorem rmdir_removing (ground : Ground root sdir manifest top start)
    (removing : Removing root manifest top start now)
    (member : entry ∈ manifest) (confined : pathIsConfined entry.path = true)
    (isDirEntry : entry.typeflag = Tar.typeDir) :
    Removing root manifest top start
      (finalState (Disk.rmdir (joinPath root entry.path) now)) := by
  apply endsIn_iff.mp
  refine call_ends.endsIn ?_ ?_
  · rintro _ _ ⟨fs, planned, rfl⟩
    obtain ⟨parent, last, ⟨isSlot, replaceable, rfl⟩, isDir⟩ :=
      rmdirPlan_ok planned
    obtain ⟨mode, found⟩ := FileSystem.isDir_iff.mp isDir
    have isNames : removedNames root entry =
        trimmed (joinPath root entry.path) := if_pos isDirEntry
    rw [← isNames] at isSlot
    have takes := ground.takes removing member confined isSlot found
      (by simp [Node.isDir, isDirEntry])
    exact removing.taken member takes.1 replaceable
  · rintro _ _ ⟨rfl, -⟩
    exact ⟨removing.cwd, removing.nodes⟩

/-- Unlinking a file or link of the package. -/
theorem unlink_removing (ground : Ground root sdir manifest top start)
    (removing : Removing root manifest top start now)
    (member : entry ∈ manifest) (confined : pathIsConfined entry.path = true)
    (notDirEntry : entry.typeflag ≠ Tar.typeDir) :
    Removing root manifest top start
      (finalState (Disk.unlink (joinPath root entry.path) now)) := by
  apply endsIn_iff.mp
  refine call_ends.endsIn ?_ ?_
  · rintro _ _ ⟨fs, planned, rfl⟩
    obtain ⟨parent, last, ⟨isSlot, replaceable, rfl⟩, node, found, isLeaf⟩ :=
      unlinkPlan_ok planned
    have isNames : removedNames root entry =
        components (joinPath root entry.path) := if_neg notDirEntry
    rw [← isNames] at isSlot
    have takes := ground.takes removing member confined isSlot found
      (by simp [isLeaf, notDirEntry])
    exact removing.taken member takes.1 replaceable
  · rintro _ _ ⟨rfl, -⟩
    exact ⟨removing.cwd, removing.nodes⟩

/-! ## The whole manifest -/

/-- A path that leads on from another one has more characters. -/
theorem components_eq_of_charLength {path longer : Bytes}
    (isFront : components path <+: components longer)
    (short : Db.charLength longer ≤ Db.charLength path) :
    components path = components longer := by
  obtain ⟨rest, whole⟩ := isFront
  by_cases nil : rest = []
  · rw [← whole, nil, List.append_nil]
  · have isLonger := joinSlash_append (components_ne_nil path) nil
    rw [whole, joinSlash_components, joinSlash_components] at isLonger
    rw [isLonger, Db.charLength, Db.charLength, List.countP_append,
      List.countP_cons_of_pos (by decide)] at short
    omega

/-- The copies that are still to be made go to places of their own. -/
def Copyable (top : Loc) (rest : Manifest) (now : Disk Content) : Prop :=
  ∀ entry ∈ rest, pathIsConfined entry.path = true →
    entry.typeflag ≠ Tar.typeDir →
      Plain now.fs top (ascii "backup" :: components entry.path)

theorem Copyable.fewer (copyable : Copyable top rest now)
    (fewer : ∀ loc, after.fs.node? loc = now.fs.node? loc ∨
      after.fs.node? loc = none) : Copyable top rest after := by
  intro entry member confined notDir cut target isCut proper isLink
  rcases fewer (descend top cut) with same | gone
  · rw [FileSystem.leaf?, same] at isLink
    exact copyable entry member confined notDir cut target isCut proper isLink
  · rw [FileSystem.leaf?_of_absent gone] at isLink
    cases isLink

theorem Copyable.stores (copyable : Copyable top rest now) {path : Bytes}
    (stores : Stores top (ascii "backup" :: components path) now after)
    (shorter : ∀ entry ∈ rest,
      Db.charLength entry.path ≤ Db.charLength path) :
    Copyable top rest after := by
  intro entry member confined notDir
  refine stores.plain ?_ (copyable entry member confined notDir)
  intro isFront
  rw [List.cons_prefix_cons] at isFront
  rw [components_eq_of_charLength isFront.2 (shorter entry member)]

theorem validName_backup : ValidName (ascii "backup") := by
  decide +kernel

theorem names_backup {path : Bytes} (names : Names (components path)) :
    Names (ascii "backup" :: components path) := by
  refine ⟨List.cons_ne_nil _ _, fun comp member => ?_⟩
  rcases List.mem_cons.mp member with rfl | inPath
  · exact validName_backup
  · exact names.valid comp inPath

theorem under_backup {path : Bytes} (nonempty : sdir ≠ [])
    (names : Names (components path)) :
    Under sdir (joinPath (joinPath sdir (ascii "backup")) path)
      (ascii "backup" :: components path) := by
  have isName := components_of_valid validName_backup
  have single : Names (components (ascii "backup")) := by
    rw [isName]
    exact ⟨List.cons_ne_nil _ _, by simpa using validName_backup⟩
  obtain ⟨pathNonempty, relative⟩ := names_relative names
  have below : Under sdir (joinPath sdir (ascii "backup"))
      (components (ascii "backup")) :=
    Under.joinPath nonempty validName_backup.1 (by decide)
  have joined := below.join single pathNonempty relative
  rwa [isName] at joined

/-- Outside the state directory nothing new is there. -/
def Fewer (top : Loc) (before after : Disk Content) : Prop :=
  ∀ loc, ¬ StrictlyBelow top loc →
    after.fs.node? loc = before.fs.node? loc ∨ after.fs.node? loc = none

/-- Removing one path of a package. -/
theorem removeEntry_ends (ground : Ground root sdir manifest top start)
    (removing : Removing root manifest top start now)
    (member : entry ∈ manifest) (copyable : Copyable top (entry :: rest) now)
    (shorter : ∀ other ∈ rest,
      Db.charLength other.path ≤ Db.charLength entry.path) :
    Ends (removeEntry root (joinPath sdir (ascii "backup")) entry now)
      (fun _ after => Removing root manifest top start after ∧
        Copyable top rest after ∧ Fewer top now after)
      (fun _ after => Removing root manifest top start after) := by
  have copyableRest : Copyable top rest now := fun other isLater =>
    copyable other (List.mem_cons_of_mem _ isLater)
  unfold removeEntry
  refine Ends.ite (fun confined => Ends.ite (fun isDir => ?_)
    (fun notDir => ?_))
    (fun _ => ⟨removing, copyableRest, fun _ _ => .inl rfl⟩)
  · exact ⟨rmdir_removing ground removing member confined isDir,
      copyableRest.fewer (rmdir_fewer _ _),
      fun loc _ => rmdir_fewer _ now loc⟩
  · have names := ground.normal entry member confined notDir
    have plain := copyable entry List.mem_cons_self confined notDir
    have stored : EndsIn (backupFile root (joinPath sdir (ascii "backup"))
        entry.path now)
        (Stores top (ascii "backup" :: components entry.path) now) :=
      backupFile_stores (ground.rooted removing)
        (under_backup ground.nonempty names) (names_backup names) plain
    unfold takeAway
    refine Ends.bind (stored.mono (fun _ _ stores => stores)
      (fun _ _ stores => removing.stores stores)) ?_
    intro _ between stores
    have still := removing.stores stores
    have copyableStill := copyableRest.stores stores shorter
    refine ⟨unlink_removing ground still member confined notDir,
      copyableStill.fewer (unlink_fewer _ _), fun loc outside => ?_⟩
    rw [← stores.outside loc outside]
    exact unlink_fewer _ between loc

/-- Removing the paths of a package, from the longest on. -/
theorem removeEntries_removing (ground : Ground root sdir manifest top start)
    (ordered : manifest.Pairwise fun first second =>
      Db.charLength second.path ≤ Db.charLength first.path)
    (removing : Removing root manifest top start now)
    (copyable : Copyable top manifest now) :
    EndsIn (manifest.forM (removeEntry root (joinPath sdir (ascii "backup")))
      now) (Removing root manifest top start) := by
  have loop (rest : Manifest) (isRest : rest <:+ manifest)
      (before : Disk Content)
      (removing : Removing root manifest top start before)
      (copyable : Copyable top rest before) :
      EndsIn (rest.forM (removeEntry root (joinPath sdir (ascii "backup")))
        before) (Removing root manifest top start) := by
    induction rest generalizing before with
    | nil => exact removing
    | cons entry rest induction =>
        have member : entry ∈ manifest := isRest.subset List.mem_cons_self
        have shorter := (List.pairwise_cons.mp
          (ordered.sublist isRest.sublist)).1
        refine Ends.bind (removeEntry_ends ground removing member copyable
          shorter) ?_
        rintro _ between ⟨still, copyableStill, -⟩
        exact induction ((List.suffix_cons _ _).trans isRest) between still
          copyableStill
  exact loop manifest (List.suffix_refl _) now removing copyable

end Frame

/-! ## The removal of a package -/

theorem forM_onDisk {β : Type} (items : List β)
    (body : β → DiskIo Unit) (world : World) :
    (items.forM fun item => onDisk (body item)) world =
      onDisk (items.forM body) world := by
  induction items generalizing world with
  | nil => rfl
  | cons item items induction =>
      change EStateM.bind (onDisk (body item))
          (fun _ => items.forM fun item => onDisk (body item)) world =
        onDisk (EStateM.bind (body item) fun _ => items.forM body) world
      unfold EStateM.bind
      simp only [induction]
      unfold onDisk
      dsimp only
      cases body item world.disk <;> rfl

/-- The program leaves the disk alone, however it ends. -/
def DiskKept (program : Io Unit) : Prop :=
  ∀ world, EndsIn (program world) fun after => after.disk = world.disk

theorem DiskKept.bind {first second : Io Unit} (firstKept : DiskKept first)
    (secondKept : DiskKept second) :
    DiskKept (do first; second) := by
  intro world
  refine Ends.bind (firstKept world) ?_
  intro _ between same
  have later := secondKept between
  rwa [same] at later

theorem deleteFrom_diskKept (change : Tables → Tables) :
    DiskKept (Db.deleteFrom change) := by
  intro world
  unfold Db.deleteFrom
  split <;> exact rfl

theorem runHookIf_diskKept (body : Option Bytes) (hook : Hook)
    (pkg : Bytes) : DiskKept (runHookIf body hook pkg) := by
  intro world
  unfold runHookIf
  split
  · apply Ends.bindOk rfl
    apply Ends.bindOk rfl
    cases hookResult hook pkg (world.hookEnds.head?.getD (.exited 0)) <;>
      exact rfl
  · exact rfl

theorem recordRemove_diskKept (name : Bytes) :
    DiskKept (Db.recordRemove name) :=
  .bind (deleteFrom_diskKept _) <| .bind (deleteFrom_diskKept _) <|
    .bind (deleteFrom_diskKept _) <| .bind (deleteFrom_diskKept _) <|
      fun _ => Sql.update_disk _ _ _

theorem pkgManifest_ordered (db : Db) (name : Bytes) :
    (db.pkgManifest name).Pairwise fun first second =>
      Db.charLength second.path ≤ Db.charLength first.path := by
  have total : Std.Total fun first second : FileRow =>
      Db.charLength second.path ≤ Db.charLength first.path :=
    ⟨fun first second => Nat.le_total _ _⟩
  have transitive : IsTrans FileRow fun first second =>
      Db.charLength second.path ≤ Db.charLength first.path :=
    ⟨fun _ _ _ less lesser => lesser.trans less⟩
  unfold Db.pkgManifest
  rw [List.pairwise_map]
  exact List.pairwise_insertionSort _ _

section Package

variable {root name : Bytes} {id : Nat} {top : Loc} {world : World}

/-- Making the backup directory changes nothing but what is below the state
directory. -/
theorem begun_grown {manifest : Manifest} {disk : Disk Content}
    (ground : Ground root (txnStateDir root id) manifest top disk) :
    GrownBelow top disk
      (finalState (mkdirs (backupDir root id) 493 disk)) := by
  have isName := components_of_valid validName_backup
  have under : Under (txnStateDir root id) (backupDir root id)
      [ascii "backup"] := by
    have joined : Under (txnStateDir root id) (backupDir root id)
        (components (ascii "backup")) :=
      Under.joinPath ground.nonempty validName_backup.1 (by decide)
    rwa [isName] at joined
  have names : Names [ascii "backup"] :=
    ⟨List.cons_ne_nil _ _, by simpa using validName_backup⟩
  have plain : Plain disk.fs top [ascii "backup"] := by
    intro cut target isCut proper isLink
    rcases List.prefix_cons_iff.mp isCut with rfl | ⟨rest, rfl, isRest⟩
    · rw [descend_nil, FileSystem.leaf?_of_isDir ground.topIsDir] at isLink
      cases isLink
    · exact proper (by rw [List.prefix_nil.mp isRest])
  have guard := guard_below (ground.rooted (.refl disk)) under names plain
  exact .of_added (endsIn_iff.mp (mkdirs_ends _ 493 guard
    fun name loc isBelow => isBelow.trans (List.suffix_cons name loc)))

/-- What a removal does to the disk, after the backup directory was made. -/
theorem removePkg_ends {good bad : Disk Content → Prop}
    (refused : bad world.disk)
    (unhooked : bad
      (finalState (mkdirs (backupDir root id) 493 world.disk)))
    (removed : Ends ((world.db.pkgManifest name).forM
        (removeEntry root (backupDir root id))
        (finalState (mkdirs (backupDir root id) 493 world.disk)))
      (fun _ => good) (fun _ => bad)) :
    Ends (removePkg root name id world) (fun _ after => good after.disk)
      (fun _ after => good after.disk ∨ bad after.disk) := by
  unfold removePkg
  refine Ends.bindOk rfl (Ends.ite (fun _ => ?_)
    (fun _ => Ends.throw (.inr refused)))
  generalize isBegun : finalState (mkdirs (backupDir root id) 493 world.disk) =
    begun at *
  refine Ends.through (fun _ now => now.disk = begun) (Ends.ignore ?_) ?_
  · have made : EndsIn (mkdirs (backupDir root id) 493 world.disk)
        (fun now => now = begun) := endsIn_iff.mpr isBegun
    exact (onDisk_endsIn made).endsIn (fun _ _ both => both.1)
      (fun _ _ both => both.1)
  intro _ first isFirst
  refine Ends.through (fun _ now => now.disk = begun)
    ((runHookIf_diskKept _ _ _ first).mono ?_ ?_) ?_
  · exact fun _ _ same => same.trans isFirst
  · exact fun _ after same => .inr (by rwa [same, isFirst])
  intro _ second isSecond
  refine Ends.through (fun _ now => good now.disk) ?_ ?_
  · rw [forM_onDisk]
    rw [← isSecond] at removed
    exact (onDisk_ends removed).mono (fun _ _ both => both.1)
      (fun _ _ both => .inr both.1)
  intro _ third removed
  refine Ends.through (fun _ now => good now.disk)
    ((recordRemove_diskKept name third).mono ?_ ?_) ?_
  · exact fun _ after same => by rwa [same]
  · exact fun _ after same => .inl (by rwa [same])
  intro _ fourth isFourth
  refine Ends.ignore ((runHookIf_diskKept _ _ _ fourth).endsIn ?_ ?_)
  · exact fun _ after same => by rwa [same]
  · exact fun _ after same => by rwa [same]

theorem begun_copyable {manifest : Manifest} {disk : Disk Content}
    (ground : Ground root (txnStateDir root id) manifest top disk) :
    Removing root manifest top disk
        (finalState (mkdirs (backupDir root id) 493 disk)) ∧
      Copyable top manifest
        (finalState (mkdirs (backupDir root id) 493 disk)) := by
  have grown := begun_grown ground
  have stores : Stores top [] disk
      (finalState (mkdirs (backupDir root id) 493 disk)) :=
    .of_grown grown
  have unchanged : Removing root manifest top disk disk := .refl disk
  exact ⟨unchanged.stores stores, fun entry member confined notDir =>
    grown.plain (ground.plain entry member confined notDir)⟩

/-- Whatever becomes of a removal, only what the paths of the package lead to
has gone. -/
theorem removePkg_removing
    (ground : Ground root (txnStateDir root id) (world.db.pkgManifest name)
      top world.disk) :
    EndsIn (removePkg root name id world) fun after =>
      Removing root (world.db.pkgManifest name) top world.disk
        after.disk := by
  obtain ⟨removing, copyable⟩ := begun_copyable ground
  have removed := removeEntries_removing ground
    (pkgManifest_ordered world.db name) removing copyable
  refine (removePkg_ends (.refl world.disk) removing removed).endsIn
    (fun _ _ removed => removed) ?_
  rintro _ after (removed | removed) <;> exact removed

end Package

end SaltOS.Txn
