import SaltOS.Base.BelowCalls
import SaltOS.Base.Clear
import SaltOS.Txn.Txn

/-!
# What `backup_file` saves

A backup copies files and links into a directory of its own, under their
paths below the root.  The copy of a file keeps nine bits of its mode, and
the copy of a link as much of its target as the buffer holds.
-/

namespace SaltOS.Txn

open Lib Disk Util

/-- The copy of a file or a link. -/
def savedNode : Node Content → Node Content
  | .dir mode => .dir mode
  | .file content mode => .file content (mode % 512)
  | .symlink target => .symlink (linkTarget target)

/-- A path relative to the root, the directory that holds its entry, and the
file or link there. -/
structure Item where
  path : Bytes
  parent : Loc
  node : Node Content

namespace Item

def entry (root : Bytes) (item : Item) : Loc :=
  lastName (Util.joinPath root item.path) :: item.parent

def names (item : Item) : List Name :=
  components item.path

end Item

def entries (root : Bytes) (items : List Item) : List Loc :=
  items.map (Item.entry root)

section Below

variable {γ : Type} {disk before middle after : Disk γ} {path : Bytes}
  {root : Bytes} {top loc : Loc} {comps : List Name}

/-- Directories were added below a directory. -/
structure GrownBelow (top : Loc) (before after : Disk γ) : Prop where
  cwd : after.cwd = before.cwd
  nodes : ∀ loc, after.fs.node? loc = before.fs.node? loc ∨
    before.fs.node? loc = none ∧ IsDirIn (after.fs.node? loc) ∧
      StrictlyBelow top loc

theorem GrownBelow.refl (disk : Disk γ) : GrownBelow top disk disk :=
  ⟨rfl, fun _ => .inl rfl⟩

theorem GrownBelow.outside (grown : GrownBelow top before after)
    (away : ¬ StrictlyBelow top loc) :
    after.fs.node? loc = before.fs.node? loc := by
  rcases grown.nodes loc with same | ⟨-, -, isBelow⟩
  · exact same
  · exact absurd isBelow away

theorem GrownBelow.rooted (grown : GrownBelow top before after)
    (rooted : Rooted before root top) : Rooted after root top :=
  rooted.of_outside grown.cwd fun _ => grown.outside

theorem GrownBelow.plain (grown : GrownBelow top before after)
    (plain : Plain before.fs top comps) : Plain after.fs top comps := by
  intro cut target isCut proper isLink
  rcases grown.nodes (descend top cut) with same | ⟨-, isDir, -⟩
  · rw [FileSystem.leaf?, same] at isLink
    exact plain cut target isCut proper isLink
  · rw [FileSystem.leaf?_of_isDir isDir] at isLink
    cases isLink

theorem GrownBelow.of_added {base : Loc} {way : List Name}
    (added : AddedDirs base way (fun loc => top <:+ loc) before after) :
    GrownBelow top before after := by
  refine ⟨added.cwd, fun loc => ?_⟩
  refine (added.nodes loc).imp_right ?_
  rintro ⟨absent, isDir, name, parent, rfl, isBelow, -⟩
  refine ⟨absent, isDir, isBelow.trans (List.suffix_cons name parent), ?_⟩
  rintro rfl
  have shorter := isBelow.length_le
  simp at shorter

/-- What is missing on the way of a path below a root lies below it. -/
theorem guard_below (rooted : Rooted disk root top)
    (under : Under root path comps) (names : Names comps)
    (plain : Plain disk.fs top comps) :
    Guard disk (baseOf disk.cwd path) (components path)
      (fun loc => top <:+ loc) := by
  intro front comp rest loc whole leads isDir valid absent
  rw [under.base] at leads
  rw [under.split] at whole
  rcases List.append_eq_append_iff.mp whole with
    ⟨between, rfl, inner⟩ | ⟨between, isFront, inner⟩
  · obtain ⟨middle, links, toTop, further⟩ := leads.of_append
    rw [toTop.deterministic rooted.leads] at further
    have isCut : between ++ [comp] <+: comps := by
      rw [inner]
      exact ⟨rest, by simp⟩
    have plainCut := plain.of_prefix isCut
    have isLoc := plainCut.walk_eq
      (fun name member => names.valid name (isCut.subset (by simp [member])))
      further
    rw [isLoc.1]
    refine ⟨suffix_descend top between, Or.inl fun isUp => ?_⟩
    have validUp := names.valid dotDot (by rw [inner]; simp [isUp])
    exact validUp.2.2.1 rfl
  · rcases between with _ | ⟨entry, between⟩
    · rw [List.append_nil] at isFront
      rw [List.nil_append] at inner
      rw [← isFront] at leads
      rw [leads.deterministic rooted.leads]
      refine ⟨List.suffix_refl top, Or.inl fun isUp => ?_⟩
      have validUp := names.valid dotDot (by rw [← inner]; simp [isUp])
      exact validUp.2.2.1 rfl
    · rw [List.cons_append] at inner
      obtain ⟨rfl, rfl⟩ := List.cons.inj inner
      have onWay := rooted.leads
      rw [isFront] at onWay
      exact absurd absent (onWay.exists_entry leads valid)

theorem makeParent_grown {disk : Disk Content} (rooted : Rooted disk root top)
    (under : Under root path comps) (names : Names comps)
    (plain : Plain disk.fs top comps) :
    GrownBelow top disk (finalState (makeParent path disk)) := by
  by_cases empty : joinSlash (components path).dropLast = []
  · unfold makeParent
    rw [empty]
    exact GrownBelow.refl disk
  · have isCut : (components path).dropLast <+: components path :=
      List.dropLast_prefix _
    have nonempty : (components path).dropLast ≠ [] := by
      intro nil
      rw [nil] at empty
      exact empty rfl
    have whole := guard_below rooted under names plain
    have guard := whole.of_prefix isCut
    rw [← components_cut isCut nonempty, ← baseOf_cut isCut empty] at guard
    have made := GrownBelow.of_added (endsIn_iff.mp (mkdirs_ends _ 493 guard
      fun name loc isBelow => isBelow.trans (List.suffix_cons name loc)))
    exact made

theorem makeDirname_grown (rooted : Rooted disk root top)
    (under : Under root path comps) (names : Names comps)
    (plain : Plain disk.fs top comps) :
    GrownBelow top disk (finalState (makeDirname path disk)) :=
  .of_added (endsIn_iff.mp (makeDirname_ends
    (guard_below rooted under names plain)
    fun name loc isBelow => isBelow.trans (List.suffix_cons name loc)))

/-- One entry below a directory has a node, and directories were added. -/
structure Saves (top : Loc) (comps : List Name) (node : Node γ)
    (before after : Disk γ) : Prop where
  cwd : after.cwd = before.cwd
  outside : ∀ loc, ¬ StrictlyBelow top loc →
    after.fs.node? loc = before.fs.node? loc
  here : after.fs.node? (descend top comps) = some node
  nodes : ∀ loc, loc ≠ descend top comps →
    after.fs.node? loc = before.fs.node? loc ∨
      before.fs.node? loc = none ∧ IsDirIn (after.fs.node? loc)

/-- Only the one entry may have changed. -/
structure OnlyEntry (top : Loc) (comps : List Name) (before after : Disk γ) :
    Prop where
  cwd : after.cwd = before.cwd
  nodes : ∀ loc, loc ≠ descend top comps →
    after.fs.node? loc = before.fs.node? loc

theorem OnlyEntry.rooted (only : OnlyEntry top comps before after)
    (names : Names comps) (rooted : Rooted before root top) :
    Rooted after root top := by
  apply rooted.of_outside only.cwd
  intro loc away
  apply only.nodes
  rintro rfl
  exact away (strictlyBelow_descend names.nonempty)

theorem OnlyEntry.plain (only : OnlyEntry top comps before after)
    (plain : Plain before.fs top comps) : Plain after.fs top comps := by
  intro cut target isCut proper
  have differs : descend top cut ≠ descend top comps :=
    fun same => proper (descend_inj.mp same)
  rw [FileSystem.leaf?, only.nodes _ differs]
  exact plain cut target isCut proper

theorem Saves.of_grown {node : Node γ} (names : Names comps)
    (grown : GrownBelow top before middle)
    (only : OnlyEntry top comps middle after)
    (here : after.fs.node? (descend top comps) = some node) :
    Saves top comps node before after := by
  refine ⟨only.cwd.trans grown.cwd, ?_, here, ?_⟩
  · intro loc away
    rw [only.nodes, grown.outside away]
    rintro rfl
    exact away (strictlyBelow_descend names.nonempty)
  · intro loc differs
    rw [only.nodes loc differs]
    exact (grown.nodes loc).imp_right fun added => ⟨added.1, added.2.1⟩

/-- A call that replaces the entry changes no other. -/
theorem onlyEntry_of_replaces {parent : Loc} {last : Name}
    {node : Option (Node γ)} {fs : FileSystem γ}
    (rooted : Rooted disk root top) (under : Under root path comps)
    (names : Names comps) (plain : Plain disk.fs top comps)
    (replaces : Replaces disk path (components path) node fs parent last) :
    OnlyEntry top comps disk (disk.tick fs) ∧
      (disk.tick fs).fs.node? (descend top comps) = node := by
  obtain ⟨looked, -⟩ := rooted.replaces under names plain replaces
  refine ⟨⟨rfl, fun loc differs => ?_⟩, ?_⟩
  · rw [Disk.tick, looked, if_neg differs]
  · rw [Disk.tick, looked, if_pos rfl]

theorem unlink_onlyEntry (rooted : Rooted disk root top)
    (under : Under root path comps) (names : Names comps)
    (plain : Plain disk.fs top comps) :
    OnlyEntry top comps disk (finalState (Disk.unlink path disk)) := by
  apply endsIn_iff.mp
  refine call_ends.endsIn ?_ ?_
  · rintro _ _ ⟨fs, planned, rfl⟩
    obtain ⟨parent, last, replaces, -⟩ := unlinkPlan_ok planned
    exact (onlyEntry_of_replaces rooted under names plain replaces).1
  · rintro _ _ ⟨rfl, -⟩
    exact ⟨rfl, fun _ _ => rfl⟩

theorem symlink_onlyEntry {target : Name} (rooted : Rooted disk root top)
    (under : Under root path comps) (names : Names comps)
    (plain : Plain disk.fs top comps) :
    Ends (Disk.symlink target path disk)
      (fun _ now => OnlyEntry top comps disk now ∧
        now.fs.node? (descend top comps) = some (.symlink target))
      (fun _ _ => True) := by
  refine call_ends.mono ?_ (fun _ _ _ => trivial)
  rintro _ _ ⟨fs, planned, rfl⟩
  obtain ⟨parent, last, replaces, -⟩ := symlinkPlan_ok planned
  exact onlyEntry_of_replaces rooted under names plain replaces

theorem writeFile_saves {content : γ} {mode : Nat}
    (rooted : Rooted disk root top) (under : Under root path comps)
    (names : Names comps) (plain : Plain disk.fs top comps) :
    Ends (writeFile path content mode disk)
      (fun _ now => Saves top comps (.file content mode) disk now)
      (fun _ _ => True) := by
  unfold writeFile
  refine Ends.through (fun _ now => GrownBelow top disk now) ?_ ?_
  · have made := makeDirname_grown rooted under names plain
    exact (endsIn_iff.mpr made).mono (fun _ _ grown => grown)
      (fun _ _ _ => trivial)
  rintro _ ready grown
  refine Ends.through (fun _ now => GrownBelow top disk now) ?_ ?_
  · have temporary : EndsIn (Disk.mkstemp path ready)
        (fun now => GrownBelow top disk now) := by
      refine call_ends.endsIn ?_ ?_
      · rintro _ _ ⟨fs, planned, rfl⟩
        rw [mkstempPlan_ok planned]
        exact ⟨grown.cwd, grown.nodes⟩
      · rintro _ _ ⟨rfl, _⟩
        exact ⟨grown.cwd, grown.nodes⟩
    exact (checked_ends temporary).mono (fun _ _ still => still)
      (fun _ _ _ => trivial)
  rintro _ now still
  apply checked_done
  refine call_ends.mono ?_ (fun _ _ _ => trivial)
  rintro _ _ ⟨fs, planned, rfl⟩
  obtain ⟨parent, last, replaces, -⟩ := renamePlan_ok planned
  obtain ⟨only, here⟩ := onlyEntry_of_replaces (still.rooted rooted) under
    names (still.plain plain) replaces
  exact Saves.of_grown names still only here

end Below

/-! ## Copies -/

section Copies

variable {disk after : Disk Content} {src dst : Bytes}

theorem copyLink_eq {target : Name} (found : disk.readlink src = .ok target) :
    copyLink src dst disk =
      match Disk.symlink (linkTarget target) dst
        (finalState (Disk.unlink dst disk)) with
      | .ok _ made => .ok () made
      | .error _ kept => .error ⟨.io, none⟩ kept := by
  unfold copyLink
  refine (bind_run rfl).trans ?_
  rw [found]
  change EStateM.bind _ _ (finalState (Disk.unlink dst disk)) = _
  unfold EStateM.bind attempt
  cases Disk.symlink (linkTarget target) dst
    (finalState (Disk.unlink dst disk)) <;> rfl

theorem copyFile_eq {content : Content} {mode : Nat}
    (found : disk.stat src = .ok (.file content mode)) :
    Util.copyFile src dst disk = writeFile dst content (mode % 512) disk := by
  have read : disk.contents src = .ok content := by
    unfold Disk.contents
    rw [found]
  unfold Util.copyFile
  simp only [bind, EStateM.bind, attempt, readFile, get_run, read, pure, EStateM.pure, found]

end Copies

/-! ## One path -/

theorem names_relative {path : Bytes} (names : Names (components path)) :
    path ≠ [] ∧ path.head? ≠ some 47 := by
  constructor
  · rintro rfl
    exact (names.valid [] (by decide)).1 rfl
  · intro absolute
    obtain ⟨rest, rfl⟩ := List.head?_eq_some_iff.mp absolute
    have first : [] ∈ components (47 :: rest) := by
      change [] ∈ components ([] ++ 47 :: rest)
      rw [components_append_slash]
      exact List.mem_append_left _ (by decide)
    exact (names.valid [] first).1 rfl

theorem GrownBelow.sameClear {top : Loc} {spots : List Loc}
    {before after : Disk Content} (grown : GrownBelow top before after) :
    SameClear top spots before after :=
  ⟨grown.cwd, fun _ clear =>
    grown.outside fun isBelow => clear (Or.inl isBelow)⟩

section Saving

variable {root backup : Bytes} {top : Loc} {spots : List Loc} {item : Item}
  {disk : Disk Content}

/-- The copy of a file or a link that is there. -/
theorem backupNode_saves
    (reaches : Reaches top spots disk (joinPath root item.path) item.parent)
    (found : disk.fs.node? (item.entry root) = some item.node)
    (isLeaf : item.node.isDir = false) {dst : Bytes}
    (rooted : Rooted disk backup top) (under : Under backup dst item.names)
    (names : Names item.names) (plain : Plain disk.fs top item.names) :
    Ends (backupNode (joinPath root item.path) dst item.node disk)
      (fun _ after => Saves top item.names (savedNode item.node) disk after)
      (fun _ _ => True) := by
  cases isNode : item.node with
  | dir mode =>
      rw [isNode] at isLeaf
      cases isLeaf
  | file content mode =>
      rw [isNode] at found
      unfold backupNode
      dsimp only
      rw [copyFile_eq (reaches.stat_of_file found)]
      exact writeFile_saves rooted under names plain
  | symlink target =>
      rw [isNode] at found
      unfold backupNode
      dsimp only
      rw [copyLink_eq (reaches.readlink found)]
      have unlinked := unlink_onlyEntry rooted under names plain
      have linked : Ends (Disk.symlink (linkTarget target) dst
          (finalState (Disk.unlink dst disk))) _ _ :=
        symlink_onlyEntry (unlinked.rooted names rooted) under names
          (unlinked.plain plain)
      cases outcome : Disk.symlink (linkTarget target) dst
          (finalState (Disk.unlink dst disk)) with
      | error errno kept => trivial
      | ok _ made =>
          rw [outcome] at linked
          obtain ⟨only, here⟩ := linked
          refine Saves.of_grown names (GrownBelow.refl disk) ?_ here
          refine ⟨only.cwd.trans unlinked.cwd, fun loc differs => ?_⟩
          rw [only.nodes loc differs, unlinked.nodes loc differs]

theorem backupFile_saves
    (reaches : Reaches top spots disk (joinPath root item.path) item.parent)
    (aside : item.parent ≠ top)
    (found : disk.fs.node? (item.entry root) = some item.node)
    (isLeaf : item.node.isDir = false) (rooted : Rooted disk backup top)
    (names : Names item.names) (plain : Plain disk.fs top item.names) :
    Ends (backupFile root backup item.path disk)
      (fun _ after => Saves top item.names (savedNode item.node) disk after)
      (fun _ _ => True) := by
  obtain ⟨nonempty, relative⟩ := names_relative names
  have under : Under backup (joinPath backup item.path) item.names :=
    Under.joinPath rooted.nonempty nonempty relative
  have grown := makeParent_grown rooted under names plain
  have stillReaches := reaches.same grown.sameClear
  have stillFound : (finalState (makeParent (joinPath backup item.path)
      disk)).fs.node? (item.entry root) = some item.node :=
    (grown.outside (reaches.entry_outside aside)).trans found
  have saved := backupNode_saves stillReaches stillFound isLeaf
    (grown.rooted rooted) under names (grown.plain plain)
  unfold backupFile
  refine Ends.bindOk rfl ?_
  rw [reaches.lstat.mpr found]
  dsimp only
  refine Ends.bindOk rfl ?_
  refine Ends.through (fun outcome after => outcome = .ok () →
    Saves top item.names (savedNode item.node) disk after) ?_ ?_
  · apply Ends.attempt
    refine saved.mono ?_ (fun _ _ _ failed => nomatch failed)
    intro _ after saves _
    refine ⟨saves.cwd.trans grown.cwd, ?_, saves.here, ?_⟩
    · intro loc away
      rw [saves.outside loc away, grown.outside away]
    · intro loc differs
      rcases saves.nodes loc differs with same | ⟨absent, isDir⟩
      · rw [same]
        exact (grown.nodes loc).imp_right fun added => ⟨added.1, added.2.1⟩
      · rcases grown.nodes loc with same | ⟨-, isMade, -⟩
        · exact Or.inr ⟨same ▸ absent, isDir⟩
        · rw [absent] at isMade
          cases isMade
  · intro outcome after holds
    cases outcome with
    | ok _ => exact holds rfl
    | error failure => trivial

end Saving

/-! ## Many paths -/

/-- Files and links below a root, at normalised paths, none of which leads
through another one or into the backup directory, and an empty backup
directory. -/
structure Layout (root backup : Bytes) (top : Loc) (items : List Item)
    (disk : Disk Content) : Prop where
  rootNonempty : root ≠ []
  normal : ∀ item ∈ items, Names item.names
  reaches : ∀ item ∈ items, Reaches top (entries root items) disk
    (joinPath root item.path) item.parent
  aside : ∀ item ∈ items, item.parent ≠ top
  found : ∀ item ∈ items,
    disk.fs.node? (item.entry root) = some item.node
  leaves : ∀ item ∈ items, item.node.isDir = false
  targets : ∀ item ∈ items, item.node ≠ .symlink []
  backup : ClearDir top (entries root items) disk backup
  empty : disk.fs.children top = []

/-- The backup directory holds copies of the items and nothing else but
directories. -/
structure BackedUp (top : Loc) (items : List Item)
    (before now : Disk Content) : Prop where
  cwd : now.cwd = before.cwd
  outside : ∀ loc, ¬ StrictlyBelow top loc →
    now.fs.node? loc = before.fs.node? loc
  copies : ∀ item ∈ items,
    now.fs.node? (descend top item.names) = some (savedNode item.node)
  only : ∀ names node, names ≠ [] →
    now.fs.node? (descend top names) = some node → node.isDir = false →
      ∃ item ∈ items, names = item.names

namespace Layout

variable {root backup : Bytes} {top : Loc} {items done : List Item}
  {item other : Item} {disk now : Disk Content}

theorem components_eq (layout : Layout root backup top items disk)
    (member : item ∈ items) :
    components (joinPath root item.path) = dirFront root ++ item.names := by
  obtain ⟨nonempty, relative⟩ := names_relative (layout.normal item member)
  exact components_joinPath layout.rootNonempty nonempty relative

theorem base_eq (layout : Layout root backup top items disk)
    (cwd : Loc) (item : Item) :
    baseOf cwd (joinPath root item.path) = baseOf cwd root :=
  baseOf_joinPath layout.rootNonempty item.path cwd

/-- No item lies above another one: the way to the other passes no item. -/
theorem apart (layout : Layout root backup top items disk)
    (member : item ∈ items) (otherMember : other ∈ items)
    (above : other.names <+: item.names) : other.names = item.names := by
  by_contra differs
  obtain ⟨links, -, walked⟩ := (layout.reaches item member).walked
  obtain ⟨otherLinks, -, toOther⟩ :=
    (layout.reaches other otherMember).walked
  rw [layout.components_eq member, layout.base_eq,
    List.dropLast_append_of_ne_nil (layout.normal item member).nonempty]
    at walked
  rw [layout.components_eq otherMember, layout.base_eq,
    List.dropLast_append_of_ne_nil (layout.normal other otherMember).nonempty]
    at toOther
  obtain ⟨rest, whole⟩ := above
  have restNonempty : rest ≠ [] := by
    rintro rfl
    exact differs (by rw [← whole, List.append_nil])
  obtain ⟨front, last, isConcat⟩ := (List.eq_nil_or_concat
    other.names).resolve_left (layout.normal other otherMember).nonempty
  rw [List.concat_eq_append] at isConcat
  have valid : ValidName last :=
    (layout.normal other otherMember).valid last (by simp [isConcat])
  have isEntry : other.entry root = last :: other.parent := by
    rw [Item.entry, lastName, layout.components_eq otherMember, isConcat,
      ← List.append_assoc, List.getLastD_concat]
  rw [isConcat, List.dropLast_concat] at toOther
  rw [← whole, List.dropLast_append_of_ne_nil restNonempty, isConcat,
    List.append_assoc, ← List.append_assoc (dirFront root)] at walked
  obtain ⟨middle, first, second, before, further, -⟩ := walked.of_append
  rw [before.deterministic toOther] at further
  have hidden : Hidden top (entries root items) (last :: other.parent) :=
    Or.inr ⟨_, List.mem_map_of_mem otherMember,
      isEntry ▸ List.suffix_refl _⟩
  cases further with
  | dot _ isDot => exact absurd isDot valid.notDot
  | up => exact absurd rfl valid.2.2.1
  | entry _ _ _ looked => exact (lookClear_some looked).1 hidden
  | follow _ _ _ looked => exact (lookClear_some looked).1 hidden

/-- Items at one path are one item. -/
theorem same_of_names (layout : Layout root backup top items disk)
    (member : item ∈ items) (otherMember : other ∈ items)
    (same : item.names = other.names) :
    item.entry root = other.entry root ∧ item.node = other.node := by
  have samePath : item.path = other.path := by
    rw [← joinSlash_components item.path, ← joinSlash_components other.path]
    exact congrArg joinSlash same
  have sameParent : item.parent = other.parent := by
    apply (layout.reaches item member).deterministic
    rw [samePath]
    exact layout.reaches other otherMember
  have sameEntry : item.entry root = other.entry root := by
    rw [Item.entry, Item.entry, samePath, sameParent]
  refine ⟨sameEntry, ?_⟩
  have found := layout.found item member
  rw [sameEntry, layout.found other otherMember] at found
  exact (Option.some.inj found).symm

/-- Items at one place hold one node. -/
theorem same_of_entry (layout : Layout root backup top items disk)
    (member : item ∈ items) (otherMember : other ∈ items)
    (same : item.entry root = other.entry root) : item.node = other.node := by
  have found := layout.found item member
  rw [same, layout.found other otherMember] at found
  exact (Option.some.inj found).symm

theorem fresh (layout : Layout root backup top items disk) :
    BackedUp top [] disk disk := by
  refine ⟨rfl, fun _ _ => rfl, fun _ member => (nomatch member), ?_⟩
  intro names node nonempty found isLeaf
  obtain ⟨first, rest, rfl⟩ := List.exists_cons_of_ne_nil nonempty
  have childExists : disk.fs.node? (first :: top) ≠ none := by
    rw [descend_cons] at found
    by_cases whole : rest = []
    · subst whole
      rw [descend_nil] at found
      simp [found]
    · have isDir : disk.fs.IsDir (descend (first :: top) []) :=
        FileSystem.isDir_of_cut (by simp [found]) List.nil_prefix
          (fun nil => whole nil.symm)
      obtain ⟨mode, isNode⟩ := FileSystem.isDir_iff.mp isDir
      rw [descend_nil] at isNode
      simp [isNode]
  have member := FileSystem.mem_children.mpr childExists
  rw [layout.empty] at member
  cases member

/-- The backup of one more item. -/
theorem saves (layout : Layout root backup top items disk)
    (backed : BackedUp top done disk now) (doneItems : ∀ item ∈ done,
      item ∈ items) (member : item ∈ items) :
    Ends (backupFile root backup item.path now)
      (fun _ after => BackedUp top (done ++ [item]) disk after)
      (fun _ _ => True) := by
  have same : SameClear top (entries root items) disk now :=
    ⟨backed.cwd, fun loc clear =>
      backed.outside loc fun isBelow => clear (Or.inl isBelow)⟩
  have reaches := layout.reaches item member
  have aside := layout.aside item member
  have found : now.fs.node? (item.entry root) = some item.node :=
    (backed.outside _ (reaches.entry_outside aside)).trans
      (layout.found item member)
  have plain : Plain now.fs top item.names := by
    intro cut target isCut proper isLink
    by_cases nothing : cut = []
    · subst nothing
      have isDir := (layout.backup.same same).rooted.isDir
      rw [descend_nil, FileSystem.leaf?_of_isDir isDir] at isLink
      cases isLink
    · obtain ⟨other, isDone, rfl⟩ := backed.only cut (.symlink target) nothing
        (FileSystem.leaf?_eq_link.mp isLink) rfl
      exact proper (layout.apart member (doneItems other isDone) isCut)
  refine (backupFile_saves (reaches.same same) aside found
    (layout.leaves item member) (layout.backup.same same).rooted
    (layout.normal item member) plain).mono ?_ (fun _ _ _ => trivial)
  intro _ after saves
  constructor
  · exact saves.cwd.trans backed.cwd
  · intro loc away
    rw [saves.outside loc away, backed.outside loc away]
  · intro other inDone
    rcases List.mem_append.mp inDone with earlier | isItem
    · by_cases sameNames : other.names = item.names
      · rw [sameNames, saves.here, (layout.same_of_names
          (doneItems other earlier) member sameNames).2]
      · have copy := backed.copies other earlier
        rcases saves.nodes (descend top other.names)
          (fun onItem => sameNames (descend_inj.mp onItem)) with
          unchanged | ⟨absent, -⟩
        · rw [unchanged, copy]
        · rw [copy] at absent
          cases absent
    · rw [List.mem_singleton.mp isItem]
      exact saves.here
  · intro names node nonempty there isLeaf
    by_cases onItem : names = item.names
    · exact ⟨item, by simp, onItem⟩
    · rcases saves.nodes (descend top names)
        (fun onEntry => onItem (descend_inj.mp onEntry)) with
        unchanged | ⟨-, isDir⟩
      · rw [unchanged] at there
        obtain ⟨other, isDone, isNames⟩ :=
          backed.only names node nonempty there isLeaf
        exact ⟨other, List.mem_append_left _ isDone, isNames⟩
      · rw [there, IsDirIn] at isDir
        simp [isLeaf] at isDir

/-- Backups that all return have saved all items. -/
theorem backedUp (layout : Layout root backup top items disk)
    (saved : (items.map Item.path).forM (backupFile root backup) disk =
      .ok () now) : BackedUp top items disk now := by
  have loop (rest done : List Item) (before : Disk Content)
      (whole : done ++ rest = items) (backed : BackedUp top done disk before) :
      Ends ((rest.map Item.path).forM (backupFile root backup) before)
        (fun _ after => BackedUp top items disk after)
        (fun _ _ => True) := by
    induction rest generalizing done before with
    | nil =>
        rw [List.append_nil] at whole
        subst whole
        exact backed
    | cons item rest ih =>
        have member : item ∈ items := by simp [← whole]
        have doneItems : ∀ other ∈ done, other ∈ items :=
          fun other isDone => by simp [← whole, isDone]
        refine Ends.bind (layout.saves backed doneItems member) ?_
        intro _ between backedThen
        exact ih (done ++ [item]) between (by simp [← whole]) backedThen
  have ends := loop items [] disk rfl layout.fresh
  rwa [saved] at ends

end Layout

end SaltOS.Txn
