import SaltOS.Txn.Backup

/-!
# What `restore_tree` puts back

Restoring goes through the backup directory and copies every file and link to
its path below the root.  It never replaces a directory, and errors are not
looked at.  So a saved file or link is back exactly when the copy held all of
it and no directory has taken its place.
-/

namespace SaltOS.Txn

open Lib Disk Util

variable {root backup : Bytes} {top : Loc} {items : List Item}
  {item other : Item} {start saved later now after : Disk Content}

/-- A later tree: the items and what is below them may be anything. -/
structure Later (root : Bytes) (items : List Item)
    (saved later : Disk Content) : Prop where
  cwd : later.cwd = saved.cwd
  quiet : later.faults = []
  nodes : ∀ loc, (∀ item ∈ items, ¬ item.entry root <:+ loc) →
    later.fs.node? loc = saved.fs.node? loc

namespace Layout

theorem entry_isLeaf (layout : Layout root backup top items start)
    (member : item ∈ items) : ¬ start.fs.IsDir (item.entry root) := by
  intro isDir
  obtain ⟨mode, isNode⟩ := FileSystem.isDir_iff.mp isDir
  rw [layout.found item member, Option.some.injEq] at isNode
  have isLeaf := layout.leaves item member
  rw [isNode] at isLeaf
  cases isLeaf

/-- The backup directory lies apart from the items. -/
theorem not_above (layout : Layout root backup top items start)
    (member : item ∈ items) (names : List Name) :
    ¬ item.entry root <:+ descend top names := by
  intro isAbove
  have notBelow : ¬ StrictlyBelow top (item.entry root) :=
    (layout.reaches item member).entry_outside (layout.aside item member)
  have aboveTop : item.entry root <:+ top := by
    rcases List.suffix_or_suffix_of_suffix isAbove
      (suffix_descend top names) with above | isBelow
    · exact above
    · by_cases same : item.entry root = top
      · rw [same]
      · exact absurd ⟨isBelow, same⟩ notBelow
  exact layout.entry_isLeaf member (FileSystem.isDir_of_above_dir
    layout.backup.rooted.isDir aboveTop)

theorem entry_ne_descend (layout : Layout root backup top items start)
    (member : item ∈ items) (names : List Name) :
    descend top names ≠ item.entry root := by
  intro same
  exact layout.not_above member names (same ▸ List.suffix_refl _)

end Layout

/-- What a restore needs of the disk it starts from. -/
structure Ready (root backup : Bytes) (top : Loc) (items : List Item)
    (later : Disk Content) : Prop where
  quiet : later.faults = []
  reaches : ∀ item ∈ items, Reaches top (entries root items) later
    (joinPath root item.path) item.parent
  backup : ClearDir top (entries root items) later backup
  copies : ∀ item ∈ items,
    later.fs.node? (descend top item.names) = some (savedNode item.node)
  only : ∀ names node, names ≠ [] →
    later.fs.node? (descend top names) = some node → node.isDir = false →
      ∃ item ∈ items, names = item.names

theorem Layout.ready (layout : Layout root backup top items start)
    (backedUp : BackedUp top items start saved)
    (isLater : Later root items saved later) :
    Ready root backup top items later := by
  have same : SameClear top (entries root items) start later := by
    refine ⟨isLater.cwd.trans backedUp.cwd, fun loc clear => ?_⟩
    rw [isLater.nodes, backedUp.outside]
    · exact fun isBelow => clear (Or.inl isBelow)
    · intro item member isAbove
      exact clear (Or.inr ⟨_, List.mem_map_of_mem member, isAbove⟩)
  have below (names : List Name) : later.fs.node? (descend top names) =
      saved.fs.node? (descend top names) :=
    isLater.nodes _ fun item member => layout.not_above member names
  refine ⟨isLater.quiet, fun item member =>
    (layout.reaches item member).same same, layout.backup.same same, ?_, ?_⟩
  · intro item member
    rw [below]
    exact backedUp.copies item member
  · intro names node nonempty found isLeaf
    rw [below] at found
    exact backedUp.only names node nonempty found isLeaf

/-! ## One entry -/

/-- What stands at an item after it was restored. -/
def restored (root : Bytes) (later : Disk Content) (item : Item) :
    Option (Node Content) :=
  if later.fs.IsDir (item.entry root) then
    later.fs.node? (item.entry root)
  else some (savedNode item.node)

/-- Some items have been restored since. -/
structure Restoring (root : Bytes) (items : List Item)
    (later now : Disk Content) : Prop where
  cwd : now.cwd = later.cwd
  quiet : now.faults = []
  nodes : ∀ loc, now.fs.node? loc = later.fs.node? loc ∨
    ∃ item ∈ items, loc = item.entry root ∧
      now.fs.node? loc = restored root later item

def Done (root : Bytes) (later now : Disk Content) (item : Item) : Prop :=
  now.fs.node? (item.entry root) = restored root later item

theorem Restoring.sameClear (restoring : Restoring root items later now) :
    SameClear top (entries root items) later now := by
  refine ⟨restoring.cwd, fun loc clear => ?_⟩
  rcases restoring.nodes loc with same | ⟨item, member, rfl, -⟩
  · exact same
  · exact absurd (Or.inr ⟨_, List.mem_map_of_mem member,
      List.suffix_refl _⟩) clear

theorem Restoring.below (restoring : Restoring root items later now)
    (layout : Layout root backup top items start) (names : List Name) :
    now.fs.node? (descend top names) = later.fs.node? (descend top names) := by
  rcases restoring.nodes (descend top names) with same | ⟨item, member, isEntry,
    -⟩
  · exact same
  · exact absurd isEntry (layout.entry_ne_descend member names)

theorem savedNode_isDir (node : Node Content) :
    (savedNode node).isDir = node.isDir := by
  cases node <;> rfl

theorem savedNode_twice (node : Node Content) :
    savedNode (savedNode node) = savedNode node := by
  cases node with
  | dir mode => rfl
  | file content mode => simp [savedNode]
  | symlink target => simp [savedNode, linkTarget, List.take_take]

/-- Putting the copy of an item at its place restores it. -/
theorem Restoring.puts (restoring : Restoring root items later now)
    (layout : Layout root backup top items start) (member : item ∈ items)
    (puts : Puts (item.entry root) (some (savedNode item.node)) now after) :
    Restoring root items later after ∧ Done root later after item ∧
      ∀ other ∈ items, Done root later now other →
        Done root later after other := by
  have goal_eq {other : Item} (otherMember : other ∈ items)
      (same : item.entry root = other.entry root) :
      restored root later other = restored root later item := by
    rw [restored, restored, same,
      layout.same_of_entry member otherMember same]
  have leaf : ¬ IsDirIn (some (savedNode item.node)) := by
    simp [IsDirIn, savedNode_isDir, layout.leaves item member]
  have done : after.fs.node? (item.entry root) =
      restored root later item := by
    rw [puts.here]
    rcases restoring.nodes (item.entry root) with same | ⟨other, otherMember,
      isEntry, there⟩
    · have dirs : now.fs.IsDir (item.entry root) ↔
          later.fs.IsDir (item.entry root) := by
        unfold FileSystem.IsDir
        rw [same]
      rw [restored, same]
      simp only [dirs]
    · rw [goal_eq otherMember isEntry] at there
      by_cases isDir : later.fs.IsDir (item.entry root)
      · rw [there, restored, if_pos isDir]
        split
        · rfl
        · rename_i notDir
          refine absurd ?_ notDir
          unfold FileSystem.IsDir
          rw [there, restored, if_pos isDir]
          exact isDir
      · rw [there, restored, if_neg isDir, if_neg]
        unfold FileSystem.IsDir
        rw [there, restored, if_neg isDir]
        exact leaf
  refine ⟨⟨puts.cwd.trans restoring.cwd, puts.quiet, fun loc => ?_⟩, done, ?_⟩
  · by_cases same : loc = item.entry root
    · exact Or.inr ⟨item, member, same, same ▸ done⟩
    · rw [puts.others loc same]
      exact restoring.nodes loc
  · intro other otherMember wasDone
    by_cases same : item.entry root = other.entry root
    · rw [Done, ← same, done, goal_eq otherMember same]
    · rw [Done, puts.others _ (Ne.symm same)]
      exact wasDone

/-- A link is copied over anything but a directory. -/
theorem copyLink_puts {src dst : Bytes} {parent : Loc} {target : Name}
    {spots : List Loc} (reaches : Reaches top spots now dst parent)
    (member : lastName dst :: parent ∈ spots) (silent : now.faults = [])
    (nonempty : target ≠ []) (found : now.readlink src = .ok target) :
    Puts (lastName dst :: parent) (some (.symlink (linkTarget target))) now
      (finalState (copyLink src dst now)) := by
  have unlinked := reaches.unlink_puts silent
  have still := reaches.same (unlinked.sameClear member)
  have hasTarget : linkTarget target ≠ [] := by
    simpa [linkTarget] using nonempty
  have isDir_iff : (finalState (Disk.unlink dst now)).fs.IsDir
      (lastName dst :: parent) ↔ now.fs.IsDir (lastName dst :: parent) := by
    unfold FileSystem.IsDir
    rw [unlinked.here]
    split
    · rfl
    · rename_i notDir
      exact iff_of_false (by simp [IsDirIn]) notDir
  have linked := still.symlink_puts unlinked.quiet hasTarget (by
    intro notDir
    rw [unlinked.here, if_neg (fun isDir => notDir (isDir_iff.mpr isDir))])
  have isFinal : finalState (copyLink src dst now) =
      finalState (Disk.symlink (linkTarget target) dst
        (finalState (Disk.unlink dst now))) := by
    rw [copyLink_eq found]
    cases Disk.symlink (linkTarget target) dst
      (finalState (Disk.unlink dst now)) <;> rfl
  rw [isFinal]
  refine ⟨linked.cwd.trans unlinked.cwd, linked.quiet, ?_, ?_⟩
  · intro loc differs
    rw [linked.others loc differs, unlinked.others loc differs]
  · rw [linked.here]
    simp only [isDir_iff]
    split
    · rename_i isDir
      rw [unlinked.here, if_pos isDir]
    · rfl

theorem makeParent_same {dst : Bytes} {parent : Loc} {spots : List Loc}
    (reaches : Reaches top spots now dst parent) (silent : now.faults = []) :
    SameNodes now (finalState (makeParent dst now)) ∧
      (finalState (makeParent dst now)).faults = [] :=
  ⟨reaches.mkdirs_same 493, mkdirs_quiet _ 493 silent⟩

/-- Restoring an item from its copy. -/
theorem restoreEntry_puts (layout : Layout root backup top items start)
    (member : item ∈ items) {full : Bytes}
    (reaches : Reaches top (entries root items) now
      (joinPath root item.path) item.parent) (silent : now.faults = [])
    (rooted : Rooted now backup top) (under : Under backup full item.names)
    (copy : now.fs.node? (descend top item.names) =
      some (savedNode item.node)) :
    Puts (item.entry root) (some (savedNode item.node)) now
      (finalState (restoreEntry root item.path full (savedNode item.node)
        now)) := by
  have names := layout.normal item member
  obtain ⟨same, quiet⟩ := makeParent_same reaches silent
  have stillReaches := reaches.same same.sameClear
  have stillRooted : Rooted (finalState (makeParent
      (joinPath root item.path) now)) backup top :=
    rooted.of_outside same.cwd fun loc _ => congrFun same.nodes loc
  have stillCopy : (finalState (makeParent (joinPath root item.path)
      now)).fs.node? (descend top item.names) = some (savedNode item.node) :=
    (congrFun same.nodes _).trans copy
  have spot : lastName (joinPath root item.path) :: item.parent ∈
      entries root items := List.mem_map_of_mem member
  refine Puts.of_same same ?_
  unfold restoreEntry
  change Puts _ _ _ (finalState (EStateM.bind _ _ now))
  unfold EStateM.bind
  change Puts _ _ _ (finalState ((_ : DiskIo Unit)
    (finalState (makeParent (joinPath root item.path) now))))
  generalize finalState (makeParent (joinPath root item.path) now) = ready at *
  have twice := savedNode_twice item.node
  have isLeaf := layout.leaves item member
  have hasTarget := layout.targets item member
  generalize isNode : item.node = node at *
  cases node with
  | dir mode => cases isLeaf
  | file content mode =>
      have isFile : ready.stat full = .ok (.file content (mode % 512)) := by
        have resolved := stillRooted.resolve_of_file under names
          (FileSystem.leaf?_eq_file.mpr ⟨mode % 512, stillCopy⟩)
        unfold Disk.stat
        rw [resolved]
        dsimp only
        rw [stillCopy]
        rfl
      have written := stillReaches.writeFile_puts quiet content (mode % 512)
      change Puts _ _ ready (finalState (copyFile full _ ready))
      rw [copyFile_eq isFile, Nat.mod_mod]
      exact written
  | symlink target =>
      have isLink : ready.readlink full = .ok (linkTarget target) :=
        (stillRooted.readlink_eq_ok under names
          (Plain.of_exists (by rw [stillCopy]; simp))).mpr
            (FileSystem.leaf?_eq_link.mpr stillCopy)
      have nonempty : linkTarget target ≠ [] := by
        simp only [ne_eq, Node.symlink.injEq] at hasTarget
        simpa [linkTarget] using hasTarget
      have copied := copyLink_puts stillReaches spot quiet nonempty isLink
      have again : linkTarget (linkTarget target) = linkTarget target := by
        simpa [savedNode] using twice
      rw [again] at copied
      exact copied

/-! ## The whole tree -/

/-- A path relative to the backup directory, and its names. -/
def Relative (rel : Bytes) (names : List Name) : Prop :=
  (rel = [] ∧ names = []) ∨ (components rel = names ∧ Names names)

def dirPath (backup rel : Bytes) : Bytes :=
  if rel = [] then backup else joinPath backup rel

theorem dirFront_of_names {rel : Bytes} (names : Names (components rel)) :
    dirFront rel = components rel := by
  unfold dirFront
  rw [if_neg]
  intro trailing
  have ends := (components_trailing trailing).1
  refine (names.valid [] ?_).1 rfl
  rw [ends]
  simp

theorem Relative.child {rel : Bytes} {names : List Name} {name : Name}
    (isRel : Relative rel names) (valid : ValidName name) :
    components (childPath rel name) = names ++ [name] := by
  have relative : name.head? ≠ some 47 := fun slash =>
    valid.2.2.2 (List.mem_of_mem_head? slash)
  unfold childPath
  rcases isRel with ⟨rfl, rfl⟩ | ⟨rfl, isNames⟩
  · rw [if_pos rfl, components_of_valid valid]
    rfl
  · have nonempty := (names_relative isNames).1
    rw [if_neg nonempty, components_joinPath nonempty valid.1 relative,
      dirFront_of_names isNames, components_of_valid valid]

theorem Relative.names_child {rel : Bytes} {names : List Name} {name : Name}
    (isRel : Relative rel names) (valid : ValidName name) :
    Names (names ++ [name]) := by
  refine ⟨by simp, fun comp member => ?_⟩
  rcases List.mem_append.mp member with above | isLast
  · rcases isRel with ⟨-, rfl⟩ | ⟨-, isNames⟩
    · cases above
    · exact isNames.valid comp above
  · rwa [List.mem_singleton.mp isLast]

theorem Relative.under {rel : Bytes} {names : List Name} {name : Name}
    (isRel : Relative rel names) (rooted : Rooted now backup top)
    (valid : ValidName name) :
    Under backup (joinPath (dirPath backup rel) name) (names ++ [name]) := by
  have relative : name.head? ≠ some 47 := fun slash =>
    valid.2.2.2 (List.mem_of_mem_head? slash)
  unfold dirPath
  rcases isRel with ⟨rfl, rfl⟩ | ⟨rfl, isNames⟩
  · rw [if_pos rfl, List.nil_append, ← components_of_valid valid]
    have joined := Under.joinPath rooted.nonempty valid.1 relative
    rwa [components_of_valid valid] at joined ⊢
  · obtain ⟨nonempty, relRelative⟩ := names_relative isNames
    rw [if_neg nonempty]
    have toDir := Under.joinPath rooted.nonempty nonempty relRelative
    have joined := toDir.join isNames valid.1 relative
    rwa [components_of_valid valid] at joined

/-- The directory is listed. -/
theorem Relative.readdir {rel : Bytes} {names : List Name}
    (isRel : Relative rel names)
    (clear : ClearDir top (entries root items) now backup)
    (isDir : now.fs.IsDir (descend top names)) :
    now.readdir (dirPath backup rel) =
      .ok (now.fs.children (descend top names)) := by
  have rooted := clear.rooted
  have resolved : now.resolve (dirPath backup rel) =
      .ok (descend top names) := by
    unfold dirPath
    rcases isRel with ⟨rfl, rfl⟩ | ⟨rfl, isNames⟩
    · rw [if_pos rfl]
      refine resolve_eq_ok_iff.mpr ⟨clear.nonempty, ?_⟩
      have leads := rooted.leads
      rwa [dirFront, if_neg clear.noTrailing] at leads
    · obtain ⟨nonempty, relRelative⟩ := names_relative isNames
      rw [if_neg nonempty]
      have under := Under.joinPath rooted.nonempty nonempty relRelative
      refine resolve_eq_ok_iff.mpr
        ⟨under.path_ne_nil isNames.nonempty, ?_⟩
      rw [under.base, under.split]
      exact rooted.leads.append (walk_descend isNames.valid isDir)
  unfold Disk.readdir
  rw [resolved]
  dsimp only
  rw [if_pos isDir]

/-- What is done once some of a directory's entries are still to come. -/
structure Partly (root : Bytes) (top : Loc) (items : List Item)
    (later first : Disk Content) (at_ : List Name) (depth : Nat)
    (rest : List Name) (now : Disk Content) : Prop where
  restoring : Restoring root items later now
  stays : ∀ item ∈ items, Done root later first item → Done root later now item
  listed : ∀ name ∈ rest, later.fs.node? (name :: descend top at_) ≠ none
  through : ∀ item ∈ items, ∀ name tail, item.names = at_ ++ name :: tail →
    tail.length ≤ depth → name ∉ rest → Done root later now item

theorem restoreEntry_ok (root rel full : Bytes) (node : Node Content)
    (now : Disk Content) :
    restoreEntry root rel full node now =
      .ok () (finalState (restoreEntry root rel full node now)) := by
  cases node <;> rfl

/-- What a restore of a directory of the backup has done. -/
structure Restores (root : Bytes) (items : List Item)
    (later before : Disk Content) (at_ : List Name) (fuel : Nat)
    (after : Disk Content) : Prop where
  restoring : Restoring root items later after
  stays : ∀ item ∈ items,
    Done root later before item → Done root later after item
  through : ∀ item ∈ items, ∀ name tail, item.names = at_ ++ name :: tail →
    tail.length < fuel → Done root later after item

theorem exists_of_prefix {fs : FileSystem Content} {cut names : List Name}
    (exists_ : fs.node? (descend top names) ≠ none) (isCut : cut <+: names) :
    fs.node? (descend top cut) ≠ none := by
  by_cases same : cut = names
  · rwa [same]
  · obtain ⟨mode, isNode⟩ := FileSystem.isDir_iff.mp
      (FileSystem.isDir_of_cut exists_ isCut same)
    simp [isNode]

/-- A directory of the backup, as one entry of a directory. -/
theorem Partly.dir {at_ rest : List Name} {name : Name} {fuel : Nat}
    {first before : Disk Content}
    (layout : Layout root backup top items start)
    (ready : Ready root backup top items later)
    (partly : Partly root top items later first at_ fuel (name :: rest)
      before)
    (isDir : later.fs.IsDir (descend top (at_ ++ [name])))
    (restores : Restores root items later before (at_ ++ [name]) fuel after) :
    Partly root top items later first at_ fuel rest after := by
  refine ⟨restores.restoring, ?_, ?_, ?_⟩
  · intro item member wasDone
    exact restores.stays item member (partly.stays item member wasDone)
  · exact fun other member => partly.listed other
      (List.mem_cons_of_mem _ member)
  · intro item member other tail isNames short notLater
    by_cases here : other = name
    · subst here
      cases tail with
      | nil =>
          obtain ⟨mode, isNode⟩ := FileSystem.isDir_iff.mp isDir
          rw [← isNames, ready.copies item member,
            Option.some.injEq] at isNode
          have isLeaf := layout.leaves item member
          rw [← savedNode_isDir, isNode] at isLeaf
          cases isLeaf
      | cons next tail =>
          refine restores.through item member next tail ?_ short
          rw [isNames, List.append_assoc]
          rfl
    · exact restores.stays item member (partly.through item member other tail
        isNames short (by simp [here, notLater]))

/-- A copy, as one entry of a directory. -/
theorem Partly.leaf {at_ rest : List Name} {name : Name} {fuel : Nat}
    {first before : Disk Content}
    (layout : Layout root backup top items start)
    (partly : Partly root top items later first at_ fuel (name :: rest)
      before)
    (member : item ∈ items) (isItem : item.names = at_ ++ [name])
    (puts : Puts (item.entry root) (some (savedNode item.node)) before
      after) :
    Partly root top items later first at_ fuel rest after := by
  obtain ⟨restoring, done, stays⟩ :=
    partly.restoring.puts layout member puts
  refine ⟨restoring, ?_, ?_, ?_⟩
  · intro other otherMember wasDone
    exact stays other otherMember (partly.stays other otherMember wasDone)
  · exact fun other otherMember => partly.listed other
      (List.mem_cons_of_mem _ otherMember)
  · intro other otherMember next tail isNames short notLater
    by_cases here : next = name
    · subst here
      have above : item.names <+: other.names := by
        rw [isItem, isNames]
        exact ⟨tail, by simp⟩
      obtain ⟨sameEntry, sameNode⟩ := layout.same_of_names member otherMember
        (layout.apart otherMember member above)
      rw [Done, restored, ← sameEntry, ← sameNode]
      exact done
    · exact stays other otherMember (partly.through other otherMember next
        tail isNames short (by simp [here, notLater]))

/-- A file or link of the backup. -/
theorem Partly.entry {at_ rest : List Name} {name : Name} {fuel : Nat}
    {first before : Disk Content} {rel : Bytes} {node : Node Content}
    (layout : Layout root backup top items start)
    (ready : Ready root backup top items later)
    (partly : Partly root top items later first at_ fuel (name :: rest)
      before)
    (isRel : Relative rel at_) (valid : ValidName name)
    (isNode : later.fs.node? (descend top (at_ ++ [name])) = some node)
    (isLeaf : node.isDir = false) :
    Ends (restoreEntry root (childPath rel name)
        (joinPath (dirPath backup rel) name) node before)
      (fun _ after => Partly root top items later first at_ fuel rest after)
      (fun _ _ => False) := by
  have same : SameClear top (entries root items) later before :=
    partly.restoring.sameClear
  obtain ⟨item, member, isItem⟩ :=
    ready.only (at_ ++ [name]) node (by simp) isNode isLeaf
  have isCopy := ready.copies item member
  rw [← isItem, isNode, Option.some.injEq] at isCopy
  have isPath : childPath rel name = item.path := by
    rw [← joinSlash_components (childPath rel name),
      ← joinSlash_components item.path, isRel.child valid, isItem]
    rfl
  have rooted := (ready.backup.same same).rooted
  have under := isRel.under rooted valid
  rw [isItem] at under
  have copy : before.fs.node? (descend top item.names) =
      some (savedNode item.node) :=
    (partly.restoring.below layout _).trans (ready.copies item member)
  have puts := restoreEntry_puts layout member
    ((ready.reaches item member).same same) partly.restoring.quiet rooted
    under copy
  rw [isPath, isCopy, restoreEntry_ok]
  exact partly.leaf layout member isItem.symm puts

theorem restoreTree_ends (layout : Layout root backup top items start)
    (ready : Ready root backup top items later) (fuel : Nat) {rel : Bytes}
    {at_ : List Name} (isRel : Relative rel at_)
    (isDir : later.fs.IsDir (descend top at_))
    (restoring : Restoring root items later now) :
    Ends (restoreTree fuel backup rel root now)
      (fun _ after => Restores root items later now at_ fuel after)
      (fun _ _ => False) := by
  induction fuel generalizing rel at_ now with
  | zero =>
      exact ⟨restoring, fun _ _ => id, fun _ _ _ _ _ short => by cases short⟩
  | succ fuel ih =>
      have clear := ready.backup.same restoring.sameClear
      have below := fun names => restoring.below layout names
      have stillDir : now.fs.IsDir (descend top at_) := by
        unfold FileSystem.IsDir
        rw [below]
        exact isDir
      have listing := isRel.readdir clear stillDir
      unfold restoreTree
      apply Ends.bindOk rfl
      rw [← dirPath, listing]
      dsimp only
      have initial : Partly root top items later now at_ fuel
          (now.fs.children (descend top at_)) now := by
        refine ⟨restoring, fun _ _ => id, ?_, ?_⟩
        · intro name member
          have exists_ := FileSystem.mem_children.mp member
          rwa [← descend_concat, below, descend_concat] at exists_
        · intro item member name tail isNames _ notListed
          have copy := ready.copies item member
          refine absurd (FileSystem.mem_children.mpr ?_) notListed
          rw [← descend_concat, below]
          refine exists_of_prefix (by rw [copy]; simp) ?_
          rw [isNames]
          exact ⟨tail, by simp⟩
      refine Ends.mono (Ends.forM initial ?_) ?_ (fun _ _ => id)
      · intro name rest before partly
        have isListed := partly.listed name List.mem_cons_self
        have valid := FileSystem.validName isListed
        rw [← descend_concat] at isListed
        have names := isRel.names_child valid
        have rooted := (ready.backup.same
          partly.restoring.sameClear).rooted
        have under := isRel.under rooted valid
        obtain ⟨node, isNode⟩ := Option.ne_none_iff_exists'.mp isListed
        have isNodeNow := (partly.restoring.below layout _).trans isNode
        have looked := (rooted.lstat_eq_ok under names
          (Plain.of_exists (by rw [isNodeNow]; simp))).mpr isNodeNow
        apply Ends.bindOk rfl
        rw [looked]
        cases node with
        | dir mode =>
            have childIsDir : later.fs.IsDir (descend top (at_ ++ [name])) :=
              FileSystem.isDir_iff.mpr ⟨mode, isNode⟩
            refine (ih (Or.inr ⟨isRel.child valid, names⟩) childIsDir
              partly.restoring).mono ?_ (fun _ _ => id)
            intro _ after restores
            exact partly.dir layout ready childIsDir restores
        | file content mode =>
            exact partly.entry layout ready isRel valid isNode rfl
        | symlink target =>
            exact partly.entry layout ready isRel valid isNode rfl
      · intro _ after partly
        refine ⟨partly.restoring, partly.stays, ?_⟩
        intro item member name tail isNames short
        exact partly.through item member name tail isNames
          (Nat.le_of_lt_succ short) List.not_mem_nil

/-- A restore of the whole backup leaves every item restored. -/
theorem restoreTree_done (layout : Layout root backup top items start)
    (ready : Ready root backup top items later) :
    Restoring root items later
        (finalState (restoreTree (later.fs.depth + 1) backup [] root later)) ∧
      ∀ item ∈ items, Done root later
        (finalState (restoreTree (later.fs.depth + 1) backup [] root later))
        item := by
  have isRel : Relative [] [] := Or.inl ⟨rfl, rfl⟩
  have fresh : Restoring root items later later :=
    ⟨rfl, ready.quiet, fun _ => Or.inl rfl⟩
  have ends := restoreTree_ends layout ready (later.fs.depth + 1) isRel
    ready.backup.rooted.isDir fresh
  have restores : Restores root items later later [] (later.fs.depth + 1)
      (finalState (restoreTree (later.fs.depth + 1) backup [] root
        later)) := by
    cases run : restoreTree (later.fs.depth + 1) backup [] root later with
    | ok value after => rwa [run] at ends
    | error failure after =>
        rw [run] at ends
        exact ends.elim
  refine ⟨restores.restoring, fun item member => ?_⟩
  have nonempty := (layout.normal item member).nonempty
  obtain ⟨name, tail, isNames⟩ := List.exists_cons_of_ne_nil nonempty
  apply restores.through item member name tail isNames
  have copied : later.fs.node? (descend top item.names) ≠ none := by
    rw [ready.copies item member]
    simp
  have short := FileSystem.length_le_depth copied
  rw [isNames, descend] at short
  simp at short
  omega

/-! ## What is put back -/

/-- The same type, bytes, link target and permission bits. -/
def SameMeta : Node Content → Node Content → Prop
  | .dir mode, .dir other => mode % 4096 = other % 4096
  | .file content mode, .file bytes other =>
      content = bytes ∧ mode % 4096 = other % 4096
  | .symlink target, .symlink other => target = other
  | _, _ => False

instance (node other : Node Content) : Decidable (SameMeta node other) :=
  match node, other with
  | .dir mode, .dir other =>
      inferInstanceAs (Decidable (mode % 4096 = other % 4096))
  | .file _ _, .file _ _ => inferInstanceAs (Decidable (_ ∧ _))
  | .symlink target, .symlink other =>
      inferInstanceAs (Decidable (target = other))
  | .dir _, .file _ _ => .isFalse id
  | .dir _, .symlink _ => .isFalse id
  | .file _ _, .dir _ => .isFalse id
  | .file _ _, .symlink _ => .isFalse id
  | .symlink _, .dir _ => .isFalse id
  | .symlink _, .file _ _ => .isFalse id

def PutBack (root : Bytes) (after : Disk Content) (item : Item) : Prop :=
  match after.lstat (joinPath root item.path) with
  | .ok node => SameMeta item.node node
  | .error _ => False

instance (root : Bytes) (after : Disk Content) (item : Item) :
    Decidable (PutBack root after item) :=
  match found : after.lstat (joinPath root item.path) with
  | .ok node => decidable_of_iff (SameMeta item.node node)
      (by rw [PutBack, found])
  | .error _ => .isFalse (by rw [PutBack, found]; exact id)

theorem putBack_iff : PutBack root after item ↔
    ∃ node, after.lstat (joinPath root item.path) = .ok node ∧
      SameMeta item.node node := by
  unfold PutBack
  cases after.lstat (joinPath root item.path) <;> simp

/-- A directory stands at the item. -/
def Displaced (root : Bytes) (disk : Disk Content) (item : Item) : Prop :=
  match disk.lstat (joinPath root item.path) with
  | .ok node => node.isDir = true
  | .error _ => False

instance (root : Bytes) (disk : Disk Content) (item : Item) :
    Decidable (Displaced root disk item) :=
  match found : disk.lstat (joinPath root item.path) with
  | .ok node => decidable_of_iff (node.isDir = true)
      (by rw [Displaced, found])
  | .error _ => .isFalse (by rw [Displaced, found]; exact id)

theorem displaced_iff {parent : Loc} {spots : List Loc}
    (reaches : Reaches top spots later (joinPath root item.path) parent) :
    Displaced root later item ↔
      later.fs.IsDir (lastName (joinPath root item.path) :: parent) := by
  rw [FileSystem.isDir_iff]
  simp only [← reaches.lstat]
  unfold Displaced
  cases later.lstat (joinPath root item.path) with
  | ok node => cases node <;> simp [Node.isDir]
  | error errno => simp

/-- The copy of a file or link holds all of it. -/
def CopiedWhole : Node Content → Prop
  | .dir _ => True
  | .file _ mode => mode % 4096 < 512
  | .symlink target => target.length ≤ 1023

instance : (node : Node Content) → Decidable (CopiedWhole node)
  | .dir _ => .isTrue trivial
  | .file _ mode => inferInstanceAs (Decidable (mode % 4096 < 512))
  | .symlink target => inferInstanceAs (Decidable (target.length ≤ 1023))

theorem sameMeta_savedNode_iff {node : Node Content} :
    SameMeta node (savedNode node) ↔ CopiedWhole node := by
  cases node with
  | dir mode => simp [SameMeta, savedNode, CopiedWhole]
  | file content mode =>
      simp only [SameMeta, savedNode, CopiedWhole, true_and]
      omega
  | symlink target =>
      simp only [SameMeta, savedNode, CopiedWhole, linkTarget]
      rw [eq_comm, List.take_eq_self_iff]

theorem not_sameMeta_dir {node other : Node Content}
    (isLeaf : node.isDir = false) (isDir : other.isDir = true) :
    ¬ SameMeta node other := by
  cases node <;> cases other <;> simp_all [SameMeta, Node.isDir]

/-- A root directory with a backup directory, a program and a link. -/
def shelf (mode : Nat) (target : Bytes) : Disk Content :=
  ⟨(((FileSystem.bare Content).replace (ascii "saved") []
      (some (.dir 493))).replace (ascii "su") []
        (some (.file (Content.raw (ascii "ELF")) mode))).replace
          (ascii "sh") [] (some (.symlink target)), [], []⟩

def shelfItems (mode : Nat) (target : Bytes) : List Item :=
  [⟨ascii "su", [], .file (Content.raw (ascii "ELF")) mode⟩,
    ⟨ascii "sh", [], .symlink target⟩]

/-- The backups of both. -/
def shelving (mode : Nat) (target : Bytes) :
    EStateM.Result Failure (Disk Content) Unit :=
  ((shelfItems mode target).map Item.path).forM
    (backupFile [47] (ascii "/saved")) (shelf mode target)

/-- The program replaced, and the link removed. -/
def replaced (saved : Disk Content) (node : Node Content) : Disk Content :=
  { saved with
    fs := (saved.fs.replace (ascii "su") [] (some node)).replace
      (ascii "sh") [] none }

theorem later_replaced (mode : Nat) (target : Bytes) (saved : Disk Content)
    (node : Node Content) (quiet : saved.faults = []) :
    Later [47] (shelfItems mode target) saved (replaced saved node) := by
  refine ⟨rfl, quiet, fun loc away => ?_⟩
  have notSu : loc ≠ ascii "su" :: [] := by
    rintro rfl
    exact away _ List.mem_cons_self List.suffix_rfl
  have notSh : loc ≠ ascii "sh" :: [] := by
    rintro rfl
    exact away _ (List.mem_cons_of_mem _ List.mem_cons_self) List.suffix_rfl
  unfold replaced
  rw [FileSystem.node?_replace_of_ne _ notSh,
    FileSystem.node?_replace_of_ne _ notSu]

theorem reaches_root {dir : Loc} {spots : List Loc} {disk : Disk Content}
    {path : Bytes} (isBase : baseOf disk.cwd path = [])
    (isRooted : (components path).dropLast = [[]])
    (valid : ValidName (lastName path))
    (isDir : IsDirIn (lookClear disk.fs dir spots [])) :
    Reaches dir spots disk path [] := by
  refine ⟨⟨0, Nat.zero_le _, ?_⟩, isDir, valid⟩
  rw [isBase, isRooted]
  exact .dot isDir (by decide) (.nil _)

theorem shelf_layout :
    Layout [47] (ascii "/saved") [ascii "saved"] (shelfItems 420 (ascii "su"))
      (shelf 420 (ascii "su")) := by
  have rootIsDir : IsDirIn (lookClear (shelf 420 (ascii "su")).fs
      [ascii "saved"] (entries [47] (shelfItems 420 (ascii "su"))) []) := by
    decide +kernel
  constructor
  · decide
  · intro item member
    simp only [shelfItems, List.mem_cons, List.not_mem_nil, or_false]
      at member
    rcases member with rfl | rfl
    · exact ⟨by decide +kernel, by decide +kernel⟩
    · exact ⟨by decide +kernel, by decide +kernel⟩
  · intro item member
    simp only [shelfItems, List.mem_cons, List.not_mem_nil, or_false]
      at member
    rcases member with rfl | rfl
    · exact reaches_root (by decide +kernel) (by decide +kernel)
        (by decide +kernel) rootIsDir
    · exact reaches_root (by decide +kernel) (by decide +kernel)
        (by decide +kernel) rootIsDir
  · decide +kernel
  · decide +kernel
  · decide +kernel
  · decide +kernel
  · refine ⟨by decide, by decide, ⟨0, Nat.zero_le _, ?_⟩, by decide +kernel⟩
    have there : lookClear (shelf 420 (ascii "su")).fs [ascii "saved"]
        (entries [47] (shelfItems 420 (ascii "su"))) [ascii "saved"] =
          some (.dir 493) := by
      decide +kernel
    have isBase : baseOf (shelf 420 (ascii "su")).cwd (ascii "/saved") = [] := by
      decide +kernel
    have isWay : components (ascii "/saved") = [[], ascii "saved"] := by
      decide +kernel
    rw [isBase, isWay]
    exact .dot rootIsDir (by decide) (.entry rootIsDir (by decide) (by decide)
      there rfl (.nil _))
  · decide +kernel

/-- What a restore leaves when the link was removed and the program replaced
by a node. -/
def reshelved (mode : Nat) (target : Bytes) (node : Node Content) :
    Disk Content :=
  let later := replaced (finalState (shelving mode target)) node
  finalState (restoreTree (later.fs.depth + 1) (ascii "/saved") [] [47] later)

end SaltOS.Txn
