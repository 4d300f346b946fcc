import SaltOS.Base.Below
import SaltOS.Base.Written

/-!
# Ways past some entries

Some entries of a file system may be replaced by anything, and so may what
lies below one directory.  A path whose way passes none of them keeps leading
where it did.  The calls on such a path put one node at its entry.
-/

namespace SaltOS.Util

open Lib Disk

variable {γ : Type} {disk before middle after : Disk γ} {path : Bytes}
  {dir parent loc : Loc} {spots : List Loc}

/-- Strictly below the directory, or at or below one of the entries. -/
def Hidden (dir : Loc) (spots : List Loc) (loc : Loc) : Prop :=
  StrictlyBelow dir loc ∨ ∃ spot ∈ spots, spot <:+ loc

instance (dir : Loc) (spots : List Loc) (loc : Loc) :
    Decidable (Hidden dir spots loc) :=
  inferInstanceAs (Decidable (_ ∨ _))

/-- The lookup that does not see what is hidden. -/
def lookClear (fs : FileSystem γ) (dir : Loc) (spots : List Loc) (loc : Loc) :
    Option (Node γ) :=
  if Hidden dir spots loc then none else fs.node? loc

theorem lookClear_some {fs : FileSystem γ} {node : Node γ}
    (found : lookClear fs dir spots loc = some node) :
    ¬ Hidden dir spots loc ∧ fs.node? loc = some node := by
  unfold lookClear at found
  split at found
  · cases found
  · rename_i clear
    exact ⟨clear, found⟩

/-- Nothing has changed but what is hidden. -/
structure SameClear (dir : Loc) (spots : List Loc) (before after : Disk γ) :
    Prop where
  cwd : after.cwd = before.cwd
  nodes : ∀ loc, ¬ Hidden dir spots loc →
    after.fs.node? loc = before.fs.node? loc

theorem SameClear.look (same : SameClear dir spots before after) :
    lookClear after.fs dir spots = lookClear before.fs dir spots := by
  funext loc
  unfold lookClear
  split
  · rfl
  · rename_i clear
    exact same.nodes loc clear

/-- The last name of a path. -/
def lastName (path : Bytes) : Name :=
  (components path).getLastD []

/-- The components of a path are those before the last name, and it. -/
theorem components_eq_lastName (path : Bytes) :
    components path = (components path).dropLast ++ [lastName path] :=
  (dropLast_append_getLastD (components_ne_nil path) []).symm

/-- The directory of a path that ends in a name is a cut of the way to it. -/
theorem dirname_cut_front (valid : ValidName (lastName path))
    (proper : dirname path ≠ ascii "." ∧ dirname path ≠ ascii "/") :
    ∃ cut, cut <+: (components path).dropLast ∧
      dirname path = joinSlash cut ∧ joinSlash cut ≠ [] := by
  have isTrimmed : trimmed path = components path := by
    unfold trimmed
    rw [components_eq_lastName, List.rdropWhile_concat_neg]
    simpa using valid.1
  obtain ⟨front, -, -, isDir, isPath⟩ := dirname_cut proper
  have notEmpty : dirname path ≠ [] := by
    rw [isDir]
    exact isPath
  clear isDir
  simp only [dirname, isTrimmed] at proper notEmpty ⊢
  split_ifs at proper notEmpty ⊢ with noBody empty noFront noDir
  · exact absurd rfl proper.1
  · exact absurd rfl proper.2
  · exact absurd rfl proper.1
  · exact absurd rfl proper.2
  · exact ⟨_, List.rdropWhile_prefix _ _, rfl, notEmpty⟩

/-- The directory that holds the entry of a path is reached past everything
hidden. -/
structure Reaches (dir : Loc) (spots : List Loc) (disk : Disk γ)
    (path : Bytes) (parent : Loc) : Prop where
  walked : ∃ links, links ≤ maxSymlinks ∧
    Walk (lookClear disk.fs dir spots) (baseOf disk.cwd path)
      (components path).dropLast parent links
  isDir : IsDirIn (lookClear disk.fs dir spots parent)
  valid : ValidName (lastName path)

namespace Reaches

theorem same (reaches : Reaches dir spots before path parent)
    (same : SameClear dir spots before after) :
    Reaches dir spots after path parent := by
  refine ⟨?_, ?_, reaches.valid⟩
  · rw [same.look, same.cwd]
    exact reaches.walked
  · rw [same.look]
    exact reaches.isDir

theorem path_ne_nil (reaches : Reaches dir spots disk path parent) :
    path ≠ [] := by
  rintro rfl
  exact reaches.valid.1 rfl

theorem leads (reaches : Reaches dir spots disk path parent) :
    ∃ links, links ≤ maxSymlinks ∧ Walk disk.fs.node?
      (baseOf disk.cwd path) (components path).dropLast parent links := by
  obtain ⟨links, within, walked⟩ := reaches.walked
  exact ⟨links, within, walked.grow fun loc node found =>
    (lookClear_some found).2⟩

theorem parentIsDir (reaches : Reaches dir spots disk path parent) :
    disk.fs.IsDir parent := by
  obtain ⟨mode, found⟩ := isDirIn_iff.mp reaches.isDir
  exact isDirIn_iff.mpr ⟨mode, (lookClear_some found).2⟩

theorem slot (reaches : Reaches dir spots disk path parent) :
    disk.slot path (components path) = .ok (parent, lastName path) := by
  obtain ⟨links, within, walked⟩ := reaches.leads
  exact slot_of_walk within walked reaches.parentIsDir

theorem deterministic {other : Loc}
    (reaches : Reaches dir spots disk path parent)
    (again : Reaches dir spots disk path other) : parent = other := by
  have slots := reaches.slot
  rw [again.slot] at slots
  exact (Prod.mk.inj (Except.ok.inj slots)).1.symm

theorem lastName_not_special (reaches : Reaches dir spots disk path parent) :
    ¬ (IsDot (lastName path) ∨ lastName path = dotDot) :=
  not_or.mpr ⟨reaches.valid.notDot, reaches.valid.2.2.1⟩

theorem entryLoc_eq (reaches : Reaches dir spots disk path parent) :
    entryLoc parent (lastName path) = lastName path :: parent := by
  have notUp : lastName path ≠ dotDot := reaches.valid.2.2.1
  rw [entryLoc, if_neg reaches.valid.notDot, if_neg notUp]

theorem lstat (reaches : Reaches dir spots disk path parent) {node : Node γ} :
    disk.lstat path = .ok node ↔
      disk.fs.node? (lastName path :: parent) = some node := by
  unfold Disk.lstat
  rw [if_neg reaches.path_ne_nil, reaches.slot]
  dsimp only
  rw [reaches.entryLoc_eq]
  cases disk.fs.node? (lastName path :: parent) <;> simp

theorem readlink (reaches : Reaches dir spots disk path parent)
    {target : Name}
    (found : disk.fs.node? (lastName path :: parent) =
      some (.symlink target)) : disk.readlink path = .ok target := by
  unfold Disk.readlink
  rw [reaches.lstat.mpr found]

theorem stat_of_file (reaches : Reaches dir spots disk path parent)
    {content : γ} {mode : Nat}
    (found : disk.fs.node? (lastName path :: parent) =
      some (.file content mode)) :
    disk.stat path = .ok (.file content mode) := by
  obtain ⟨links, within, walked⟩ := reaches.leads
  have entry : Walk disk.fs.node? parent [lastName path]
      (lastName path :: parent) 0 :=
    .entry reaches.parentIsDir reaches.valid.notDot reaches.valid.2.2.1 found
      rfl (.nil _)
  have resolved : disk.resolve path = .ok (lastName path :: parent) := by
    refine resolve_eq_ok_iff.mpr ⟨reaches.path_ne_nil, links, within, ?_⟩
    rw [components_eq_lastName path]
    exact walked.append entry
  unfold Disk.stat
  rw [resolved]
  dsimp only
  rw [found]

/-- A cut of the way to the directory leads somewhere. -/
theorem resolve_cut (reaches : Reaches dir spots disk path parent)
    {cut : List Name} (isCut : cut <+: (components path).dropLast)
    (nonempty : joinSlash cut ≠ []) :
    ∃ loc, disk.resolve (joinSlash cut) = .ok loc := by
  have isPathCut : cut <+: components path :=
    isCut.trans (List.dropLast_prefix _)
  have cutNonempty : cut ≠ [] := by
    rintro rfl
    exact nonempty rfl
  obtain ⟨links, within, walked⟩ := reaches.leads
  obtain ⟨rest, whole⟩ := isCut
  rw [← whole] at walked
  obtain ⟨loc, first, second, before, -, total⟩ := walked.of_append
  refine ⟨loc, resolve_eq_ok_iff.mpr ⟨nonempty, first, by omega, ?_⟩⟩
  rw [baseOf_cut isPathCut nonempty, components_cut isPathCut cutNonempty]
  exact before

/-- The entry does not lie below the directory either, unless it is one of
its own. -/
theorem entry_outside (reaches : Reaches dir spots disk path parent)
    (aside : parent ≠ dir) : ¬ StrictlyBelow dir (lastName path :: parent) := by
  rintro ⟨isBelow, differs⟩
  obtain ⟨mode, found⟩ := isDirIn_iff.mp reaches.isDir
  apply (lookClear_some found).1
  rcases List.suffix_cons_iff.mp isBelow with same | onParent
  · exact absurd same.symm differs
  · exact Or.inl ⟨onParent, aside⟩

/-- Making the directories above such a path makes nothing. -/
theorem mkdirs_same (reaches : Reaches dir spots disk path parent)
    (mode : Nat) :
    SameNodes disk (finalState
      (mkdirs (joinSlash (components path).dropLast) mode disk)) := by
  by_cases empty : joinSlash (components path).dropLast = []
  · rw [empty]
    exact ⟨rfl, rfl⟩
  · obtain ⟨loc, resolved⟩ :=
      reaches.resolve_cut List.prefix_rfl empty
    have made := mkdirs_made (joinSlash (components path).dropLast) mode disk
    exact ⟨made.grown.cwd, funext (made.nothing resolved)⟩

theorem makeDirname_same (reaches : Reaches dir spots disk path parent) :
    SameNodes disk (finalState (makeDirname path disk)) := by
  by_cases proper : dirname path ≠ ascii "." ∧ dirname path ≠ ascii "/"
  · obtain ⟨cut, isCut, isDir, nonempty⟩ :=
      dirname_cut_front reaches.valid proper
    obtain ⟨loc, resolved⟩ := reaches.resolve_cut isCut nonempty
    rw [← isDir] at resolved
    exact Util.makeDirname_same resolved
  · unfold makeDirname
    rw [if_neg proper]
    exact ⟨rfl, rfl⟩

end Reaches

/-- The directory itself is reached past everything hidden. -/
structure ClearDir (dir : Loc) (spots : List Loc) (disk : Disk γ)
    (path : Bytes) : Prop where
  nonempty : path ≠ []
  noTrailing : path.getLast? ≠ some 47
  walked : ∃ links, links ≤ maxSymlinks ∧
    Walk (lookClear disk.fs dir spots) (baseOf disk.cwd path)
      (components path) dir links
  isDir : IsDirIn (lookClear disk.fs dir spots dir)

namespace ClearDir

theorem same (clear : ClearDir dir spots before path)
    (same : SameClear dir spots before after) :
    ClearDir dir spots after path := by
  refine ⟨clear.nonempty, clear.noTrailing, ?_, ?_⟩
  · rw [same.look, same.cwd]
    exact clear.walked
  · rw [same.look]
    exact clear.isDir

theorem rooted (clear : ClearDir dir spots disk path) :
    Rooted disk path dir := by
  obtain ⟨links, within, walked⟩ := clear.walked
  obtain ⟨mode, found⟩ := isDirIn_iff.mp clear.isDir
  refine ⟨clear.nonempty, ⟨links, within, ?_⟩,
    isDirIn_iff.mpr ⟨mode, (lookClear_some found).2⟩⟩
  rw [dirFront, if_neg clear.noTrailing]
  apply walked.grow
  intro other node looked
  obtain ⟨notHidden, there⟩ := lookClear_some looked
  rw [lookAround_eq.2 fun isBelow => notHidden (Or.inl isBelow)]
  exact there

end ClearDir

/-! ## Calls on such a path, while the environment causes no faults -/

theorem mkdirs_quiet (path : Bytes) (mode : Nat) (silent : disk.faults = []) :
    (finalState (mkdirs path mode disk)).faults = [] := by
  have guard : Guard disk (baseOf disk.cwd path) (components path)
      (fun _ => True) :=
    fun _ _ _ _ _ _ _ _ _ => ⟨trivial, .inr fun _ => trivial⟩
  exact (endsIn_iff.mp
    (mkdirs_ends path mode guard fun _ _ _ => trivial)).quiet silent

theorem makeDirname_quiet (path : Bytes) (silent : disk.faults = []) :
    (finalState (makeDirname path disk)).faults = [] := by
  unfold makeDirname
  by_cases proper : dirname path ≠ ascii "." ∧ dirname path ≠ ascii "/"
  · rw [if_pos proper]
    exact mkdirs_quiet (dirname path) 493 silent
  · rw [if_neg proper]
    exact silent

/-- An entry that is no directory has a new node; a directory has stayed. -/
structure Puts (loc : Loc) (node : Option (Node γ)) (before after : Disk γ) :
    Prop where
  cwd : after.cwd = before.cwd
  quiet : after.faults = []
  others : ∀ other, other ≠ loc → after.fs.node? other = before.fs.node? other
  here : after.fs.node? loc =
    if before.fs.IsDir loc then before.fs.node? loc else node

theorem Puts.sameClear {node : Option (Node γ)}
    (puts : Puts loc node before after) (member : loc ∈ spots) :
    SameClear dir spots before after := by
  refine ⟨puts.cwd, fun other clear => puts.others other ?_⟩
  rintro rfl
  exact clear (Or.inr ⟨other, member, List.suffix_refl other⟩)

theorem SameNodes.sameClear (same : SameNodes before after) :
    SameClear dir spots before after :=
  ⟨same.cwd, fun loc _ => congrFun same.nodes loc⟩

/-- A call whose plan is known does what is planned. -/
theorem call_of_ok {plan : Disk γ → Except Errno (FileSystem γ)}
    {fs : FileSystem γ} (silent : disk.faults = [])
    (planned : plan disk = .ok fs) :
    call plan disk = .ok () (disk.tick fs) := by
  unfold call Disk.tick
  rw [silent, planned]
  rfl

theorem call_of_error {plan : Disk γ → Except Errno (FileSystem γ)}
    {errno : Errno} (silent : disk.faults = [])
    (planned : plan disk = .error errno) :
    call plan disk = .error errno (disk.tick disk.fs) := by
  unfold call Disk.tick
  rw [silent, planned]
  rfl

theorem puts_of_replaces {comps : List Name} {node : Option (Node γ)}
    {fs : FileSystem γ} {last : Name} (silent : disk.faults = [])
    (replaces : Replaces disk path comps node fs parent last)
    (notDir : ¬ disk.fs.IsDir (last :: parent)) :
    Puts (last :: parent) node disk (disk.tick fs) := by
  have looked := FileSystem.node?_replace replaces.replaceable node
  refine ⟨rfl, by simp [Disk.tick, silent], ?_, ?_⟩
  · intro other differs
    rw [Disk.tick, replaces.result, looked, if_neg differs]
  · rw [if_neg notDir, Disk.tick, replaces.result, looked, if_pos rfl]

theorem puts_nothing {node : Option (Node γ)} (silent : disk.faults = [])
    (stays : disk.fs.IsDir loc ∨ disk.fs.node? loc = node) :
    Puts loc node disk (disk.tick disk.fs) := by
  refine ⟨rfl, by simp [Disk.tick, silent], fun _ _ => rfl, ?_⟩
  split
  · rfl
  · rename_i notDir
    exact stays.resolve_left notDir

namespace Reaches

theorem unlink_puts (reaches : Reaches dir spots disk path parent)
    (silent : disk.faults = []) :
    Puts (lastName path :: parent) none disk
      (finalState (Disk.unlink path disk)) := by
  unfold Disk.unlink
  cases planned : unlinkPlan path disk with
  | ok fs =>
      rw [call_of_ok silent planned]
      obtain ⟨above, last, replaces, node, found, isLeaf⟩ :=
        unlinkPlan_ok planned
      have slots := replaces.isSlot
      rw [reaches.slot] at slots
      obtain ⟨rfl, rfl⟩ := Prod.mk.inj (Except.ok.inj slots)
      apply puts_of_replaces silent replaces
      simp [FileSystem.IsDir, found, IsDirIn, isLeaf]
  | error errno =>
      rw [call_of_error silent planned]
      apply puts_nothing silent
      unfold unlinkPlan at planned
      rw [if_neg reaches.path_ne_nil, reaches.slot] at planned
      dsimp only at planned
      rw [if_neg reaches.lastName_not_special] at planned
      cases found : disk.fs.node? (lastName path :: parent) with
      | none => exact Or.inr rfl
      | some node =>
          cases node with
          | dir mode => exact Or.inl (FileSystem.isDir_iff.mpr ⟨mode, found⟩)
          | file content mode => simp [found] at planned
          | symlink target => simp [found] at planned

/-- A link is made where nothing is. -/
theorem symlink_puts (reaches : Reaches dir spots disk path parent)
    (silent : disk.faults = []) {target : Name} (nonempty : target ≠ [])
    (free : ¬ disk.fs.IsDir (lastName path :: parent) →
      disk.fs.node? (lastName path :: parent) = none) :
    Puts (lastName path :: parent) (some (.symlink target)) disk
      (finalState (Disk.symlink target path disk)) := by
  unfold Disk.symlink
  cases planned : symlinkPlan target path disk with
  | ok fs =>
      rw [call_of_ok silent planned]
      obtain ⟨above, last, replaces, absent⟩ := symlinkPlan_ok planned
      have slots := replaces.isSlot
      rw [reaches.slot] at slots
      obtain ⟨rfl, rfl⟩ := Prod.mk.inj (Except.ok.inj slots)
      apply puts_of_replaces silent replaces
      simp [FileSystem.IsDir, absent, IsDirIn]
  | error errno =>
      rw [call_of_error silent planned]
      apply puts_nothing silent
      by_contra stays
      rw [not_or] at stays
      unfold symlinkPlan at planned
      rw [if_neg (not_or.mpr ⟨nonempty, reaches.path_ne_nil⟩),
        reaches.slot] at planned
      dsimp only at planned
      rw [if_neg reaches.valid.1, if_neg reaches.lastName_not_special,
        if_pos (free stays.1)] at planned
      cases planned

/-- A file takes the place of anything but a directory. -/
theorem rename_puts (reaches : Reaches dir spots disk path parent)
    (silent : disk.faults = []) (content : γ) (mode : Nat) :
    Puts (lastName path :: parent) (some (.file content mode)) disk
      (finalState (Disk.rename content mode path disk)) := by
  unfold Disk.rename
  cases planned : renamePlan content mode path disk with
  | ok fs =>
      rw [call_of_ok silent planned]
      obtain ⟨above, last, replaces, notDir⟩ := renamePlan_ok planned
      have slots := replaces.isSlot
      rw [reaches.slot] at slots
      obtain ⟨rfl, rfl⟩ := Prod.mk.inj (Except.ok.inj slots)
      exact puts_of_replaces silent replaces notDir
  | error errno =>
      rw [call_of_error silent planned]
      apply puts_nothing silent
      by_contra stays
      rw [not_or] at stays
      unfold renamePlan at planned
      rw [if_neg reaches.path_ne_nil, reaches.slot] at planned
      dsimp only at planned
      rw [if_neg reaches.valid.1, if_neg reaches.lastName_not_special,
        if_neg stays.1] at planned
      cases planned

theorem mkstemp_ok (reaches : Reaches dir spots disk path parent)
    (silent : disk.faults = []) :
    Disk.mkstemp path disk = .ok () (disk.tick disk.fs) := by
  apply call_of_ok silent
  unfold mkstempPlan
  rw [reaches.slot]

end Reaches

theorem Puts.of_same {node : Option (Node γ)} (same : SameNodes before middle)
    (puts : Puts loc node middle after) : Puts loc node before after := by
  have isDir : middle.fs.IsDir loc ↔ before.fs.IsDir loc := by
    unfold FileSystem.IsDir
    rw [same.nodes]
  refine ⟨puts.cwd.trans same.cwd, puts.quiet, ?_, ?_⟩
  · intro other differs
    rw [puts.others other differs, same.nodes]
  · rw [puts.here, same.nodes]
    simp only [isDir]

theorem makeDirname_ok (path : Bytes) (disk : Disk γ) :
    makeDirname path disk =
      .ok () (finalState (makeDirname path disk)) := by
  unfold makeDirname
  by_cases proper : dirname path ≠ ascii "." ∧ dirname path ≠ ascii "/"
  · rw [if_pos proper]
    rfl
  · rw [if_neg proper]
    rfl

theorem checked_finalState (what : String) (path : Bytes)
    (program : EStateM Errno (Disk γ) Unit) (disk : Disk γ) :
    finalState (checked what path program disk) =
      finalState (program disk) := by
  unfold checked
  change finalState (EStateM.bind _ _ disk) = _
  unfold EStateM.bind attempt
  cases program disk <;> rfl

/-- `salt_write_file` on such a path. -/
theorem Reaches.writeFile_puts
    (reaches : Reaches dir spots disk path parent)
    (silent : disk.faults = []) (content : γ) (mode : Nat) :
    Puts (lastName path :: parent) (some (.file content mode)) disk
      (finalState (writeFile path content mode disk)) := by
  have made := reaches.makeDirname_same
  have quiet := makeDirname_quiet path silent
  have returns := makeDirname_ok path disk
  generalize finalState (makeDirname path disk) = ready at *
  have still : Reaches dir spots ready path parent :=
    reaches.same made.sameClear
  have ticked : SameNodes ready (ready.tick ready.fs) := ⟨rfl, rfl⟩
  have quietThen : (ready.tick ready.fs).faults = [] := by
    simp [Disk.tick, quiet]
  have temporary : checked "mkstemp" (path ++ ascii ".salt-XXXXXX")
      (Disk.mkstemp path) ready = .ok () (ready.tick ready.fs) := by
    unfold checked
    change EStateM.bind _ _ ready = _
    unfold EStateM.bind attempt
    rw [still.mkstemp_ok quiet]
    rfl
  unfold writeFile
  change Puts _ _ disk (finalState (EStateM.bind _ _ disk))
  unfold EStateM.bind
  rw [returns]
  change Puts _ _ disk (finalState (EStateM.bind _ _ ready))
  unfold EStateM.bind
  rw [temporary]
  dsimp only
  rw [checked_finalState]
  exact ((still.same ticked.sameClear).rename_puts quietThen content
    mode).of_same (tick_same made rfl)

end SaltOS.Util
