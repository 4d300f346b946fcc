import Mathlib.Data.List.DropRight
import SaltOS.Lib.PathWalk
import SaltOS.Lib.Ends

/-!
# System calls on a file system

The calls of a process with a working directory.  A call that changes the
file system may also fail because the environment makes it fail: the disk
carries the list of such faults to come, one for each call.  Calls that only
read fail when the file system gives them reason to.

Permissions, file modes beyond what is stored, and limits on the length of
names and paths are left out.
-/

namespace SaltOS.Lib

structure Disk (γ : Type) where
  fs : FileSystem γ
  cwd : Loc
  faults : List Bool

namespace Disk

variable {γ : Type}

/-- The number of symbolic links one resolution may follow. -/
def maxSymlinks : Nat := 40

/-- `realpath`: the location a path leads to. -/
def resolve (disk : Disk γ) (path : Name) : Except Errno Loc :=
  if path = [] then .error .noent
  else walk disk.fs.node? maxSymlinks (baseOf disk.cwd path)
    (components path)

/-- The directory that the components but the last lead to, with the last
one. -/
def slot (disk : Disk γ) (path : Name) (comps : List Name) :
    Except Errno (Loc × Name) :=
  match walk disk.fs.node? maxSymlinks (baseOf disk.cwd path)
    comps.dropLast with
  | .error errno => .error errno
  | .ok parent =>
      if disk.fs.IsDir parent then .ok (parent, comps.getLastD [])
      else .error .notdir

/-- The location of an entry that is not followed if it is a link. -/
def entryLoc (parent : Loc) (last : Name) : Loc :=
  if IsDot last then parent
  else if last = dotDot then parent.tail
  else last :: parent

def lstat (disk : Disk γ) (path : Name) : Except Errno (Node γ) :=
  if path = [] then .error .noent
  else
    match disk.slot path (components path) with
    | .error errno => .error errno
    | .ok (parent, last) =>
        match disk.fs.node? (entryLoc parent last) with
        | none => .error .noent
        | some node => .ok node

def stat (disk : Disk γ) (path : Name) : Except Errno (Node γ) :=
  match disk.resolve path with
  | .error errno => .error errno
  | .ok loc =>
      match disk.fs.node? loc with
      | none => .error .noent
      | some node => .ok node

def readlink (disk : Disk γ) (path : Name) : Except Errno Name :=
  match disk.lstat path with
  | .error errno => .error errno
  | .ok (.symlink target) => .ok target
  | .ok _ => .error .inval

/-- `opendir` and `readdir`, without the dot entries. -/
def readdir (disk : Disk γ) (path : Name) : Except Errno (List Name) :=
  match disk.resolve path with
  | .error errno => .error errno
  | .ok loc =>
      if disk.fs.IsDir loc then .ok (disk.fs.children loc)
      else .error .notdir

/-- The whole contents of a file. -/
def contents (disk : Disk γ) (path : Name) : Except Errno γ :=
  match disk.stat path with
  | .error errno => .error errno
  | .ok (.file content _) => .ok content
  | .ok _ => .error .isdir

/-! ## Calls that change the file system -/

/-- The components without trailing slashes, as `mkdir` and `rmdir` take
them. -/
def trimmed (path : Name) : List Name :=
  (components path).rdropWhile (· = [])

def mkdirPlan (path : Name) (mode : Nat) (disk : Disk γ) :
    Except Errno (FileSystem γ) :=
  if path = [] then .error .noent
  else if trimmed path = [] then .error .exist
  else
    match disk.slot path (trimmed path) with
    | .error errno => .error errno
    | .ok (parent, last) =>
        if IsDot last ∨ last = dotDot then .error .exist
        else if disk.fs.node? (last :: parent) = none then
          .ok (disk.fs.replace last parent (some (.dir mode)))
        else .error .exist

def rmdirPlan (path : Name) (disk : Disk γ) :
    Except Errno (FileSystem γ) :=
  if path = [] then .error .noent
  else if trimmed path = [] then .error .busy
  else
    match disk.slot path (trimmed path) with
    | .error errno => .error errno
    | .ok (parent, last) =>
        if IsDot last then .error .inval
        else if last = dotDot then .error .notempty
        else
          match disk.fs.node? (last :: parent) with
          | none => .error .noent
          | some (.dir _) =>
              if disk.fs.children (last :: parent) = [] then
                .ok (disk.fs.replace last parent none)
              else .error .notempty
          | some _ => .error .notdir

def symlinkPlan (target path : Name) (disk : Disk γ) :
    Except Errno (FileSystem γ) :=
  if target = [] ∨ path = [] then .error .noent
  else
    match disk.slot path (components path) with
    | .error errno => .error errno
    | .ok (parent, last) =>
        if last = [] then .error .noent
        else if IsDot last ∨ last = dotDot then .error .exist
        else if disk.fs.node? (last :: parent) = none then
          .ok (disk.fs.replace last parent (some (.symlink target)))
        else .error .exist

def unlinkPlan (path : Name) (disk : Disk γ) :
    Except Errno (FileSystem γ) :=
  if path = [] then .error .noent
  else
    match disk.slot path (components path) with
    | .error errno => .error errno
    | .ok (parent, last) =>
        if IsDot last ∨ last = dotDot then .error .isdir
        else
          match disk.fs.node? (last :: parent) with
          | none => .error .noent
          | some (.dir _) => .error .isdir
          | some _ => .ok (disk.fs.replace last parent none)

/-- `rename` of a regular file onto the path. -/
def renamePlan (content : γ) (mode : Nat) (path : Name) (disk : Disk γ) :
    Except Errno (FileSystem γ) :=
  if path = [] then .error .noent
  else
    match disk.slot path (components path) with
    | .error errno => .error errno
    | .ok (parent, last) =>
        if last = [] then .error .notdir
        else if IsDot last ∨ last = dotDot then .error .busy
        else if disk.fs.IsDir (last :: parent) then .error .isdir
        else .ok (disk.fs.replace last parent (some (.file content mode)))

/-- `mkstemp` for a name next to the path.  The name is new, and the file is
renamed or removed again before its writer returns, so it is not kept. -/
def mkstempPlan (path : Name) (disk : Disk γ) :
    Except Errno (FileSystem γ) :=
  match disk.slot path (components path) with
  | .error errno => .error errno
  | .ok _ => .ok disk.fs

/-- A call that changes the file system, unless the environment makes it
fail. -/
def call (plan : Disk γ → Except Errno (FileSystem γ)) :
    EStateM Errno (Disk γ) Unit := fun disk =>
  if disk.faults.head? = some true then
    .error .io { disk with faults := disk.faults.tail }
  else
    match plan disk with
    | .error errno => .error errno { disk with faults := disk.faults.tail }
    | .ok fs => .ok () { disk with fs := fs, faults := disk.faults.tail }

def mkdir (path : Name) (mode : Nat) : EStateM Errno (Disk γ) Unit :=
  call (mkdirPlan path mode)

def rmdir (path : Name) : EStateM Errno (Disk γ) Unit :=
  call (rmdirPlan path)

def symlink (target path : Name) : EStateM Errno (Disk γ) Unit :=
  call (symlinkPlan target path)

def unlink (path : Name) : EStateM Errno (Disk γ) Unit :=
  call (unlinkPlan path)

def rename (content : γ) (mode : Nat) (path : Name) :
    EStateM Errno (Disk γ) Unit :=
  call (renamePlan content mode path)

def mkstemp (path : Name) : EStateM Errno (Disk γ) Unit :=
  call (mkstempPlan path)

/-! ## What the calls do -/

variable {disk : Disk γ} {path : Name} {comps : List Name} {parent : Loc}
  {last : Name} {after : FileSystem γ}

/-- The disk after a call: the environment has decided about it. -/
def tick (disk : Disk γ) (fs : FileSystem γ) : Disk γ :=
  { disk with fs := fs, faults := disk.faults.tail }

theorem call_ends {plan : Disk γ → Except Errno (FileSystem γ)} :
    Ends (call plan disk)
      (fun _ final => ∃ fs, plan disk = .ok fs ∧ final = disk.tick fs)
      (fun errno final => final = disk.tick disk.fs ∧
        (plan disk = .error errno ∨
          disk.faults.head? = some true ∧ errno = .io)) := by
  unfold call
  split_ifs with faulty
  · exact ⟨rfl, .inr ⟨faulty, rfl⟩⟩
  · rcases planned : plan disk with errno | fs
    · exact ⟨rfl, .inl rfl⟩
    · exact ⟨fs, rfl, rfl⟩

theorem slot_eq_ok (isSlot : disk.slot path comps = .ok (parent, last)) :
    (∃ links, links ≤ maxSymlinks ∧ Walk disk.fs.node?
      (baseOf disk.cwd path) comps.dropLast parent links) ∧
    disk.fs.IsDir parent ∧ comps.getLastD [] = last := by
  unfold slot at isSlot
  rcases walked : walk disk.fs.node? maxSymlinks (baseOf disk.cwd path)
      comps.dropLast with errno | found
  · simp [walked] at isSlot
  · simp only [walked] at isSlot
    split_ifs at isSlot with isDir
    obtain ⟨rfl, rfl⟩ := Prod.mk.inj (Except.ok.inj isSlot)
    exact ⟨walk_sound walked, isDir, rfl⟩

theorem slot_of_walk {links : Nat} (within : links ≤ maxSymlinks)
    (walked : Walk disk.fs.node? (baseOf disk.cwd path) comps.dropLast
      parent links) (isDir : disk.fs.IsDir parent) :
    disk.slot path comps = .ok (parent, comps.getLastD []) := by
  unfold slot
  rw [walk_complete within walked]
  simp [isDir]

private theorem replaceable_of_slot
    (isSlot : disk.slot path comps = .ok (parent, last))
    (slashFree : 47 ∉ comps.getLastD []) (notDot : ¬ IsDot last)
    (notUp : last ≠ dotDot)
    (childless : disk.fs.children (last :: parent) = []) :
    disk.fs.Replaceable last parent := by
  obtain ⟨_, isDir, rfl⟩ := slot_eq_ok isSlot
  simp only [IsDot, not_or] at notDot
  exact ⟨⟨notDot.1, notDot.2, notUp, slashFree⟩, isDir, childless⟩

private theorem slash_not_mem_getLastD
    (fromPath : ∀ comp ∈ comps, comp ∈ components path) :
    47 ∉ comps.getLastD [] := by
  rcases comps with _ | ⟨first, rest⟩
  · simp
  · rw [List.getLastD_eq_getLast?, List.getLast?_eq_getLast_of_ne_nil
      (List.cons_ne_nil first rest), Option.getD_some]
    exact slash_not_mem_components (fromPath _ (List.getLast_mem _))

theorem mem_components_of_trimmed {comp : Name}
    (member : comp ∈ trimmed path) : comp ∈ components path :=
  (List.rdropWhile_prefix _ _).subset member

/-- An entry that a call gives a new node. -/
structure Replaces (disk : Disk γ) (path : Name) (comps : List Name)
    (node : Option (Node γ)) (after : FileSystem γ) (parent : Loc)
    (last : Name) : Prop where
  isSlot : disk.slot path comps = .ok (parent, last)
  replaceable : disk.fs.Replaceable last parent
  result : after = disk.fs.replace last parent node

theorem mkdirPlan_ok {mode : Nat}
    (planned : mkdirPlan path mode disk = .ok after) :
    ∃ parent last, Replaces disk path (trimmed path) (some (.dir mode)) after
      parent last ∧ disk.fs.node? (last :: parent) = none := by
  unfold mkdirPlan at planned
  split_ifs at planned
  rcases isSlot : disk.slot path (trimmed path) with errno | ⟨parent, last⟩
  · simp [isSlot] at planned
  · simp only [isSlot] at planned
    split_ifs at planned with special absent
    rw [not_or] at special
    have notDir : ¬ disk.fs.IsDir (last :: parent) := by
      simp [FileSystem.IsDir, absent, IsDirIn]
    exact ⟨parent, last, ⟨isSlot, replaceable_of_slot isSlot
      (slash_not_mem_getLastD fun _ => mem_components_of_trimmed) special.1
      special.2 (FileSystem.children_of_not_dir notDir),
      (Except.ok.inj planned).symm⟩, absent⟩

theorem rmdirPlan_ok (planned : rmdirPlan path disk = .ok after) :
    ∃ parent last, Replaces disk path (trimmed path) none after parent last ∧
      disk.fs.IsDir (last :: parent) := by
  unfold rmdirPlan at planned
  split_ifs at planned
  rcases isSlot : disk.slot path (trimmed path) with errno | ⟨parent, last⟩
  · simp [isSlot] at planned
  · simp only [isSlot] at planned
    split_ifs at planned with isDot isUp childless
    all_goals
      split at planned
      · cases planned
      · rename_i mode found
        cases planned <;>
        exact ⟨parent, last, ⟨isSlot, replaceable_of_slot isSlot
          (slash_not_mem_getLastD fun _ => mem_components_of_trimmed) isDot
          isUp childless, rfl⟩, FileSystem.isDir_iff.mpr ⟨mode, found⟩⟩
      · cases planned

theorem symlinkPlan_ok {target : Name}
    (planned : symlinkPlan target path disk = .ok after) :
    ∃ parent last, Replaces disk path (components path)
      (some (.symlink target)) after parent last ∧
      disk.fs.node? (last :: parent) = none := by
  unfold symlinkPlan at planned
  split_ifs at planned
  rcases isSlot : disk.slot path (components path) with
    errno | ⟨parent, last⟩
  · simp [isSlot] at planned
  · simp only [isSlot] at planned
    split_ifs at planned with _ special absent
    rw [not_or] at special
    have notDir : ¬ disk.fs.IsDir (last :: parent) := by
      simp [FileSystem.IsDir, absent, IsDirIn]
    exact ⟨parent, last, ⟨isSlot, replaceable_of_slot isSlot
      (slash_not_mem_getLastD fun _ => id) special.1 special.2
      (FileSystem.children_of_not_dir notDir),
      (Except.ok.inj planned).symm⟩, absent⟩

theorem unlinkPlan_ok (planned : unlinkPlan path disk = .ok after) :
    ∃ parent last, Replaces disk path (components path) none after parent
      last ∧ ∃ node, disk.fs.node? (last :: parent) = some node ∧
        node.isDir = false := by
  unfold unlinkPlan at planned
  split_ifs at planned
  rcases isSlot : disk.slot path (components path) with
    errno | ⟨parent, last⟩
  · simp [isSlot] at planned
  · simp only [isSlot] at planned
    split_ifs at planned with special
    rw [not_or] at special
    rcases found : disk.fs.node? (last :: parent) with _ | node
    · simp [found] at planned
    · have isLeaf : node.isDir = false := by
        cases node with
        | dir mode => simp [found] at planned
        | file content mode => rfl
        | symlink target => rfl
      have notDir : ¬ disk.fs.IsDir (last :: parent) := by
        simp [FileSystem.IsDir, found, IsDirIn, isLeaf]
      refine ⟨parent, last, ⟨isSlot, replaceable_of_slot isSlot
        (slash_not_mem_getLastD fun _ => id) special.1 special.2
        (FileSystem.children_of_not_dir notDir), ?_⟩, node, found, isLeaf⟩
      cases node with
      | dir mode => cases isLeaf
      | file content mode => simpa [found] using planned.symm
      | symlink target => simpa [found] using planned.symm

theorem renamePlan_ok {content : γ} {mode : Nat}
    (planned : renamePlan content mode path disk = .ok after) :
    ∃ parent last, Replaces disk path (components path)
      (some (.file content mode)) after parent last ∧
      ¬ disk.fs.IsDir (last :: parent) := by
  unfold renamePlan at planned
  split_ifs at planned
  rcases isSlot : disk.slot path (components path) with
    errno | ⟨parent, last⟩
  · simp [isSlot] at planned
  · simp only [isSlot] at planned
    split_ifs at planned with _ special notDir
    rw [not_or] at special
    exact ⟨parent, last, ⟨isSlot, replaceable_of_slot isSlot
      (slash_not_mem_getLastD fun _ => id) special.1 special.2
      (FileSystem.children_of_not_dir notDir),
      (Except.ok.inj planned).symm⟩, notDir⟩

theorem mkstempPlan_ok (planned : mkstempPlan path disk = .ok after) :
    after = disk.fs := by
  unfold mkstempPlan at planned
  split at planned
  · cases planned
  · exact (Except.ok.inj planned).symm

end Disk

end SaltOS.Lib
