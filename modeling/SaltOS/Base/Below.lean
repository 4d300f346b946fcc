import SaltOS.Base.UtilSpec
import SaltOS.Lib.Leaves

/-!
# Calls on paths below a root

A root path leads to a directory without passing through anything below that
directory.  Paths made of the root path and plain names then lead where the
names say, and each call changes the one entry that it names.
-/

namespace SaltOS.Util

open Lib Disk

variable {γ : Type} {disk : Disk γ} {root path : Bytes} {top : Loc}
  {comps : List Name}

/-! ## Roots -/

/-- The lookup that sees nothing strictly below a directory. -/
def lookAround (fs : FileSystem γ) (top loc : Loc) : Option (Node γ) :=
  if top.isSuffixOf loc && loc != top then none else fs.node? loc

theorem lookAround_eq {fs : FileSystem γ} {loc : Loc} :
    (StrictlyBelow top loc → lookAround fs top loc = none) ∧
      (¬ StrictlyBelow top loc → lookAround fs top loc = fs.node? loc) := by
  have isBelow : (top.isSuffixOf loc && loc != top) = true ↔
      StrictlyBelow top loc := by
    simp [StrictlyBelow, List.isSuffixOf_iff_suffix]
  unfold lookAround
  constructor
  · intro below
    rw [if_pos (isBelow.mpr below)]
  · intro away
    rw [if_neg (fun holds => away (isBelow.mp holds))]

/-- The root path leads to the directory, whatever lies below it. -/
structure Rooted (disk : Disk γ) (root : Bytes) (top : Loc) : Prop where
  nonempty : root ≠ []
  walked : ∃ links, links ≤ maxSymlinks ∧ Walk (lookAround disk.fs top)
    (baseOf disk.cwd root) (dirFront root) top links
  isDir : disk.fs.IsDir top

namespace Rooted

theorem leads (rooted : Rooted disk root top) :
    disk.Leads (baseOf disk.cwd root) (dirFront root) top := by
  obtain ⟨links, within, walked⟩ := rooted.walked
  refine ⟨links, within, walked.grow ?_⟩
  intro loc node found
  by_cases below : StrictlyBelow top loc
  · rw [lookAround_eq.1 below] at found
    cases found
  · rwa [lookAround_eq.2 below] at found

theorem of_outside {after : Disk γ} (rooted : Rooted disk root top)
    (cwd : after.cwd = disk.cwd)
    (outside : ∀ loc, ¬ StrictlyBelow top loc →
      after.fs.node? loc = disk.fs.node? loc) :
    Rooted after root top := by
  have same : lookAround after.fs top = lookAround disk.fs top := by
    funext loc
    by_cases below : StrictlyBelow top loc
    · rw [lookAround_eq.1 below, lookAround_eq.1 below]
    · rw [lookAround_eq.2 below, lookAround_eq.2 below, outside loc below]
  refine ⟨rooted.nonempty, ?_, ?_⟩
  · rw [same, cwd]
    exact rooted.walked
  · rw [FileSystem.IsDir, outside top (fun below => below.2 rfl)]
    exact rooted.isDir

theorem changes {guarded touched emptied : Set (List Name)} {after : Disk γ}
    (rooted : Rooted disk root top)
    (changed : Changes top guarded touched emptied disk after) :
    Rooted after root top :=
  rooted.of_outside changed.cwd changed.outside

end Rooted

/-! ## Paths below a root -/

/-- The path is the root path with further names. -/
structure Under (root path : Bytes) (comps : List Name) : Prop where
  split : components path = dirFront root ++ comps
  base : ∀ cwd, baseOf cwd path = baseOf cwd root

namespace Under

theorem path_ne_nil (under : Under root path comps) (nonempty : comps ≠ []) :
    path ≠ [] := by
  rintro rfl
  have lengths := congrArg List.length under.split
  have front := List.length_pos_of_ne_nil (dirFront_ne_nil root)
  have rest := List.length_pos_of_ne_nil nonempty
  rw [show components [] = [[]] from rfl, List.length_append,
    List.length_singleton] at lengths
  omega

theorem joinPath {rel : Bytes} (rootNonempty : root ≠ [])
    (relNonempty : rel ≠ []) (relative : rel.head? ≠ some 47) :
    Under root (Util.joinPath root rel) (components rel) :=
  ⟨components_joinPath rootNonempty relNonempty relative,
    baseOf_joinPath rootNonempty rel⟩

/-- A path whose last name is not empty does not end in a slash. -/
theorem dirFront_eq (under : Under root path comps)
    (names : Names comps) : dirFront path = components path := by
  unfold dirFront
  rw [if_neg]
  intro trailing
  have ends := (components_trailing trailing).1
  obtain ⟨front, last, rfl⟩ :=
    (List.eq_nil_or_concat comps).resolve_left names.nonempty
  rw [List.concat_eq_append] at under
  rw [under.split, ← List.append_assoc] at ends
  have isEmpty : last = [] := by
    have lasts := congrArg List.getLast? ends
    simpa using lasts
  refine (names.valid last ?_).1 isEmpty
  simp

theorem join {rel : Bytes} (under : Under root path comps)
    (names : Names comps) (relNonempty : rel ≠ [])
    (relative : rel.head? ≠ some 47) :
    Under root (Util.joinPath path rel) (comps ++ components rel) := by
  have pathNonempty := under.path_ne_nil names.nonempty
  constructor
  · rw [components_joinPath pathNonempty relNonempty relative,
      under.dirFront_eq names, under.split, List.append_assoc]
  · intro cwd
    rw [baseOf_joinPath pathNonempty, under.base]

theorem slash {rel : Bytes} (under : Under root path comps)
    (nonempty : comps ≠ []) :
    Under root (path ++ [47] ++ rel) (comps ++ components rel) := by
  constructor
  · rw [List.append_assoc, List.singleton_append, components_append_slash,
      under.split, List.append_assoc]
  · intro cwd
    rw [← under.base cwd]
    obtain ⟨first, rest, rfl⟩ :=
      List.exists_cons_of_ne_nil (under.path_ne_nil nonempty)
    rfl

theorem of_slash {rel : Bytes} (rootNonempty : root ≠ [])
    (noTrailing : root.getLast? ≠ some 47) :
    Under root (root ++ [47] ++ rel) (components rel) := by
  constructor
  · rw [List.append_assoc, List.singleton_append, components_append_slash,
      dirFront, if_neg noTrailing]
  · intro cwd
    obtain ⟨first, rest, rfl⟩ := List.exists_cons_of_ne_nil rootNonempty
    rfl

/-- The path before its last slash. -/
theorem parent (under : Under root path comps) (nonempty : comps ≠ [])
    (isPath : joinSlash (components path).dropLast ≠ []) :
    Under root (joinSlash (components path).dropLast) comps.dropLast := by
  have isCut : (components path).dropLast <+: components path :=
    List.dropLast_prefix _
  have notNil : (components path).dropLast ≠ [] := by
    intro nil
    rw [nil] at isPath
    exact isPath rfl
  constructor
  · rw [components_cut isCut notNil, under.split,
      List.dropLast_append_of_ne_nil nonempty]
  · intro cwd
    rw [baseOf_cut isCut isPath, under.base]

theorem trimmed_eq (under : Under root path comps) (names : Names comps) :
    trimmed path = components path := by
  obtain ⟨front, last, isConcat⟩ :=
    (List.eq_nil_or_concat comps).resolve_left names.nonempty
  rw [List.concat_eq_append] at isConcat
  have isValid := names.valid last (by simp [isConcat])
  unfold trimmed
  rw [under.split, isConcat, ← List.append_assoc,
    List.rdropWhile_concat_neg]
  simpa using isValid.1

end Under

/-- A path that does not end in a slash. -/
structure DirPath (dir : Bytes) : Prop where
  nonempty : dir ≠ []
  noTrailing : dir.getLast? ≠ some 47

namespace DirPath

theorem joinPath (dir : Bytes) {rel : Bytes} (nonempty : rel ≠ [])
    (relative : rel.head? ≠ some 47) (noTrailing : rel.getLast? ≠ some 47) :
    DirPath (Util.joinPath dir rel) := by
  have stripped : rel.dropWhile (· == 47) = rel := by
    cases rel with
    | nil => rfl
    | cons first rest =>
        have differs : first ≠ 47 := by simpa using relative
        simp [differs]
  unfold Util.joinPath
  by_cases noDir : dir = []
  · rw [if_pos noDir]
    exact ⟨nonempty, noTrailing⟩
  · rw [if_neg noDir, if_neg nonempty, stripped]
    constructor
    · simp [nonempty]
    · rw [List.getLast?_append_of_ne_nil _ nonempty]
      exact noTrailing

theorem entry (dir : Bytes) {name : Name} (valid : ValidName name) :
    DirPath (Util.joinPath dir name) := by
  apply joinPath dir valid.1
  · intro slash
    exact valid.2.2.2 (List.mem_of_mem_head? slash)
  · intro slash
    exact valid.2.2.2 (List.mem_of_getLast? slash)

end DirPath

/-! ## The slot of a path -/

namespace Rooted

theorem slot (rooted : Rooted disk root top) (under : Under root path comps)
    (names : Names comps)
    (isDir : disk.fs.IsDir (descend top comps.dropLast)) :
    disk.slot path (components path) =
      .ok (descend top comps.dropLast, comps.getLastD []) := by
  obtain ⟨links, within, walked⟩ := rooted.leads
  have further : Walk disk.fs.node? top comps.dropLast
      (descend top comps.dropLast) 0 :=
    walk_descend (fun comp member => names.valid comp
      (List.dropLast_subset _ member)) isDir
  have whole := walked.append further
  rw [← List.dropLast_append_of_ne_nil names.nonempty, ← under.split,
    ← under.base] at whole
  rw [slot_of_walk within whole isDir, under.split]
  congr 2
  obtain ⟨front, last, isConcat⟩ :=
    (List.eq_nil_or_concat comps).resolve_left names.nonempty
  rw [isConcat, List.concat_eq_append, ← List.append_assoc,
    List.getLastD_concat, List.getLastD_concat]

theorem slot_eq {parent : Loc} {last : Name} (rooted : Rooted disk root top)
    (under : Under root path comps) (names : Names comps)
    (plain : Plain disk.fs top comps)
    (isSlot : disk.slot path (components path) = .ok (parent, last)) :
    last :: parent = descend top comps ∧
      disk.fs.IsDir (descend top comps.dropLast) ∧
      parent = descend top comps.dropLast := by
  obtain ⟨front, entry, isConcat⟩ :=
    (List.eq_nil_or_concat comps).resolve_left names.nonempty
  rw [List.concat_eq_append] at isConcat
  obtain ⟨⟨links, within, walked⟩, isDir, isLast⟩ := slot_eq_ok isSlot
  rw [under.split, List.dropLast_append_of_ne_nil names.nonempty,
    under.base] at walked
  obtain ⟨middle, first, second, before, further, _⟩ := walked.of_append
  have sameTop : middle = top := by
    obtain ⟨_, _, toTop⟩ := rooted.leads
    exact before.deterministic toTop
  subst sameTop
  rw [isConcat, List.dropLast_concat] at further ⊢
  rw [isConcat] at plain
  obtain ⟨rfl, _⟩ := plain.walk_eq (fun comp member => names.valid comp
    (by simp [isConcat, member])) further
  rw [under.split, isConcat, ← List.append_assoc,
    List.getLastD_concat] at isLast
  refine ⟨?_, isDir, rfl⟩
  rw [descend_concat, isLast]

/-- A call that replaces an entry replaces the one that the names lead to. -/
theorem replaces {parent : Loc} {last : Name} {node : Option (Node γ)}
    {after : FileSystem γ} (rooted : Rooted disk root top)
    (under : Under root path comps) (names : Names comps)
    (plain : Plain disk.fs top comps)
    (replaced : Replaces disk path (components path) node after parent
      last) :
    (∀ loc, after.node? loc =
      if loc = descend top comps then node else disk.fs.node? loc) ∧
    last :: parent = descend top comps := by
  obtain ⟨isEntry, _, _⟩ :=
    rooted.slot_eq under names plain replaced.isSlot
  refine ⟨fun loc => ?_, isEntry⟩
  rw [replaced.result, FileSystem.node?_replace replaced.replaceable, isEntry]

theorem lstat_eq_ok {node : Node γ} (rooted : Rooted disk root top)
    (under : Under root path comps) (names : Names comps)
    (plain : Plain disk.fs top comps) :
    disk.lstat path = .ok node ↔
      disk.fs.node? (descend top comps) = some node := by
  have pathNonempty := under.path_ne_nil names.nonempty
  have lastValid := names.last_valid
  have isEntry : entryLoc (descend top comps.dropLast)
      (comps.getLastD []) = descend top comps := by
    have notUp : comps.getLastD [] ≠ dotDot := lastValid.2.2.1
    rw [entryLoc, if_neg lastValid.notDot, if_neg notUp,
      descend_dropLast names.nonempty]
  unfold lstat
  rw [if_neg pathNonempty]
  constructor
  · intro found
    rcases isSlot : disk.slot path (components path) with
      errno | ⟨parent, last⟩
    · simp [isSlot] at found
    · obtain ⟨_, isDir, _⟩ := rooted.slot_eq under names plain isSlot
      rw [rooted.slot under names isDir] at found
      simp only [isEntry] at found
      rcases looked : disk.fs.node? (descend top comps) with _ | other
      · simp [looked] at found
      · simpa [looked] using found
  · intro found
    have isDir : disk.fs.IsDir (descend top comps.dropLast) := by
      refine FileSystem.isDir_of_cut (by simp [found])
        (List.dropLast_prefix _) ?_
      intro same
      have lengths := congrArg List.length same
      have positive := List.length_pos_of_ne_nil names.nonempty
      rw [List.length_dropLast] at lengths
      omega
    simp only [rooted.slot under names isDir, isEntry, found]

theorem readlink_eq_ok {target : Name} (rooted : Rooted disk root top)
    (under : Under root path comps) (names : Names comps)
    (plain : Plain disk.fs top comps) :
    disk.readlink path = .ok target ↔
      disk.fs.leaf? (descend top comps) = some (.link target) := by
  rw [FileSystem.leaf?_eq_link, ← rooted.lstat_eq_ok under names plain]
  unfold readlink
  rcases disk.lstat path with errno | node
  · simp
  · cases node <;> simp

/-- A plain file is found where the names lead. -/
theorem resolve_of_file {content : γ} (rooted : Rooted disk root top)
    (under : Under root path comps) (names : Names comps)
    (found : disk.fs.leaf? (descend top comps) = some (.file content)) :
    disk.resolve path = .ok (descend top comps) := by
  obtain ⟨mode, isFile⟩ := FileSystem.leaf?_eq_file.mp found
  have exists_ : disk.fs.node? (descend top comps) ≠ none := by
    simp [isFile]
  obtain ⟨front, last, isConcat⟩ :=
    (List.eq_nil_or_concat comps).resolve_left names.nonempty
  rw [List.concat_eq_append] at isConcat
  have frontIsDir : disk.fs.IsDir (descend top front) :=
    FileSystem.isDir_of_cut exists_ ⟨[last], isConcat.symm⟩
      (by simp [isConcat])
  have lastValid := names.valid last (by simp [isConcat])
  rw [isConcat, descend_concat] at isFile
  have further : Walk disk.fs.node? top comps (descend top comps) 0 := by
    rw [isConcat, descend_concat]
    have toFront := walk_descend (fun comp member => names.valid comp
      (by simp [isConcat, member])) frontIsDir
    have toEntry : Walk disk.fs.node? (descend top front) [last]
        (last :: descend top front) 0 :=
      .entry frontIsDir lastValid.notDot lastValid.2.2.1 isFile rfl (.nil _)
    exact toFront.append toEntry
  refine resolve_eq_ok_iff.mpr ⟨under.path_ne_nil names.nonempty, ?_⟩
  rw [under.base, under.split]
  exact rooted.leads.append further

end Rooted

end SaltOS.Util
