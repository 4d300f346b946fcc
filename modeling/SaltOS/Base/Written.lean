import SaltOS.Base.Landing

/-!
# What is written is read back

A file that `salt_write_file` has written is read back from the same path,
unless a link with the name of the file stood in the way: the path may then
have led through that link.
-/

namespace SaltOS.Util

open Lib Disk

variable {γ : Type} {disk before after : Disk γ} {path : Bytes}
  {comps : List Name} {parent loc : Loc} {last : Name}

/-- Two disks with the same nodes and the same working directory. -/
structure SameNodes (before after : Disk γ) : Prop where
  cwd : after.cwd = before.cwd
  nodes : after.fs.node? = before.fs.node?

namespace SameNodes

theorem slot (same : SameNodes before after) :
    after.slot path comps = before.slot path comps := by
  have isDir (loc : Loc) : after.fs.IsDir loc ↔ before.fs.IsDir loc := by
    unfold FileSystem.IsDir
    rw [same.nodes]
  unfold Disk.slot
  rw [same.nodes, same.cwd]
  cases walk before.fs.node? maxSymlinks (baseOf before.cwd path)
      comps.dropLast with
  | error errno => rfl
  | ok parent => simp only [isDir]

theorem lstat (same : SameNodes before after) :
    after.lstat path = before.lstat path := by
  unfold Disk.lstat
  rw [same.slot, same.nodes]

end SameNodes

/-- Where the directory of a file is there, `makeDirname` makes nothing. -/
theorem makeDirname_same (resolved : disk.resolve (dirname path) = .ok loc) :
    SameNodes disk (finalState (makeDirname path disk)) := by
  unfold makeDirname
  by_cases proper : dirname path ≠ ascii "." ∧ dirname path ≠ ascii "/"
  · rw [if_pos proper]
    have made := mkdirs_made (dirname path) 493 disk
    exact ⟨made.grown.cwd, funext (made.nothing resolved)⟩
  · rw [if_neg proper]
    exact ⟨rfl, rfl⟩

/-- Making a file of what is no link keeps the way to it. -/
theorem contents_of_replaces {content : γ} {mode : Nat} {fs : FileSystem γ}
    (replaces : Replaces disk path (components path)
      (some (.file content mode)) fs parent last)
    (notDir : ¬ disk.fs.IsDir (last :: parent))
    (notLink : ∀ target,
      disk.fs.node? (last :: parent) ≠ some (.symlink target)) :
    (disk.tick fs).contents path = .ok content := by
  obtain ⟨⟨links, within, walked⟩, parentIsDir, isLast⟩ :=
    slot_eq_ok replaces.isSlot
  have valid := replaces.replaceable.1
  have written : fs.node? (last :: parent) = some (.file content mode) := by
    rw [replaces.result, FileSystem.node?_replace replaces.replaceable,
      if_pos rfl]
  have other (loc : Loc) (differs : loc ≠ last :: parent) :
      fs.node? loc = disk.fs.node? loc := by
    rw [replaces.result]
    exact FileSystem.node?_replace_of_ne _ differs
  have keptDir (loc : Loc) (isDir : IsDirIn (disk.fs.node? loc)) :
      IsDirIn (fs.node? loc) := by
    rw [other loc]
    · exact isDir
    · rintro rfl
      exact notDir isDir
  have front : Walk fs.node? (baseOf disk.cwd path)
      (components path).dropLast parent links := by
    apply walked.mono parentIsDir keptDir
    intro loc target isLink
    rw [other loc]
    · exact isLink
    · rintro rfl
      exact notLink target isLink
  have entry : Walk fs.node? parent [last] (last :: parent) 0 :=
    .entry (keptDir parent parentIsDir) valid.notDot valid.2.2.1 written rfl
      (.nil _)
  have whole : components path = (components path).dropLast ++ [last] := by
    rw [← isLast, dropLast_append_getLastD (components_ne_nil path)]
  have resolved : (disk.tick fs).resolve path = .ok (last :: parent) := by
    apply resolve_eq_ok_iff.mpr
    refine ⟨?_, links, within, ?_⟩
    · rintro rfl
      have noName : components ([] : Bytes) = [[]] := rfl
      rw [noName] at isLast
      exact valid.1 isLast.symm
    · rw [whole]
      exact front.append entry
  unfold Disk.contents Disk.stat
  rw [resolved]
  dsimp only [Disk.tick]
  rw [written]

theorem contents_eq_ok {content : γ}
    (readable : disk.contents path = .ok content) :
    ∃ loc mode, disk.resolve path = .ok loc ∧
      disk.fs.node? loc = some (.file content mode) := by
  unfold Disk.contents Disk.stat at readable
  cases resolved : disk.resolve path with
  | error errno =>
      rw [resolved] at readable
      cases readable
  | ok loc =>
      rw [resolved] at readable
      dsimp only at readable
      cases found : disk.fs.node? loc with
      | none =>
          rw [found] at readable
          cases readable
      | some node =>
          rw [found] at readable
          cases node with
          | file other mode =>
              cases readable
              exact ⟨loc, mode, rfl, found⟩
          | dir mode => cases readable
          | symlink target => cases readable

/-- Whatever is read at the path afterwards is what the file was made of. -/
theorem eq_of_contents_replaced {content other : γ} {mode : Nat}
    {fs : FileSystem γ}
    (replaces : Replaces disk path (components path)
      (some (.file content mode)) fs parent last)
    (readable : (disk.tick fs).contents path = .ok other) :
    other = content := by
  obtain ⟨⟨links, within, walked⟩, parentIsDir, isLast⟩ :=
    slot_eq_ok replaces.isSlot
  have valid := replaces.replaceable.1
  have notUp : last ≠ dotDot := valid.2.2.1
  have written : fs.node? (last :: parent) = some (.file content mode) := by
    rw [replaces.result, FileSystem.node?_replace replaces.replaceable,
      if_pos rfl]
  have elsewhere (loc : Loc) (differs : loc ≠ last :: parent) :
      fs.node? loc = disk.fs.node? loc := by
    rw [replaces.result]
    exact FileSystem.node?_replace_of_ne _ differs
  have wasDir (loc : Loc) (isDir : IsDirIn (fs.node? loc)) :
      IsDirIn (disk.fs.node? loc) := by
    rw [← elsewhere loc]
    · exact isDir
    · rintro rfl
      rw [written] at isDir
      cases isDir
  have wasLink (loc : Loc) (target : Name)
      (isLink : fs.node? loc = some (.symlink target)) :
      disk.fs.node? loc = some (.symlink target) := by
    rw [← elsewhere loc]
    · exact isLink
    · rintro rfl
      rw [written] at isLink
      cases isLink
  obtain ⟨loc, mode', resolved, found⟩ := contents_eq_ok readable
  obtain ⟨_, otherLinks, _, whole⟩ := resolve_eq_ok_iff.mp resolved
  rw [← dropLast_append_getLastD (components_ne_nil path) [], isLast]
    at whole
  obtain ⟨middle, first, second, front, entry, _⟩ := whole.of_append
  have atParent : middle = parent :=
    Walk.deterministic (front.mono (entry.isDir_start (by simp)) wasDir
      wasLink) walked
  subst atParent
  cases entry with
  | dot _ isDot => exact absurd isDot valid.notDot
  | up => exact absurd rfl notUp
  | entry _ _ _ _ _ rest =>
      cases rest
      cases written.symm.trans found
      rfl
  | follow _ _ _ isLink => cases written.symm.trans isLink

theorem tick_same {ticked : Disk γ} {fs : FileSystem γ}
    (same : SameNodes before ticked) (unchanged : fs = ticked.fs) :
    SameNodes before (ticked.tick fs) := by
  subst unchanged
  exact ⟨same.cwd, same.nodes⟩

/-- A checked call that returns has done what it does. -/
theorem checked_done {what : String} {property : Disk γ → Prop}
    {program : EStateM Errno (Disk γ) Unit}
    (ends : Ends (program disk) (fun _ => property) (fun _ _ => True)) :
    Ends (checked what path program disk) (fun _ => property)
      (fun _ _ => True) := by
  refine Ends.through
    (fun outcome now => outcome = .ok () → property now) ?_ ?_
  · apply Ends.attempt
    exact ends.mono (fun _ _ holds _ => holds) (fun _ _ _ failed => nomatch failed)
  intro outcome between holds
  cases outcome with
  | ok value => exact holds rfl
  | error errno => trivial

/-- `salt_write_file` into a directory that is there. -/
theorem writeFile_contents {content : γ} {mode : Nat}
    (resolved : disk.resolve (dirname path) = .ok loc)
    (notLink : ∀ target, disk.lstat path ≠ .ok (.symlink target)) :
    Ends (writeFile path content mode disk)
      (fun _ final => final.contents path = .ok content)
      (fun _ _ => True) := by
  unfold writeFile
  refine Ends.through (fun _ now => SameNodes disk now) ?_ ?_
  · have made := makeDirname_same resolved
    exact (endsIn_iff.mpr made).mono (fun _ _ same => same)
      (fun _ _ _ => trivial)
  rintro _ ready sameReady
  refine Ends.through (fun _ now => SameNodes disk now) ?_ ?_
  · have temporary : EndsIn (Disk.mkstemp path ready)
        (fun now => SameNodes disk now) := by
      refine call_ends.endsIn ?_ ?_
      · rintro _ _ ⟨fs, planned, rfl⟩
        exact tick_same sameReady (mkstempPlan_ok planned)
      · rintro _ _ ⟨rfl, _⟩
        exact tick_same sameReady rfl
    exact (checked_ends temporary).mono (fun _ _ same => same)
      (fun _ _ _ => trivial)
  rintro _ now sameNow
  apply checked_done
  refine call_ends.mono ?_ (fun _ _ _ => trivial)
  rintro _ _ ⟨fs, planned, rfl⟩
  obtain ⟨parent, last, replaces, notDir⟩ := renamePlan_ok planned
  apply contents_of_replaces replaces notDir
  intro target isLink
  have stillLink : now.lstat path = .ok (.symlink target) := by
    have valid := replaces.replaceable.1
    have notUp : last ≠ dotDot := valid.2.2.1
    unfold Disk.lstat
    rw [if_neg, replaces.isSlot]
    · have entry : entryLoc parent last = last :: parent := by
        rw [entryLoc, if_neg valid.notDot, if_neg notUp]
      dsimp only
      rw [entry, isLink]
    · rintro rfl
      simp [renamePlan] at planned
  rw [sameNow.lstat] at stillLink
  exact notLink target stillLink

/-! ## Where the file lands -/

/-- After `salt_write_file` has returned well: the file stands at `loc`, what
is read at its path is what was written, and it is read, unless the file took
the place of a symbolic link. -/
structure Lands (path : Bytes) (content : γ) (mode : Nat)
    (before after : Disk γ) (loc : Loc) : Prop where
  written : after.fs.node? loc = some (.file content mode)
  only : ∀ other, after.contents path = .ok other → other = content
  readable : (∀ target, before.fs.node? loc ≠ some (.symlink target)) →
    after.contents path = .ok content

/-- Directories made beforehand are no links. -/
theorem Lands.of_grown {content : γ} {mode : Nat} {between : Disk γ}
    (grown : Grown before between)
    (lands : Lands path content mode between after loc) :
    Lands path content mode before after loc := by
  refine ⟨lands.written, lands.only, fun notLink => lands.readable ?_⟩
  intro target isLink
  rcases grown.nodes loc with same | ⟨_, isDir⟩
  · rw [same] at isLink
    exact notLink target isLink
  · rw [isLink] at isDir
    cases isDir

theorem makeDirname_grown (path : Bytes) (disk : Disk γ) :
    Grown disk (finalState (makeDirname path disk)) := by
  unfold makeDirname
  by_cases proper : dirname path ≠ ascii "." ∧ dirname path ≠ ascii "/"
  · rw [if_pos proper]
    exact (mkdirs_made (dirname path) 493 disk).grown
  · rw [if_neg proper]
    exact Grown.refl disk

theorem writeFile_lands (path : Bytes) (content : γ) (mode : Nat)
    (disk : Disk γ) :
    Ends (writeFile path content mode disk)
      (fun _ final => ∃ loc, Lands path content mode disk final loc)
      (fun _ _ => True) := by
  unfold writeFile
  refine Ends.through (fun _ now => Grown disk now) ?_ ?_
  · exact (endsIn_iff.mpr (makeDirname_grown path disk)).mono
      (fun _ _ grown => grown) (fun _ _ _ => trivial)
  rintro _ ready grown
  refine Ends.through (fun _ now => Grown disk now) ?_ ?_
  · have temporary : EndsIn (Disk.mkstemp path ready)
        (fun now => Grown disk now) := by
      refine call_ends.endsIn ?_ ?_
      · rintro _ _ ⟨fs, planned, rfl⟩
        rw [mkstempPlan_ok planned]
        exact ⟨grown.cwd, grown.nodes⟩
      · rintro _ _ ⟨rfl, _⟩
        exact ⟨grown.cwd, grown.nodes⟩
    exact (checked_ends temporary).mono (fun _ _ grown => grown)
      (fun _ _ _ => trivial)
  rintro _ now grownNow
  apply checked_done
  refine call_ends.mono ?_ (fun _ _ _ => trivial)
  rintro _ _ ⟨fs, planned, rfl⟩
  obtain ⟨parent, last, replaces, notDir⟩ := renamePlan_ok planned
  refine ⟨last :: parent, Lands.of_grown grownNow ⟨?_, ?_, ?_⟩⟩
  · rw [Disk.tick, replaces.result,
      FileSystem.node?_replace replaces.replaceable, if_pos rfl]
  · intro other readable
    exact eq_of_contents_replaced replaces readable
  · exact contents_of_replaces replaces notDir

/-! ## Files of the commands -/

/-- `path.substr(0, path.rfind('/'))`. -/
def dirOf (path : Bytes) : Bytes :=
  if 47 ∈ path then joinSlash (components path).dropLast else path

/-- How the commands write a file: its directory first, and a message when the
file cannot be written. -/
def saveFile (message : Failure → Bytes) (path : Bytes) (content : γ)
    (mode : Nat) : EStateM Bytes (Disk γ) Unit := do
  ignore (mkdirs (dirOf path) 493)
  match ← attempt (writeFile path content mode) with
  | .ok () => pure ()
  | .error failure => throw (message failure)

theorem saveFile_lands (message : Failure → Bytes) (path : Bytes)
    (content : γ) (mode : Nat) (disk : Disk γ) :
    Ends (saveFile message path content mode disk)
      (fun _ final => ∃ loc, Lands path content mode disk final loc)
      (fun _ _ => True) := by
  unfold saveFile
  refine Ends.through (fun _ now => Grown disk now) ?_ ?_
  · apply Ends.ignore
    exact endsIn_iff.mpr (mkdirs_made (dirOf path) 493 disk).grown
  rintro _ ready grown
  apply Ends.attempted (writeFile_lands path content mode ready)
  · rintro _ final ⟨loc, lands⟩
    exact ⟨loc, lands.of_grown grown⟩
  · rintro _ _ _
    trivial

end SaltOS.Util
