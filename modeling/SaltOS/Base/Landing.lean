import SaltOS.Base.Aside
import SaltOS.Lib.Grafts

/-!
# Where paths will lead

`salt_mkdirs` makes what is missing on the way of a path.  Where the path will
lead is known before: it is where it leads when every missing entry counts as
a directory.
-/

namespace SaltOS.Lib

variable {γ : Type}

/-! ## Walks over alike nodes -/

/-- Nodes that resolution cannot tell apart. -/
def Node.Alike : Node γ → Node γ → Prop
  | .dir _, .dir _ => True
  | .file _ _, .file _ _ => True
  | .symlink target, .symlink other => target = other
  | _, _ => False

theorem Node.Alike.refl (node : Node γ) : node.Alike node := by
  cases node <;> simp [Node.Alike]

theorem Node.Alike.isDir {node other : Node γ} (alike : node.Alike other)
    (isDir : node.isDir = true) : other.isDir = true := by
  cases node with
  | dir mode => cases other <;> simp [Node.Alike, Node.isDir] at alike ⊢
  | file => cases isDir
  | symlink => cases isDir

theorem Node.Alike.isSymlink_eq {node other : Node γ}
    (alike : node.Alike other) : other.isSymlink = node.isSymlink := by
  cases node <;> cases other <;>
    simp_all [Node.Alike, Node.isSymlink]

theorem Node.Alike.eq_symlink {node : Node γ} {target : Name}
    (alike : (Node.symlink target).Alike node) : node = .symlink target := by
  cases node with
  | dir => exact absurd alike id
  | file => exact absurd alike id
  | symlink other => exact congrArg _ (Eq.symm alike)

variable {look look' met : Loc → Option (Node γ)} {cur final final' : Loc}
  {comps : List Name} {links links' : Nat}

/-- A path that leads somewhere in two file systems leads there in a third
one that holds what both hold. -/
theorem Walk.meet (first : Walk look cur comps final links)
    (second : Walk look' cur comps final' links')
    (kept : ∀ loc node node', look loc = some node → look' loc = some node' →
      node.Alike node' ∧ ∃ both, met loc = some both ∧ node.Alike both) :
    Walk met cur comps final links ∧ final' = final := by
  have keptDir : ∀ loc, IsDirIn (look loc) → IsDirIn (look' loc) →
      IsDirIn (met loc) := by
    intro loc isDir isDir'
    obtain ⟨mode, found⟩ := isDirIn_iff.mp isDir
    obtain ⟨mode', found'⟩ := isDirIn_iff.mp isDir'
    obtain ⟨_, both, isMet, alike⟩ := kept loc _ _ found found'
    rw [IsDirIn, isMet]
    exact alike.isDir rfl
  induction first generalizing links' with
  | nil cur =>
      cases second
      exact ⟨.nil _, rfl⟩
  | dot isDir isDot _ induction =>
      cases second with
      | dot isDir' _ second =>
          obtain ⟨walked, same⟩ := induction second
          exact ⟨.dot (keptDir _ isDir isDir') isDot walked, same⟩
      | up => simp [IsDot, dotDot] at isDot
      | entry _ notDot => exact absurd isDot notDot
      | follow _ notDot => exact absurd isDot notDot
  | up isDir _ induction =>
      cases second with
      | dot _ isDot => simp [IsDot, dotDot] at isDot
      | up isDir' second =>
          obtain ⟨walked, same⟩ := induction second
          exact ⟨.up (keptDir _ isDir isDir') walked, same⟩
      | entry _ _ notUp => exact absurd rfl notUp
      | follow _ _ notUp => exact absurd rfl notUp
  | entry isDir notDot notUp found plain _ induction =>
      cases second with
      | dot _ isDot => exact absurd isDot notDot
      | up => exact absurd rfl notUp
      | entry isDir' _ _ found' _ second =>
          obtain ⟨walked, same⟩ := induction second
          obtain ⟨_, both, isMet, alike⟩ := kept _ _ _ found found'
          refine ⟨.entry (keptDir _ isDir isDir') notDot notUp isMet ?_
            walked, same⟩
          rw [alike.isSymlink_eq, plain]
      | follow _ _ _ found' =>
          have alike := (kept _ _ _ found found').1
          rw [← alike.isSymlink_eq] at plain
          cases plain
  | follow isDir notDot notUp found nonempty _ induction =>
      cases second with
      | dot _ isDot => exact absurd isDot notDot
      | up => exact absurd rfl notUp
      | entry _ _ _ found' plain =>
          have alike := (kept _ _ _ found found').1
          rw [alike.eq_symlink] at plain
          cases plain
      | follow isDir' _ _ found' _ second =>
          obtain ⟨alike, both, isMet, metAlike⟩ := kept _ _ _ found found'
          cases alike.eq_symlink
          obtain ⟨walked, same⟩ := induction second
          rw [metAlike.eq_symlink] at isMet
          exact ⟨.follow (keptDir _ isDir isDir') notDot notUp isMet nonempty
            walked, same⟩

/-- Where a path leads does not depend on modes and contents. -/
theorem Walk.alike (walked : Walk look cur comps final links)
    (kept : ∀ loc node, look loc = some node →
      ∃ node', look' loc = some node' ∧ node.Alike node') :
    Walk look' cur comps final links := by
  refine (walked.meet walked ?_).1
  intro loc node node' found found'
  rw [found] at found'
  cases found'
  exact ⟨.refl node, kept loc node found⟩

/-- Dot components stay in a directory. -/
theorem Walk.stay (isDir : IsDirIn (look cur))
    (dots : ∀ comp ∈ comps, IsDot comp) : Walk look cur comps cur 0 := by
  induction comps with
  | nil => exact .nil cur
  | cons comp rest induction =>
      apply Walk.dot isDir (dots comp List.mem_cons_self)
      exact induction fun other member =>
        dots other (List.mem_cons_of_mem _ member)

end SaltOS.Lib

namespace SaltOS.Util

open Lib Disk

variable {γ : Type} {tops : List Loc} {disk before middle after : Disk γ}
  {path : Bytes} {comps cut : List Name} {loc : Loc}

/-! ## Directories to be made -/

/-- The lookup to which everything missing is a directory, and which sees
nothing strictly below `tops`. -/
def lookMade (fs : FileSystem γ) (tops : List Loc) (loc : Loc) :
    Option (Node γ) :=
  if Outside tops loc then (fs.node? loc).or (some (.dir 493)) else none

/-- Where components of the path lead, once what is missing is made. -/
def WillLead (tops : List Loc) (disk : Disk γ) (path : Bytes)
    (comps : List Name) (loc : Loc) : Prop :=
  ∃ links, links ≤ maxSymlinks ∧
    Walk (lookMade disk.fs tops) (baseOf disk.cwd path) comps loc links

/-- Directories were added where nothing was. -/
structure Grown (before after : Disk γ) : Prop where
  cwd : after.cwd = before.cwd
  nodes : ∀ loc, after.fs.node? loc = before.fs.node? loc ∨
    before.fs.node? loc = none ∧ IsDirIn (after.fs.node? loc)

namespace Grown

theorem refl (disk : Disk γ) : Grown disk disk :=
  ⟨rfl, fun _ => .inl rfl⟩

theorem kept (grown : Grown before after) {node : Node γ}
    (found : before.fs.node? loc = some node) :
    after.fs.node? loc = some node := by
  rcases grown.nodes loc with same | ⟨absent, _⟩
  · rw [same, found]
  · rw [absent] at found
    cases found

theorem trans (first : Grown before middle) (second : Grown middle after) :
    Grown before after := by
  refine ⟨second.cwd.trans first.cwd, fun loc => ?_⟩
  rcases first.nodes loc with same | ⟨absent, isDir⟩
  · rw [← same]
    exact second.nodes loc
  · obtain ⟨mode, found⟩ := isDirIn_iff.mp isDir
    exact .inr ⟨absent, isDirIn_iff.mpr ⟨mode, second.kept found⟩⟩

theorem isDir (grown : Grown before after) (isDir : before.fs.IsDir loc) :
    after.fs.IsDir loc := by
  obtain ⟨mode, found⟩ := isDirIn_iff.mp isDir
  exact isDirIn_iff.mpr ⟨mode, grown.kept found⟩

theorem resolve (grown : Grown before after)
    (resolved : before.resolve path = .ok loc) :
    after.resolve path = .ok loc := by
  obtain ⟨nonempty, links, within, walked⟩ := resolve_eq_ok_iff.mp resolved
  refine resolve_eq_ok_iff.mpr ⟨nonempty, links, within, ?_⟩
  rw [grown.cwd]
  exact walked.grow fun _ _ => grown.kept

/-- What is there afterwards, the earlier file system with everything missing
made shows alike. -/
theorem lookMade (grown : Grown before after) {node : Node γ}
    (found : after.fs.node? loc = some node) :
    ∃ node', Util.lookMade before.fs [] loc = some node' ∧
      node.Alike node' := by
  have outside : Outside [] loc := fun _ member => nomatch member
  unfold Util.lookMade
  rw [if_pos outside]
  rcases grown.nodes loc with same | ⟨absent, isDir⟩
  · rw [← same, found]
    exact ⟨node, rfl, .refl node⟩
  · rw [found] at isDir
    refine ⟨.dir 493, by rw [absent]; rfl, ?_⟩
    cases node with
    | dir => trivial
    | file => cases isDir
    | symlink => cases isDir

/-- Where a path leads afterwards is where it would lead. -/
theorem willLead (grown : Grown before after)
    (leads : after.Leads (baseOf after.cwd path) comps loc) :
    WillLead [] before path comps loc := by
  obtain ⟨links, within, walked⟩ := leads
  rw [grown.cwd] at walked
  exact ⟨links, within, walked.alike fun _ _ => grown.lookMade⟩

/-- Making directories does not change where a path would lead. -/
theorem willLead_back (grown : Grown before after)
    (leads : WillLead [] after path comps loc) :
    WillLead [] before path comps loc := by
  obtain ⟨links, within, walked⟩ := leads
  rw [grown.cwd] at walked
  refine ⟨links, within, walked.alike ?_⟩
  intro other node found
  have outside : Outside [] other := fun _ member => nomatch member
  unfold Util.lookMade at found
  rw [if_pos outside] at found
  rcases there : after.fs.node? other with _ | now
  · rw [there, Option.none_or, Option.some.injEq] at found
    have absent : before.fs.node? other = none := by
      rcases earlier : before.fs.node? other with _ | old
      · rfl
      · rw [grown.kept earlier] at there
        cases there
    refine ⟨.dir 493, ?_, ?_⟩
    · rw [Util.lookMade, if_pos outside, absent]
      rfl
    · rw [← found]
      trivial
  · rw [there, Option.some_or, Option.some.injEq] at found
    rw [← found]
    exact grown.lookMade there

end Grown

/-- Directories were added where a cut of the path leads. -/
structure Made (path : Bytes) (before after : Disk γ) : Prop where
  grown : Grown before after
  onWay : ∀ loc, before.fs.node? loc = none → after.fs.node? loc ≠ none →
    ∃ cut, cut <+: components path ∧ WillLead [] before path cut loc

theorem Made.of_added {inside : Loc → Prop}
    (added : AddedDirs (baseOf before.cwd path) (components path) inside
      before after) : Made path before after := by
  have grown : Grown before after := by
    refine ⟨added.cwd, fun loc => ?_⟩
    exact (added.nodes loc).imp_right fun ⟨absent, isDir, _⟩ => ⟨absent, isDir⟩
  refine ⟨grown, fun loc absent exists_ => ?_⟩
  rcases added.nodes loc with same | ⟨_, _, _, _, _, _, cut, isCut, leads⟩
  · exact absurd (same.trans absent) exists_
  · rw [← added.cwd] at leads
    exact ⟨cut, isCut, grown.willLead leads⟩

/-- `salt_mkdirs` makes directories on the way of the path. -/
theorem mkdirs_made (path : Bytes) (mode : Nat) (disk : Disk γ) :
    Made path disk (finalState (mkdirs path mode disk)) := by
  have guard : Guard disk (baseOf disk.cwd path) (components path)
      (fun _ => True) :=
    fun _ _ _ _ _ _ _ _ _ => ⟨trivial, .inr fun _ => trivial⟩
  exact .of_added (endsIn_iff.mp
    (mkdirs_ends path mode guard fun _ _ _ => trivial))

/-- Where everything is there already, nothing is made. -/
theorem Made.nothing (made : Made path before after)
    (resolved : before.resolve path = .ok loc) (other : Loc) :
    after.fs.node? other = before.fs.node? other := by
  by_contra differs
  have absent : before.fs.node? other = none := by
    rcases made.grown.nodes other with same | ⟨absent, _⟩
    · exact absurd same differs
    · exact absent
  have exists_ : after.fs.node? other ≠ none := by
    rwa [absent] at differs
  obtain ⟨cut, ⟨rest, whole⟩, links, _, walked⟩ :=
    made.onWay other absent exists_
  obtain ⟨_, leads⟩ := resolve_eq_ok_iff.mp resolved
  rw [← whole] at leads
  obtain ⟨there, _, toThere, _⟩ := leads.of_append
  have thereExists := toThere.exists_final
  obtain ⟨steps, _, really⟩ := toThere
  have both : Walk before.fs.node? (baseOf before.cwd path) cut there steps ∧
      other = there := by
    refine really.meet walked ?_
    intro loc node node' found found'
    have outside : Outside [] loc := fun _ member => nomatch member
    rw [lookMade, if_pos outside, found, Option.some_or,
      Option.some.injEq] at found'
    subst found'
    exact ⟨.refl node, node, found, .refl node⟩
  rw [both.2] at absent
  rcases cut with _ | ⟨first, cut⟩
  · cases really
    obtain ⟨_, _, all⟩ := leads
    obtain ⟨mode, found⟩ := isDirIn_iff.mp
      (all.isDir_start (whole ▸ components_ne_nil path))
    rw [found] at absent
    cases absent
  · exact thereExists (List.cons_ne_nil first cut) absent

/-- The one directory that a `mkdir` makes. -/
theorem mkdirPlan_split {mode : Nat} {fs : FileSystem γ}
    (planned : mkdirPlan path mode disk = .ok fs) :
    ∃ front last empties parent,
      components path = front ++ last :: empties ∧
      (∀ comp ∈ empties, comp = []) ∧
      disk.Leads (baseOf disk.cwd path) front parent ∧
      disk.fs.Replaceable last parent ∧
      disk.fs.node? (last :: parent) = none ∧
      fs = disk.fs.replace last parent (some (.dir mode)) := by
  obtain ⟨parent, last, ⟨isSlot, replaceable, rfl⟩, absent⟩ :=
    mkdirPlan_ok planned
  obtain ⟨leads, _, isLast⟩ := slot_eq_ok isSlot
  have nonempty : trimmed path ≠ [] := by
    intro empty
    rw [empty] at isLast
    exact replaceable.1.1 isLast.symm
  have isTrimmed : (trimmed path).dropLast ++ [last] = trimmed path := by
    rw [← isLast, dropLast_append_getLastD nonempty]
  refine ⟨(trimmed path).dropLast, last,
    (components path).rtakeWhile (· = []), parent, ?_, ?_, leads,
    replaceable, absent, rfl⟩
  · rw [List.append_cons, isTrimmed]
    exact List.rdropWhile_append_rtakeWhile.symm
  · intro comp member
    simpa using List.mem_rtakeWhile_imp member

/-- Where the path leads to something, nothing can be made. -/
theorem mkdirPlan_of_resolve {mode : Nat}
    (resolved : disk.resolve path = .ok loc) :
    ∃ errno, mkdirPlan path mode disk = .error errno := by
  rcases planned : mkdirPlan path mode disk with errno | fs
  · exact ⟨errno, rfl⟩
  · obtain ⟨front, last, empties, parent, split, _, leads, replaceable,
      absent, _⟩ := mkdirPlan_split planned
    obtain ⟨_, whole⟩ := resolve_eq_ok_iff.mp resolved
    rw [split] at whole
    exact absurd absent (whole.exists_entry leads replaceable.1)

/-- A single `mkdir` makes the path a directory. -/
theorem made_of_mkdirPlan {mode : Nat} {fs : FileSystem γ}
    (planned : mkdirPlan path mode disk = .ok fs) :
    Made path disk { disk with fs := fs } ∧
      ∃ onto, Disk.resolve { disk with fs := fs } path = .ok onto ∧
        fs.IsDir onto := by
  obtain ⟨front, last, empties, parent, split, allEmpty, leads, replaceable,
    absent, rfl⟩ := mkdirPlan_split planned
  have pathNonempty : path ≠ [] := by
    rintro rfl
    cases planned
  let made := disk.fs.replace last parent (some (.dir mode))
  have added : AddedDirs (baseOf disk.cwd path) (components path)
      (fun _ => True) disk (disk.tick made) :=
    AddedDirs.of_replace mode split leads replaceable absent trivial
  have madeDir : made.node? (last :: parent) = some (.dir mode) := by
    rw [FileSystem.node?_replace replaceable, if_pos rfl]
  have onto := isDirIn_iff.mpr ⟨mode, madeDir⟩
  have further : Walk made.node? parent (last :: empties) (last :: parent)
      0 := by
    refine .entry ?_ replaceable.1.notDot replaceable.1.2.2.1 madeDir rfl ?_
    · obtain ⟨above, found⟩ := isDirIn_iff.mp replaceable.2.1
      exact isDirIn_iff.mpr ⟨above, added.kept _ _ found⟩
    · apply Walk.stay onto
      intro comp member
      exact .inl (allEmpty comp member)
  obtain ⟨grown, onWay⟩ := Made.of_added added
  refine ⟨⟨⟨grown.cwd, grown.nodes⟩, onWay⟩, last :: parent, ?_, onto⟩
  refine resolve_eq_ok_iff.mpr ⟨pathNonempty, ?_⟩
  rw [split]
  exact (added.leads leads).append further

/-! ## What keeps paths where they lead -/

/-- Directories stay directories and links stay as they are, but below the
tops. -/
structure Steady (tops : List Loc) (before after : Disk γ) : Prop where
  cwd : after.cwd = before.cwd
  dirs : ∀ loc, Outside tops loc → before.fs.IsDir loc → after.fs.IsDir loc
  links : ∀ loc target, Outside tops loc →
    before.fs.node? loc = some (.symlink target) →
    after.fs.node? loc = some (.symlink target)

namespace Steady

theorem refl (disk : Disk γ) : Steady tops disk disk :=
  ⟨rfl, fun _ _ => id, fun _ _ _ => id⟩

theorem trans (first : Steady tops before middle)
    (second : Steady tops middle after) : Steady tops before after := by
  refine ⟨second.cwd.trans first.cwd, fun loc outside isDir => ?_,
    fun loc target outside found => ?_⟩
  · exact second.dirs loc outside (first.dirs loc outside isDir)
  · exact second.links loc target outside
      (first.links loc target outside found)

theorem of_grown (grown : Grown before after) : Steady tops before after :=
  ⟨grown.cwd, fun _ _ => grown.isDir, fun _ _ _ => grown.kept⟩

/-- A change of what is below one of the tops, which stays a directory. -/
theorem of_below {top : Loc} (member : top ∈ tops)
    (cwd : after.cwd = before.cwd) (wasDir : before.fs.IsDir top)
    (isDir : after.fs.IsDir top)
    (outside : ∀ loc, ¬ top <:+ loc →
      after.fs.node? loc = before.fs.node? loc) :
    Steady tops before after := by
  have notBelow : ∀ loc, Outside tops loc → loc ≠ top → ¬ top <:+ loc :=
    fun loc outsideTops differs below =>
      outsideTops top member ⟨below, differs⟩
  refine ⟨cwd, fun loc outsideTops was => ?_,
    fun loc target outsideTops found => ?_⟩
  · by_cases same : loc = top
    · rwa [same]
    · rwa [FileSystem.IsDir, outside loc (notBelow loc outsideTops same)]
  · by_cases same : loc = top
    · rw [same] at found
      obtain ⟨mode, isDirectory⟩ := FileSystem.isDir_iff.mp wasDir
      rw [found] at isDirectory
      cases isDirectory
    · rw [outside loc (notBelow loc outsideTops same), found]

/-- A copy onto a directory keeps the directories and links it meets. -/
theorem of_graft (disk : Disk γ) (source target : Loc) :
    Steady tops disk { disk with fs := disk.fs.graft source target } := by
  by_cases able : disk.fs.Graftable source target
  · refine ⟨rfl, fun loc _ isDir => ?_, fun loc link _ found => ?_⟩
    · obtain ⟨mode, found⟩ := FileSystem.isDir_iff.mp isDir
      by_cases below : target <:+ loc
      · obtain ⟨rel, rfl⟩ := below
        rw [FileSystem.IsDir, FileSystem.node?_graft_below able]
        rcases onto : disk.fs.node? (rel ++ source) with _ | node
        · rwa [Option.none_or]
        · have overlays := able.overlays rel node _ onto found
          cases node with
          | dir mode => exact isDirIn_iff.mpr ⟨mode, rfl⟩
          | file => exact absurd overlays id
          | symlink => exact absurd overlays id
      · rwa [FileSystem.IsDir, FileSystem.node?_graft_outside below]
    · by_cases below : target <:+ loc
      · obtain ⟨rel, rfl⟩ := below
        rw [FileSystem.node?_graft_below able]
        rcases onto : disk.fs.node? (rel ++ source) with _ | node
        · rwa [Option.none_or]
        · have overlays := able.overlays rel node _ onto found
          cases node with
          | dir => exact absurd overlays id
          | file => exact absurd overlays id
          | symlink other =>
              rw [show other = link from overlays]
              rfl
      · rwa [FileSystem.node?_graft_outside below]
  · unfold FileSystem.graft
    rw [dif_neg able]
    exact .refl disk

end Steady

namespace Aside

theorem steady (aside : Aside tops before path loc)
    (steady : Steady tops before after) : Aside tops after path loc := by
  obtain ⟨links, within, walked⟩ := aside.walked
  refine ⟨aside.nonempty, ⟨links, within, ?_⟩,
    steady.dirs loc aside.outside aside.isDir, aside.outside⟩
  rw [steady.cwd]
  apply walked.mono
  · rw [lookOutside, if_pos aside.outside]
    exact aside.isDir
  · intro other isDir
    unfold lookOutside at isDir ⊢
    split_ifs at isDir ⊢ with outside
    · exact steady.dirs other outside isDir
    · exact isDir
  · intro other target found
    unfold lookOutside at found ⊢
    split_ifs at found ⊢ with outside
    exact steady.links other target outside found

/-- A path that would lead aside, and leads to a directory once directories
were made, leads aside then. -/
theorem of_grown (grown : Grown before after)
    (leads : WillLead tops before path (components path) loc)
    (resolved : after.resolve path = .ok loc) (isDir : after.fs.IsDir loc)
    (outside : Outside tops loc) : Aside tops after path loc := by
  obtain ⟨nonempty, links, within, walked⟩ :=
    resolve_eq_ok_iff.mp resolved
  obtain ⟨_, _, wouldWalk⟩ := leads
  refine ⟨nonempty, ⟨links, within, ?_⟩, isDir, outside⟩
  rw [grown.cwd] at walked ⊢
  refine (walked.meet wouldWalk ?_).1
  intro other node node' found found'
  have outsideOther : Outside tops other := by
    by_contra inside
    rw [lookMade, if_neg inside] at found'
    cases found'
  obtain ⟨made, isMade, alike⟩ := grown.lookMade found
  have unseen : Outside [] other := fun _ member => nomatch member
  rw [lookMade, if_pos unseen] at isMade
  rw [lookMade, if_pos outsideOther, isMade, Option.some.injEq] at found'
  refine ⟨found' ▸ alike, node, ?_, .refl node⟩
  rw [lookOutside, if_pos outsideOther, found]

end Aside

end SaltOS.Util
