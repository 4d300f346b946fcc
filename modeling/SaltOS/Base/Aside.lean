import SaltOS.Base.Below

/-!
# Paths aside from some directories

A path that leads to a directory without passing through anything below some
other directories still leads there when only those have changed.  A directory
may be among them itself.
-/

namespace SaltOS.Util

open Lib Disk

variable {γ : Type} {tops : List Loc} {disk before middle after : Disk γ}
  {path : Bytes} {loc : Loc}

/-- Strictly below none of the directories. -/
def Outside (tops : List Loc) (loc : Loc) : Prop :=
  ∀ top ∈ tops, ¬ StrictlyBelow top loc

instance (tops : List Loc) (loc : Loc) : Decidable (Outside tops loc) :=
  inferInstanceAs (Decidable (∀ top ∈ tops, _))

/-- The lookup that sees nothing strictly below the directories. -/
def lookOutside (fs : FileSystem γ) (tops : List Loc) (loc : Loc) :
    Option (Node γ) :=
  if Outside tops loc then fs.node? loc else none

/-- The path leads to a directory without passing through what lies below
`tops`. -/
structure Aside (tops : List Loc) (disk : Disk γ) (path : Bytes) (loc : Loc) :
    Prop where
  nonempty : path ≠ []
  walked : ∃ links, links ≤ maxSymlinks ∧
    Walk (lookOutside disk.fs tops) (baseOf disk.cwd path) (components path)
      loc links
  isDir : disk.fs.IsDir loc
  outside : Outside tops loc

/-- Nothing has changed but below the directories. -/
structure SameOutside (tops : List Loc) (before after : Disk γ) : Prop where
  cwd : after.cwd = before.cwd
  nodes : ∀ loc, Outside tops loc → after.fs.node? loc = before.fs.node? loc

namespace SameOutside

theorem refl (disk : Disk γ) : SameOutside tops disk disk :=
  ⟨rfl, fun _ _ => rfl⟩

theorem trans (first : SameOutside tops before middle)
    (second : SameOutside tops middle after) :
    SameOutside tops before after :=
  ⟨second.cwd.trans first.cwd, fun loc outside =>
    (second.nodes loc outside).trans (first.nodes loc outside)⟩

theorem mono {fewer : List Loc} (fewerTops : fewer ⊆ tops)
    (same : SameOutside fewer before after) :
    SameOutside tops before after :=
  ⟨same.cwd, fun loc outside => same.nodes loc fun top member =>
    outside top (fewerTops member)⟩

theorem of_changes {top : Loc} {guarded touched emptied : Set (List Name)}
    (member : top ∈ tops)
    (changes : Changes top guarded touched emptied before after) :
    SameOutside tops before after :=
  ⟨changes.cwd, fun loc outside => changes.outside loc (outside top member)⟩

end SameOutside

namespace Aside

theorem same (aside : Aside tops before path loc)
    (same : SameOutside tops before after) : Aside tops after path loc := by
  have looked : lookOutside after.fs tops = lookOutside before.fs tops := by
    funext other
    unfold lookOutside
    split
    next outside => exact same.nodes other outside
    · rfl
  refine ⟨aside.nonempty, ?_, ?_, aside.outside⟩
  · rw [looked, same.cwd]
    exact aside.walked
  · rw [FileSystem.IsDir, same.nodes loc aside.outside]
    exact aside.isDir

theorem resolve (aside : Aside tops disk path loc) :
    disk.resolve path = .ok loc := by
  obtain ⟨links, within, walked⟩ := aside.walked
  refine resolve_eq_ok_iff.mpr ⟨aside.nonempty, links, within, ?_⟩
  apply walked.grow
  intro other node found
  unfold lookOutside at found
  split at found
  · exact found
  · cases found

/-- Such a path roots what lies below it. -/
theorem rooted (aside : Aside tops disk path loc) (member : loc ∈ tops)
    (noTrailing : path.getLast? ≠ some 47) : Rooted disk path loc := by
  obtain ⟨links, within, walked⟩ := aside.walked
  refine ⟨aside.nonempty, ⟨links, within, ?_⟩, aside.isDir⟩
  rw [dirFront, if_neg noTrailing]
  apply walked.grow
  intro other node found
  unfold lookOutside at found
  split at found
  next outside =>
    rw [lookAround_eq.2 (outside loc member)]
    exact found
  · cases found

/-- An absolute path that goes from directory to directory. -/
theorem of_isDir {names : List Name} (nonempty : path ≠ [])
    (absolute : path.head? = some 47) (split : components path = [] :: names)
    (valid : ∀ name ∈ names, ValidName name)
    (isDir : disk.fs.IsDir (descend [] names))
    (outside : Outside tops (descend [] names)) :
    Aside tops disk path (descend [] names) := by
  have dirs : ∀ cut, cut <+: names →
      IsDirIn (lookOutside disk.fs tops (descend [] cut)) := by
    intro cut isCut
    have above : Outside tops (descend [] cut) := by
      rintro top member ⟨isBelow, differs⟩
      refine outside top member ⟨isBelow.trans (descend_suffix isCut), ?_⟩
      rintro rfl
      exact differs (isBelow.eq_of_length_le
        (descend_suffix isCut).length_le).symm
    rw [lookOutside, if_pos above]
    exact FileSystem.isDir_of_above_dir isDir (descend_suffix isCut)
  refine ⟨nonempty, ⟨0, Nat.zero_le _, ?_⟩, isDir, outside⟩
  rw [baseOf, if_pos absolute, split]
  exact .dot (dirs [] List.nil_prefix) (.inl rfl) (walk_dirs valid dirs)

end Aside

end SaltOS.Util
