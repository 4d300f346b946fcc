import Mathlib.Data.Set.Basic
import SaltOS.Lib.Leads

/-!
# Leaves below a directory

A leaf is what a location holds other than a directory, without its mode.
`Changes` describes what a program may have done below a directory: which
leaves it may have touched, at which names no directory may appear, and which
directories may be gone.  It composes, and paths that meet no symbolic link
keep that property along it.
-/

namespace SaltOS.Lib

variable {γ : Type}

inductive Leaf (γ : Type) where
  | file (content : γ)
  | link (target : Name)
  deriving DecidableEq, Repr

def Node.leaf? : Node γ → Option (Leaf γ)
  | .dir _ => none
  | .file content _ => some (.file content)
  | .symlink target => some (.link target)

/-- The location that names lead to from a directory. -/
def descend (top : Loc) (comps : List Name) : Loc :=
  comps.reverse ++ top

@[simp] theorem descend_nil (top : Loc) : descend top [] = top := rfl

theorem descend_cons (top : Loc) (comp : Name) (rest : List Name) :
    descend top (comp :: rest) = descend (comp :: top) rest := by
  simp [descend]

theorem descend_append (top : Loc) (front rest : List Name) :
    descend top (front ++ rest) = descend (descend top front) rest := by
  simp [descend]

theorem descend_concat (top : Loc) (front : List Name) (last : Name) :
    descend top (front ++ [last]) = last :: descend top front := by
  simp [descend]

theorem descend_inj {top : Loc} {left right : List Name} :
    descend top left = descend top right ↔ left = right := by
  simp [descend]

theorem suffix_descend (top : Loc) (comps : List Name) :
    top <:+ descend top comps :=
  List.suffix_append _ _

theorem descend_suffix {top : Loc} {cut comps : List Name}
    (isCut : cut <+: comps) : descend top cut <:+ descend top comps := by
  obtain ⟨rest, rfl⟩ := isCut
  rw [descend_append]
  exact suffix_descend _ _

/-- The entry of a nonempty list of names. -/
theorem descend_dropLast {top : Loc} {comps : List Name}
    (nonempty : comps ≠ []) :
    comps.getLastD [] :: descend top comps.dropLast = descend top comps := by
  rw [← descend_concat, dropLast_append_getLastD nonempty]

/-- Below a directory, and not the directory itself. -/
def StrictlyBelow (top loc : Loc) : Prop :=
  top <:+ loc ∧ loc ≠ top

instance (top loc : Loc) : Decidable (StrictlyBelow top loc) :=
  inferInstanceAs (Decidable (_ ∧ _))

theorem strictlyBelow_descend {top : Loc} {comps : List Name}
    (nonempty : comps ≠ []) : StrictlyBelow top (descend top comps) := by
  refine ⟨suffix_descend top comps, fun same => nonempty ?_⟩
  exact descend_inj.mp (same.trans (descend_nil top).symm)

/-- Names that a path may be made of. -/
structure Names (comps : List Name) : Prop where
  nonempty : comps ≠ []
  valid : ∀ comp ∈ comps, ValidName comp

theorem Names.last_valid {comps : List Name} (names : Names comps) :
    ValidName (comps.getLastD []) := by
  refine names.valid _ ?_
  rw [List.getLastD_eq_getLast?,
    List.getLast?_eq_getLast_of_ne_nil names.nonempty, Option.getD_some]
  exact List.getLast_mem names.nonempty

theorem Names.last_not_special {comps : List Name} (names : Names comps) :
    ¬ (IsDot (comps.getLastD []) ∨ comps.getLastD [] = dotDot) :=
  not_or.mpr ⟨names.last_valid.notDot, names.last_valid.2.2.1⟩

namespace FileSystem

variable {fs : FileSystem γ} {top loc : Loc} {comps : List Name}

def leaf? (fs : FileSystem γ) (loc : Loc) : Option (Leaf γ) :=
  (fs.node? loc).bind Node.leaf?

theorem leaf?_of_isDir (isDir : fs.IsDir loc) : fs.leaf? loc = none := by
  obtain ⟨mode, found⟩ := isDir_iff.mp isDir
  simp [leaf?, found, Node.leaf?]

theorem leaf?_of_absent (absent : fs.node? loc = none) :
    fs.leaf? loc = none := by
  simp [leaf?, absent]

theorem leaf?_eq_file {content : γ} :
    fs.leaf? loc = some (.file content) ↔
      ∃ mode, fs.node? loc = some (.file content mode) := by
  rcases found : fs.node? loc with _ | _ | _ | _ <;>
    simp [leaf?, found, Node.leaf?]

theorem leaf?_eq_link {target : Name} :
    fs.leaf? loc = some (.link target) ↔
      fs.node? loc = some (.symlink target) := by
  rcases found : fs.node? loc with _ | _ | _ | _ <;>
    simp [leaf?, found, Node.leaf?]

/-- A file system without symbolic links. -/
def LinkFree (fs : FileSystem γ) : Prop :=
  ∀ entry ∈ fs.nodes.entries, entry.2.isSymlink = false

instance (fs : FileSystem γ) : Decidable fs.LinkFree :=
  inferInstanceAs (Decidable (∀ entry ∈ _, _ = false))

theorem LinkFree.leaf?_ne_link (free : fs.LinkFree) (target : Name) :
    fs.leaf? loc ≠ some (.link target) := by
  intro isLink
  have member := AList.mem_lookup_iff.mp (leaf?_eq_link.mp isLink)
  cases free _ member

theorem node?_ne_none_of_leaf {leaf : Leaf γ}
    (found : fs.leaf? loc = some leaf) : fs.node? loc ≠ none := by
  intro absent
  rw [leaf?_of_absent absent] at found
  cases found

/-- What lies on the way to a node is a directory. -/
theorem isDir_of_cut {cut : List Name}
    (exists_ : fs.node? (descend top comps) ≠ none) (isCut : cut <+: comps)
    (proper : cut ≠ comps) : fs.IsDir (descend top cut) :=
  isDir_of_above exists_ (descend_suffix isCut)
    (fun same => proper (descend_inj.mp same))

end FileSystem

/-- No symbolic link stands on the way to the last name. -/
def Plain (fs : FileSystem γ) (top : Loc) (comps : List Name) : Prop :=
  ∀ cut target, cut <+: comps → cut ≠ comps →
    fs.leaf? (descend top cut) ≠ some (.link target)

namespace Plain

variable {fs : FileSystem γ} {top : Loc} {comps : List Name}

theorem of_prefix {cut : List Name} (plain : Plain fs top comps)
    (isCut : cut <+: comps) : Plain fs top cut := by
  intro shorter target isShorter proper
  refine plain shorter target (isShorter.trans isCut) ?_
  rintro rfl
  exact proper (isShorter.eq_of_length_le isCut.length_le)

theorem of_linkFree (free : fs.LinkFree) (top : Loc) (comps : List Name) :
    Plain fs top comps :=
  fun _ target _ _ => free.leaf?_ne_link target

/-- The way to what is there is plain. -/
theorem of_exists (exists_ : fs.node? (descend top comps) ≠ none) :
    Plain fs top comps := by
  intro cut target isCut proper isLink
  have isDir := FileSystem.isDir_of_cut exists_ isCut proper
  rw [FileSystem.leaf?_of_isDir isDir] at isLink
  cases isLink

/-- A walk that meets no link leads where the names say. -/
theorem walk_eq {final : Loc} {links : Nat} {last : Name}
    (plain : Plain fs top (comps ++ [last]))
    (valid : ∀ comp ∈ comps, ValidName comp)
    (walked : Walk fs.node? top comps final links) :
    final = descend top comps ∧ links = 0 := by
  induction comps generalizing top with
  | nil =>
      cases walked
      exact ⟨rfl, rfl⟩
  | cons comp rest induction =>
      have isValid := valid comp List.mem_cons_self
      rw [descend_cons]
      cases walked with
      | dot _ isDot => exact absurd isDot isValid.notDot
      | up => exact absurd rfl isValid.2.2.1
      | entry _ _ _ _ _ later =>
          refine induction ?_
            (fun comp member => valid comp (List.mem_cons_of_mem _ member))
            later
          intro cut target isCut proper
          rw [← descend_cons]
          refine plain (comp :: cut) target ?_ ?_
          · exact (List.prefix_cons_inj comp).mpr isCut
          · exact fun same => proper (List.cons.inj same).2
      | follow _ _ _ found =>
          refine absurd (FileSystem.leaf?_eq_link.mpr found)
            (plain [comp] _ ?_ ?_)
          · simp
          · simp

end Plain

/-- Names that lead from directory to directory are walked without a link. -/
theorem walk_dirs {look : Loc → Option (Node γ)} {top : Loc}
    {comps : List Name} (valid : ∀ comp ∈ comps, ValidName comp)
    (dirs : ∀ cut, cut <+: comps → IsDirIn (look (descend top cut))) :
    Walk look top comps (descend top comps) 0 := by
  induction comps generalizing top with
  | nil => exact .nil _
  | cons comp rest induction =>
      have isValid := valid comp List.mem_cons_self
      have here : IsDirIn (look top) := dirs [] (List.nil_prefix)
      have entryIsDir : IsDirIn (look (comp :: top)) :=
        dirs [comp] ((List.cons_prefix_cons).mpr ⟨rfl, List.nil_prefix⟩)
      obtain ⟨mode, found⟩ := isDirIn_iff.mp entryIsDir
      rw [descend_cons]
      refine .entry here isValid.notDot isValid.2.2.1 found rfl (induction
        (fun comp member => valid comp (List.mem_cons_of_mem _ member)) ?_)
      intro cut isCut
      rw [← descend_cons]
      exact dirs (comp :: cut) ((List.cons_prefix_cons).mpr ⟨rfl, isCut⟩)

/-- Names that lead to a directory are walked without a link. -/
theorem walk_descend {fs : FileSystem γ} {top : Loc} {comps : List Name}
    (valid : ∀ comp ∈ comps, ValidName comp)
    (isDir : fs.IsDir (descend top comps)) :
    Walk fs.node? top comps (descend top comps) 0 := by
  apply walk_dirs valid
  intro cut isCut
  exact FileSystem.isDir_of_above_dir isDir (descend_suffix isCut)

namespace Disk

/-- What a program did below `top`: the leaves it `touched`, the `guarded`
names at which no directory appeared, the directories that it may have
`emptied` and removed. -/
structure Changes (top : Loc) (guarded touched emptied : Set (List Name))
    (before after : Disk γ) : Prop where
  cwd : after.cwd = before.cwd
  quiet : before.faults = [] → after.faults = []
  outside : ∀ loc, ¬ StrictlyBelow top loc →
    after.fs.node? loc = before.fs.node? loc
  leaves : ∀ loc, (∀ comps ∈ touched, loc ≠ descend top comps) →
    after.fs.leaf? loc = before.fs.leaf? loc
  appeared : ∀ comps ∈ guarded, after.fs.IsDir (descend top comps) →
    before.fs.IsDir (descend top comps)
  kept : ∀ loc, (∀ comps ∈ emptied, loc ≠ descend top comps) →
    before.fs.IsDir loc → after.fs.IsDir loc

namespace Changes

variable {top : Loc} {guarded touched emptied : Set (List Name)}
  {before middle after : Disk γ}

theorem refl (disk : Disk γ) : Changes top guarded touched emptied disk disk :=
  ⟨rfl, id, fun _ _ => rfl, fun _ _ => rfl, fun _ _ => id, fun _ _ => id⟩

theorem trans (first : Changes top guarded touched emptied before middle)
    (second : Changes top guarded touched emptied middle after) :
    Changes top guarded touched emptied before after where
  cwd := second.cwd.trans first.cwd
  quiet := fun silent => second.quiet (first.quiet silent)
  outside := fun loc away =>
    (second.outside loc away).trans (first.outside loc away)
  leaves := fun loc other =>
    (second.leaves loc other).trans (first.leaves loc other)
  appeared := fun comps member isDir =>
    first.appeared comps member (second.appeared comps member isDir)
  kept := fun loc other isDir =>
    second.kept loc other (first.kept loc other isDir)

theorem mono {more also : Set (List Name)}
    (changes : Changes top guarded touched emptied before after)
    (fewer : touched ⊆ more) (less : emptied ⊆ also) :
    Changes top guarded more also before after where
  cwd := changes.cwd
  quiet := changes.quiet
  outside := changes.outside
  leaves := fun loc other => changes.leaves loc
    (fun comps member => other comps (fewer member))
  appeared := changes.appeared
  kept := fun loc other => changes.kept loc
    (fun comps member => other comps (less member))

/-- The environment has decided about a call that changed nothing. -/
theorem tick (disk : Disk γ) :
    Changes top guarded touched emptied disk (disk.tick disk.fs) :=
  ⟨rfl, fun silent => by simp [Disk.tick, silent], fun _ _ => rfl,
    fun _ _ => rfl, fun _ _ => id, fun _ _ => id⟩

theorem plain {comps : List Name}
    (changes : Changes top guarded touched emptied before after)
    (clear : ∀ cut, cut <+: comps → cut ≠ comps → cut ∉ touched)
    (isPlain : Plain before.fs top comps) : Plain after.fs top comps := by
  intro cut target isCut proper
  rw [changes.leaves]
  · exact isPlain cut target isCut proper
  · rintro other member same
    rw [descend_inj] at same
    subst same
    exact clear cut isCut proper member

end Changes

end Disk

end SaltOS.Lib
