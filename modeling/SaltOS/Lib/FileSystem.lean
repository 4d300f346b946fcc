import Mathlib.Data.List.AList

/-!
# Trees of directories, files and symbolic links

A file system is a finite map from locations to nodes.  A location lists the
names from the leaf up to the root, so that `name :: parent` is an entry of
the directory `parent`.  Every node lies in a directory, the root is one, and
names are what a directory entry can be called.  What a file holds is a
parameter.
-/

namespace SaltOS.Lib

abbrev Name := List UInt8

abbrev Loc := List Name

inductive Node (γ : Type) where
  | dir (mode : Nat)
  | file (content : γ) (mode : Nat)
  | symlink (target : Name)
  deriving DecidableEq, Repr

namespace Node

variable {γ : Type}

def isDir : Node γ → Bool
  | dir _ => true
  | _ => false

def isSymlink : Node γ → Bool
  | symlink _ => true
  | _ => false

end Node

/-- A directory entry is not empty, holds no slash and is no dot entry. -/
def ValidName (name : Name) : Prop :=
  name ≠ [] ∧ name ≠ [46] ∧ name ≠ [46, 46] ∧ 47 ∉ name

instance (name : Name) : Decidable (ValidName name) :=
  inferInstanceAs (Decidable (_ ∧ _ ∧ _ ∧ _))

/-- The node at a location is a directory. -/
def IsDirIn {γ : Type} (node : Option (Node γ)) : Prop :=
  node.any Node.isDir = true

instance {γ : Type} (node : Option (Node γ)) : Decidable (IsDirIn node) :=
  inferInstanceAs (Decidable (_ = _))

theorem isDirIn_iff {γ : Type} {node : Option (Node γ)} :
    IsDirIn node ↔ ∃ mode, node = some (.dir mode) := by
  rcases node with _ | node
  · simp [IsDirIn]
  · cases node <;> simp [IsDirIn, Node.isDir]

structure FileSystem (γ : Type) where
  nodes : AList (fun _ : Loc => Node γ)
  root : IsDirIn (nodes.lookup [])
  inDirectory : ∀ name parent, name :: parent ∈ nodes →
    IsDirIn (nodes.lookup parent)
  validNames : ∀ name parent, name :: parent ∈ nodes → ValidName name

namespace FileSystem

/-- An empty root directory. -/
def bare (γ : Type) : FileSystem γ where
  nodes := AList.singleton [] (.dir 493)
  root := rfl
  inDirectory := by simp [AList.mem_keys]
  validNames := by simp [AList.mem_keys]

variable {γ : Type} {fs : FileSystem γ} {loc : Loc} {name : Name}

def node? (fs : FileSystem γ) (loc : Loc) : Option (Node γ) :=
  fs.nodes.lookup loc

def IsDir (fs : FileSystem γ) (loc : Loc) : Prop :=
  IsDirIn (fs.node? loc)

instance (fs : FileSystem γ) (loc : Loc) : Decidable (fs.IsDir loc) :=
  inferInstanceAs (Decidable (IsDirIn _))

/-- The entries of a directory, in the order of `readdir`. -/
def children (fs : FileSystem γ) (loc : Loc) : List Name :=
  fs.nodes.keys.filterMap fun key =>
    match key with
    | [] => none
    | name :: parent => if parent = loc then some name else none

/-- The length of the longest location of a node. -/
def depth (fs : FileSystem γ) : Nat :=
  (fs.nodes.keys.map List.length).foldr max 0

theorem isDir_iff : fs.IsDir loc ↔ ∃ mode, fs.node? loc = some (.dir mode) :=
  isDirIn_iff

theorem isDir_root (fs : FileSystem γ) : fs.IsDir [] := fs.root

theorem mem_nodes_iff : loc ∈ fs.nodes ↔ fs.node? loc ≠ none := by
  simp [node?, AList.lookup_eq_none]

theorem length_le_depth (exists_ : fs.node? loc ≠ none) :
    loc.length ≤ fs.depth := by
  have member : loc ∈ fs.nodes.keys :=
    AList.mem_keys.mp (mem_nodes_iff.mpr exists_)
  unfold depth
  generalize fs.nodes.keys = keys at member
  induction keys with
  | nil => cases member
  | cons key keys induction =>
      rcases List.mem_cons.mp member with rfl | later
      · exact Nat.le_max_left _ _
      · exact Nat.le_trans (induction later) (Nat.le_max_right _ _)

theorem isDir_parent (exists_ : fs.node? (name :: loc) ≠ none) :
    fs.IsDir loc :=
  fs.inDirectory name loc (mem_nodes_iff.mpr exists_)

theorem validName (exists_ : fs.node? (name :: loc) ≠ none) :
    ValidName name :=
  fs.validNames name loc (mem_nodes_iff.mpr exists_)

theorem mem_children : name ∈ fs.children loc ↔ fs.node? (name :: loc) ≠ none := by
  rw [← mem_nodes_iff, AList.mem_keys]
  simp only [children, List.mem_filterMap]
  constructor
  · rintro ⟨key, member, entry⟩
    rcases key with _ | ⟨first, parent⟩
    · cases entry
    · by_cases same : parent = loc
      · simp only [same, if_true, Option.some.injEq] at entry
        rwa [← entry, ← same]
      · simp [same] at entry
  · intro member
    exact ⟨name :: loc, member, by simp⟩

theorem children_eq_nil_iff :
    fs.children loc = [] ↔ ∀ name, fs.node? (name :: loc) = none := by
  simp only [List.eq_nil_iff_forall_not_mem, mem_children, not_not]

theorem validName_of_mem (exists_ : fs.node? loc ≠ none) :
    ∀ name ∈ loc, ValidName name := by
  induction loc with
  | nil => simp
  | cons last parent induction =>
      obtain ⟨mode, found⟩ := isDir_iff.mp (isDir_parent exists_)
      intro name member
      rcases List.mem_cons.mp member with rfl | above
      · exact validName exists_
      · exact induction (by simp [found]) name above

/-- What lies above a node is a directory. -/
theorem isDir_of_above {above : Loc} (exists_ : fs.node? loc ≠ none)
    (isAbove : above <:+ loc) (differs : above ≠ loc) : fs.IsDir above := by
  induction loc with
  | nil => exact absurd (List.suffix_nil.mp isAbove) differs
  | cons last parent induction =>
      have parentIsDir := isDir_parent exists_
      rcases List.suffix_cons_iff.mp isAbove with same | higher
      · exact absurd same differs
      · by_cases isParent : above = parent
        · rwa [isParent]
        · obtain ⟨mode, found⟩ := isDir_iff.mp parentIsDir
          exact induction (by simp [found]) higher isParent

theorem isDir_of_above_dir {above : Loc} (isDir : fs.IsDir loc)
    (isAbove : above <:+ loc) : fs.IsDir above := by
  by_cases same : above = loc
  · rwa [same]
  · obtain ⟨mode, found⟩ := isDir_iff.mp isDir
    exact isDir_of_above (by simp [found]) isAbove same

/-- Only directories have entries. -/
theorem children_of_not_dir (notDir : ¬ fs.IsDir loc) :
    fs.children loc = [] := by
  refine children_eq_nil_iff.mpr (fun name => ?_)
  by_contra exists_
  exact notDir (isDir_parent exists_)

/-- The node of an entry may change when nothing lies below it. -/
def Replaceable (fs : FileSystem γ) (name : Name) (parent : Loc) : Prop :=
  ValidName name ∧ fs.IsDir parent ∧ fs.children (name :: parent) = []

instance (fs : FileSystem γ) (name : Name) (parent : Loc) :
    Decidable (fs.Replaceable name parent) :=
  inferInstanceAs (Decidable (_ ∧ _ ∧ _))

private def nodesWith (fs : FileSystem γ) (loc : Loc)
    (node : Option (Node γ)) : AList (fun _ : Loc => Node γ) :=
  match node with
  | some node => fs.nodes.insert loc node
  | none => fs.nodes.erase loc

private theorem lookup_nodesWith (fs : FileSystem γ) (loc other : Loc)
    (node : Option (Node γ)) :
    (fs.nodesWith loc node).lookup other =
      if other = loc then node else fs.node? other := by
  by_cases same : other = loc
  · subst same
    cases node <;> simp [nodesWith]
  · cases node <;>
      simp [nodesWith, same, node?, AList.lookup_insert_ne,
        AList.lookup_erase_ne]

/-- Put a node at an entry, or remove the entry. -/
def replace (fs : FileSystem γ) (name : Name) (parent : Loc)
    (node : Option (Node γ)) : FileSystem γ :=
  if replaceable : fs.Replaceable name parent then
    { nodes := fs.nodesWith (name :: parent) node
      root := by
        rw [lookup_nodesWith, if_neg (List.cons_ne_nil _ _).symm]
        exact fs.root
      inDirectory := by
        obtain ⟨_, isDir, childless⟩ := replaceable
        intro entry above member
        have found := AList.lookup_isSome.mpr member
        rw [lookup_nodesWith] at found ⊢
        have aboveIsDir : fs.IsDir above := by
          by_cases same : entry :: above = name :: parent
          · rwa [(List.cons.inj same).2]
          · rw [if_neg same] at found
            exact isDir_parent (Option.ne_none_iff_isSome.mpr found)
        by_cases below : above = name :: parent
        · have absent := children_eq_nil_iff.mp childless entry
          have longer : entry :: above ≠ name :: parent := by
            intro same
            have lengths := congrArg List.length same
            simp [below] at lengths
          rw [if_neg longer, below, absent] at found
          cases found
        · rw [if_neg below]
          exact aboveIsDir
      validNames := by
        intro entry above member
        have found := AList.lookup_isSome.mpr member
        rw [lookup_nodesWith] at found
        by_cases same : entry :: above = name :: parent
        · rw [(List.cons.inj same).1]
          exact replaceable.1
        · rw [if_neg same] at found
          exact validName (Option.ne_none_iff_isSome.mpr found) }
  else fs

theorem node?_replace {parent : Loc}
    (replaceable : fs.Replaceable name parent) (node : Option (Node γ))
    (other : Loc) :
    (fs.replace name parent node).node? other =
      if other = name :: parent then node else fs.node? other := by
  unfold replace
  rw [dif_pos replaceable]
  exact lookup_nodesWith fs (name :: parent) other node

/-- Whatever was asked for, at most the one entry changes. -/
theorem node?_replace_of_ne {parent other : Loc} (node : Option (Node γ))
    (differs : other ≠ name :: parent) :
    (fs.replace name parent node).node? other = fs.node? other := by
  by_cases replaceable : fs.Replaceable name parent
  · rw [node?_replace replaceable, if_neg differs]
  · unfold replace
    rw [dif_neg replaceable]

end FileSystem

end SaltOS.Lib
