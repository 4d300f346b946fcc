import Mathlib.Data.List.Basic

/-!
# A directory with links among its own names

An entry of a directory is a node, or a link to another name of the same
directory.  A name stands for the node at the end of its chain of links, and
the names on the way are its trail.  Removing entries changes what a name
stands for exactly when it takes one off the trail.
-/

namespace SaltOS.Lib

variable {Name Node : Type}

inductive LinkedEntry (Name Node : Type) where
  | node (node : Node)
  | link (target : Name)
  deriving DecidableEq

/-- The entries of a directory, in the order in which they are read. -/
abbrev LinkedDir (Name Node : Type) := List (Name × LinkedEntry Name Node)

namespace LinkedDir

variable [DecidableEq Name]

/-- The entry of a name. -/
def find (dir : LinkedDir Name Node) (name : Name) :
    Option (LinkedEntry Name Node) :=
  List.lookup name dir

def remove (dir : LinkedDir Name Node) (name : Name) : LinkedDir Name Node :=
  dir.filter (fun entry => entry.1 ≠ name)

/-- The node a name stands for, after fewer than `links` links. -/
def stat (dir : LinkedDir Name Node) : Nat → Name → Option Node
  | 0, _ => none
  | links + 1, name =>
      match dir.find name with
      | none => none
      | some (.node node) => some node
      | some (.link target) => stat dir links target

/-- The names that `stat` looks up. -/
def trail (dir : LinkedDir Name Node) : Nat → Name → List Name
  | 0, _ => []
  | links + 1, name =>
      name ::
        match dir.find name with
        | some (.link target) => trail dir links target
        | _ => []

/-- Every entry of one directory is an entry of the other. -/
def Within (smaller larger : LinkedDir Name Node) : Prop :=
  ∀ name entry, smaller.find name = some entry →
    larger.find name = some entry

variable {dir smaller larger : LinkedDir Name Node} {name other : Name}

theorem find_cons_self {value : LinkedEntry Name Node}
    {rest : LinkedDir Name Node} :
    find ((name, value) :: rest) name = some value := by
  simp [find]

theorem find_cons_ne {value : LinkedEntry Name Node}
    {rest : LinkedDir Name Node} (different : other ≠ name) :
    find ((name, value) :: rest) other = find rest other := by
  unfold find
  rw [List.lookup_cons, beq_false_of_ne different]

@[simp] theorem find_remove_self :
    (dir.remove name).find name = none := by
  unfold find
  rw [List.lookup_eq_none_iff]
  intro entry member
  have different : entry.1 ≠ name := by
    simpa using (List.mem_filter.mp member).2
  exact bne_iff_ne.mpr different.symm

theorem find_remove_ne (different : other ≠ name) :
    (dir.remove name).find other = dir.find other := by
  induction dir with
  | nil => rfl
  | cons entry rest ih =>
      obtain ⟨key, value⟩ := entry
      by_cases removed : key = name
      · subst key
        have skipped : remove ((name, value) :: rest) name =
            remove rest name := by
          simp [remove]
        rw [skipped, ih, find_cons_ne different]
      · have kept : remove ((key, value) :: rest) name =
            (key, value) :: remove rest name := by
          simp [remove, removed]
        by_cases found : other = key
        · subst other
          rw [kept, find_cons_self, find_cons_self]
        · rw [kept, find_cons_ne found, find_cons_ne found, ih]

theorem Within.refl : Within dir dir :=
  fun _ _ found => found

theorem Within.trans {between : LinkedDir Name Node}
    (first : Within smaller between) (second : Within between larger) :
    Within smaller larger :=
  fun name entry found => second name entry (first name entry found)

theorem remove_within : Within (dir.remove name) dir := by
  intro other entry found
  by_cases same : other = name
  · subst other
    rw [find_remove_self] at found
    cases found
  · rwa [find_remove_ne same] at found

theorem Within.stat (within : Within smaller larger) {links : Nat}
    {node : Node} (found : smaller.stat links name = some node) :
    larger.stat links name = some node := by
  induction links generalizing name with
  | zero => cases found
  | succ links ih =>
      unfold LinkedDir.stat at found ⊢
      cases entry : smaller.find name with
      | none => simp [entry] at found
      | some value =>
          rw [within name value entry]
          rw [entry] at found
          cases value with
          | node _ => exact found
          | link target => exact ih found

/-- Only the entries on its trail decide what a name stands for. -/
theorem stat_congr {links : Nat}
    (agree : ∀ passed ∈ larger.trail links name,
      smaller.find passed = larger.find passed) :
    smaller.stat links name = larger.stat links name := by
  induction links generalizing name with
  | zero => rfl
  | succ links ih =>
      have here := agree name (by simp [trail])
      unfold LinkedDir.stat
      rw [here]
      cases entry : larger.find name with
      | none => rfl
      | some value =>
          cases value with
          | node _ => rfl
          | link target =>
              apply ih
              intro passed member
              apply agree passed
              simp [trail, entry, member]

/-- A name without an entry stands for nothing. -/
theorem stat_of_find_none (absent : dir.find name = none) (links : Nat) :
    dir.stat links name = none := by
  cases links with
  | zero => rfl
  | succ links => simp [LinkedDir.stat, absent]

end LinkedDir

end SaltOS.Lib
