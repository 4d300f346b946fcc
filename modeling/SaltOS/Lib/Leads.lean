import SaltOS.Lib.Posix

/-!
# Where paths lead

Resolution within the kernel's budget of links, as a relation, and what stays
true of it when directories are added to the file system.
-/

namespace SaltOS.Lib

variable {γ : Type}

/-- A walk that starts at a node ends at one. -/
theorem Walk.exists_final {fs : FileSystem γ} {cur final : Loc}
    {comps : List Name} {links : Nat}
    (walked : Walk fs.node? cur comps final links)
    (exists_ : fs.node? cur ≠ none) : fs.node? final ≠ none := by
  have rootExists : fs.node? [] ≠ none := by
    obtain ⟨mode, found⟩ := FileSystem.isDir_iff.mp fs.isDir_root
    simp [found]
  induction walked with
  | nil cur => exact exists_
  | dot _ _ _ induction => exact induction exists_
  | @up cur _ _ _ _ _ induction =>
      rcases cur with _ | ⟨last, parent⟩
      · exact induction rootExists
      · obtain ⟨mode, found⟩ := FileSystem.isDir_iff.mp
          (FileSystem.isDir_parent exists_)
        exact induction (by simp [found])
  | entry _ _ _ found _ _ induction => exact induction (by simp [found])
  | follow _ _ _ _ _ _ induction =>
      refine induction ?_
      unfold baseOf
      split_ifs
      · exact rootExists
      · exact exists_

namespace Disk

/-- The components lead from `base` to the location. -/
def Leads (disk : Disk γ) (base : Loc) (comps : List Name) (loc : Loc) :
    Prop :=
  ∃ links, links ≤ maxSymlinks ∧ Walk disk.fs.node? base comps loc links

theorem resolve_eq_ok_iff {disk : Disk γ} {path : Name} {loc : Loc} :
    disk.resolve path = .ok loc ↔
      path ≠ [] ∧ disk.Leads (baseOf disk.cwd path) (components path) loc := by
  unfold resolve Leads
  split_ifs with empty
  · simp [empty]
  · simp [empty, walk_eq_ok_iff]

theorem Leads.exists_final {disk : Disk γ} {base final : Loc}
    {comps : List Name} (leads : disk.Leads base comps final)
    (nonempty : comps ≠ []) : disk.fs.node? final ≠ none := by
  obtain ⟨_, _, walked⟩ := leads
  obtain ⟨mode, found⟩ := isDirIn_iff.mp (walked.isDir_start nonempty)
  exact walked.exists_final (by simp [found])

theorem exists_of_resolve {disk : Disk γ} {path : Name} {loc : Loc}
    (resolved : disk.resolve path = .ok loc) : disk.fs.node? loc ≠ none :=
  (resolve_eq_ok_iff.mp resolved).2.exists_final (components_ne_nil path)

theorem Leads.deterministic {disk : Disk γ} {base first second : Loc}
    {comps : List Name} (left : disk.Leads base comps first)
    (right : disk.Leads base comps second) : first = second := by
  obtain ⟨_, _, leftWalk⟩ := left
  obtain ⟨_, _, rightWalk⟩ := right
  exact leftWalk.deterministic rightWalk

theorem Leads.of_append {disk : Disk γ} {base final : Loc}
    {front rest : List Name} (leads : disk.Leads base (front ++ rest) final) :
    ∃ middle links, disk.Leads base front middle ∧
      Walk disk.fs.node? middle rest final links := by
  obtain ⟨links, within, walked⟩ := leads
  obtain ⟨middle, first, second, before, further, total⟩ := walked.of_append
  exact ⟨middle, second, ⟨first, by omega, before⟩, further⟩

/-- Going on from where a path leads, without meeting links. -/
theorem Leads.append {disk : Disk γ} {base middle final : Loc}
    {front rest : List Name} (leads : disk.Leads base front middle)
    (further : Walk disk.fs.node? middle rest final 0) :
    disk.Leads base (front ++ rest) final := by
  obtain ⟨links, within, walked⟩ := leads
  exact ⟨links, within, walked.append further⟩

/-- A path that leads on names an existing entry. -/
theorem Leads.exists_entry {disk : Disk γ} {base parent final : Loc}
    {front rest : List Name} {comp : Name}
    (leads : disk.Leads base (front ++ comp :: rest) final)
    (toParent : disk.Leads base front parent) (valid : ValidName comp) :
    disk.fs.node? (comp :: parent) ≠ none := by
  obtain ⟨middle, links, before, further⟩ := leads.of_append
  rw [toParent.deterministic before]
  exact further.exists_entry valid.notDot valid.2.2.1

/-- Directories were added, each inside the region and where a cut of the path
leads. -/
structure AddedDirs (base : Loc) (comps : List Name) (inside : Loc → Prop)
    (before after : Disk γ) : Prop where
  cwd : after.cwd = before.cwd
  quiet : before.faults = [] → after.faults = []
  nodes : ∀ loc, after.fs.node? loc = before.fs.node? loc ∨
    before.fs.node? loc = none ∧ IsDirIn (after.fs.node? loc) ∧
      ∃ name parent, loc = name :: parent ∧ inside parent ∧
        ∃ cut, cut <+: comps ∧ after.Leads base cut loc

namespace AddedDirs

variable {base : Loc} {comps : List Name} {inside : Loc → Prop}
  {before middle after : Disk γ}

theorem kept (added : AddedDirs base comps inside before after) (loc : Loc)
    (node : Node γ) (found : before.fs.node? loc = some node) :
    after.fs.node? loc = some node := by
  rcases added.nodes loc with same | ⟨absent, _⟩
  · rw [same, found]
  · rw [absent] at found
    cases found

theorem leads (added : AddedDirs base comps inside before after)
    {start loc : Loc} {path : List Name} (led : before.Leads start path loc) :
    after.Leads start path loc := by
  obtain ⟨links, within, walked⟩ := led
  exact ⟨links, within, walked.grow added.kept⟩

theorem of_prefix {cut : List Name} (isCut : cut <+: comps)
    (added : AddedDirs base cut inside before after) :
    AddedDirs base comps inside before after := by
  refine ⟨added.cwd, added.quiet, fun loc => ?_⟩
  refine (added.nodes loc).imp_right ?_
  rintro ⟨absent, isDir, name, parent, isLoc, isInside, shorter, isShorter,
    led⟩
  exact ⟨absent, isDir, name, parent, isLoc, isInside, shorter,
    isShorter.trans isCut, led⟩

theorem refl (disk : Disk γ) : AddedDirs base comps inside disk disk :=
  ⟨rfl, id, fun _ => .inl rfl⟩

theorem trans (first : AddedDirs base comps inside before middle)
    (second : AddedDirs base comps inside middle after) :
    AddedDirs base comps inside before after where
  cwd := second.cwd.trans first.cwd
  quiet := fun silent => second.quiet (first.quiet silent)
  nodes := by
    intro loc
    rcases first.nodes loc with same | ⟨absent, isDir, name, parent, isLoc,
      isInside, cut, isCut, led⟩
    · rcases second.nodes loc with sameAgain | ⟨absentThen, added⟩
      · exact .inl (sameAgain.trans same)
      · exact .inr ⟨same ▸ absentThen, added⟩
    · obtain ⟨mode, found⟩ := isDirIn_iff.mp isDir
      exact .inr ⟨absent, isDirIn_iff.mpr ⟨mode, second.kept _ _ found⟩,
        name, parent, isLoc, isInside, cut, isCut, second.leads led⟩

end AddedDirs

end Disk

end SaltOS.Lib
