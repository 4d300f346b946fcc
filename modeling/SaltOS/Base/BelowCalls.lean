import SaltOS.Base.Below

/-!
# What calls and file functions do below a root

One specification for each call on a path of plain names below the root, and
for the functions of `util.c` built from them: what changes, and, while the
environment causes no faults, that the call succeeds where nothing is in its
way.
-/

namespace SaltOS.Util

open Lib Disk

variable {γ : Type} {disk : Disk γ} {root path : Bytes} {top : Loc}
  {comps : List Name} {guarded touched emptied : Set (List Name)}

/-- One entry has a new node. -/
theorem Changes.of_entry {node : Option (Node γ)} {after : FileSystem γ}
    (nonempty : comps ≠ [])
    (looked : ∀ loc, after.node? loc =
      if loc = descend top comps then node else disk.fs.node? loc)
    (leafCase : comps ∈ touched ∨
      node.bind Node.leaf? = disk.fs.leaf? (descend top comps))
    (dirCase : IsDirIn node → comps ∉ guarded)
    (goneCase : disk.fs.IsDir (descend top comps) →
      comps ∈ emptied ∨ IsDirIn node) :
    Changes top guarded touched emptied disk (disk.tick after) where
  cwd := rfl
  quiet := fun silent => by simp [Disk.tick, silent]
  outside := by
    intro loc away
    rw [Disk.tick, looked, if_neg]
    rintro rfl
    exact away (strictlyBelow_descend nonempty)
  leaves := by
    intro loc other
    by_cases same : loc = descend top comps
    · rcases leafCase with member | unchanged
      · exact absurd same (other comps member)
      · rw [same, ← unchanged, Disk.tick, FileSystem.leaf?, looked,
          if_pos rfl]
    · simp only [Disk.tick, FileSystem.leaf?, looked, if_neg same]
  appeared := by
    intro names member isDir
    rw [Disk.tick, FileSystem.IsDir, looked] at isDir
    split_ifs at isDir with same
    · rw [descend_inj] at same
      exact absurd (same ▸ member) (dirCase isDir)
    · exact isDir
  kept := by
    intro loc other isDir
    by_cases same : loc = descend top comps
    · rw [same] at isDir
      rcases goneCase isDir with member | stillDir
      · exact absurd same (other comps member)
      · rw [Disk.tick, FileSystem.IsDir, looked, if_pos same]
        exact stillDir
    · rw [Disk.tick, FileSystem.IsDir, looked, if_neg same]
      exact isDir

/-- A leaf can be put where the names lead once their directories exist. -/
structure Free (fs : FileSystem γ) (top : Loc) (comps : List Name) : Prop where
  noDir : ¬ fs.IsDir (descend top comps)
  above : ∀ cut, cut <+: comps → cut ≠ comps →
    fs.leaf? (descend top cut) = none

theorem Free.plain {fs : FileSystem γ} (free : Free fs top comps) :
    Plain fs top comps := by
  intro cut target isCut proper
  simp [free.above cut isCut proper]

theorem dropLast_ne_self {comps : List Name} (nonempty : comps ≠ []) :
    comps.dropLast ≠ comps := by
  intro same
  have lengths := congrArg List.length same
  have positive := List.length_pos_of_ne_nil nonempty
  rw [List.length_dropLast] at lengths
  omega

namespace Rooted

/-! ## Calls -/

theorem unlink_ends (rooted : Rooted disk root top)
    (under : Under root path comps) (names : Names comps)
    (plain : Plain disk.fs top comps) :
    EndsIn (Disk.unlink path disk) (fun now =>
      Changes top guarded {comps} ∅ disk now ∧
      (now.fs.leaf? (descend top comps) =
          disk.fs.leaf? (descend top comps) ∨
        now.fs.leaf? (descend top comps) = none) ∧
      (disk.faults = [] → now.fs.leaf? (descend top comps) = none)) := by
  refine call_ends.endsIn ?_ ?_
  · rintro _ _ ⟨fs, planned, rfl⟩
    obtain ⟨parent, last, replaced, node, found, isLeaf⟩ :=
      unlinkPlan_ok planned
    obtain ⟨looked, isEntry⟩ := rooted.replaces under names plain replaced
    have gone : (disk.tick fs).fs.leaf? (descend top comps) = none := by
      simp [Disk.tick, FileSystem.leaf?, looked]
    refine ⟨Changes.of_entry names.nonempty looked (.inl rfl) ?_ ?_,
      .inr gone, fun _ => gone⟩
    · intro isDir
      cases isDir
    · intro isDir
      rw [isEntry] at found
      obtain ⟨mode, isNode⟩ := FileSystem.isDir_iff.mp isDir
      rw [isNode] at found
      cases found
      cases isLeaf
  · rintro errno _ ⟨rfl, cause⟩
    refine ⟨Changes.tick disk, .inl rfl, fun silent => ?_⟩
    rcases cause with planned | ⟨faulty, _⟩
    · by_contra exists_
      obtain ⟨leaf, isLeaf⟩ := Option.ne_none_iff_exists'.mp exists_
      rw [Disk.tick] at isLeaf
      have hasNode := FileSystem.node?_ne_none_of_leaf isLeaf
      have isDir := FileSystem.isDir_of_cut hasNode
        (List.dropLast_prefix comps) (dropLast_ne_self names.nonempty)
      unfold unlinkPlan at planned
      rw [if_neg (under.path_ne_nil names.nonempty),
        rooted.slot under names isDir] at planned
      simp only [if_neg names.last_not_special, descend_dropLast names.nonempty] at planned
      rcases found : disk.fs.node? (descend top comps) with _ | node
      · exact hasNode found
      · cases node with
        | dir mode => simp [FileSystem.leaf?, found, Node.leaf?] at isLeaf
        | file content mode => simp [found] at planned
        | symlink target => simp [found] at planned
    · simp [silent] at faulty

theorem rmdir_ends (rooted : Rooted disk root top)
    (under : Under root path comps) (names : Names comps)
    (plain : Plain disk.fs top comps) :
    EndsIn (Disk.rmdir path disk)
      (Changes top guarded ∅ {comps} disk) := by
  refine call_ends.endsIn ?_ ?_
  · rintro _ _ ⟨fs, planned, rfl⟩
    obtain ⟨parent, last, replaced, wasDir⟩ := rmdirPlan_ok planned
    rw [under.trimmed_eq names] at replaced
    obtain ⟨looked, isEntry⟩ := rooted.replaces under names plain replaced
    rw [isEntry] at wasDir
    refine Changes.of_entry names.nonempty looked (.inr ?_) ?_
      (fun _ => .inl rfl)
    · exact (FileSystem.leaf?_of_isDir wasDir).symm
    · intro isDir
      cases isDir
  · rintro errno _ ⟨rfl, _⟩
    exact Changes.tick disk

theorem symlink_ends {target : Name} (rooted : Rooted disk root top)
    (under : Under root path comps) (names : Names comps)
    (plain : Plain disk.fs top comps) :
    Ends (Disk.symlink target path disk)
      (fun _ now => Changes top guarded {comps} ∅ disk now ∧
        now.fs.leaf? (descend top comps) = some (.link target))
      (fun _ now => Changes top guarded {comps} ∅ disk now ∧
        now.fs.leaf? (descend top comps) =
          disk.fs.leaf? (descend top comps) ∧
        (disk.faults = [] → target ≠ [] →
          disk.fs.node? (descend top comps) = none →
          ¬ disk.fs.IsDir (descend top comps.dropLast))) := by
  refine call_ends.mono ?_ ?_
  · rintro _ _ ⟨fs, planned, rfl⟩
    obtain ⟨parent, last, replaced, absent⟩ := symlinkPlan_ok planned
    obtain ⟨looked, isEntry⟩ := rooted.replaces under names plain replaced
    rw [isEntry] at absent
    refine ⟨Changes.of_entry names.nonempty looked (.inl rfl) ?_ ?_, ?_⟩
    · intro isDir
      cases isDir
    · intro isDir
      rw [FileSystem.IsDir, absent] at isDir
      cases isDir
    · simp [Disk.tick, FileSystem.leaf?, looked, Node.leaf?]
  · rintro errno _ ⟨rfl, cause⟩
    refine ⟨Changes.tick disk, rfl, fun silent hasTarget absent isDir => ?_⟩
    rcases cause with planned | ⟨faulty, _⟩
    · unfold symlinkPlan at planned
      rw [if_neg (not_or.mpr
          ⟨hasTarget, under.path_ne_nil names.nonempty⟩),
        rooted.slot under names isDir] at planned
      simp only [if_neg names.last_not_special, if_neg names.last_valid.1,
        descend_dropLast names.nonempty] at planned
      rw [if_pos absent] at planned
      cases planned
    · simp [silent] at faulty

end Rooted

/-! ## Removing trees -/

/-- The names that lead to an entry or to something below it. -/
def below (comps : List Name) : Set (List Name) :=
  { names | comps <+: names }

/-- The names that lead to something below an entry. -/
def strictlyBelow (comps : List Name) : Set (List Name) :=
  { names | comps <+: names ∧ names ≠ comps }

theorem below_child_subset (comps : List Name) (name : Name) :
    below (comps ++ [name]) ⊆ strictlyBelow comps := by
  intro names isBelow
  refine ⟨(List.prefix_append comps [name]).trans isBelow, ?_⟩
  rintro rfl
  have lengths := List.IsPrefix.length_le isBelow
  simp at lengths

theorem components_of_valid {name : Name} (valid : ValidName name) :
    components name = [name] := by
  have single : joinSlash [name] = name := by simp [joinSlash]
  have parts : components (joinSlash [name]) = [name] :=
    components_joinSlash (by simpa using valid.2.2.2) (by simp)
  rwa [single] at parts

theorem validName_of_readdir {names : List Name}
    (listed : disk.readdir path = .ok names) :
    ∀ name ∈ names, ValidName name := by
  unfold readdir at listed
  split at listed
  · cases listed
  · split at listed
    · cases listed
      exact fun name member =>
        FileSystem.validName (FileSystem.mem_children.mp member)
    · cases listed

/-- The way to an entry of a directory is plain. -/
theorem plain_child {name : Name} (plain : Plain disk.fs top comps)
    (isDir : disk.fs.IsDir (descend top comps)) :
    Plain disk.fs top (comps ++ [name]) := by
  intro cut target isCut proper
  rcases List.prefix_concat_iff.mp isCut with same | shorter
  · exact absurd same proper
  · by_cases whole : cut = comps
    · rw [whole, FileSystem.leaf?_of_isDir isDir]
      simp
    · exact plain cut target shorter whole

namespace Rooted

theorem removeRecursive_ends (fuel : Nat) (rooted : Rooted disk root top)
    (under : Under root path comps) (names : Names comps)
    (plain : Plain disk.fs top comps) :
    EndsIn (removeRecursive fuel path disk)
      (Changes top Set.univ (below comps) (below comps) disk) := by
  induction fuel generalizing disk path comps with
  | zero => exact Changes.refl disk
  | succ fuel induction =>
      unfold removeRecursive
      refine Ends.bindOk rfl ?_
      cases looked : disk.lstat path with
      | error errno =>
          dsimp only
          split
          · exact Changes.refl disk
          · exact Changes.refl disk
      | ok node =>
          dsimp only
          split
          · rename_i isDirNode
            have isDir : disk.fs.IsDir (descend top comps) := by
              have found := (rooted.lstat_eq_ok under names plain).mp looked
              cases node with
              | dir mode => exact FileSystem.isDir_iff.mpr ⟨mode, found⟩
              | file content mode => cases isDirNode
              | symlink target => cases isDirNode
            cases listed : disk.readdir path with
            | error errno => exact Changes.refl disk
            | ok entries =>
                have valid := validName_of_readdir listed
                have inside : strictlyBelow comps ⊆ below comps :=
                  fun names isBelow => isBelow.1
                have initial : Changes top Set.univ (strictlyBelow comps)
                    (strictlyBelow comps) disk disk := Changes.refl disk
                refine Ends.bind (Ends.forM_mem initial ?_) ?_
                · intro name member now changes
                  -- So far only what lies below the directory has changed.
                  have stillDir : now.fs.IsDir (descend top comps) := by
                    refine changes.kept _ ?_ isDir
                    rintro other ⟨-, differs⟩ same
                    exact differs (descend_inj.mp same).symm
                  have stillPlain : Plain now.fs top comps := by
                    refine changes.plain ?_ plain
                    rintro cut isCut - ⟨isBelow, differs⟩
                    exact differs (isCut.eq_of_length_le isBelow.length_le)
                  have isValid := valid name member
                  have child := under.join names isValid.1 (by
                    intro slash
                    exact isValid.2.2.2 (List.mem_of_mem_head? slash))
                  rw [components_of_valid isValid] at child
                  have childNames : Names (comps ++ [name]) := by
                    refine ⟨by simp, ?_⟩
                    intro comp isComp
                    rcases List.mem_append.mp isComp with above | isLast
                    · exact names.valid comp above
                    · rwa [List.mem_singleton.mp isLast]
                  have ends := induction (rooted.changes changes) child
                    childNames (plain_child stillPlain stillDir)
                  have step : ∀ later, Changes top Set.univ
                      (below (comps ++ [name])) (below (comps ++ [name])) now
                        later → Changes top Set.univ (strictlyBelow comps)
                          (strictlyBelow comps) disk later :=
                    fun later more => changes.trans (more.mono
                      (below_child_subset comps name)
                      (below_child_subset comps name))
                  exact ends.mono (fun _ later more => step later more)
                    fun _ later more => (step later more).mono inside inside
                · intro _ now changes
                  have stillPlain : Plain now.fs top comps := by
                    refine changes.plain ?_ plain
                    rintro cut isCut - ⟨isBelow, differs⟩
                    exact differs (isCut.eq_of_length_le isBelow.length_le)
                  have removed : EndsIn (Disk.rmdir path now)
                      (Changes top Set.univ ∅ {comps} now) :=
                    (rooted.changes changes).rmdir_ends under names stillPlain
                  refine checked_ends (removed.endsIn ?_ ?_)
                  all_goals
                    intro _ later more
                    refine (changes.mono inside inside).trans (more.mono ?_ ?_)
                    · exact Set.empty_subset _
                    · rintro _ rfl
                      exact List.prefix_rfl
          · have removed : EndsIn (Disk.unlink path disk) (fun now =>
                Changes top Set.univ {comps} ∅ disk now) :=
              (rooted.unlink_ends under names plain).endsIn
                (fun _ _ both => both.1) fun _ _ both => both.1
            refine checked_ends (removed.endsIn ?_ ?_)
            all_goals
              intro _ later more
              refine more.mono ?_ (Set.empty_subset _)
              rintro _ rfl
              exact List.prefix_rfl

end Rooted

end SaltOS.Util
