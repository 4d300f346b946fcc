import SaltOS.Base.Below

/-!
# Reading below a directory

Paths made of a path that leads to a directory and of names are read where the
names lead.
-/

namespace SaltOS.Util

open Lib Disk

variable {γ : Type} {disk : Disk γ} {root path : Bytes} {top : Loc}
  {comps : List Name}

/-! ## Names as paths -/

theorem components_names (names : Names comps) :
    components (joinSlash comps) = comps :=
  components_joinSlash (fun comp member => (names.valid comp member).2.2.2)
    names.nonempty

theorem joinSlash_names_ne_nil (names : Names comps) :
    joinSlash comps ≠ [] := by
  intro isEmpty
  have same := components_names names
  rw [isEmpty] at same
  have valid := names.valid [] (by rw [← same]; exact List.mem_cons_self)
  exact valid.1 rfl

/-- A path of names does not start with a slash. -/
theorem head?_names (names : Names comps) :
    (joinSlash comps).head? ≠ some 47 := by
  intro slash
  obtain ⟨rest, isPath⟩ := List.head?_eq_some_iff.mp slash
  have same := components_names names
  rw [isPath, ← List.nil_append (47 :: rest), components_append_slash] at same
  have valid := names.valid [] (by rw [← same]; exact List.mem_cons_self)
  exact valid.1 rfl

theorem joinPath_concat (names : Names comps) {name : Name}
    (valid : ValidName name) :
    joinPath (joinSlash comps) name = joinSlash (comps ++ [name]) := by
  have nonempty := joinSlash_names_ne_nil names
  have noTrailing : (joinSlash comps).getLast? ≠ some 47 := by
    intro trailing
    have same := components_names names
    rw [(components_trailing trailing).1] at same
    have isLast : [] ∈ comps := by
      rw [← same]
      simp
    exact (names.valid [] isLast).1 rfl
  obtain ⟨byte, rest, rfl⟩ := List.exists_cons_of_ne_nil valid.1
  have notSlash : byte ≠ 47 := by
    rintro rfl
    exact valid.2.2.2 List.mem_cons_self
  have single : joinSlash [byte :: rest] = byte :: rest := by
    simp [joinSlash]
  rw [joinSlash_append names.nonempty (List.cons_ne_nil _ _), single,
    joinPath, if_neg nonempty, if_neg (List.cons_ne_nil _ _),
    if_neg noTrailing, List.dropWhile_cons_of_neg (by simpa using notSlash)]
  simp

theorem Names.concat (valid : ∀ comp ∈ comps, ValidName comp) {name : Name}
    (isValid : ValidName name) : Names (comps ++ [name]) where
  nonempty := by simp
  valid := by
    rw [List.forall_mem_append, List.forall_mem_singleton]
    exact ⟨valid, isValid⟩

theorem Under.names (nonempty : root ≠ []) (names : Names comps) :
    Under root (Util.joinPath root (joinSlash comps)) comps := by
  have under := Under.joinPath nonempty (joinSlash_names_ne_nil names)
    (head?_names names)
  rw [components_names names] at under
  exact under

/-! ## Where a path stands -/

/-- The path leads to the directory. -/
structure Stands (disk : Disk γ) (root : Bytes) (top : Loc) : Prop where
  nonempty : root ≠ []
  leads : disk.Leads (baseOf disk.cwd root) (dirFront root) top
  isDir : disk.fs.IsDir top

theorem Rooted.stands (rooted : Rooted disk root top) :
    Stands disk root top :=
  ⟨rooted.nonempty, rooted.leads, rooted.isDir⟩

namespace Stands

theorem of_resolve (resolved : disk.resolve root = .ok top)
    (isDir : disk.fs.IsDir top) : Stands disk root top :=
  ⟨(resolve_eq_ok_iff.mp resolved).1, leads_dirFront_of_resolve resolved,
    isDir⟩

theorem resolve (stands : Stands disk root top) :
    disk.resolve root = .ok top :=
  resolve_of_leads_dirFront stands.nonempty stands.leads stands.isDir

/-- The names lead on to what they name. -/
theorem leads_on (stands : Stands disk root top)
    (under : Under root path comps) {loc : Loc}
    (further : Walk disk.fs.node? top comps loc 0) :
    disk.Leads (baseOf disk.cwd path) (components path) loc := by
  rw [under.base, under.split]
  exact stands.leads.append further

theorem resolve_dir (stands : Stands disk root top)
    (under : Under root path comps) (names : Names comps)
    (isDir : disk.fs.IsDir (descend top comps)) :
    disk.resolve path = .ok (descend top comps) :=
  resolve_eq_ok_iff.mpr ⟨under.path_ne_nil names.nonempty,
    stands.leads_on under (walk_descend names.valid isDir)⟩

theorem slot (stands : Stands disk root top) (under : Under root path comps)
    (names : Names comps)
    (isDir : disk.fs.IsDir (descend top comps.dropLast)) :
    disk.slot path (components path) =
      .ok (descend top comps.dropLast, comps.getLastD []) := by
  obtain ⟨links, within, walked⟩ := stands.leads
  have further : Walk disk.fs.node? top comps.dropLast
      (descend top comps.dropLast) 0 :=
    walk_descend (fun comp member => names.valid comp
      (List.dropLast_subset _ member)) isDir
  have whole := walked.append further
  rw [← List.dropLast_append_of_ne_nil names.nonempty, ← under.split,
    ← under.base] at whole
  rw [slot_of_walk within whole isDir, under.split]
  congr 2
  obtain ⟨front, last, isConcat⟩ :=
    (List.eq_nil_or_concat comps).resolve_left names.nonempty
  rw [isConcat, List.concat_eq_append, ← List.append_assoc,
    List.getLastD_concat, List.getLastD_concat]

theorem entryLoc_names (names : Names comps) :
    entryLoc (descend top comps.dropLast) (comps.getLastD []) =
      descend top comps := by
  have notUp : comps.getLastD [] ≠ dotDot := names.last_valid.2.2.1
  rw [entryLoc, if_neg names.last_valid.notDot, if_neg notUp,
    descend_dropLast names.nonempty]

theorem lstat_some (stands : Stands disk root top)
    (under : Under root path comps) (names : Names comps) {node : Node γ}
    (found : disk.fs.node? (descend top comps) = some node) :
    disk.lstat path = .ok node := by
  have isDir : disk.fs.IsDir (descend top comps.dropLast) := by
    apply FileSystem.isDir_of_cut (by simp [found]) (List.dropLast_prefix _)
    intro same
    have lengths := congrArg List.length same
    have positive := List.length_pos_of_ne_nil names.nonempty
    rw [List.length_dropLast] at lengths
    omega
  unfold lstat
  rw [if_neg (under.path_ne_nil names.nonempty),
    stands.slot under names isDir]
  dsimp only
  rw [entryLoc_names names, found]

theorem lstat_none (stands : Stands disk root top)
    (under : Under root path comps) (names : Names comps)
    (isDir : disk.fs.IsDir (descend top comps.dropLast))
    (absent : disk.fs.node? (descend top comps) = none) :
    disk.lstat path = .error .noent := by
  unfold lstat
  rw [if_neg (under.path_ne_nil names.nonempty),
    stands.slot under names isDir]
  dsimp only
  rw [entryLoc_names names, absent]

theorem readdir (stands : Stands disk root top)
    (under : Under root path comps) (names : Names comps)
    (isDir : disk.fs.IsDir (descend top comps)) :
    disk.readdir path = .ok (disk.fs.children (descend top comps)) := by
  unfold Disk.readdir
  rw [stands.resolve_dir under names isDir]
  dsimp only
  rw [if_pos isDir]

theorem readlink (stands : Stands disk root top)
    (under : Under root path comps) (names : Names comps) {target : Name}
    (found : disk.fs.node? (descend top comps) = some (.symlink target)) :
    disk.readlink path = .ok target := by
  unfold Disk.readlink
  rw [stands.lstat_some under names found]

theorem contents (stands : Stands disk root top)
    (under : Under root path comps) (names : Names comps) {content : γ}
    {mode : Nat}
    (found : disk.fs.node? (descend top comps) = some (.file content mode)) :
    disk.contents path = .ok content := by
  obtain ⟨front, last, isConcat⟩ :=
    (List.eq_nil_or_concat comps).resolve_left names.nonempty
  rw [List.concat_eq_append] at isConcat
  have frontIsDir : disk.fs.IsDir (descend top front) :=
    FileSystem.isDir_of_cut (by simp [found]) ⟨[last], isConcat.symm⟩
      (by simp [isConcat])
  have lastValid := names.valid last (by simp [isConcat])
  have toFront := walk_descend (fun comp member => names.valid comp
    (by simp [isConcat, member])) frontIsDir
  have isFile := found
  rw [isConcat, descend_concat] at isFile
  have toEntry : Walk disk.fs.node? (descend top front) [last]
      (last :: descend top front) 0 :=
    .entry frontIsDir lastValid.notDot lastValid.2.2.1 isFile rfl (.nil _)
  have further := toFront.append toEntry
  rw [← isConcat] at further
  have resolved : disk.resolve path = .ok (last :: descend top front) :=
    resolve_eq_ok_iff.mpr ⟨under.path_ne_nil names.nonempty,
      stands.leads_on under further⟩
  unfold Disk.contents Disk.stat
  rw [resolved]
  dsimp only
  rw [isFile]

end Stands

end SaltOS.Util
