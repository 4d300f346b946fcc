import SaltOS.Base.Clear
import SaltOS.Base.Standing

/-!
# Making entries where nothing is in the way

While the environment causes no faults, making a directory that is there
changes nothing, and each function that makes an entry in a directory that is
there puts exactly this entry.
-/

namespace SaltOS.Util

open Lib Disk

variable {γ : Type} {disk : Disk γ} {root path : Bytes} {top loc : Loc}
  {comps : List Name}

theorem tick_quiet (quiet : disk.faults = []) :
    disk.tick disk.fs = disk := by
  unfold Disk.tick
  rw [quiet, List.tail_nil, ← quiet]

/-! ## Directories that are there -/

/-- The entry of a cut of a path that leads somewhere. -/
theorem slot_of_resolve {cut : List Name}
    (resolved : disk.resolve path = .ok loc) (isCut : cut <+: components path)
    (nonempty : cut ≠ []) :
    ∃ parent, disk.slot path cut = .ok (parent, cut.getLastD []) := by
  obtain ⟨-, leads⟩ := resolve_eq_ok_iff.mp resolved
  obtain ⟨rest, whole⟩ := isCut
  rw [← whole, ← dropLast_append_getLastD nonempty [],
    List.append_assoc] at leads
  obtain ⟨parent, links, ⟨frontLinks, within, toParent⟩, further⟩ :=
    leads.of_append
  exact ⟨parent, slot_of_walk within toParent (further.isDir_start (by simp))⟩

/-- What leads somewhere cannot be made, since it exists. -/
theorem mkdirPlan_exists (resolved : disk.resolve path = .ok loc)
    (mode : Nat) : mkdirPlan path mode disk = .error .exist := by
  have fails : ∃ errno, mkdirPlan path mode disk = .error errno :=
    mkdirPlan_of_resolve resolved
  have nonempty := (resolve_eq_ok_iff.mp resolved).1
  unfold mkdirPlan at fails ⊢
  rw [if_neg nonempty] at fails ⊢
  split
  · rfl
  rename_i notRoot
  rw [if_neg notRoot] at fails
  obtain ⟨parent, isSlot⟩ := slot_of_resolve resolved
    (List.rdropWhile_prefix _ _) notRoot
  rw [trimmed] at fails ⊢
  rw [isSlot] at fails ⊢
  dsimp only at fails ⊢
  split
  · rfl
  rename_i notSpecial
  rw [if_neg notSpecial] at fails
  split
  · rename_i absent
    rw [if_pos absent] at fails
    obtain ⟨errno, isError⟩ := fails
    cases isError
  · rfl

/-- The loop body of `salt_mkdirs`. -/
def mkdirStep (mode : Nat) (step : Bytes) :
    EStateM Failure (Disk γ) Unit := do
  match ← attempt (Disk.mkdir step mode) with
  | .ok () => pure ()
  | .error errno =>
      if errno = .exist then pure ()
      else throw (callFailed "mkdir" step errno)

theorem mkdirs_eq (path : Bytes) (mode : Nat) :
    (mkdirs path mode : EStateM Failure (Disk γ) Unit) =
      (mkdirsSteps path).forM (mkdirStep mode) :=
  rfl

theorem mkdirStep_exists (quiet : disk.faults = []) {step : Bytes}
    (resolved : disk.resolve step = .ok loc) (mode : Nat) :
    mkdirStep mode step disk = .ok () disk := by
  have exists_ : Disk.mkdir step mode disk = .error .exist disk := by
    rw [Disk.mkdir, call_of_error quiet (mkdirPlan_exists resolved mode),
      tick_quiet quiet]
  have attempted : (attempt (Disk.mkdir step mode) :
      EStateM Failure (Disk γ) _) disk = .ok (.error .exist) disk := by
    rw [attempt, exists_]
  unfold mkdirStep
  rw [bind_run attempted]
  rfl

theorem mkdirSteps_exist (quiet : disk.faults = []) {steps : List Bytes}
    (resolved : ∀ step ∈ steps, ∃ loc, disk.resolve step = .ok loc)
    (mode : Nat) (rest : List Bytes) :
    (steps ++ rest).forM (mkdirStep mode) disk =
      rest.forM (mkdirStep mode) disk := by
  induction steps with
  | nil => rfl
  | cons step steps induction =>
      obtain ⟨⟨loc, isThere⟩, others⟩ := List.forall_mem_cons.mp resolved
      exact (bind_run (mkdirStep_exists quiet isThere mode)).trans
        (induction others)

theorem resolve_of_leads_cut {cut : List Name}
    (leads : disk.Leads (baseOf disk.cwd path) cut loc)
    (isCut : cut <+: components path) (nonempty : joinSlash cut ≠ []) :
    disk.resolve (joinSlash cut) = .ok loc := by
  have cutNonempty : cut ≠ [] := by
    rintro rfl
    exact nonempty rfl
  apply resolve_eq_ok_iff.mpr
  rw [baseOf_cut isCut nonempty, components_cut isCut cutNonempty]
  exact ⟨nonempty, leads⟩

/-- The cuts of a path that leads somewhere lead somewhere. -/
theorem resolve_cut_of_leads {cut rest : List Name}
    (leads : disk.Leads (baseOf disk.cwd path) (cut ++ rest) loc)
    (isCut : cut <+: components path) (nonempty : joinSlash cut ≠ []) :
    ∃ loc, disk.resolve (joinSlash cut) = .ok loc := by
  obtain ⟨middle, links, toMiddle, -⟩ := leads.of_append
  exact ⟨middle, resolve_of_leads_cut toMiddle isCut nonempty⟩

/-- `salt_mkdirs` for a directory that is there. -/
theorem mkdirs_exists (quiet : disk.faults = [])
    (resolved : disk.resolve path = .ok loc) (mode : Nat) :
    mkdirs path mode disk = .ok () disk := by
  have steps : ∀ step ∈ mkdirsSteps path,
      ∃ loc, disk.resolve step = .ok loc := by
    intro step member
    obtain ⟨cut, isCut, -, rfl, nonempty⟩ := mem_mkdirsSteps member
    obtain ⟨-, leads⟩ := resolve_eq_ok_iff.mp resolved
    obtain ⟨rest, whole⟩ := isCut
    rw [← whole] at leads
    exact resolve_cut_of_leads leads ⟨rest, whole⟩ nonempty
  have all := mkdirSteps_exist quiet steps mode []
  rw [List.append_nil] at all
  rw [mkdirs_eq, all]
  rfl

/-! ## New entries -/

/-- The disk with a node where the names lead. -/
def plant (disk : Disk γ) (top : Loc) (comps : List Name) (node : Node γ) :
    Disk γ :=
  { disk with
    fs := disk.fs.replace (comps.getLastD []) (descend top comps.dropLast)
      (some node) }

theorem tick_plant (quiet : disk.faults = []) (node : Node γ) :
    disk.tick (disk.fs.replace (comps.getLastD [])
      (descend top comps.dropLast) (some node)) =
        plant disk top comps node := by
  unfold Disk.tick plant
  rw [quiet, List.tail_nil, ← quiet]

/-- Nothing is where the names lead, in a directory that is there. -/
structure Vacant (disk : Disk γ) (top : Loc) (comps : List Name) : Prop where
  names : Names comps
  isDir : disk.fs.IsDir (descend top comps.dropLast)
  absent : disk.fs.node? (descend top comps) = none

namespace Vacant

theorem notDir (vacant : Vacant disk top comps) :
    ¬ disk.fs.IsDir (descend top comps) := by
  simp [FileSystem.IsDir, vacant.absent, IsDirIn]

theorem node?_plant (vacant : Vacant disk top comps) (node : Node γ)
    (loc : Loc) :
    (plant disk top comps node).fs.node? loc =
      if loc = descend top comps then some node else disk.fs.node? loc := by
  have entry : comps.getLastD [] :: descend top comps.dropLast =
      descend top comps :=
    descend_dropLast vacant.names.nonempty
  have childless := FileSystem.children_of_not_dir vacant.notDir
  rw [← entry] at childless
  have replaceable : disk.fs.Replaceable (comps.getLastD [])
      (descend top comps.dropLast) :=
    ⟨vacant.names.last_valid, vacant.isDir, childless⟩
  rw [plant, FileSystem.node?_replace replaceable, entry]

theorem lstat (vacant : Vacant disk top comps) (stands : Stands disk root top)
    (under : Under root path comps) : disk.lstat path = .error .noent :=
  stands.lstat_none under vacant.names vacant.isDir vacant.absent

theorem slot (vacant : Vacant disk top comps) (stands : Stands disk root top)
    (under : Under root path comps) :
    disk.slot path (components path) =
      .ok (descend top comps.dropLast, comps.getLastD []) :=
  stands.slot under vacant.names vacant.isDir

theorem mkdirPlan_ok (vacant : Vacant disk top comps)
    (stands : Stands disk root top) (under : Under root path comps)
    (mode : Nat) :
    mkdirPlan path mode disk = .ok (disk.fs.replace (comps.getLastD [])
      (descend top comps.dropLast) (some (.dir mode))) := by
  have nonempty := under.path_ne_nil vacant.names.nonempty
  unfold mkdirPlan
  rw [if_neg nonempty, under.trimmed_eq vacant.names,
    if_neg (components_ne_nil path), vacant.slot stands under]
  dsimp only
  rw [if_neg vacant.names.last_not_special,
    descend_dropLast vacant.names.nonempty, if_pos vacant.absent]

theorem symlinkPlan_ok (vacant : Vacant disk top comps)
    (stands : Stands disk root top) (under : Under root path comps)
    {target : Name} (hasTarget : target ≠ []) :
    symlinkPlan target path disk = .ok (disk.fs.replace (comps.getLastD [])
      (descend top comps.dropLast) (some (.symlink target))) := by
  have nonempty := under.path_ne_nil vacant.names.nonempty
  unfold symlinkPlan
  rw [if_neg (not_or.mpr ⟨hasTarget, nonempty⟩), vacant.slot stands under]
  dsimp only
  rw [if_neg vacant.names.last_valid.1, if_neg vacant.names.last_not_special,
    descend_dropLast vacant.names.nonempty, if_pos vacant.absent]

theorem renamePlan_ok (vacant : Vacant disk top comps)
    (stands : Stands disk root top) (under : Under root path comps)
    (content : γ) (mode : Nat) :
    renamePlan content mode path disk = .ok (disk.fs.replace
      (comps.getLastD []) (descend top comps.dropLast)
      (some (.file content mode))) := by
  have nonempty := under.path_ne_nil vacant.names.nonempty
  unfold renamePlan
  rw [if_neg nonempty, vacant.slot stands under]
  dsimp only
  rw [if_neg vacant.names.last_valid.1, if_neg vacant.names.last_not_special,
    descend_dropLast vacant.names.nonempty, if_neg vacant.notDir]

end Vacant

/-- The way to the directory of an entry. -/
theorem Stands.leads_front (stands : Stands disk root top)
    (under : Under root path comps) (names : Names comps)
    (isDir : disk.fs.IsDir (descend top comps.dropLast)) :
    disk.Leads (baseOf disk.cwd path) (components path).dropLast
      (descend top comps.dropLast) := by
  rw [under.base, under.split,
    List.dropLast_append_of_ne_nil names.nonempty]
  apply stands.leads.append
  apply walk_descend _ isDir
  exact fun comp member => names.valid comp (List.dropLast_subset _ member)

theorem Under.noTrailing (under : Under root path comps)
    (names : Names comps) : path.getLast? ≠ some 47 := by
  intro trailing
  have same := under.dirFront_eq names
  rw [dirFront, if_pos trailing] at same
  have lengths := congrArg List.length same
  have positive := List.length_pos_of_ne_nil (components_ne_nil path)
  rw [List.length_dropLast] at lengths
  omega

/-- The steps of `salt_mkdirs` end with the path itself. -/
theorem mkdirsSteps_eq (under : Under root path comps)
    (names : Names comps) :
    mkdirsSteps path =
      (((components path).dropLast.inits.map joinSlash).filter (· ≠ [])) ++
        [path] := by
  have noTrailing := under.noTrailing names
  have nonempty := under.path_ne_nil names.nonempty
  unfold mkdirsSteps
  dsimp only
  rw [if_neg (fun both => noTrailing both.2)]
  have whole : components path =
      (components path).dropLast ++ [(components path).getLastD []] :=
    (dropLast_append_getLastD (components_ne_nil path) []).symm
  have tails : [(components path).getLastD []].inits.tail =
      [[(components path).getLastD []]] :=
    rfl
  conv_lhs => rw [whole]
  rw [List.inits_append, tails, List.map_append, List.filter_append,
    List.map_singleton, List.map_singleton, ← whole, joinSlash_components]
  congr 1
  simp [nonempty]

/-- `salt_mkdirs` for an entry that is missing. -/
theorem Vacant.mkdirs (vacant : Vacant disk top comps)
    (stands : Stands disk root top) (under : Under root path comps)
    (quiet : disk.faults = []) (mode : Nat) :
    mkdirs path mode disk = .ok () (plant disk top comps (.dir mode)) := by
  have front := stands.leads_front under vacant.names vacant.isDir
  have steps : ∀ step ∈
      ((components path).dropLast.inits.map joinSlash).filter (· ≠ []),
      ∃ loc, disk.resolve step = .ok loc := by
    intro step member
    obtain ⟨isStep, nonempty⟩ := List.mem_filter.mp member
    obtain ⟨cut, isCut, rfl⟩ := List.mem_map.mp isStep
    have isFrontCut := (List.mem_inits _ _).mp isCut
    have isPathCut := isFrontCut.trans (List.dropLast_prefix _)
    obtain ⟨rest, whole⟩ := isFrontCut
    rw [← whole] at front
    exact resolve_cut_of_leads front isPathCut (of_decide_eq_true nonempty)
  have made : Disk.mkdir path mode disk =
      .ok () (plant disk top comps (.dir mode)) := by
    rw [Disk.mkdir, call_of_ok quiet (vacant.mkdirPlan_ok stands under mode),
      tick_plant quiet]
  have attempted : (attempt (Disk.mkdir path mode) :
      EStateM Failure (Disk γ) _) disk =
        .ok (.ok ()) (plant disk top comps (.dir mode)) := by
    rw [attempt, made]
  have last : mkdirStep mode path disk =
      .ok () (plant disk top comps (.dir mode)) := by
    unfold mkdirStep
    rw [bind_run attempted]
    rfl
  rw [mkdirs_eq, mkdirsSteps_eq under vacant.names,
    mkdirSteps_exist quiet steps]
  exact (bind_run last).trans rfl

theorem checked_run {what : String} {program : EStateM Errno (Disk γ) Unit}
    {after : Disk γ} (done : program disk = .ok () after) :
    checked what path program disk = .ok () after := by
  have attempted : (attempt program : EStateM Failure (Disk γ) _) disk =
      .ok (.ok ()) after := by
    rw [attempt, done]
  unfold checked
  rw [bind_run attempted]
  rfl

theorem Under.lastName_eq (under : Under root path comps)
    (names : Names comps) : lastName path = comps.getLastD [] := by
  obtain ⟨front, last, isConcat⟩ :=
    (List.eq_nil_or_concat comps).resolve_left names.nonempty
  rw [lastName, under.split, isConcat, List.concat_eq_append,
    ← List.append_assoc, List.getLastD_concat, List.getLastD_concat]

/-- The directory of an entry is there. -/
theorem Stands.resolve_dirname (stands : Stands disk root top)
    (under : Under root path comps) (names : Names comps)
    (isDir : disk.fs.IsDir (descend top comps.dropLast))
    (proper : dirname path ≠ ascii "." ∧ dirname path ≠ ascii "/") :
    ∃ loc, disk.resolve (dirname path) = .ok loc := by
  have valid : ValidName (lastName path) := by
    rw [under.lastName_eq names]
    exact names.last_valid
  obtain ⟨cut, isCut, isDirname, nonempty⟩ :=
    dirname_cut_front valid proper
  have isPathCut := isCut.trans (List.dropLast_prefix _)
  have front := stands.leads_front under names isDir
  obtain ⟨rest, whole⟩ := isCut
  rw [← whole] at front
  rw [isDirname]
  exact resolve_cut_of_leads front isPathCut nonempty

/-- So none is made. -/
theorem Vacant.makeDirname (vacant : Vacant disk top comps)
    (stands : Stands disk root top) (under : Under root path comps)
    (quiet : disk.faults = []) : makeDirname path disk = .ok () disk := by
  unfold Util.makeDirname
  by_cases proper : dirname path ≠ ascii "." ∧ dirname path ≠ ascii "/"
  · obtain ⟨loc, resolved⟩ :=
      stands.resolve_dirname under vacant.names vacant.isDir proper
    rw [if_pos proper, ignore, mkdirs_exists quiet resolved]
    rfl
  · rw [if_neg proper]
    rfl

/-- `salt_write_file` for an entry that is missing. -/
theorem Vacant.writeFile (vacant : Vacant disk top comps)
    (stands : Stands disk root top) (under : Under root path comps)
    (quiet : disk.faults = []) (content : γ) (mode : Nat) :
    writeFile path content mode disk =
      .ok () (plant disk top comps (.file content mode)) := by
  have made := vacant.makeDirname stands under quiet
  have temporary : Disk.mkstemp path disk = .ok () disk := by
    have planned : mkstempPlan path disk = .ok disk.fs := by
      rw [mkstempPlan, vacant.slot stands under]
    rw [Disk.mkstemp, call_of_ok quiet planned, tick_quiet quiet]
  have renamed : Disk.rename content mode path disk =
      .ok () (plant disk top comps (.file content mode)) := by
    rw [Disk.rename,
      call_of_ok quiet (vacant.renamePlan_ok stands under content mode),
      tick_plant quiet]
  unfold Util.writeFile
  exact (bind_run made).trans
    ((bind_run (checked_run temporary)).trans (checked_run renamed))

/-! ## Within a root -/

/-- What lies below a root is within it. -/
theorem pathWithinRoot_of_suffix {rootLoc pathLoc : Loc}
    (isRoot : disk.resolve root = .ok rootLoc)
    (isPath : disk.resolve path = .ok pathLoc)
    (below : rootLoc <:+ pathLoc) : pathWithinRoot disk root path = true := by
  unfold pathWithinRoot
  rw [isRoot, isPath]
  dsimp only
  by_cases atTop : rootLoc = []
  · rw [atTop]
    rfl
  have pathNonempty : pathLoc ≠ [] := by
    rintro rfl
    exact atTop (List.suffix_nil.mp below)
  obtain ⟨inner, whole⟩ := below
  have rootText : locPath rootLoc = joinSlash ([] :: rootLoc.reverse) := by
    rw [locPath, if_neg atTop]
  have pathText : locPath pathLoc =
      joinSlash (([] :: rootLoc.reverse) ++ inner.reverse) := by
    rw [locPath, if_neg pathNonempty, ← whole, List.reverse_append]
    rfl
  split
  · rfl
  rw [rootText, pathText]
  by_cases same : inner = []
  · rw [same, List.reverse_nil, List.append_nil]
    simp
  · rw [joinSlash_append (List.cons_ne_nil _ _) (by simpa using same)]
    simp [List.isPrefixOf_iff_prefix]

end SaltOS.Util
