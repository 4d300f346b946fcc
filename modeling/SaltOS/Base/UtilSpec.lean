import SaltOS.Base.Util
import SaltOS.Lib.Leads

/-!
# What the path functions do

`salt_mkdirs` adds directories and nothing else.  Where it adds them is
controlled by a guard: the directories that a prefix of the path leads to,
and that lack the next component, must all lie inside some region.
-/

namespace SaltOS.Util

open Lib Disk

variable {γ : Type} {base : Loc} {comps : List Name} {inside : Loc → Prop}
  {disk : Disk γ}

/-- Where the path breaks off, the directory it breaks off in lies inside the
region, and the rest of the path does not climb out of it again. -/
def Guard (disk : Disk γ) (base : Loc) (comps : List Name)
    (inside : Loc → Prop) : Prop :=
  ∀ front comp rest loc, comps = front ++ comp :: rest →
    disk.Leads base front loc → disk.fs.IsDir loc → ValidName comp →
    disk.fs.node? (comp :: loc) = none →
    inside loc ∧ (dotDot ∉ rest ∨ ∀ loc, inside loc)

theorem Guard.of_prefix {cut : List Name}
    (guard : Guard disk base comps inside) (isCut : cut <+: comps) :
    Guard disk base cut inside := by
  obtain ⟨tail, rfl⟩ := isCut
  intro front comp rest loc whole leads isDir valid absent
  obtain ⟨isInside, stays⟩ := guard front comp (rest ++ tail) loc
    (by simp [whole]) leads isDir valid absent
  refine ⟨isInside, stays.imp_left (fun noUp member => noUp ?_)⟩
  exact List.mem_append_left tail member

/-- The disk after a new directory. -/
theorem AddedDirs.of_replace {front rest : List Name} {comp : Name}
    {parent : Loc} (mode : Nat) (whole : comps = front ++ comp :: rest)
    (leads : disk.Leads base front parent)
    (replaceable : disk.fs.Replaceable comp parent)
    (absent : disk.fs.node? (comp :: parent) = none)
    (isInside : inside parent) :
    AddedDirs base comps inside disk
      (disk.tick (disk.fs.replace comp parent (some (.dir mode)))) := by
  have looked := FileSystem.node?_replace replaceable (some (.dir mode))
  have kept : ∀ loc node, disk.fs.node? loc = some node →
      (disk.fs.replace comp parent (some (.dir mode))).node? loc =
        some node := by
    intro loc node found
    rw [looked, if_neg, found]
    rintro rfl
    rw [absent] at found
    cases found
  have notDot := replaceable.1.notDot
  have notUp : comp ≠ dotDot := replaceable.1.2.2.1
  refine ⟨rfl, fun silent => by simp [tick, silent], fun loc => ?_⟩
  by_cases same : loc = comp :: parent
  · subst same
    refine .inr ⟨absent, ?_, comp, parent, rfl, isInside, front ++ [comp],
      ?_, ?_⟩
    · exact isDirIn_iff.mpr ⟨mode, by rw [tick, looked, if_pos rfl]⟩
    · exact ⟨rest, by simp [whole]⟩
    · obtain ⟨links, within, walked⟩ := leads
      refine Leads.append ⟨links, within, walked.grow kept⟩ ?_
      obtain ⟨above, found⟩ := isDirIn_iff.mp replaceable.2.1
      have isDir := isDirIn_iff.mpr ⟨above, kept _ _ found⟩
      have made : (disk.fs.replace comp parent (some (.dir mode))).node?
          (comp :: parent) = some (.dir mode) := by
        rw [looked, if_pos rfl]
      exact .entry isDir notDot notUp made rfl (.nil _)
  · exact .inl (by rw [tick, looked, if_neg same])

/-- A guard outlives the directory that it allowed: the new directory is
empty, so the path goes on inside it or ends there. -/
theorem Guard.of_replace {front rest : List Name} {comp : Name}
    {parent : Loc} {mode : Nat} (guard : Guard disk base comps inside)
    (closed : ∀ name loc, inside loc → inside (name :: loc))
    (whole : comps = front ++ comp :: rest)
    (leads : disk.Leads base front parent)
    (replaceable : disk.fs.Replaceable comp parent)
    (absent : disk.fs.node? (comp :: parent) = none) :
    Guard (disk.tick (disk.fs.replace comp parent (some (.dir mode)))) base
      comps inside := by
  obtain ⟨isInside, stays⟩ := guard front comp rest parent whole leads
    replaceable.2.1 replaceable.1 absent
  have added := AddedDirs.of_replace mode whole leads replaceable
    absent isInside
  have looked := FileSystem.node?_replace replaceable (some (.dir mode))
  intro longer next tail loc isWhole led isDir valid missing
  refine (stays.symm).elim (fun all => ⟨all loc, .inr all⟩) (fun noUp => ?_)
  -- Either the path breaks off at or before the new directory, which is not
  -- so any more, or inside it.
  rw [whole] at isWhole
  rcases List.append_eq_append_iff.mp isWhole with
    ⟨between, rfl, inner⟩ | ⟨between, rfl, inner⟩
  · rcases between with _ | ⟨entry, between⟩
    · obtain ⟨rfl, rfl⟩ := List.cons.inj inner
      rw [List.append_nil] at led
      rw [led.deterministic (added.leads leads)] at missing
      rw [tick, looked, if_pos rfl] at missing
      cases missing
    · rw [List.cons_append] at inner
      obtain ⟨rfl, rfl⟩ := List.cons.inj inner
      obtain ⟨middle, links, before, further⟩ := led.of_append
      rw [before.deterministic (added.leads leads)] at further
      cases further with
      | dot _ isDot => exact absurd isDot replaceable.1.notDot
      | up => exact absurd rfl replaceable.1.2.2.1
      | follow _ _ _ found =>
          rw [tick, looked, if_pos rfl] at found
          cases found
      | entry _ _ _ _ _ onward =>
          have childless : ∀ name, (disk.fs.replace comp parent
              (some (.dir mode))).node? (name :: comp :: parent) = none := by
            intro name
            rw [looked, if_neg (by simp)]
            exact FileSystem.children_eq_nil_iff.mp replaceable.2.2 name
          rw [List.mem_append, not_or] at noUp
          rw [onward.eq_of_childless childless noUp.1]
          exact ⟨closed _ _ isInside,
            .inl fun member => noUp.2 (List.mem_cons_of_mem _ member)⟩
  · rcases between with _ | ⟨entry, between⟩
    · obtain ⟨rfl, rfl⟩ := List.cons.inj inner
      rw [List.append_nil] at leads
      rw [led.deterministic (added.leads leads)] at missing
      rw [tick, looked, if_pos rfl] at missing
      cases missing
    · rw [List.cons_append] at inner
      obtain ⟨rfl, rfl⟩ := List.cons.inj inner
      exact absurd missing
        ((added.leads leads).exists_entry led valid)

theorem mkdir_ends {cut : List Name} (mode : Nat)
    (guard : Guard disk base comps inside)
    (closed : ∀ name loc, inside loc → inside (name :: loc))
    (isCut : cut <+: comps)
    (isPath : components (joinSlash cut) = cut)
    (isBase : baseOf disk.cwd (joinSlash cut) = base) :
    EndsIn (Disk.mkdir (joinSlash cut) mode disk) (fun final =>
      AddedDirs base comps inside disk final ∧
        Guard final base comps inside) := by
  refine call_ends.endsIn ?_ ?_
  · rintro _ final ⟨fs, planned, rfl⟩
    obtain ⟨parent, last, ⟨isSlot, replaceable, rfl⟩, absent⟩ :=
      mkdirPlan_ok planned
    obtain ⟨leads, isDir, isLast⟩ := slot_eq_ok isSlot
    rw [isBase] at leads
    have nonempty : trimmed (joinSlash cut) ≠ [] := by
      intro empty
      rw [empty] at isLast
      exact replaceable.1.1 isLast.symm
    have isTrimmed : trimmed (joinSlash cut) <+: comps := by
      refine List.IsPrefix.trans ?_ isCut
      have isPrefix : trimmed (joinSlash cut) <+:
        components (joinSlash cut) := List.rdropWhile_prefix _ _
      rwa [isPath] at isPrefix
    obtain ⟨rest, whole⟩ := isTrimmed
    have split : comps =
        (trimmed (joinSlash cut)).dropLast ++ last :: rest := by
      rw [← whole, ← isLast, List.append_cons,
        dropLast_append_getLastD nonempty]
    obtain ⟨isInside, _⟩ := guard _ _ _ _ split leads isDir replaceable.1
      absent
    exact ⟨AddedDirs.of_replace mode split leads replaceable absent isInside,
      guard.of_replace closed split leads replaceable absent⟩
  · rintro errno final ⟨rfl, _⟩
    exact ⟨⟨rfl, fun silent => by simp [tick, silent], fun _ => .inl rfl⟩,
      guard⟩

theorem mem_mkdirsSteps {path step : Bytes} (member : step ∈ mkdirsSteps path) :
    ∃ cut, cut <+: components path ∧ cut ≠ [] ∧ step = joinSlash cut ∧
      step ≠ [] := by
  simp only [mkdirsSteps, List.mem_filter, List.mem_map, List.mem_inits,
    decide_eq_true_eq] at member
  obtain ⟨⟨cut, isCut, rfl⟩, nonempty⟩ := member
  refine ⟨cut, ?_, fun empty => nonempty (by rw [empty]; rfl), rfl, nonempty⟩
  split_ifs at isCut with trailing
  · have isPath : path.dropLast ++ [47] = path := by
      refine List.dropLast_append_getLast? 47 ?_
      exact trailing.2
    rw [← isPath, components_append_slash]
    exact isCut.trans (List.prefix_append _ _)
  · exact isCut

/-- `salt_mkdirs` only adds directories, inside the guarded region. -/
theorem mkdirs_ends (path : Bytes) (mode : Nat)
    (guard : Guard disk (baseOf disk.cwd path) (components path) inside)
    (closed : ∀ name loc, inside loc → inside (name :: loc)) :
    EndsIn (mkdirs path mode disk)
      (AddedDirs (baseOf disk.cwd path) (components path) inside disk) := by
  let added := AddedDirs (baseOf disk.cwd path) (components path) inside disk
  let guarded := fun now : Disk γ => added now ∧
    Guard now (baseOf disk.cwd path) (components path) inside
  have loop : Ends (mkdirs path mode disk) (fun _ now => guarded now)
      (fun _ now => added now) := by
    refine Ends.forM_mem ⟨AddedDirs.refl disk, guard⟩ ?_
    intro step member before ⟨soFar, still⟩
    obtain ⟨cut, isCut, cutNonempty, rfl, nonempty⟩ := mem_mkdirsSteps member
    have isBase : baseOf before.cwd (joinSlash cut) =
        baseOf disk.cwd path := by
      rw [baseOf_cut isCut nonempty, soFar.cwd]
    have made := mkdir_ends mode still closed isCut
      (components_cut isCut cutNonempty) isBase
    refine Ends.through (fun _ now => guarded now)
      (Ends.attempt (made.mono ?_ ?_)) ?_
    · exact fun _ _ ⟨more, again⟩ => ⟨soFar.trans more, again⟩
    · exact fun _ _ ⟨more, again⟩ => ⟨soFar.trans more, again⟩
    · intro outcome between both
      cases outcome with
      | ok value => exact both
      | error errno => exact Ends.ite (fun _ => both) (fun _ => both.1)
  exact loop.endsIn (fun _ _ both => both.1) (fun _ _ => id)

/-- `dirname` cuts the path, unless it is the working or the root
directory. -/
theorem dirname_cut {path : Bytes}
    (proper : dirname path ≠ ascii "." ∧ dirname path ≠ ascii "/") :
    ∃ cut, cut <+: components path ∧ cut ≠ [] ∧
      dirname path = joinSlash cut ∧ joinSlash cut ≠ [] := by
  simp only [dirname] at proper ⊢
  split_ifs at proper ⊢ with noBody empty noFront noDir
  · exact absurd rfl proper.1
  · exact absurd rfl proper.2
  · exact absurd rfl proper.1
  · exact absurd rfl proper.2
  · refine ⟨_, ?_, noDir, rfl, ?_⟩
    · exact (List.rdropWhile_prefix _ _).trans ((List.dropLast_prefix _).trans
        (List.rdropWhile_prefix _ _))
    · intro nothing
      rcases joinSlash_eq_nil_iff.mp nothing with nil | single
      · exact noDir nil
      · have last := List.rdropWhile_last_not _ _ noDir
        simp [single] at last

theorem makeDirname_ends {path : Bytes}
    (guard : Guard disk (baseOf disk.cwd path) (components path) inside)
    (closed : ∀ name loc, inside loc → inside (name :: loc)) :
    EndsIn (makeDirname path disk)
      (AddedDirs (baseOf disk.cwd path) (components path) inside disk) := by
  refine Ends.ite (fun proper => Ends.ignore ?_)
    (fun _ => AddedDirs.refl disk)
  obtain ⟨cut, isCut, nonempty, isDir, isPath⟩ := dirname_cut proper
  have comps := components_cut isCut nonempty
  have base := baseOf_cut isCut isPath disk.cwd
  have cutGuard := guard.of_prefix isCut
  rw [← comps, ← base] at cutGuard
  have made := mkdirs_ends (joinSlash cut) 493 cutGuard closed
  rw [comps, base] at made
  rw [isDir]
  exact made.endsIn (fun _ _ added => added.of_prefix isCut)
    (fun _ _ added => added.of_prefix isCut)

theorem checked_ends {what : String} {path : Bytes} {property : Disk γ → Prop}
    {program : EStateM Errno (Disk γ) Unit}
    (ends : EndsIn (program disk) property) :
    EndsIn (checked what path program disk) property := by
  refine Ends.through (fun _ => property) (Ends.attempt ends) ?_
  intro outcome between holds
  cases outcome with
  | ok value => exact holds
  | error errno => exact holds

/-! ## Joined paths -/

/-- The components of a directory without its trailing slash. -/
def dirFront (dir : Bytes) : List Name :=
  if dir.getLast? = some 47 then (components dir).dropLast
  else components dir

theorem components_trailing {dir : Bytes} (trailing : dir.getLast? = some 47) :
    components dir = (components dir).dropLast ++ [[]] ∧
      (components dir).dropLast = components dir.dropLast := by
  have isPath : dir.dropLast ++ [47] = dir :=
    List.dropLast_append_getLast? 47 trailing
  have split : components dir = components dir.dropLast ++ [[]] := by
    rw [← isPath, components_append_slash]
    simp [components]
  rw [split]
  simp

theorem dirFront_ne_nil (dir : Bytes) : dirFront dir ≠ [] := by
  unfold dirFront
  split_ifs with trailing
  · rw [(components_trailing trailing).2]
    exact components_ne_nil _
  · exact components_ne_nil _

theorem components_joinPath {dir rel : Bytes} (dirNonempty : dir ≠ [])
    (relNonempty : rel ≠ []) (relative : rel.head? ≠ some 47) :
    components (joinPath dir rel) = dirFront dir ++ components rel := by
  have stripped : rel.dropWhile (· == 47) = rel := by
    rcases rel with _ | ⟨first, rest⟩
    · rfl
    · have differs : first ≠ 47 := by simpa using relative
      simp [differs]
  simp only [joinPath, dirNonempty, relNonempty, if_false, stripped, dirFront]
  split_ifs with trailing
  · have isPath : dir.dropLast ++ [47] = dir :=
      List.dropLast_append_getLast? 47 trailing
    rw [(components_trailing trailing).2, List.append_nil, ← isPath,
      List.append_assoc, List.singleton_append, components_append_slash,
      isPath]
  · rw [List.append_assoc, List.singleton_append, components_append_slash]

theorem baseOf_joinPath {dir : Bytes} (dirNonempty : dir ≠ []) (rel : Bytes)
    (cwd : Loc) : baseOf cwd (joinPath dir rel) = baseOf cwd dir := by
  obtain ⟨first, rest, rfl⟩ := List.exists_cons_of_ne_nil dirNonempty
  have head : (joinPath (first :: rest) rel).head? = some first := by
    simp only [joinPath, List.cons_ne_nil, if_false]
    split_ifs <;> rfl
  simp [baseOf, head]

theorem leads_dirFront_of_resolve {dir : Bytes} {loc : Loc}
    (resolved : disk.resolve dir = .ok loc) :
    disk.Leads (baseOf disk.cwd dir) (dirFront dir) loc := by
  obtain ⟨_, leads⟩ := resolve_eq_ok_iff.mp resolved
  unfold dirFront
  split_ifs with trailing
  · rw [(components_trailing trailing).1] at leads
    obtain ⟨middle, links, front, further⟩ := leads.of_append
    cases further with
    | dot _ _ done =>
        cases done
        exact front
    | entry _ notDot => exact absurd (.inl rfl) notDot
    | follow _ notDot => exact absurd (.inl rfl) notDot
  · exact leads

theorem resolve_of_leads_dirFront {dir : Bytes} {loc : Loc}
    (nonempty : dir ≠ [])
    (leads : disk.Leads (baseOf disk.cwd dir) (dirFront dir) loc)
    (isDir : disk.fs.IsDir loc) : disk.resolve dir = .ok loc := by
  refine resolve_eq_ok_iff.mpr ⟨nonempty, ?_⟩
  unfold dirFront at leads
  split_ifs at leads with trailing
  · rw [(components_trailing trailing).1]
    exact leads.append (.dot isDir (.inl rfl) (.nil _))
  · exact leads

/-! ## Comparing resolved paths -/

theorem locPath_cons {loc : Loc} (nonempty : loc ≠ [])
    (valid : ∀ name ∈ loc, ValidName name) :
    components (locPath loc) = [] :: loc.reverse := by
  unfold locPath
  rw [if_neg nonempty]
  refine components_joinSlash ?_ (List.cons_ne_nil _ _)
  intro comp member
  rcases List.mem_cons.mp member with rfl | inner
  · simp
  · exact (valid comp (List.mem_reverse.mp inner)).2.2.2

/-- `salt_path_within_root` compares locations. -/
theorem suffix_of_pathWithinRoot {root path : Bytes}
    (within : pathWithinRoot disk root path = true) :
    ∃ rootLoc pathLoc, disk.resolve root = .ok rootLoc ∧
      disk.resolve path = .ok pathLoc ∧ rootLoc <:+ pathLoc := by
  unfold pathWithinRoot at within
  rcases isRoot : disk.resolve root with errno | rootLoc
  · simp [isRoot] at within
  rcases isPath : disk.resolve path with errno | pathLoc
  · simp [isRoot, isPath] at within
  refine ⟨rootLoc, pathLoc, rfl, rfl, ?_⟩
  have rootValid := FileSystem.validName_of_mem (exists_of_resolve isRoot)
  have pathValid := FileSystem.validName_of_mem (exists_of_resolve isPath)
  by_cases top : rootLoc = []
  · rw [top]
    exact List.nil_suffix
  have rootComps := locPath_cons top rootValid
  simp only [isRoot, isPath] at within
  split_ifs at within with slash
  · -- Only the root directory prints as a single slash.
    rw [slash, show components [47] = [[], []] from by decide] at rootComps
    obtain ⟨_, names⟩ := List.cons.inj rootComps
    have empty : [] ∈ rootLoc := List.mem_reverse.mp (names ▸ by simp)
    exact absurd rfl (rootValid [] empty).1
  · simp only [Bool.and_eq_true, List.isPrefixOf_iff_prefix, Bool.or_eq_true,
      beq_iff_eq] at within
    obtain ⟨⟨tail, whole⟩, next⟩ := within
    rw [← whole, List.drop_left] at next
    have pathNonempty : pathLoc ≠ [] := by
      rintro rfl
      have lengths := congrArg List.length whole
      have long : 2 ≤ (locPath rootLoc).length := by
        rcases printed : locPath rootLoc with _ | ⟨first, _ | ⟨second, more⟩⟩
        · rw [printed] at rootComps
          have lengths := congrArg List.length rootComps
          simp [components, top] at lengths
        · rw [printed] at rootComps slash
          have noSlash : 47 ∉ [first] := by simpa [eq_comm] using slash
          have lengths := congrArg List.length rootComps
          rw [components, List.splitOn_eq_singleton noSlash] at lengths
          simp [top] at lengths
        · simp
      simp [locPath] at lengths
      unfold locPath at long
      omega
    have pathComps := locPath_cons pathNonempty pathValid
    refine List.reverse_prefix.mp ?_
    rcases tail with _ | ⟨first, rest⟩
    · rw [List.append_nil] at whole
      rw [← whole, rootComps] at pathComps
      rw [(List.cons.inj pathComps).2]
    · have isSlash : first = 47 := by simpa using next
      rw [← whole, isSlash, components_append_slash, rootComps,
        List.cons_append] at pathComps
      exact ⟨components rest, (List.cons.inj pathComps).2⟩

end SaltOS.Util
