import SaltOS.Archive.TarExtract
import SaltOS.Base.UtilSpec

/-!
# Extraction stays below the destination

Whatever the archive and the file system, extraction changes nothing outside
the directory that the destination leads to once it exists.

The checks of an entry look at the file system before the entry is written;
the argument is that what they established about the parent directory still
holds when the entry is created, also after `salt_mkdirs` has added
directories and an old link has been removed.
-/

namespace SaltOS.Tar

open Lib Util Disk

variable {γ : Type} {disk : Disk γ} {dest full : Bytes} {base : Loc}

/-! ## Cut paths -/

theorem cutLast_eq_some {path front : Bytes}
    (isCut : cutLast path = some front) :
    front = joinSlash (components path).dropLast ∧ front ≠ [] ∧
      components front = (components path).dropLast := by
  simp only [cutLast] at isCut
  split_ifs at isCut with empty
  obtain rfl := Option.some.inj isCut
  refine ⟨rfl, empty, components_cut (List.dropLast_prefix _) ?_⟩
  intro none
  rw [none] at empty
  exact empty rfl

theorem cutLast_eq_none {path : Bytes} (isCut : cutLast path = none) :
    joinSlash (components path).dropLast = [] := by
  simp only [cutLast] at isCut
  split_ifs at isCut with empty
  exact empty

/-- A path that leads somewhere has a node. -/
theorem lstat_of_leads {path : Bytes} {loc : Loc} (nonempty : path ≠ [])
    (leads : disk.Leads (baseOf disk.cwd path) (components path) loc) :
    ∃ node, disk.lstat path = .ok node := by
  obtain ⟨front, last, split⟩ := List.eq_nil_or_concat
    (components path) |>.resolve_left (components_ne_nil path)
  rw [List.concat_eq_append] at split
  rw [split] at leads
  obtain ⟨parent, links, ⟨frontLinks, within, toParent⟩, further⟩ :=
    leads.of_append
  have isDir := further.isDir_start (List.cons_ne_nil _ _)
  have isFront : (components path).dropLast = front := by
    rw [split, List.dropLast_concat]
  rw [← isFront] at toParent
  have isSlot := slot_of_walk within toParent isDir
  have exists_ : disk.fs.node? (entryLoc parent last) ≠ none := by
    unfold entryLoc
    obtain ⟨mode, found⟩ := isDirIn_iff.mp isDir
    have parentExists : disk.fs.node? parent ≠ none := by simp [found]
    split_ifs with isDot isUp
    · exact parentExists
    · exact (Walk.up isDir (.nil _)).exists_final parentExists
    · exact further.exists_entry isDot isUp
  obtain ⟨node, found⟩ := Option.ne_none_iff_exists'.mp exists_
  refine ⟨node, ?_⟩
  unfold lstat
  simp only [nonempty, if_false, isSlot]
  rw [split, List.getLastD_concat, found]

/-- Behind a missing entry no cut of the path has a node. -/
theorem lstat_fails {path : Bytes} {front rest : List Name} {comp : Name}
    {loc : Loc} (split : components path = front ++ comp :: rest)
    (leads : disk.Leads (baseOf disk.cwd path) front loc)
    (valid : ValidName comp) (absent : disk.fs.node? (comp :: loc) = none) :
    ∃ errno, disk.lstat path = .error errno := by
  unfold lstat
  split_ifs with empty
  · exact ⟨_, rfl⟩
  rcases isSlot : disk.slot path (components path) with errno | ⟨parent, last⟩
  · exact ⟨errno, by simp⟩
  obtain ⟨toParent, _, isLast⟩ := slot_eq_ok isSlot
  rcases List.eq_nil_or_concat rest with rfl | ⟨between, final, isRest⟩
  · rw [split, List.dropLast_concat] at toParent
    rw [split, List.getLastD_concat] at isLast
    have sameParent : parent = loc := Leads.deterministic toParent leads
    have notUp : last ≠ dotDot := isLast ▸ valid.2.2.1
    refine ⟨.noent, ?_⟩
    simp only [entryLoc, ← isLast, if_neg valid.notDot]
    rw [if_neg (isLast ▸ notUp), sameParent, absent]
  · rw [List.concat_eq_append] at isRest
    rw [split, isRest, ← List.cons_append, ← List.append_assoc,
      List.dropLast_concat] at toParent
    exact absurd absent (Leads.exists_entry toParent leads valid)

theorem resolves_of_ancestorLoop {fuel : Nat} {path : Bytes}
    (within : ancestorLoop disk dest fuel path = true) :
    ∃ loc, disk.resolve dest = .ok loc := by
  induction fuel generalizing path with
  | zero => cases within
  | succ fuel induction =>
      unfold ancestorLoop at within
      split at within
      · obtain ⟨loc, _, resolved, _⟩ := suffix_of_pathWithinRoot within
        exact ⟨loc, resolved⟩
      · split at within
        · obtain ⟨loc, _, resolved, _⟩ := suffix_of_pathWithinRoot within
          exact ⟨loc, resolved⟩
        · exact induction within

/-- The deepest cut with a node has been compared with the destination. -/
theorem within_of_ancestorLoop {fuel : Nat} {path : Bytes}
    {front rest : List Name} {comp : Name} {loc : Loc}
    (within : ancestorLoop disk dest fuel path = true)
    (split : components path = front ++ comp :: rest)
    (leads : disk.Leads (baseOf disk.cwd path) front loc)
    (valid : ValidName comp) (absent : disk.fs.node? (comp :: loc) = none) :
    joinSlash front = [] ∨
      pathWithinRoot disk dest (joinSlash front) = true := by
  induction fuel generalizing path rest with
  | zero => cases within
  | succ fuel induction =>
      obtain ⟨errno, fails⟩ := lstat_fails split leads valid absent
      simp only [ancestorLoop, fails] at within
      rcases isCut : cutLast path with _ | shorter
      · -- What is left of the path is a single name, perhaps below the root.
        refine .inl (joinSlash_eq_nil_iff.mpr ?_)
        have nothing := joinSlash_eq_nil_iff.mp (cutLast_eq_none isCut)
        rw [split, List.dropLast_append_cons] at nothing
        rcases front with _ | ⟨first, others⟩
        · exact .inl rfl
        · simp only [List.cons_append, List.cons_ne_nil, false_or,
            List.cons.injEq, List.append_eq_nil_iff] at nothing
          exact .inr (by rw [nothing.1, nothing.2.1])
      · simp only [isCut] at within
        obtain ⟨isFront, nonempty, comps⟩ := cutLast_eq_some isCut
        have sameBase : baseOf disk.cwd shorter = baseOf disk.cwd path := by
          rw [isFront]
          exact baseOf_cut (List.dropLast_prefix _) (isFront ▸ nonempty) _
        rcases List.eq_nil_or_concat rest with rfl | ⟨between, final, isRest⟩
        · rw [split, List.dropLast_concat] at comps isFront
          obtain ⟨node, found⟩ := lstat_of_leads nonempty
            (sameBase ▸ comps.symm ▸ leads)
          cases fuel with
          | zero => cases within
          | succ fuel =>
              simp only [ancestorLoop, found] at within
              exact .inr (isFront ▸ within)
        · rw [List.concat_eq_append] at isRest
          rw [split, isRest, ← List.cons_append, ← List.append_assoc,
            List.dropLast_concat] at comps
          exact induction within comps (by rw [sameBase]; exact leads)

/-! ## The parent of an entry -/

/-- How the path of an entry is made up. -/
structure Joined (dest full : Bytes) : Prop where
  destNonempty : dest ≠ []
  comps : ∃ rel, components full = dirFront dest ++ rel ∧ rel ≠ [] ∧
    dotDot ∉ rel
  base : ∀ cwd, baseOf cwd full = baseOf cwd dest

theorem joined_joinPath {rel : Bytes} (destNonempty : dest ≠ [])
    (confined : pathIsConfined rel = true) :
    Joined dest (joinPath dest rel) := by
  simp only [pathIsConfined, Bool.and_eq_true, decide_eq_true_eq,
    List.all_eq_true, List.any_eq_true] at confined
  obtain ⟨⟨relative, noUp⟩, comp, member, notDot⟩ := confined
  have relNonempty : rel ≠ [] := by
    rintro rfl
    rw [show components [] = [[]] from rfl, List.mem_singleton] at member
    exact notDot (.inl member)
  refine ⟨destNonempty, ⟨components rel, components_joinPath destNonempty
    relNonempty relative, components_ne_nil rel, fun up => ?_⟩,
    baseOf_joinPath destNonempty rel⟩
  exact noUp dotDot up rfl

/-- The parent of the entry leads somewhere, and wherever it leads is below
the destination. -/
structure Confined (disk : Disk γ) (dest full : Bytes) (root : Loc) :
    Prop where
  resolves : disk.resolve dest = .ok root
  parent : ∃ loc, disk.Leads (baseOf disk.cwd full)
    (components full).dropLast loc ∧ root <:+ loc

theorem Confined.below {root loc : Loc}
    (confined : Confined disk dest full root)
    (leads : disk.Leads (baseOf disk.cwd full) (components full).dropLast
      loc) : root <:+ loc := by
  obtain ⟨parent, toParent, isBelow⟩ := confined.parent
  rwa [leads.deterministic toParent]

/-- Nothing but the last component can be missing below a confined parent. -/
theorem Confined.guard {root : Loc} (confined : Confined disk dest full root) :
    Guard disk (baseOf disk.cwd full) (components full)
      (fun loc => root <:+ loc) := by
  intro front comp rest loc split leads _ valid absent
  obtain ⟨parent, toParent, isBelow⟩ := confined.parent
  rcases List.eq_nil_or_concat rest with rfl | ⟨between, final, isRest⟩
  · rw [split, List.dropLast_concat] at toParent
    rw [leads.deterministic toParent]
    exact ⟨isBelow, .inl (by simp)⟩
  · rw [List.concat_eq_append] at isRest
    rw [split, isRest, ← List.cons_append, ← List.append_assoc,
      List.dropLast_concat] at toParent
    exact absurd absent (toParent.exists_entry leads valid)

theorem guard_of_ancestor {parent : Bytes} (joined : Joined dest full)
    (isCut : cutLast full = some parent)
    (within : existingAncestorWithin disk dest parent = true) :
    ∃ root, disk.resolve dest = .ok root ∧
      Guard disk (baseOf disk.cwd parent) (components parent)
        (fun loc => root <:+ loc) := by
  obtain ⟨root, resolved⟩ := resolves_of_ancestorLoop within
  obtain ⟨isFront, nonempty, comps⟩ := cutLast_eq_some isCut
  obtain ⟨rel, whole, relNonempty, noUp⟩ := joined.comps
  have sameBase : baseOf disk.cwd parent = baseOf disk.cwd dest := by
    rw [← joined.base, isFront]
    exact baseOf_cut (List.dropLast_prefix _) (isFront ▸ nonempty) _
  have toDest := leads_dirFront_of_resolve resolved
  rw [← sameBase] at toDest
  refine ⟨root, resolved, ?_⟩
  intro front comp rest loc split leads isDir valid absent
  have compared := within_of_ancestorLoop within split leads valid absent
  rw [comps, whole, List.dropLast_append_of_ne_nil relNonempty] at split
  -- The path can only break off behind the destination, which exists.
  have behind : ∃ between, front = dirFront dest ++ between ∧
      rel.dropLast = between ++ comp :: rest := by
    rcases List.append_eq_append_iff.mp split with
      found | ⟨_ | ⟨entry, between⟩, isDest, inner⟩
    · exact found
    · exact ⟨[], by simp [isDest], by simpa using inner.symm⟩
    · rw [List.cons_append] at inner
      obtain ⟨rfl, rfl⟩ := List.cons.inj inner
      rw [isDest] at toDest
      exact absurd absent (toDest.exists_entry leads valid)
  obtain ⟨between, isFront', inner⟩ := behind
  have noUpRest : dotDot ∉ rest := by
    intro member
    refine noUp (List.dropLast_subset _ ?_)
    rw [inner]
    exact List.mem_append_right _ (List.mem_cons_of_mem _ member)
  refine ⟨?_, .inl noUpRest⟩
  rcases compared with empty | compared
  · have isDest : front = dirFront dest := by
      have destNonempty := dirFront_ne_nil dest
      rcases joinSlash_eq_nil_iff.mp empty with rfl | rfl
      · exact absurd (List.append_eq_nil_iff.mp isFront'.symm).1
          destNonempty
      · obtain ⟨first, others, isCons⟩ :=
          List.exists_cons_of_ne_nil destNonempty
        rw [isCons, List.cons_append, List.cons.injEq] at isFront'
        rw [isCons, (List.append_eq_nil_iff.mp isFront'.2.symm).1,
          isFront'.1]
    rw [isDest] at leads
    rw [leads.deterministic toDest]
  · obtain ⟨_, frontLoc, again, resolvedFront, isBelow⟩ :=
      suffix_of_pathWithinRoot compared
    rw [resolved] at again
    cases again
    obtain ⟨frontNonempty, frontLeads⟩ :=
      resolve_eq_ok_iff.mp resolvedFront
    have isPrefix : front <+: components parent :=
      ⟨comp :: rest, by rw [comps, whole,
        List.dropLast_append_of_ne_nil relNonempty, split]⟩
    have frontNotNil : front ≠ [] := by
      rintro rfl
      exact frontNonempty rfl
    rw [baseOf_cut isPrefix frontNonempty,
      components_cut isPrefix frontNotNil] at frontLeads
    rwa [leads.deterministic frontLeads]

/-- Directories were added below the root. -/
def Extended (root : Loc) (before after : Disk γ) : Prop :=
  ∃ base comps, AddedDirs base comps (fun loc => root <:+ loc) before after

theorem below_closed {root : Loc} :
    ∀ name loc, root <:+ loc → root <:+ name :: loc :=
  fun name _ isBelow => isBelow.trans (List.suffix_cons name _)

theorem Extended.resolves {root : Loc} {before after : Disk γ}
    (extended : Extended root before after) {path : Bytes} {loc : Loc}
    (resolved : before.resolve path = .ok loc) :
    after.resolve path = .ok loc := by
  obtain ⟨base, comps, added⟩ := extended
  obtain ⟨nonempty, leads⟩ := resolve_eq_ok_iff.mp resolved
  exact resolve_eq_ok_iff.mpr
    ⟨nonempty, by rw [added.cwd]; exact added.leads leads⟩

theorem confineParent_ends (joined : Joined dest full) :
    Ends (confineParent dest full disk)
      (fun _ now => ∃ root, disk.resolve dest = .ok root ∧
        Extended root disk now ∧ Confined now dest full root)
      (fun _ now => now = disk ∨ ∃ root, disk.resolve dest = .ok root ∧
        Extended root disk now) := by
  unfold confineParent
  obtain ⟨rel, whole, relNonempty, noUp⟩ := joined.comps
  rcases isCut : cutLast full with _ | parent
  · refine Ends.bindOk rfl (Ends.ite (fun within => ?_)
      (fun _ => Ends.throw (.inl rfl)))
    obtain ⟨root, _, resolved, _, _⟩ := suffix_of_pathWithinRoot within
    refine ⟨root, resolved, ⟨[], [], AddedDirs.refl _⟩, resolved, root, ?_,
      List.suffix_refl root⟩
    -- The whole path is one name below the root directory.
    have nothing := joinSlash_eq_nil_iff.mp (cutLast_eq_none isCut)
    have front := dirFront_ne_nil dest
    have isFront : (components full).dropLast = dirFront dest := by
      rw [whole, List.dropLast_append_of_ne_nil relNonempty] at nothing ⊢
      rcases nothing with nil | single
      · exact absurd (List.append_eq_nil_iff.mp nil).1 front
      · obtain ⟨first, others, isCons⟩ := List.exists_cons_of_ne_nil front
        rw [isCons, List.cons_append, List.cons.injEq,
          List.append_eq_nil_iff] at single
        rw [single.2.2, List.append_nil]
    rw [isFront, joined.base]
    exact leads_dirFront_of_resolve resolved
  · refine Ends.bindOk rfl (Ends.ite (fun within => ?_)
      (fun _ => Ends.throw (.inl rfl)))
    obtain ⟨root, resolved, guard⟩ := guard_of_ancestor joined isCut within
    obtain ⟨isFront, nonempty, comps⟩ := cutLast_eq_some isCut
    have made := mkdirs_ends parent 493 guard below_closed
    refine Ends.through (fun _ now => Extended root disk now)
      (made.mono (fun _ _ added => ⟨_, _, added⟩)
      (fun _ _ added => .inr ⟨root, resolved, _, _, added⟩)) ?_
    intro _ now extended
    refine Ends.bindOk rfl (Ends.ite (fun stillWithin => ?_)
      (fun _ => Ends.throw (.inr ⟨root, resolved, extended⟩)))
    obtain ⟨_, loc, again, parentLoc, isBelow⟩ :=
      suffix_of_pathWithinRoot stillWithin
    have stillResolved := extended.resolves resolved
    rw [stillResolved] at again
    cases again
    refine ⟨root, resolved, extended, stillResolved, loc, ?_, isBelow⟩
    obtain ⟨_, leads⟩ := resolve_eq_ok_iff.mp parentLoc
    rw [comps] at leads
    rwa [isFront, baseOf_cut (List.dropLast_prefix _) (isFront ▸ nonempty)]
      at leads

/-- The empty path leads nowhere, so nothing is below it. -/
theorem confineParent_nil :
    Ends (confineParent [] full disk) (fun _ _ => False)
      (fun _ now => now = disk) := by
  have nowhere : ∀ loc, disk.resolve [] ≠ .ok loc := fun loc resolved =>
    (resolve_eq_ok_iff.mp resolved).1 rfl
  unfold confineParent
  rcases cutLast full with _ | parent
  · refine Ends.bindOk rfl (Ends.ite (fun within => ?_)
      (fun _ => Ends.throw rfl))
    obtain ⟨loc, _, resolved, _⟩ := suffix_of_pathWithinRoot within
    exact nowhere loc resolved
  · refine Ends.bindOk rfl (Ends.ite (fun within => ?_)
      (fun _ => Ends.throw rfl))
    obtain ⟨loc, resolved⟩ := resolves_of_ancestorLoop within
    exact absurd resolved (nowhere loc)

/-! ## Keeping to the destination -/

/-- Everything that differs from the start lies below the directory that the
destination led to then, and it has led nowhere else since. -/
structure Within (start : Disk γ) (dest : Bytes) (now : Disk γ) : Prop where
  cwd : now.cwd = start.cwd
  changes : ∀ loc, now.fs.node? loc ≠ start.fs.node? loc →
    ∃ root, start.resolve dest = .ok root ∧ start.fs.IsDir root ∧
      root <:+ loc ∧ root ≠ loc
  leads : ∀ root, now.resolve dest = .ok root → now.fs.IsDir root →
    start.resolve dest = .ok root ∧ start.fs.IsDir root

theorem within_refl (start : Disk γ) (dest : Bytes) :
    Within start dest start :=
  ⟨rfl, fun _ differs => absurd rfl differs,
    fun _ resolved isDir => ⟨resolved, isDir⟩⟩

namespace Within

variable {start now : Disk γ}

theorem extend {root : Loc} {next : Disk γ} (within : Within start dest now)
    (resolved : now.resolve dest = .ok root)
    (extended : Extended root now next) : Within start dest next := by
  obtain ⟨base, comps, added⟩ := id extended
  have rootExists := exists_of_resolve resolved
  have sameRoot : next.fs.node? root = now.fs.node? root := by
    rcases added.nodes root with same | ⟨absent, _⟩
    · exact same
    · exact absurd absent rootExists
  refine ⟨added.cwd.trans within.cwd, fun loc differs => ?_,
    fun other resolvedNext isDir => ?_⟩
  · rcases added.nodes loc with same |
    ⟨_, isDir, name, parent, rfl, isBelow, _⟩
    · exact within.changes loc (by rwa [← same])
    · have strictly : root ≠ name :: parent := by
        rintro rfl
        have lengths := isBelow.length_le
        simp at lengths
      have rootIsDir : next.fs.IsDir root := by
        obtain ⟨mode, found⟩ := isDirIn_iff.mp isDir
        exact FileSystem.isDir_of_above (by simp [found])
          (below_closed _ _ isBelow) strictly
      rw [FileSystem.IsDir, sameRoot] at rootIsDir
      obtain ⟨resolvedStart, isDirStart⟩ := within.leads root resolved
        rootIsDir
      exact ⟨root, resolvedStart, isDirStart, below_closed _ _ isBelow,
        strictly⟩
  · have isRoot := extended.resolves resolved
    rw [resolvedNext] at isRoot
    cases isRoot
    exact within.leads root resolved (by rwa [FileSystem.IsDir, ← sameRoot])

/-- A node below the root is replaced; that the destination leads nowhere new
is left to show. -/
theorem replaced {root : Loc} {parent : Loc} {last : Name}
    {node : Option (Node γ)} (within : Within start dest now)
    (resolved : start.resolve dest = .ok root)
    (isDir : start.fs.IsDir root) (isBelow : root <:+ parent)
    (leads : ∀ root,
      (now.tick (now.fs.replace last parent node)).resolve dest = .ok root →
      (now.fs.replace last parent node).IsDir root →
      start.resolve dest = .ok root ∧ start.fs.IsDir root) :
    Within start dest (now.tick (now.fs.replace last parent node)) := by
  refine ⟨within.cwd, fun loc differs => ?_, leads⟩
  by_cases same : loc = last :: parent
  · subst same
    refine ⟨root, resolved, isDir, below_closed _ _ isBelow, ?_⟩
    rintro rfl
    have lengths := isBelow.length_le
    simp at lengths
  · refine within.changes loc ?_
    rwa [tick, FileSystem.node?_replace_of_ne node same] at differs

/-- Fewer directories and links lead to no new place. -/
theorem leads_of_fewer {fs : FileSystem γ} (within : Within start dest now)
    (fewer : ∀ loc node, fs.node? loc = some node →
      node.isDir = true ∨ node.isSymlink = true →
      now.fs.node? loc = some node) :
    ∀ root, (now.tick fs).resolve dest = .ok root → fs.IsDir root →
      start.resolve dest = .ok root ∧ start.fs.IsDir root := by
  intro root resolved isDir
  obtain ⟨nonempty, links, bounded, walked⟩ := resolve_eq_ok_iff.mp resolved
  have fewerDirs : ∀ loc, IsDirIn (fs.node? loc) →
      IsDirIn (now.fs.node? loc) := by
    intro loc isDir
    obtain ⟨mode, found⟩ := isDirIn_iff.mp isDir
    exact isDirIn_iff.mpr ⟨mode, fewer loc _ found (.inl rfl)⟩
  refine within.leads root (resolve_eq_ok_iff.mpr
    ⟨nonempty, links, bounded, walked.mono isDir fewerDirs ?_⟩)
    (fewerDirs root isDir)
  intro loc target found
  exact fewer loc _ found (.inr rfl)

end Within

/-! ## The entries -/

variable {start : Disk γ} {root : Loc}

theorem Within.tick (within : Within start dest disk) :
    Within start dest (disk.tick disk.fs) :=
  ⟨within.cwd, within.changes, within.leads⟩

theorem Confined.extend {next : Disk γ}
    (confined : Confined disk dest full root)
    (extended : Extended root disk next) : Confined next dest full root := by
  obtain ⟨loc, leads, isBelow⟩ := confined.parent
  obtain ⟨base, comps, added⟩ := id extended
  refine ⟨extended.resolves confined.resolves, loc, ?_, isBelow⟩
  rw [added.cwd]
  exact added.leads leads

/-- The slot of a confined entry lies below the root, which is a
directory. -/
theorem Confined.slot {parent : Loc} {last : Name}
    (confined : Confined disk dest full root)
    (isSlot : disk.slot full (components full) = .ok (parent, last)) :
    root <:+ parent ∧ disk.fs.IsDir root := by
  obtain ⟨leads, isDir, _⟩ := slot_eq_ok isSlot
  have isBelow := confined.below leads
  exact ⟨isBelow, FileSystem.isDir_of_above_dir isDir isBelow⟩

theorem extractDir_ends {mode : Nat} (within : Within start dest disk)
    (confined : Confined disk dest full root) :
    EndsIn (extractDir dest full mode disk) (Within start dest) := by
  have made : EndsIn (mkdirs full mode disk) (Within start dest) :=
    (mkdirs_ends full mode confined.guard below_closed).endsIn
      (fun _ _ added => within.extend confined.resolves ⟨_, _, added⟩)
      (fun _ _ added => within.extend confined.resolves ⟨_, _, added⟩)
  exact Ends.bindOk rfl (Ends.ite (fun _ => Ends.throw within) (fun _ => made))

theorem unlink_ends (within : Within start dest disk)
    (confined : Confined disk dest full root) :
    EndsIn (Disk.unlink full disk) (fun now => Within start dest now ∧
      now.cwd = disk.cwd ∧ ∀ loc node, now.fs.node? loc = some node →
        disk.fs.node? loc = some node) := by
  refine call_ends.endsIn ?_ ?_
  · rintro _ _ ⟨fs, planned, rfl⟩
    obtain ⟨parent, last, ⟨isSlot, replaceable, rfl⟩, _⟩ :=
      unlinkPlan_ok planned
    obtain ⟨isBelow, isDir⟩ := confined.slot isSlot
    obtain ⟨resolvedStart, isDirStart⟩ :=
      within.leads root confined.resolves isDir
    have fewer : ∀ loc node,
        (disk.fs.replace last parent none).node? loc = some node →
        disk.fs.node? loc = some node := by
      intro loc node found
      rw [FileSystem.node?_replace replaceable] at found
      split_ifs at found
      exact found
    refine ⟨within.replaced resolvedStart isDirStart isBelow ?_, rfl, fewer⟩
    exact within.leads_of_fewer (fun loc node found _ => fewer loc node found)
  · rintro _ _ ⟨rfl, _⟩
    exact ⟨within.tick, rfl, fun _ _ found => found⟩

/-- Where a link can be made below the destination, the destination leads to
a directory. -/
theorem Joined.resolves_of_slot {parent : Loc} {last : Name}
    (joined : Joined dest full)
    (isSlot : disk.slot full (components full) = .ok (parent, last)) :
    ∃ root, disk.resolve dest = .ok root ∧ disk.fs.IsDir root := by
  obtain ⟨leads, isDir, _⟩ := slot_eq_ok isSlot
  obtain ⟨rel, whole, relNonempty, _⟩ := joined.comps
  rw [whole, List.dropLast_append_of_ne_nil relNonempty,
    joined.base] at leads
  obtain ⟨middle, links, front, further⟩ := Leads.of_append leads
  have middleIsDir := further.isDir_of_final isDir
  exact ⟨middle, resolve_of_leads_dirFront joined.destNonempty front
    middleIsDir, middleIsDir⟩

/-- A link made in place of an old entry; `disk` is the disk before the old
entry was removed. -/
theorem symlink_ends {now : Disk γ} (target : Bytes)
    (joined : Joined dest full) (before : Within start dest disk)
    (confined : Confined disk dest full root)
    (within : Within start dest now) (sameCwd : now.cwd = disk.cwd)
    (fewer : ∀ loc node, now.fs.node? loc = some node →
      disk.fs.node? loc = some node) :
    EndsIn (Disk.symlink target full now) (Within start dest) := by
  refine call_ends.endsIn ?_ ?_
  · rintro _ _ ⟨fs, planned, rfl⟩
    obtain ⟨parent, last, ⟨isSlot, replaceable, rfl⟩, absent⟩ :=
      symlinkPlan_ok planned
    obtain ⟨⟨links, bounded, walked⟩, parentIsDir, _⟩ := slot_eq_ok isSlot
    rw [sameCwd] at walked
    have ledBefore := walked.grow fewer
    have isBelow := confined.below ⟨links, bounded, ledBefore⟩
    have rootIsDir : disk.fs.IsDir root := by
      obtain ⟨mode, found⟩ := isDirIn_iff.mp parentIsDir
      exact FileSystem.isDir_of_above_dir
        (isDirIn_iff.mpr ⟨mode, fewer _ _ found⟩) isBelow
    obtain ⟨resolvedStart, isDirStart⟩ :=
      before.leads root confined.resolves rootIsDir
    refine within.replaced resolvedStart isDirStart isBelow ?_
    -- The destination still leads to a directory, and a new link does not
    -- change where it leads.
    obtain ⟨here, resolved, isDir⟩ := joined.resolves_of_slot isSlot
    have more : ∀ loc node, now.fs.node? loc = some node →
        (now.fs.replace last parent (some (.symlink target))).node? loc =
          some node := by
      intro loc node found
      rw [FileSystem.node?_replace replaceable, if_neg, found]
      rintro rfl
      rw [absent] at found
      cases found
    intro other resolvedAfter otherIsDir
    obtain ⟨nonempty, count, few, toDest⟩ := resolve_eq_ok_iff.mp resolved
    have again := resolve_eq_ok_iff.mpr
      (⟨nonempty, count, few, toDest.grow more⟩ : dest ≠ [] ∧
        (now.tick (now.fs.replace last parent
          (some (.symlink target)))).Leads _ _ _)
    rw [resolvedAfter] at again
    cases again
    exact within.leads here resolved isDir
  · rintro _ _ ⟨rfl, _⟩
    exact within.tick

theorem extractSymlink_ends {target : Bytes} (joined : Joined dest full)
    (within : Within start dest disk)
    (confined : Confined disk dest full root) :
    EndsIn (extractSymlink full target disk) (Within start dest) := by
  unfold extractSymlink
  refine Ends.through (fun _ now => Within start dest now ∧
    now.cwd = disk.cwd ∧ ∀ loc node, now.fs.node? loc = some node →
      disk.fs.node? loc = some node) ?_ ?_
  · exact Ends.bindOk rfl (Ends.ite
      (fun _ => Ends.ignore (unlink_ends within confined))
      (fun _ => ⟨within, rfl, fun _ _ found => found⟩))
  · rintro _ now ⟨stillWithin, sameCwd, fewer⟩
    have made := symlink_ends target joined within confined
      stillWithin sameCwd fewer
    exact checked_ends made

theorem writeFile_ends {content : γ} {mode : Nat}
    (within : Within start dest disk)
    (confined : Confined disk dest full root) :
    EndsIn (writeFile full content mode disk) (Within start dest) := by
  unfold writeFile
  refine Ends.through (fun _ now => Within start dest now ∧
    Confined now dest full root) ?_ ?_
  · have made := makeDirname_ends confined.guard below_closed
    exact made.mono
      (fun _ _ added => ⟨within.extend confined.resolves ⟨_, _, added⟩,
        confined.extend ⟨_, _, added⟩⟩)
      (fun _ _ added => within.extend confined.resolves ⟨_, _, added⟩)
  rintro _ ready ⟨withinReady, confinedReady⟩
  refine Ends.through (fun _ now => Within start dest now ∧
    Confined now dest full root) ?_ ?_
  · have temporary : EndsIn (Disk.mkstemp full ready)
        (fun now => Within start dest now ∧
          Confined now dest full root) := by
      refine call_ends.endsIn ?_ ?_
      · rintro _ _ ⟨fs, planned, rfl⟩
        rw [mkstempPlan_ok planned]
        exact ⟨withinReady.tick, confinedReady.resolves,
          confinedReady.parent⟩
      · rintro _ _ ⟨rfl, _⟩
        exact ⟨withinReady.tick, confinedReady.resolves,
          confinedReady.parent⟩
    exact (checked_ends temporary).mono (fun _ _ both => both)
      (fun _ _ both => both.1)
  rintro _ last ⟨withinLast, confinedLast⟩
  refine checked_ends (call_ends.endsIn ?_ ?_)
  · rintro _ _ ⟨fs, planned, rfl⟩
    obtain ⟨parent, name, ⟨isSlot, replaceable, rfl⟩, notDir⟩ :=
      renamePlan_ok planned
    obtain ⟨isBelow, isDir⟩ := confinedLast.slot isSlot
    obtain ⟨resolvedStart, isDirStart⟩ :=
      withinLast.leads root confinedLast.resolves isDir
    refine withinLast.replaced resolvedStart isDirStart isBelow
      (withinLast.leads_of_fewer ?_)
    intro loc node found special
    rw [FileSystem.node?_replace replaceable] at found
    split_ifs at found
    · cases found
      rcases special with special | special <;> cases special
    · exact found
  · rintro _ _ ⟨rfl, _⟩
    exact withinLast.tick

theorem extractCb_ends {stored : Bytes → γ} {entry : Entry}
    (within : Within start dest disk) :
    EndsIn (extractCb stored dest entry disk) (Within start dest) := by
  unfold extractCb
  refine Ends.ite (fun confined => ?_) (fun _ => Ends.ite
    (fun _ => within) (fun _ => Ends.throw within))
  by_cases destEmpty : dest = []
  · subst destEmpty
    exact Ends.through (fun _ _ => False)
      (confineParent_nil.mono (fun _ _ => id)
        (fun _ _ same => by rw [same]; exact within))
      (fun _ _ impossible => impossible.elim)
  have joined := joined_joinPath destEmpty confined
  refine Ends.through (fun _ now => ∃ root, Within start dest now ∧
    Confined now dest (joinPath dest (stripDotSlash entry.path)) root) ?_ ?_
  · refine (confineParent_ends joined).mono ?_ ?_
    · rintro _ now ⟨root, resolved, extended, isConfined⟩
      exact ⟨root, within.extend resolved extended, isConfined⟩
    · rintro _ now (rfl | ⟨root, resolved, extended⟩)
      · exact within
      · exact within.extend resolved extended
  rintro _ now ⟨root, withinNow, isConfined⟩
  refine Ends.ite (fun _ => extractDir_ends withinNow isConfined)
    (fun _ => Ends.ite
      (fun _ => extractSymlink_ends joined withinNow isConfined)
      (fun _ => Ends.ite (fun _ => writeFile_ends withinNow isConfined)
        (fun _ => withinNow)))

/-! ## The whole archive -/

/-- The disk when the destination has been made. -/
def afterMkdirs (dest : Bytes) (disk : Disk γ) : Disk γ :=
  finalState (mkdirs dest 493 disk)

theorem extract_ends {stored : Bytes → γ} {input : Bytes} :
    EndsIn (extract stored input dest disk)
      (Within (afterMkdirs dest disk) dest) := by
  have made : EndsIn (mkdirs dest 493 disk)
      (fun now => now = afterMkdirs dest disk) := endsIn_iff.mpr rfl
  unfold extract
  refine Ends.bind (made.mono (fun _ _ same => same)
    (fun _ _ same => by rw [same]; exact within_refl _ _)) ?_
  rintro _ _ rfl
  refine Ends.bind (Ends.forM_mem (within_refl _ dest) ?_) ?_
  · intro entry _ before within
    exact extractCb_ends within
  · intro _ now within
    exact Ends.ite (fun _ => within) (fun _ => Ends.throw within)

/-- Extraction first adds the directories of the destination path that are
missing, and nothing else; from then on everything it creates, replaces or
deletes lies strictly below the directory that the destination leads to. -/
theorem extract_confined (stored : Bytes → γ) (input dest : Bytes)
    (disk : Disk γ) :
    (∀ loc, (afterMkdirs dest disk).fs.node? loc = disk.fs.node? loc ∨
      disk.fs.node? loc = none ∧
        IsDirIn ((afterMkdirs dest disk).fs.node? loc) ∧
        ∃ cut, cut <+: components dest ∧ (afterMkdirs dest disk).Leads
          (baseOf disk.cwd dest) cut loc) ∧
    ∀ loc, (finalState (extract stored input dest disk)).fs.node? loc ≠
        (afterMkdirs dest disk).fs.node? loc →
      ∃ root, (afterMkdirs dest disk).resolve dest = .ok root ∧
        (afterMkdirs dest disk).fs.IsDir root ∧ root <:+ loc ∧
        root ≠ loc := by
  constructor
  · have anywhere : Guard disk (baseOf disk.cwd dest) (components dest)
        (fun _ => True) :=
      fun _ _ _ _ _ _ _ _ _ => ⟨trivial, .inr fun _ => trivial⟩
    have added := endsIn_iff.mp
      (mkdirs_ends dest 493 anywhere (fun _ _ _ => trivial))
    intro loc
    refine (added.nodes loc).imp_right ?_
    rintro ⟨absent, isDir, _, _, _, _, led⟩
    exact ⟨absent, isDir, led⟩
  · exact (endsIn_iff.mp extract_ends).changes

/-- A missing parent of the destination is created outside of it. -/
theorem missing_parent_is_created :
    ¬ ∀ (input dest : Bytes) (disk : Disk Bytes) (root loc : Loc),
      (finalState (extract id input dest disk)).resolve dest = .ok root →
      (finalState (extract id input dest disk)).fs.node? loc ≠
        disk.fs.node? loc →
      root <:+ loc := by
  intro confined
  have isBelow := confined [] (ascii "/n/d") ⟨.bare Bytes, [], []⟩
    [ascii "d", ascii "n"] [ascii "n"] (by decide +kernel)
    (by decide +kernel)
  exact absurd isBelow (by decide)

end SaltOS.Tar
