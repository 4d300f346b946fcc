import SaltOS.Lib.Leaves

/-!
# Copying and emptying trees

What a file system is after the tree below one location was copied onto the
directory at another, entry by entry, and after a directory was emptied.  The
copy goes where each entry that is already there can be written over by the
entry of the same name.
-/

namespace SaltOS.Lib

/-- Neither location lies at or below the other. -/
def Apart (first second : Loc) : Prop :=
  ¬ first <:+ second ∧ ¬ second <:+ first

instance (first second : Loc) : Decidable (Apart first second) :=
  inferInstanceAs (Decidable (_ ∧ _))

theorem Apart.symm {first second : Loc} (apart : Apart first second) :
    Apart second first :=
  ⟨apart.2, apart.1⟩

/-- Locations apart have nothing below them in common. -/
theorem Apart.not_below {first second loc : Loc}
    (apart : Apart first second) (below : first <:+ loc) :
    ¬ second <:+ loc := by
  intro other
  rcases List.suffix_or_suffix_of_suffix below other with above | above
  · exact apart.1 above
  · exact apart.2 above

namespace Node

variable {γ : Type}

/-- An entry can be written over another: a directory is merged into a
directory, and what is no directory takes the place of a file.  A link stays
a link to the same target. -/
def Overlays : Node γ → Node γ → Prop
  | dir _, dir _ => True
  | file _ _, file _ _ => True
  | symlink _, file _ _ => True
  | symlink target, symlink other => target = other
  | _, _ => False

instance (node there : Node γ) : Decidable (node.Overlays there) := by
  cases node <;> cases there <;> unfold Overlays <;> infer_instance

end Node

namespace FileSystem

variable {γ : Type} {fs : FileSystem γ} {source target loc : Loc}

/-! ## File systems given by a lookup -/

private def entries (look : Loc → Option (Node γ)) (keys : List Loc) :
    List (Sigma fun _ : Loc => Node γ) :=
  keys.filterMap fun key => (look key).map fun node => ⟨key, node⟩

private theorem dlookup_entries {look : Loc → Option (Node γ)}
    {keys : List Loc} {loc : Loc} (support : look loc ≠ none → loc ∈ keys) :
    (entries look keys).dlookup loc = look loc := by
  induction keys with
  | nil =>
      have absent : look loc = none := by
        by_contra found
        exact List.not_mem_nil (support found)
      rw [absent]
      rfl
  | cons key keys induction =>
      unfold entries at induction ⊢
      rw [List.filterMap_cons]
      by_cases same : loc = key
      · subst same
        rcases found : look loc with _ | node
        · have rest := induction fun present => absurd found present
          rwa [found] at rest
        · simp
      · have rest := induction fun present =>
          (List.mem_cons.mp (support present)).resolve_left same
        rcases look key with _ | node
        · exact rest
        · simp only [Option.map_some]
          rw [List.dlookup_cons_ne _ _ same, rest]

/-- The file system of a lookup that finds nothing but at `keys`. -/
def ofLookup (look : Loc → Option (Node γ)) (keys : List Loc)
    (support : ∀ loc, look loc ≠ none → loc ∈ keys)
    (root : IsDirIn (look []))
    (inDirectory : ∀ name parent, look (name :: parent) ≠ none →
      IsDirIn (look parent))
    (validNames : ∀ name parent, look (name :: parent) ≠ none →
      ValidName name) : FileSystem γ :=
  have found : ∀ loc, (entries look keys).toAList.lookup loc = look loc := by
    intro loc
    rw [AList.lookup_to_alist, dlookup_entries (support loc)]
  { nodes := (entries look keys).toAList
    root := by rwa [found]
    inDirectory := by
      intro name parent member
      rw [found]
      apply inDirectory name parent
      rw [← found]
      exact Option.ne_none_iff_isSome.mpr (AList.lookup_isSome.mpr member)
    validNames := by
      intro name parent member
      apply validNames name parent
      rw [← found]
      exact Option.ne_none_iff_isSome.mpr (AList.lookup_isSome.mpr member) }

theorem node?_ofLookup {look : Loc → Option (Node γ)} {keys : List Loc}
    (support : ∀ loc, look loc ≠ none → loc ∈ keys)
    (root : IsDirIn (look []))
    (inDirectory : ∀ name parent, look (name :: parent) ≠ none →
      IsDirIn (look parent))
    (validNames : ∀ name parent, look (name :: parent) ≠ none →
      ValidName name) (loc : Loc) :
    (ofLookup look keys support root inDirectory validNames).node? loc =
      look loc := by
  unfold node? ofLookup
  simp only
  rw [AList.lookup_to_alist, dlookup_entries (support loc)]

/-! ## Emptying a directory -/

private def lookEmptied (fs : FileSystem γ) (top loc : Loc) :
    Option (Node γ) :=
  if StrictlyBelow top loc then none else fs.node? loc

/-- Nothing is left strictly below the location. -/
def emptied (fs : FileSystem γ) (top : Loc) : FileSystem γ :=
  ofLookup (fs.lookEmptied top) fs.nodes.keys
    (by
      intro loc found
      unfold lookEmptied at found
      split_ifs at found
      · exact absurd rfl found
      · exact AList.mem_keys.mp (mem_nodes_iff.mpr found))
    (by
      have notBelow : ¬ StrictlyBelow top [] := by
        rintro ⟨below, differs⟩
        exact differs (List.suffix_nil.mp below).symm
      rw [lookEmptied, if_neg notBelow]
      exact fs.isDir_root)
    (by
      intro name parent found
      unfold lookEmptied at found ⊢
      split_ifs at found with below
      · exact absurd rfl found
      · rw [if_neg]
        · exact isDir_parent found
        · rintro ⟨isBelow, differs⟩
          refine below ⟨isBelow.trans (List.suffix_cons name parent), ?_⟩
          rintro rfl
          have lengths := isBelow.length_le
          rw [List.length_cons] at lengths
          omega)
    (by
      intro name parent found
      unfold lookEmptied at found
      split_ifs at found
      · exact absurd rfl found
      · exact validName found)

theorem node?_emptied (fs : FileSystem γ) (top loc : Loc) :
    (fs.emptied top).node? loc =
      if StrictlyBelow top loc then none else fs.node? loc :=
  node?_ofLookup _ _ _ _ loc

/-! ## Copying a tree onto a directory -/

/-- Each entry that is there already is written over by the entry of the same
name, where there is one. -/
def Overlays (fs : FileSystem γ) (source target : Loc) : Prop :=
  ∀ rel node there, fs.node? (rel ++ source) = some node →
    fs.node? (rel ++ target) = some there → node.Overlays there

private theorem overlays_iff : fs.Overlays source target ↔
    ∀ key ∈ fs.nodes.keys, target <:+ key →
      ∀ there ∈ fs.node? key,
        ∀ node ∈ fs.node? (key.take (key.length - target.length) ++ source),
          node.Overlays there := by
  constructor
  · intro overlays key _ isBelow there found node onto
    obtain ⟨rel, rfl⟩ := isBelow
    have isRel : (rel ++ target).take ((rel ++ target).length -
        target.length) = rel := by simp
    rw [isRel] at onto
    exact overlays rel node there onto found
  · intro overlays rel node there onto found
    have member : rel ++ target ∈ fs.nodes.keys :=
      AList.mem_keys.mp (mem_nodes_iff.mpr (by simp [found]))
    have isRel : (rel ++ target).take ((rel ++ target).length -
        target.length) = rel := by simp
    refine overlays _ member (List.suffix_append rel target) there found node
      ?_
    rw [isRel]
    exact onto

instance (fs : FileSystem γ) (source target : Loc) :
    Decidable (fs.Overlays source target) :=
  decidable_of_iff _ overlays_iff.symm

/-- The tree below `source` can be copied onto the directory `target`. -/
structure Graftable (fs : FileSystem γ) (source target : Loc) : Prop where
  fromDir : fs.IsDir source
  ontoDir : fs.IsDir target
  overlays : fs.Overlays source target

private theorem graftable_iff : fs.Graftable source target ↔
    fs.IsDir source ∧ fs.IsDir target ∧ fs.Overlays source target :=
  ⟨fun able => ⟨able.1, able.2, able.3⟩, fun ⟨fromDir, onto, overlays⟩ =>
    ⟨fromDir, onto, overlays⟩⟩

instance (fs : FileSystem γ) (source target : Loc) :
    Decidable (fs.Graftable source target) :=
  decidable_of_iff _ graftable_iff.symm

private def lookGrafted (fs : FileSystem γ) (source target loc : Loc) :
    Option (Node γ) :=
  if target <:+ loc then
    (fs.node? (loc.take (loc.length - target.length) ++ source)).or
      (fs.node? loc)
  else fs.node? loc

private theorem lookGrafted_below (rel : Loc) :
    fs.lookGrafted source target (rel ++ target) =
      (fs.node? (rel ++ source)).or (fs.node? (rel ++ target)) := by
  have isRel : (rel ++ target).take ((rel ++ target).length -
      target.length) = rel := by simp
  rw [lookGrafted, if_pos (List.suffix_append rel target), isRel]

private theorem lookGrafted_outside (outside : ¬ target <:+ loc) :
    fs.lookGrafted source target loc = fs.node? loc :=
  if_neg outside

private theorem suffix_parent {top parent : Loc} {name : Name}
    (below : top <:+ name :: parent) (differs : top ≠ name :: parent) :
    top <:+ parent :=
  (List.suffix_cons_iff.mp below).resolve_left differs

private theorem isDir_lookGrafted (able : fs.Graftable source target)
    (isDir : fs.IsDir loc) :
    IsDirIn (fs.lookGrafted source target loc) := by
  by_cases below : target <:+ loc
  · obtain ⟨rel, rfl⟩ := below
    rw [lookGrafted_below]
    rcases onto : fs.node? (rel ++ source) with _ | node
    · rw [Option.none_or]
      exact isDir
    · obtain ⟨mode, there⟩ := isDir_iff.mp isDir
      have overlays := able.overlays rel node _ onto there
      cases node with
      | dir mode => exact isDirIn_iff.mpr ⟨mode, rfl⟩
      | file => exact absurd overlays id
      | symlink => exact absurd overlays id
  · rw [lookGrafted_outside below]
    exact isDir

private theorem lookGrafted_inDirectory (able : fs.Graftable source target)
    (name : Name) (parent : Loc)
    (found : fs.lookGrafted source target (name :: parent) ≠ none) :
    IsDirIn (fs.lookGrafted source target parent) := by
  by_cases below : target <:+ parent
  · obtain ⟨rel, rfl⟩ := below
    rw [← List.cons_append, lookGrafted_below] at found
    rcases copied : fs.node? (name :: rel ++ source) with _ | node
    · rw [copied, Option.none_or] at found
      exact isDir_lookGrafted able (isDir_parent found)
    · have exists_ : fs.node? (name :: (rel ++ source)) ≠ none := by
        rw [List.cons_append] at copied
        simp [copied]
      obtain ⟨mode, parentFound⟩ := isDir_iff.mp (isDir_parent exists_)
      rw [lookGrafted_below, parentFound]
      exact isDirIn_iff.mpr ⟨mode, rfl⟩
  · rw [lookGrafted_outside below]
    by_cases isTarget : target = name :: parent
    · obtain ⟨mode, exists_⟩ := isDir_iff.mp able.ontoDir
      have parentExists : fs.node? (name :: parent) ≠ none := by
        rw [← isTarget, exists_]
        simp
      exact isDir_parent parentExists
    · have outside : ¬ target <:+ name :: parent := fun isBelow =>
        below (suffix_parent isBelow isTarget)
      rw [lookGrafted_outside outside] at found
      exact isDir_parent found

/-- The tree below `source` copied onto the directory `target`, entry by
entry. -/
def graft (fs : FileSystem γ) (source target : Loc) : FileSystem γ :=
  if able : fs.Graftable source target then
    ofLookup (fs.lookGrafted source target)
      (fs.nodes.keys ++ (fs.nodes.keys.filter (source.isSuffixOf ·)).map
        (fun key => key.take (key.length - source.length) ++ target))
      (by
        intro loc found
        rw [List.mem_append]
        by_cases there : fs.node? loc = none
        · by_cases below : target <:+ loc
          · obtain ⟨rel, rfl⟩ := below
            rw [lookGrafted_below, there, Option.or_none] at found
            refine .inr (List.mem_map.mpr ⟨rel ++ source, ?_, by simp⟩)
            rw [List.mem_filter]
            exact ⟨AList.mem_keys.mp (mem_nodes_iff.mpr found),
              List.isSuffixOf_iff_suffix.mpr (List.suffix_append rel source)⟩
          · rw [lookGrafted_outside below] at found
            exact absurd there found
        · exact .inl (AList.mem_keys.mp (mem_nodes_iff.mpr there)))
      (isDir_lookGrafted able fs.isDir_root)
      (lookGrafted_inDirectory able)
      (by
        intro name parent found
        by_cases there : fs.node? (name :: parent) = none
        · by_cases below : target <:+ name :: parent
          · obtain ⟨mode, exists_⟩ := isDir_iff.mp able.ontoDir
            have differs : target ≠ name :: parent := by
              rintro rfl
              rw [exists_] at there
              cases there
            obtain ⟨rel, rfl⟩ := suffix_parent below differs
            rw [← List.cons_append, lookGrafted_below, List.cons_append,
              List.cons_append, there, Option.or_none] at found
            exact validName found
          · rw [lookGrafted_outside below] at found
            exact validName found
        · exact validName there)
  else fs

/-- What was copied is found at the target, before what was there. -/
theorem node?_graft_below (able : fs.Graftable source target) (rel : Loc) :
    (fs.graft source target).node? (rel ++ target) =
      (fs.node? (rel ++ source)).or (fs.node? (rel ++ target)) := by
  unfold graft
  rw [dif_pos able, node?_ofLookup, lookGrafted_below]

theorem node?_graft_outside (outside : ¬ target <:+ loc) :
    (fs.graft source target).node? loc = fs.node? loc := by
  unfold graft
  split_ifs
  · rw [node?_ofLookup, lookGrafted_outside outside]
  · rfl

/-- A copy onto what holds the same tree changes nothing. -/
theorem node?_graft_same
    (same : ∀ rel, fs.node? (rel ++ target) = fs.node? (rel ++ source))
    (loc : Loc) : (fs.graft source target).node? loc = fs.node? loc := by
  by_cases able : fs.Graftable source target
  · by_cases below : target <:+ loc
    · obtain ⟨rel, rfl⟩ := below
      rw [node?_graft_below able, same rel, Option.or_self]
    · exact node?_graft_outside below
  · unfold graft
    rw [dif_neg able]

end FileSystem

end SaltOS.Lib
