import SaltOS.Lib.FileSystem
import SaltOS.Lib.Pieces

/-!
# Path resolution

A path is a byte string; its components are what lies between the slashes,
empty ones included.  `Walk` says where the components lead from a directory
and how many symbolic links were followed on the way.  `walk` computes it
within a budget of links, as the kernel does.

Resolution only looks nodes up, so it is defined for any lookup function.
-/

namespace SaltOS.Lib

/-- The components of a path. -/
def components (path : Name) : List Name :=
  path.splitOn 47

/-- The path with the given components. -/
def joinSlash (comps : List Name) : Name :=
  [47].intercalate comps

theorem joinSlash_components (path : Name) :
    joinSlash (components path) = path := by
  simp [joinSlash, components]

theorem components_joinSlash {comps : List Name}
    (slashFree : ∀ comp ∈ comps, 47 ∉ comp) (nonempty : comps ≠ []) :
    components (joinSlash comps) = comps :=
  List.splitOn_intercalate 47 slashFree nonempty

theorem components_ne_nil (path : Name) : components path ≠ [] :=
  List.splitOn_ne_nil 47 path

theorem components_append_slash (left right : Name) :
    components (left ++ 47 :: right) = components left ++ components right :=
  List.splitOn_append_cons_self left right

theorem slash_not_mem_components {path comp : Name}
    (member : comp ∈ components path) : 47 ∉ comp :=
  not_mem_of_mem_splitOn member

theorem joinSlash_append {front rest : List Name} (frontNonempty : front ≠ [])
    (restNonempty : rest ≠ []) :
    joinSlash (front ++ rest) = joinSlash front ++ 47 :: joinSlash rest := by
  induction front with
  | nil => exact absurd rfl frontNonempty
  | cons comp others induction =>
      rcases others with _ | ⟨next, more⟩
      · obtain ⟨first, later, rfl⟩ := List.exists_cons_of_ne_nil restNonempty
        simp [joinSlash, List.intercalate_cons_cons]
      · have later := induction (List.cons_ne_nil next more)
        simp only [joinSlash, List.cons_append,
          List.intercalate_cons_cons] at later ⊢
        rw [later]
        simp

theorem joinSlash_eq_nil_iff {comps : List Name} :
    joinSlash comps = [] ↔ comps = [] ∨ comps = [[]] := by
  rcases comps with _ | ⟨first, _ | ⟨second, more⟩⟩
  · simp [joinSlash]
  · simp [joinSlash]
  · simp [joinSlash, List.intercalate_cons_cons]

theorem components_cut {path : Name} {cut : List Name}
    (isCut : cut <+: components path) (nonempty : cut ≠ []) :
    components (joinSlash cut) = cut :=
  components_joinSlash
    (fun _ member => slash_not_mem_components (isCut.subset member)) nonempty

/-- Components that name no entry of a directory. -/
def IsDot (comp : Name) : Prop :=
  comp = [] ∨ comp = [46]

instance (comp : Name) : Decidable (IsDot comp) :=
  inferInstanceAs (Decidable (_ ∨ _))

def dotDot : Name := [46, 46]

theorem ValidName.notDot {name : Name} (valid : ValidName name) :
    ¬ IsDot name := by
  rintro (empty | dot)
  · exact valid.1 empty
  · exact valid.2.1 dot

/-- Where the resolution of a path or link target starts. -/
def baseOf (cur : Loc) (path : Name) : Loc :=
  if path.head? = some 47 then [] else cur

/-- A path and its cuts are resolved from the same directory. -/
theorem baseOf_cut {path : Name} {cut : List Name}
    (isCut : cut <+: components path) (nonempty : joinSlash cut ≠ [])
    (cwd : Loc) : baseOf cwd (joinSlash cut) = baseOf cwd path := by
  obtain ⟨rest, whole⟩ := isCut
  have cutNonempty : cut ≠ [] := by
    rintro rfl
    exact nonempty rfl
  rcases rest with _ | ⟨next, more⟩
  · rw [List.append_nil] at whole
    rw [whole, joinSlash_components]
  · have isPath := joinSlash_components path
    rw [← whole, joinSlash_append cutNonempty (List.cons_ne_nil next more)]
      at isPath
    rw [← isPath]
    unfold baseOf
    rw [List.head?_append_of_ne_nil _ nonempty]

section Walks

variable {γ : Type}

/-- From the directory `cur` the components lead to the last location, over
the given number of symbolic links. -/
inductive Walk (look : Loc → Option (Node γ)) :
    Loc → List Name → Loc → Nat → Prop where
  | nil (cur : Loc) : Walk look cur [] cur 0
  | dot {cur final : Loc} {comp : Name} {rest : List Name} {links : Nat} :
      IsDirIn (look cur) → IsDot comp →
      Walk look cur rest final links →
      Walk look cur (comp :: rest) final links
  | up {cur final : Loc} {rest : List Name} {links : Nat} :
      IsDirIn (look cur) →
      Walk look cur.tail rest final links →
      Walk look cur (dotDot :: rest) final links
  | entry {cur final : Loc} {comp : Name} {rest : List Name} {links : Nat}
      {node : Node γ} :
      IsDirIn (look cur) → ¬ IsDot comp → comp ≠ dotDot →
      look (comp :: cur) = some node → node.isSymlink = false →
      Walk look (comp :: cur) rest final links →
      Walk look cur (comp :: rest) final links
  | follow {cur final : Loc} {comp target : Name} {rest : List Name}
      {links : Nat} :
      IsDirIn (look cur) → ¬ IsDot comp → comp ≠ dotDot →
      look (comp :: cur) = some (.symlink target) → target ≠ [] →
      Walk look (baseOf cur target) (components target ++ rest) final links →
      Walk look cur (comp :: rest) final (links + 1)

/-- What a failing call leaves in `errno`. -/
inductive Errno where
  | noent
  | io
  | exist
  | notdir
  | isdir
  | inval
  | busy
  | notempty
  | loop
  deriving DecidableEq, Repr

/-- One round of resolution: up to the next symbolic link, which `onLink`
takes over. -/
def walkWith (look : Loc → Option (Node γ))
    (onLink : Loc → List Name → Except Errno Loc) :
    Loc → List Name → Except Errno Loc
  | cur, [] => .ok cur
  | cur, comp :: rest =>
      if IsDirIn (look cur) then
        if IsDot comp then walkWith look onLink cur rest
        else if comp = dotDot then walkWith look onLink cur.tail rest
        else
          match look (comp :: cur) with
          | none => .error .noent
          | some (.symlink target) =>
              if target = [] then .error .noent
              else onLink (baseOf cur target) (components target ++ rest)
          | some _ => walkWith look onLink (comp :: cur) rest
      else .error .notdir

/-- Resolution that follows at most `budget` symbolic links. -/
def walk (look : Loc → Option (Node γ)) :
    Nat → Loc → List Name → Except Errno Loc
  | 0 => walkWith look (fun _ _ => .error .loop)
  | budget + 1 => walkWith look (walk look budget)

variable {look look' : Loc → Option (Node γ)}
  {cur middle final : Loc} {comps : List Name} {links : Nat}

private theorem walkWith_sound {budget : Nat}
    {onLink : Loc → List Name → Except Errno Loc}
    (linkSound : ∀ cur comps final, onLink cur comps = .ok final →
      ∃ links, links + 1 ≤ budget ∧ Walk look cur comps final links)
    (result : walkWith look onLink cur comps = .ok final) :
    ∃ links, links ≤ budget ∧ Walk look cur comps final links := by
  induction comps generalizing cur with
  | nil =>
      cases result
      exact ⟨0, Nat.zero_le _, .nil _⟩
  | cons comp rest induction =>
      unfold walkWith at result
      split_ifs at result with isDir isDot isUp
      · obtain ⟨links, within, walked⟩ := induction result
        exact ⟨links, within, .dot isDir isDot walked⟩
      · obtain ⟨links, within, walked⟩ := induction result
        exact ⟨links, within, isUp ▸ .up isDir walked⟩
      · rcases found : look (comp :: cur) with _ | node
        · simp [found] at result
        · cases node with
          | symlink target =>
              simp only [found] at result
              split_ifs at result with empty
              obtain ⟨links, within, walked⟩ := linkSound _ _ _ result
              exact ⟨links + 1, within,
                .follow isDir isDot isUp found empty walked⟩
          | dir mode =>
              simp only [found] at result
              obtain ⟨links, within, walked⟩ := induction result
              exact ⟨links, within,
                .entry isDir isDot isUp found rfl walked⟩
          | file content mode =>
              simp only [found] at result
              obtain ⟨links, within, walked⟩ := induction result
              exact ⟨links, within,
                .entry isDir isDot isUp found rfl walked⟩

theorem walk_sound {budget : Nat}
    (result : walk look budget cur comps = .ok final) :
    ∃ links, links ≤ budget ∧ Walk look cur comps final links := by
  induction budget generalizing cur comps final with
  | zero => exact walkWith_sound (fun _ _ _ stuck => by cases stuck) result
  | succ budget induction =>
      refine walkWith_sound (fun _ _ _ taken => ?_) result
      obtain ⟨links, within, walked⟩ := induction taken
      exact ⟨links, Nat.succ_le_succ within, walked⟩

private theorem exists_onLink (look : Loc → Option (Node γ))
    (budget : Nat) : ∃ onLink, walk look budget = walkWith look onLink := by
  cases budget <;> exact ⟨_, rfl⟩

theorem walk_complete {budget : Nat} (within : links ≤ budget)
    (walked : Walk look cur comps final links) :
    walk look budget cur comps = .ok final := by
  induction walked generalizing budget with
  | nil cur => cases budget <;> rfl
  | dot isDir isDot _ induction =>
      obtain ⟨onLink, unfolded⟩ := exists_onLink look budget
      have later := induction within
      rw [unfolded] at later ⊢
      rw [walkWith, if_pos isDir, if_pos isDot, later]
  | up isDir _ induction =>
      obtain ⟨onLink, unfolded⟩ := exists_onLink look budget
      have later := induction within
      rw [unfolded] at later ⊢
      rw [walkWith, if_pos isDir, if_neg (by decide), if_pos rfl, later]
  | @entry _ _ _ _ _ node isDir notDot notUp found plain _ induction =>
      obtain ⟨onLink, unfolded⟩ := exists_onLink look budget
      have later := induction within
      rw [unfolded] at later ⊢
      rw [walkWith, if_pos isDir, if_neg notDot, if_neg notUp, found]
      cases node with
      | symlink target => cases plain
      | dir mode => exact later
      | file content mode => exact later
  | follow isDir notDot notUp found nonempty _ induction =>
      obtain ⟨rest, rfl⟩ : ∃ rest, budget = rest + 1 :=
        ⟨budget - 1, by omega⟩
      rw [walk, walkWith, if_pos isDir, if_neg notDot, if_neg notUp, found]
      simp only [nonempty, if_false]
      exact induction (Nat.le_of_succ_le_succ within)

theorem walk_eq_ok_iff {budget : Nat} :
    walk look budget cur comps = .ok final ↔
      ∃ links, links ≤ budget ∧ Walk look cur comps final links :=
  ⟨walk_sound, fun ⟨_, within, walked⟩ => walk_complete within walked⟩

namespace Walk

/-- Where a path leads does not depend on how it is walked. -/
theorem deterministic {other : Loc} {otherLinks : Nat}
    (walked : Walk look cur comps final links)
    (again : Walk look cur comps other otherLinks) : final = other := by
  have first := walk_complete (Nat.le_max_left links otherLinks) walked
  have second := walk_complete (Nat.le_max_right links otherLinks) again
  exact Except.ok.inj (first.symm.trans second)

theorem append {rest : List Name} {restLinks : Nat}
    (walked : Walk look cur comps middle links)
    (further : Walk look middle rest final restLinks) :
    Walk look cur (comps ++ rest) final (links + restLinks) := by
  induction walked with
  | nil cur => simpa using further
  | dot isDir isDot _ induction => exact .dot isDir isDot (induction further)
  | up isDir _ induction => exact .up isDir (induction further)
  | entry isDir notDot notUp found plain _ induction =>
      exact .entry isDir notDot notUp found plain (induction further)
  | follow isDir notDot notUp found nonempty _ induction =>
      have later := induction further
      rw [List.append_assoc] at later
      rw [Nat.add_right_comm]
      exact .follow isDir notDot notUp found nonempty later

theorem of_append {front rest : List Name}
    (walked : Walk look cur (front ++ rest) final links) :
    ∃ middle first second, Walk look cur front middle first ∧
      Walk look middle rest final second ∧ first + second = links := by
  generalize whole : front ++ rest = comps at walked
  induction walked generalizing front with
  | nil cur =>
      obtain ⟨rfl, rfl⟩ := List.append_eq_nil_iff.mp whole
      exact ⟨cur, 0, 0, .nil cur, .nil cur, rfl⟩
  | @dot cur final comp tail links isDir isDot later induction =>
      rcases front with _ | ⟨head, others⟩
      · rw [List.nil_append] at whole
        subst whole
        exact ⟨cur, 0, links, .nil cur, .dot isDir isDot later,
          Nat.zero_add _⟩
      · obtain ⟨rfl, rfl⟩ := List.cons.inj whole
        obtain ⟨middle, first, second, before, after, total⟩ :=
          induction rfl
        exact ⟨middle, first, second, .dot isDir isDot before, after, total⟩
  | @up cur final tail links isDir later induction =>
      rcases front with _ | ⟨head, others⟩
      · rw [List.nil_append] at whole
        subst whole
        exact ⟨cur, 0, links, .nil cur, .up isDir later, Nat.zero_add _⟩
      · obtain ⟨rfl, rfl⟩ := List.cons.inj whole
        obtain ⟨middle, first, second, before, after, total⟩ :=
          induction rfl
        exact ⟨middle, first, second, .up isDir before, after, total⟩
  | @entry cur final comp tail links node isDir notDot notUp found plain later
      induction =>
      rcases front with _ | ⟨head, others⟩
      · rw [List.nil_append] at whole
        subst whole
        exact ⟨cur, 0, links, .nil cur,
          .entry isDir notDot notUp found plain later, Nat.zero_add _⟩
      · obtain ⟨rfl, rfl⟩ := List.cons.inj whole
        obtain ⟨middle, first, second, before, after, total⟩ :=
          induction rfl
        exact ⟨middle, first, second,
          .entry isDir notDot notUp found plain before, after, total⟩
  | @follow cur final comp target tail links isDir notDot notUp found
      nonempty later induction =>
      rcases front with _ | ⟨head, others⟩
      · rw [List.nil_append] at whole
        subst whole
        exact ⟨cur, 0, links + 1, .nil cur,
          .follow isDir notDot notUp found nonempty later, Nat.zero_add _⟩
      · obtain ⟨rfl, rfl⟩ := List.cons.inj whole
        obtain ⟨middle, first, second, before, after, total⟩ :=
          induction (List.append_assoc _ _ _)
        exact ⟨middle, first + 1, second,
          .follow isDir notDot notUp found nonempty before, after,
          by omega⟩

/-- A walk with components left to go stands in a directory. -/
theorem isDir_start (nonempty : comps ≠ [])
    (walked : Walk look cur comps final links) : IsDirIn (look cur) := by
  cases walked with
  | nil => exact absurd rfl nonempty
  | dot isDir => exact isDir
  | up isDir => exact isDir
  | entry isDir => exact isDir
  | follow isDir => exact isDir

theorem isDir_of_final (walked : Walk look cur comps final links)
    (finalIsDir : IsDirIn (look final)) : IsDirIn (look cur) := by
  rcases comps with _ | ⟨comp, rest⟩
  · cases walked
    exact finalIsDir
  · exact walked.isDir_start (List.cons_ne_nil comp rest)

/-- A walk to a directory only looks at directories and symbolic links. -/
theorem mono (walked : Walk look cur comps final links)
    (finalIsDir : IsDirIn (look final))
    (keptDir : ∀ loc, IsDirIn (look loc) → IsDirIn (look' loc))
    (keptLink : ∀ loc target, look loc = some (.symlink target) →
      look' loc = some (.symlink target)) :
    Walk look' cur comps final links := by
  induction walked with
  | nil cur => exact .nil cur
  | dot isDir isDot _ induction =>
      exact .dot (keptDir _ isDir) isDot (induction finalIsDir)
  | up isDir _ induction => exact .up (keptDir _ isDir) (induction finalIsDir)
  | entry isDir notDot notUp _ _ later induction =>
      have onDir := later.isDir_of_final finalIsDir
      obtain ⟨mode, found⟩ := isDirIn_iff.mp (keptDir _ onDir)
      exact .entry (keptDir _ isDir) notDot notUp found rfl
        (induction finalIsDir)
  | follow isDir notDot notUp found nonempty _ induction =>
      exact .follow (keptDir _ isDir) notDot notUp (keptLink _ _ found)
        nonempty (induction finalIsDir)

/-- More nodes do not change where a walk leads. -/
theorem grow (walked : Walk look cur comps final links)
    (kept : ∀ loc node, look loc = some node → look' loc = some node) :
    Walk look' cur comps final links := by
  have keptDir : ∀ loc, IsDirIn (look loc) → IsDirIn (look' loc) := by
    intro loc isDir
    obtain ⟨mode, found⟩ := isDirIn_iff.mp isDir
    exact isDirIn_iff.mpr ⟨mode, kept loc _ found⟩
  induction walked with
  | nil cur => exact .nil cur
  | dot isDir isDot _ induction => exact .dot (keptDir _ isDir) isDot induction
  | up isDir _ induction => exact .up (keptDir _ isDir) induction
  | entry isDir notDot notUp found plain _ induction =>
      exact .entry (keptDir _ isDir) notDot notUp (kept _ _ found) plain
        induction
  | follow isDir notDot notUp found nonempty _ induction =>
      exact .follow (keptDir _ isDir) notDot notUp (kept _ _ found) nonempty
        induction

/-- The first component of a walk names an entry that exists. -/
theorem exists_entry {comp : Name} {rest : List Name}
    (walked : Walk look cur (comp :: rest) final links)
    (notDot : ¬ IsDot comp) (notUp : comp ≠ dotDot) :
    look (comp :: cur) ≠ none := by
  cases walked with
  | dot _ isDot => exact absurd isDot notDot
  | up => exact absurd rfl notUp
  | entry _ _ _ found => simp [found]
  | follow _ _ _ found => simp [found]

/-- Without entries to go to, a walk stays where it is. -/
theorem eq_of_childless (walked : Walk look cur comps final links)
    (childless : ∀ name, look (name :: cur) = none)
    (noUp : dotDot ∉ comps) : final = cur := by
  induction walked with
  | nil cur => rfl
  | dot _ _ _ induction =>
      exact induction childless (fun member =>
        noUp (List.mem_cons_of_mem _ member))
  | up => exact absurd List.mem_cons_self noUp
  | entry _ _ _ found =>
      rw [childless] at found
      cases found
  | follow _ _ _ found =>
      rw [childless] at found
      cases found

end Walk

end Walks

end SaltOS.Lib
