import SaltOS.Base.UtilSpec
import SaltOS.Lib.Leaves

/-!
# Lexical confinement

The scanner of `salt_path_is_confined` against what it is for: a path that it
accepts leads strictly below any directory it is joined to, as long as no
symbolic link stands in the way.
-/

namespace SaltOS

open Lib

/-! ## Lexical normalisation -/

namespace Lib

/-- One component, on the way from a directory. -/
def lexicalStep (cur : Loc) (comp : Name) : Loc :=
  if IsDot comp then cur
  else if comp = dotDot then cur.tail
  else comp :: cur

/-- Where components lead from a directory if none of them is a symbolic
link. -/
def lexicalFrom (cur : Loc) (comps : List Name) : Loc :=
  comps.foldl lexicalStep cur

/-- The lexical normalisation of an absolute path. -/
def lexicalNormal (path : Name) : Loc :=
  lexicalFrom [] (components path)

theorem lexicalFrom_append (cur : Loc) (front rest : List Name) :
    lexicalFrom cur (front ++ rest) =
      lexicalFrom (lexicalFrom cur front) rest :=
  List.foldl_append

/-- A walk that follows no link ends where the components say. -/
theorem Walk.lexical {γ : Type} {look : Loc → Option (Node γ)}
    {cur final : Loc} {comps : List Name} {links : Nat}
    (walked : Walk look cur comps final links) (noLinks : links = 0) :
    final = lexicalFrom cur comps := by
  induction walked with
  | nil cur => rfl
  | dot _ isDot _ induction =>
      rw [induction noLinks, lexicalFrom, lexicalFrom, List.foldl_cons,
        lexicalStep, if_pos isDot]
  | up _ _ induction =>
      rw [induction noLinks, lexicalFrom, lexicalFrom, List.foldl_cons,
        lexicalStep, if_neg (by decide), if_pos rfl]
  | entry _ notDot notUp _ _ _ induction =>
      rw [induction noLinks, lexicalFrom, lexicalFrom, List.foldl_cons,
        lexicalStep, if_neg notDot, if_neg notUp]
  | follow => cases noLinks

/-- Components that never go up stay below where they start. -/
theorem suffix_lexicalFrom {cur : Loc} {comps : List Name}
    (noUp : ∀ comp ∈ comps, comp ≠ dotDot) :
    cur <:+ lexicalFrom cur comps := by
  induction comps generalizing cur with
  | nil => exact List.suffix_rfl
  | cons comp comps induction =>
      have later : ∀ other ∈ comps, other ≠ dotDot :=
        fun other member => noUp other (List.mem_cons_of_mem comp member)
      have step : cur <:+ lexicalStep cur comp := by
        unfold lexicalStep
        split
        · exact List.suffix_rfl
        · rw [if_neg (noUp comp List.mem_cons_self)]
          exact List.suffix_cons comp cur
      exact step.trans (induction later)

/-- If one of them names an entry, they end strictly below it. -/
theorem strictlyBelow_lexicalFrom {cur : Loc} {comps : List Name}
    (noUp : ∀ comp ∈ comps, comp ≠ dotDot)
    (entry : ∃ comp ∈ comps, ¬ IsDot comp) :
    StrictlyBelow cur (lexicalFrom cur comps) := by
  obtain ⟨comp, member, notDot⟩ := entry
  obtain ⟨front, rest, rfl⟩ := List.append_of_mem member
  have toFront : cur <:+ lexicalFrom cur front :=
    suffix_lexicalFrom fun other inFront =>
      noUp other (List.mem_append_left _ inFront)
  have further : comp :: lexicalFrom cur front <:+
      lexicalFrom cur (front ++ comp :: rest) := by
    have step : lexicalStep (lexicalFrom cur front) comp =
        comp :: lexicalFrom cur front := by
      rw [lexicalStep, if_neg notDot, if_neg (noUp comp member)]
    rw [lexicalFrom_append, ← step]
    exact suffix_lexicalFrom fun other inRest =>
      noUp other (List.mem_append_right _ (List.mem_cons_of_mem comp inRest))
  constructor
  · exact toFront.trans ((List.suffix_cons _ _).trans further)
  · intro same
    have shorter := toFront.length_le
    have longer := further.length_le
    rw [same, List.length_cons] at longer
    omega

end Lib

/-! ## The scanner -/

namespace Util

/-- The loop of `salt_path_is_confined`, from the start of a component on. -/
def confinedLoop (seen : Bool) (rest : Bytes) : Bool :=
  if rest = [] then seen
  else
    let comp := rest.takeWhile (· ≠ 47)
    if comp = [46, 46] then false
    else confinedLoop (seen || (comp ≠ [] && comp ≠ [46]))
      (rest.drop (comp.length + 1))
termination_by rest.length
decreasing_by
  have positive := List.length_pos_of_ne_nil (by assumption)
  rw [List.length_drop]
  omega

/-- `salt_path_is_confined` as it scans the path. -/
def confinedScan (rel : Bytes) : Bool :=
  if rel = [] ∨ rel.head? = some 47 then false else confinedLoop false rel

theorem components_of_slashFree {comp : Name} (slashFree : 47 ∉ comp) :
    components comp = [comp] := by
  have single : joinSlash [comp] = comp := by simp [joinSlash]
  have parts : components (joinSlash [comp]) = [comp] :=
    components_joinSlash (by simpa using slashFree) (by simp)
  rwa [single] at parts

/-- The first component goes up to the first slash. -/
theorem components_takeWhile (rest : Bytes) :
    ∃ others, components rest = rest.takeWhile (· ≠ 47) :: others ∧
      (others = [] ∧
          rest.drop ((rest.takeWhile (· ≠ 47)).length + 1) = [] ∨
        others =
          components (rest.drop ((rest.takeWhile (· ≠ 47)).length + 1))) := by
  have split : rest.takeWhile (· ≠ 47) ++ rest.dropWhile (· ≠ 47) = rest :=
    List.takeWhile_append_dropWhile
  have slashFree : 47 ∉ rest.takeWhile (· ≠ 47) := by
    intro member
    have differs := List.mem_takeWhile_imp member
    simp at differs
  have stops := List.head?_dropWhile_not (· ≠ 47) rest
  generalize rest.takeWhile (· ≠ 47) = comp at *
  cases behind : rest.dropWhile (· ≠ 47) with
  | nil =>
      rw [behind, List.append_nil] at split
      subst split
      exact ⟨[], components_of_slashFree slashFree, .inl ⟨rfl, by simp⟩⟩
  | cons byte later =>
      rw [behind] at stops split
      obtain rfl : byte = 47 := by simpa using stops
      subst split
      have dropped : (comp ++ 47 :: later).drop (comp.length + 1) = later := by
        simp [List.drop_append]
      rw [dropped]
      refine ⟨components later, ?_, .inr rfl⟩
      rw [components_append_slash, components_of_slashFree slashFree]
      rfl

theorem confinedLoop_eq (seen : Bool) (rest : Bytes) :
    confinedLoop seen rest =
      ((components rest).all (fun comp => comp ≠ dotDot) &&
        (seen || (components rest).any (fun comp => ¬ IsDot comp))) := by
  induction seen, rest using confinedLoop.induct with
  | case1 seen =>
      rw [confinedLoop, if_pos rfl]
      simp [components, IsDot, dotDot]
  | case2 seen rest nonempty comp isUp =>
      obtain ⟨others, whole, -⟩ := components_takeWhile rest
      rw [confinedLoop, if_neg nonempty, if_pos isUp, whole, List.all_cons]
      have upFirst : decide (comp ≠ dotDot) = false :=
        decide_eq_false (not_not.mpr isUp)
      change false = (decide (comp ≠ dotDot) && _ && _)
      rw [upFirst, Bool.false_and, Bool.false_and]
  | case3 seen rest nonempty comp notUp induction =>
      obtain ⟨others, whole, later⟩ := components_takeWhile rest
      change components rest = comp :: others at whole
      change others = [] ∧ rest.drop (comp.length + 1) = [] ∨
        others = components (rest.drop (comp.length + 1)) at later
      rw [confinedLoop, if_neg nonempty, if_neg notUp, induction, whole,
        List.all_cons, List.any_cons]
      clear_value comp
      have stays : decide (comp ≠ dotDot) = true := decide_eq_true notUp
      have names : (decide (comp ≠ []) && decide (comp ≠ [46])) =
          decide (¬ IsDot comp) := by
        simp [IsDot]
      rw [stays, names, Bool.true_and, ← Bool.or_assoc]
      rcases later with ⟨noOthers, atEnd⟩ | same
      · rw [noOthers, atEnd]
        simp [components, IsDot, dotDot]
      · rw [same]

/-- The scanner decides what the components say. -/
theorem confinedScan_eq (rel : Bytes) :
    confinedScan rel = pathIsConfined rel := by
  unfold confinedScan pathIsConfined
  rw [confinedLoop_eq, Bool.false_or]
  by_cases empty : rel = []
  · simp [empty, components, IsDot]
  · by_cases absolute : rel.head? = some 47
    · simp [absolute]
    · simp [empty, absolute]

/-! ## Confined paths stay below -/

theorem lexicalFrom_dirFront (dir : Bytes) :
    lexicalFrom [] (dirFront dir) = lexicalNormal dir := by
  unfold lexicalNormal dirFront
  split
  next trailing =>
    rw [(components_trailing trailing).1, lexicalFrom_append,
      List.dropLast_concat]
    rfl
  · rfl

theorem pathIsConfined_iff {rel : Bytes} :
    pathIsConfined rel = true ↔
      rel ≠ [] ∧ rel.head? ≠ some 47 ∧ dotDot ∉ components rel ∧
        ∃ comp ∈ components rel, comp ≠ [] ∧ comp ≠ [46] := by
  simp only [pathIsConfined, Bool.and_eq_true, decide_eq_true_eq,
    List.all_eq_true, List.any_eq_true, and_assoc]
  constructor
  · rintro ⟨relative, noUp, comp, member, notDot⟩
    refine ⟨?_, relative, fun isUp => noUp dotDot isUp rfl, comp, member,
      not_or.mp notDot⟩
    rintro rfl
    rw [show components [] = [[]] from rfl, List.mem_singleton] at member
    exact notDot (.inl member)
  · rintro ⟨-, relative, noUp, comp, member, notDot⟩
    refine ⟨relative, ?_, comp, member, not_or.mpr notDot⟩
    rintro other inRel rfl
    exact noUp inRel

variable {root rel : Bytes}

theorem joinPath_strictlyBelow (confined : pathIsConfined rel = true)
    (absolute : root.head? = some 47) :
    StrictlyBelow (lexicalNormal root)
      (lexicalNormal (joinPath root rel)) := by
  obtain ⟨nonempty, relative, noUp, comp, member, notDot⟩ :=
    pathIsConfined_iff.mp confined
  have rootNonempty : root ≠ [] := by
    rintro rfl
    cases absolute
  rw [← lexicalFrom_dirFront root, lexicalNormal, components_joinPath
    rootNonempty nonempty relative, lexicalFrom_append]
  apply strictlyBelow_lexicalFrom
  · rintro other inRel rfl
    exact noUp inRel
  · exact ⟨comp, member, not_or.mpr notDot⟩

/-- The kernel, too, ends strictly below the directory, unless it follows a
symbolic link. -/
theorem walk_confined {γ : Type} {look : Loc → Option (Node γ)}
    {cwd final : Loc} (confined : pathIsConfined rel = true)
    (absolute : root.head? = some 47)
    (walked : Walk look (baseOf cwd (joinPath root rel))
      (components (joinPath root rel)) final 0) :
    StrictlyBelow (lexicalNormal root) final := by
  have rootNonempty : root ≠ [] := by
    rintro rfl
    cases absolute
  have ends := walked.lexical rfl
  rw [baseOf_joinPath rootNonempty, baseOf, if_pos absolute] at ends
  rw [ends]
  exact joinPath_strictlyBelow confined absolute

/-- A path is confined exactly when it is relative, never goes up and names
an entry; and joined to a directory it then leads strictly below it. -/
theorem confinedScan_exact (rel : Bytes) :
    (confinedScan rel = true ↔
      rel ≠ [] ∧ rel.head? ≠ some 47 ∧ dotDot ∉ components rel ∧
        ∃ comp ∈ components rel, comp ≠ [] ∧ comp ≠ [46]) ∧
    (confinedScan rel = true → ∀ root : Bytes, root.head? = some 47 →
      StrictlyBelow (lexicalNormal root)
        (lexicalNormal (joinPath root rel))) := by
  rw [confinedScan_eq]
  exact ⟨pathIsConfined_iff,
    fun confined root absolute => joinPath_strictlyBelow confined absolute⟩

end Util

end SaltOS
