import SaltOS.Install.Newest

/-!
# What resolving plans

Calls of `resolve` end on every index.  They plan the targets and what the
targets need, dependencies first where there are no cycles.
-/

namespace SaltOS.Install

open Lib Repo Relation

section

variable (index : Index) (db : Db) (targets : List Bytes)

/-- The newest entry of a name lists a dependency. -/
def DependsOn (name dep : Bytes) : Prop :=
  ∃ entry, index.find name = some entry ∧ dep ∈ entry.deps

/-- A dependency that has to be installed for a name. -/
def Needs (name dep : Bytes) : Prop :=
  DependsOn index name dep ∧ (dep ∈ targets ∨ ¬ db.isInstalled dep)

/-- A name that the targets lead to. -/
def Needed (name : Bytes) : Prop :=
  ∃ target ∈ targets, ReflTransGen (Needs index db targets) target name

/-- Calls of `resolve`, one after the other, without a bound on their depth:
each has a name and who wanted it. -/
inductive Resolves (nodeps : Bool) :
    List (Bytes × Bytes) → Resolution → Resolution → Prop where
  | done (state : Resolution) : Resolves nodeps [] state state
  | seen {name wantedBy : Bytes} {calls : List (Bytes × Bytes)}
      {state after : Resolution} (old : name ∈ state.seen)
      (rest : Resolves nodeps calls state after) :
      Resolves nodeps ((name, wantedBy) :: calls) state after
  | missing {name wantedBy : Bytes} {calls : List (Bytes × Bytes)}
      {state after : Resolution} (fresh : name ∉ state.seen)
      (missing : index.find name = none)
      (rest : Resolves nodeps calls
        { state with
          seen := name :: state.seen
          problems := state.problems ++ [notFound name wantedBy] } after) :
      Resolves nodeps ((name, wantedBy) :: calls) state after
  | found {name wantedBy : Bytes} {calls : List (Bytes × Bytes)}
      {state inside after : Resolution} {entry : Entry}
      (fresh : name ∉ state.seen) (found : index.find name = some entry)
      (deps : Resolves nodeps
        (((if nodeps then [] else entry.deps).filter
          (wanted db targets ·)).map fun dep => (dep, name))
        { state with seen := name :: state.seen } inside)
      (rest : Resolves nodeps calls
        (if wanted db targets name then
          { inside with order := inside.order ++ [entry] }
        else inside) after) :
      Resolves nodeps ((name, wantedBy) :: calls) state after

/-- What a resolution without problems plans. -/
structure Plans (order : List Entry) : Prop where
  distinct : (order.map Entry.name).Nodup
  hasTargets : ∀ name ∈ targets, name ∈ order.map Entry.name
  newest : ∀ entry ∈ order, Newest index entry.name entry
  closed : ∀ entry ∈ order, ∀ dep ∈ entry.deps,
    db.isInstalled dep = true ∨ dep ∈ order.map Entry.name
  isWanted : ∀ entry ∈ order,
    entry.name ∈ targets ∨ ¬ db.isInstalled entry.name
  needed : ∀ entry ∈ order, Needed index db targets entry.name
  ordered :
    (∀ name, ¬ TransGen (fun one other =>
      one ∈ order.map Entry.name ∧ other ∈ order.map Entry.name ∧
        DependsOn index one other) name name) →
    ∀ before entry after, order = before ++ entry :: after →
      ∀ dep ∈ entry.deps, dep ∈ order.map Entry.name →
        dep ∈ before.map Entry.name

end

variable {index : Index} {db : Db} {targets : List Bytes} {nodeps : Bool}

/-! ## The visited names -/

theorem mem_wantedDeps {name dep : Bytes} :
    dep ∈ wantedDeps index db targets false name ↔
      Needs index db targets name dep := by
  rw [Needs, DependsOn, wantedDeps]
  cases found : index.find name with
  | none => simp
  | some entry => simp [wanted]

/-- The names that all calls leave. -/
def resolvedNames (index : Index) (db : Db) (targets : List Bytes) :
    List Bytes :=
  (visitAll (wantedDeps index db targets false) (index.items.length + 1)
    targets ⟨[], []⟩).left

theorem mem_resolvedNames {name : Bytes} :
    name ∈ resolvedNames index db targets ↔
      Needed index db targets name := by
  rw [resolvedNames, visitAll_left_iff wantedDeps_bounded
    (fun _ _ => trivial) index_enough]
  simp only [mem_wantedDeps]
  rfl

theorem problems_iff :
    (resolveAll index db targets false).problems ≠ [] ↔
      ∃ name, Needed index db targets name ∧
        name ∉ index.items.map Entry.name := by
  have follows : Resolution.Follows index
      (resolveAll index db targets false) _ := resolveAll_follows
  rw [ne_eq, follows.problems]
  push Not
  simp only [← find_none, ← mem_resolvedNames]
  rfl

/-! ## Termination -/

theorem resolves_of_enough (fuel : Nat) (calls : List (Bytes × Bytes))
    (areWanted : ∀ call ∈ calls, wanted db targets call.1 = true)
    {state : Resolution} {trail : Trail Bytes}
    (follows : Resolution.Follows index state trail)
    (enough : Enough (index.items.map Entry.name).toFinset fuel trail) :
    Resolves index db targets nodeps calls state
      (calls.foldl (fun state call =>
        resolve index db targets nodeps fuel call.1 call.2 state) state) := by
  -- A call that enters a name leaves less fuel for its dependencies.
  induction fuel generalizing calls state trail with
  | zero => exact absurd enough (Nat.not_lt_zero _)
  | succ fuel induction =>
      induction calls generalizing state trail with
      | nil => exact .done state
      | cons call calls others =>
          obtain ⟨name, wantedBy⟩ := call
          have isWanted : wanted db targets name = true :=
            areWanted _ List.mem_cons_self
          obtain ⟨new, one, -⟩ := visit_visited
            (@wantedDeps_bounded index db targets nodeps) (fuel + 1) name
            trail trivial enough
          have rest := others
            (fun call member => areWanted call (List.mem_cons_of_mem _ member))
            (resolve_follows (fuel + 1) name wantedBy isWanted follows)
            (enough.later one)
          rw [List.foldl_cons]
          rw [resolve] at rest ⊢
          by_cases old : name ∈ state.seen
          · rw [if_pos old] at rest ⊢
            exact .seen old rest
          rw [if_neg old] at rest ⊢
          cases found : index.find name with
          | none =>
              rw [found] at rest
              exact .missing old found rest
          | some entry =>
              rw [found] at rest
              have isKnown :
                  name ∈ (index.items.map Entry.name).toFinset := by
                by_contra unknown
                rw [find_none.mpr (by simpa using unknown)] at found
                cases found
              have entered : Resolution.Follows index
                  { state with seen := name :: state.seen }
                  { trail with entered := name :: trail.entered } :=
                ⟨by rw [follows.seen], follows.order, follows.problems⟩
              have depsWanted : ∀ call ∈
                  ((if nodeps then [] else entry.deps).filter
                    (wanted db targets ·)).map fun dep => (dep, name),
                  wanted db targets call.1 = true := by
                intro call member
                obtain ⟨dep, isDep, rfl⟩ := List.mem_map.mp member
                exact (List.mem_filter.mp isDep).2
              have inside := induction _ depsWanted entered
                (enough.enter isKnown (by rwa [← follows.seen]))
              rw [List.foldl_map, List.foldl_filter] at inside
              exact .found old found inside rest

/-- `resolve` ends for all targets. -/
theorem resolveAll_resolves :
    Resolves index db targets nodeps (targets.map fun name => (name, []))
      ⟨[], [], []⟩ (resolveAll index db targets nodeps) := by
  have start : Resolution.Follows index ⟨[], [], []⟩ ⟨[], []⟩ :=
    ⟨rfl, rfl, by simp⟩
  have areWanted : ∀ call ∈ targets.map fun name => (name, ([] : Bytes)),
      wanted db targets call.1 = true := by
    intro call member
    obtain ⟨name, isTarget, rfl⟩ := List.mem_map.mp member
    simp [wanted, isTarget]
  have enough : Enough (index.items.map Entry.name).toFinset
      (index.items.length + 1) ⟨[], []⟩ := by
    simpa [Enough] using @index_enough index
  have resolves := @resolves_of_enough index db targets nodeps _ _ areWanted
    _ _ start enough
  rw [List.foldl_map] at resolves
  exact resolves

/-! ## The plan -/

theorem resolvedNames_eq
    (noProblems : (resolveAll index db targets false).problems = []) :
    (resolveAll index db targets false).order.map Entry.name =
      resolvedNames index db targets := by
  have follows : Resolution.Follows index
      (resolveAll index db targets false) _ := resolveAll_follows
  rw [follows.order, names_filterMap (follows.problems.mp noProblems)]
  rfl

/-- Without cycles in the plan no name that is reached needs itself. -/
theorem order_postordered
    (noProblems : (resolveAll index db targets false).problems = [])
    (acyclic : ∀ name, ¬ TransGen (fun one other =>
      one ∈ (resolveAll index db targets false).order.map Entry.name ∧
        other ∈ (resolveAll index db targets false).order.map Entry.name ∧
        DependsOn index one other) name name) :
    Postordered (wantedDeps index db targets false)
      (resolvedNames index db targets) := by
  have starts : ∀ name ∈ targets, Needed index db targets name :=
    fun name member => ⟨name, member, .refl⟩
  have steps : ∀ name, Needed index db targets name →
      ∀ dep ∈ wantedDeps index db targets false name,
        Needed index db targets dep :=
    fun name ⟨target, isTarget, path⟩ dep isDep =>
      ⟨target, isTarget, path.tail (mem_wantedDeps.mp isDep)⟩
  have bounded : Bounded (wantedDeps index db targets false)
      (index.items.map Entry.name).toFinset (Needed index db targets) :=
    ⟨steps, fun name _ => wantedDeps_bounded.known name trivial⟩
  have enough : Enough (index.items.map Entry.name).toFinset
      (index.items.length + 1) ⟨[], []⟩ := by
    simpa [Enough] using @index_enough index
  have noCycle : ∀ name, Needed index db targets name → ¬ TransGen
      (fun one other => other ∈ wantedDeps index db targets false one)
      name name := by
    intro name needed cycle
    apply acyclic name
    rw [resolvedNames_eq noProblems]
    have lifted : ∀ other, TransGen
        (fun one other => other ∈ wantedDeps index db targets false one)
        name other → TransGen (fun one other =>
          one ∈ resolvedNames index db targets ∧
            other ∈ resolvedNames index db targets ∧
            DependsOn index one other) name other ∧
          Needed index db targets other := by
      intro other path
      induction path with
      | single isNext =>
          have after := steps name needed _ isNext
          exact ⟨.single ⟨mem_resolvedNames.mpr needed,
            mem_resolvedNames.mpr after, (mem_wantedDeps.mp isNext).1⟩, after⟩
      | tail _ isNext induction =>
          have after := steps _ induction.2 _ isNext
          exact ⟨induction.1.tail ⟨mem_resolvedNames.mpr induction.2,
            mem_resolvedNames.mpr after, (mem_wantedDeps.mp isNext).1⟩, after⟩
    exact (lifted name cycle).1
  apply visitAll_postordered (visit_visited bounded _)
    (visit_postordered bounded noCycle _) targets ⟨[], []⟩ starts enough
  · intro name _ other isOpen
    cases isOpen.1
  · intro before name after split
    simp at split

theorem resolveAll_plans
    (noProblems : (resolveAll index db targets false).problems = []) :
    Plans index db targets (resolveAll index db targets false).order := by
  have resolved := resolveAll_resolved noProblems
  have names := resolvedNames_eq noProblems
  constructor
  · exact resolved.distinct
  · exact resolved.targets
  · exact fun entry member => find_newest (resolveAll_wanted member).1
  · exact resolved.deps
  · intro entry member
    simpa [wanted] using (resolveAll_wanted member).2
  · intro entry member
    rw [← mem_resolvedNames, ← names]
    exact List.mem_map_of_mem member
  · intro acyclic before entry after split dep isDep isPlanned
    have ordered := order_postordered noProblems acyclic
    rw [← names, split, List.map_append, List.map_cons] at ordered
    apply ordered _ _ _ rfl
    have member : entry ∈ (resolveAll index db targets false).order := by
      simp [split]
    rw [mem_wantedDeps]
    refine ⟨⟨entry, (resolveAll_wanted member).1, isDep⟩, ?_⟩
    obtain ⟨other, isOther, rfl⟩ := List.mem_map.mp isPlanned
    simpa [wanted] using (resolveAll_wanted isOther).2

/-- Resolving ends, reports a problem exactly when the index lacks a needed
name, and otherwise plans what is needed in order. -/
theorem resolveAll_exact (index : Index) (db : Db) (targets : List Bytes) :
    Resolves index db targets false (targets.map fun name => (name, []))
        ⟨[], [], []⟩ (resolveAll index db targets false) ∧
      ((resolveAll index db targets false).problems ≠ [] ↔
        ∃ name, Needed index db targets name ∧
          name ∉ index.items.map Entry.name) ∧
      ((resolveAll index db targets false).problems = [] →
        Plans index db targets (resolveAll index db targets false).order) :=
  ⟨resolveAll_resolves, problems_iff, resolveAll_plans⟩

end SaltOS.Install
