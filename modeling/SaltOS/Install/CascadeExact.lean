import SaltOS.Install.Closure

/-!
# What a cascade removes

`remove --cascade` removes exactly what depends on its arguments, dependents
first where there are no cycles.
-/

namespace SaltOS.Install

open Lib Repo Relation

section

variable (db : Db)

/-- The loop for `--cascade`, without a bound on its rounds. -/
inductive Cascade.Ends : Cascade → List Bytes → Prop where
  | done (set : List Bytes) : Cascade.Ends ⟨set, []⟩ set
  | round {set work result : List Bytes} {name : Bytes}
      (rest : Cascade.Ends
        ((db.revdeps name).foldl (cascadeAdd db) ⟨set, work⟩) result) :
      Cascade.Ends ⟨set, name :: work⟩ result

/-- One package has a row in the table of dependencies for another. -/
def Requires (who name : Bytes) : Prop :=
  (who, name) ∈ db.tables.deps

/-- The given packages and all that depend on them. -/
def Dependent (args : List Bytes) (name : Bytes) : Prop :=
  ∃ arg ∈ args, ReflTransGen (Requires db) name arg

/-- The plan of a cascade: each package once, dependents before what they
depend on. -/
structure CascadePlan (args order : List Bytes) : Prop where
  distinct : order.Nodup
  exact : ∀ name, name ∈ order ↔ Dependent db args name
  ordered :
    (∀ name, ¬ TransGen (fun who name =>
      who ∈ order ∧ name ∈ order ∧ Requires db who name) name name) →
    ∀ before name after, order = before ++ name :: after →
      ∀ who ∈ order, Requires db who name → who ∈ before
  accepted : checkDangling db ⟨order, []⟩ = true

end

variable {db : Db} {args : List Bytes}

/-! ## The set -/

theorem mem_revdeps {who name : Bytes} :
    who ∈ db.revdeps name ↔ Requires db who name := by
  rw [Db.revdeps, mem_namesWith, Requires]

theorem cascadeAdd_forall {property : Bytes → Prop} (names : List Bytes)
    (all : ∀ name ∈ names, property name) (state : Cascade)
    (set : ∀ name ∈ state.set, property name)
    (work : ∀ name ∈ state.work, property name) :
    (∀ name ∈ (names.foldl (cascadeAdd db) state).set, property name) ∧
      ∀ name ∈ (names.foldl (cascadeAdd db) state).work, property name := by
  induction names generalizing state with
  | nil => exact ⟨set, work⟩
  | cons who names induction =>
      have isProperty := all who List.mem_cons_self
      have others := fun name member =>
        all name (List.mem_cons_of_mem who member)
      rw [List.foldl_cons]
      by_cases added : who ∉ state.set ∧ db.isInstalled who = true
      · rw [cascadeAdd, if_pos added]
        exact induction others _ (List.forall_mem_cons.mpr ⟨isProperty, set⟩)
          (List.forall_mem_cons.mpr ⟨isProperty, work⟩)
      · rw [cascadeAdd, if_neg added]
        exact induction others _ set work

/-- A cascade stays among the names that depend on its start. -/
theorem cascade_forall {property : Bytes → Prop}
    (closed : ∀ name, property name →
      ∀ who, Requires db who name → property who) (fuel : Nat)
    {state : Cascade} (set : ∀ name ∈ state.set, property name)
    (work : ∀ name ∈ state.work, property name) :
    ∀ name ∈ cascade db fuel state, property name := by
  induction fuel generalizing state with
  | zero => exact set
  | succ fuel induction =>
      rw [cascade]
      split
      · exact set
      · rename_i name rest isWork
        rw [isWork] at work
        have dependents : ∀ who ∈ db.revdeps name, property who :=
          fun who member => closed name (work name List.mem_cons_self) who
            (mem_revdeps.mp member)
        obtain ⟨newSet, newWork⟩ := @cascadeAdd_forall db _
          (db.revdeps name) dependents ⟨state.set, rest⟩ set
          fun other member => work other (List.mem_cons_of_mem name member)
        exact induction newSet newWork

theorem cascade_keeps (fuel : Nat) {state : Cascade} {name : Bytes}
    (member : name ∈ state.set) : name ∈ cascade db fuel state := by
  induction fuel generalizing state with
  | zero => exact member
  | succ fuel induction =>
      rw [cascade]
      split
      · exact member
      · rename_i other work _
        apply induction
        exact (cascadeAdd_added db (db.revdeps other)
          ⟨state.set, work⟩).set name member

theorem cascade_ends {fuel : Nat} {state : Cascade}
    (enough : cascadeRoom db state.set + state.work.length ≤ fuel) :
    Cascade.Ends db state (cascade db fuel state) := by
  induction fuel generalizing state with
  | zero =>
      obtain ⟨set, work⟩ := state
      obtain rfl : work = [] := by
        rw [← List.length_eq_zero_iff]
        dsimp only at enough
        omega
      exact .done set
  | succ fuel induction =>
      obtain ⟨set, work⟩ := state
      cases work with
      | nil => exact .done set
      | cons name work =>
          apply Cascade.Ends.round
          apply induction
          refine (cascadeAdd_added db (db.revdeps name) ⟨set, work⟩).room.trans
            ?_
          dsimp only [List.length_cons] at enough ⊢
          omega

theorem mem_cascadeSet
    (owned : ∀ row ∈ db.tables.deps, db.isInstalled row.1 = true)
    {name : Bytes} :
    name ∈ cascadeSet db args ↔ Dependent db args name := by
  have closed := cascadeSet_closed db args
  constructor
  · apply @cascade_forall db (Dependent db args)
    · rintro name ⟨arg, isArg, path⟩ who requires
      exact ⟨arg, isArg, path.head requires⟩
    · exact fun arg isArg => ⟨arg, isArg, .refl⟩
    · exact fun arg isArg => ⟨arg, List.mem_reverse.mp isArg, .refl⟩
  · rintro ⟨arg, isArg, path⟩
    induction path using ReflTransGen.head_induction_on with
    | refl => exact cascade_keeps _ isArg
    | head requires _ inside =>
        exact closed _ inside _ (mem_revdeps.mpr requires) (owned _ requires)

/-! ## The order -/

/-- The dependents of a package in a set. -/
def dependents (db : Db) (set : List Bytes) (name : Bytes) : List Bytes :=
  (db.revdeps name).filter (· ∈ set)

theorem mem_dependents {set : List Bytes} {who name : Bytes} :
    who ∈ dependents db set name ↔ Requires db who name ∧ who ∈ set := by
  simp [dependents, mem_revdeps]

theorem dependents_bounded (set : List Bytes) :
    Bounded (dependents db set) set.toFinset (· ∈ set) := by
  constructor
  · exact fun _ _ _ isNext => (mem_dependents.mp isNext).2
  · intro name member unknown
    exact absurd (List.mem_toFinset.mpr member) unknown

theorem dependents_enough (set : List Bytes) :
    Enough set.toFinset (set.length + 1) ⟨[], []⟩ := by
  have card := set.toFinset_card_le
  simpa [Enough] using Nat.lt_succ_of_le card

theorem removeOrder_visits (db : Db) (set : List Bytes) : ∃ trail,
    Visits (dependents db set) set ⟨[], []⟩ trail ∧
      trail.left = removeOrder db set :=
  ⟨_, visitAll_visits (dependents_bounded set) _ set ⟨[], []⟩
    (fun _ member => member) (dependents_enough set), rfl⟩

theorem removeOrder_postordered {set : List Bytes}
    (acyclic : ∀ name, ¬ TransGen (fun who name =>
      who ∈ set ∧ name ∈ set ∧ Requires db who name) name name) :
    Postordered (dependents db set) (removeOrder db set) := by
  have noCycle : ∀ name, name ∈ set → ¬ TransGen
      (fun one other => other ∈ dependents db set one) name name := by
    intro name member cycle
    apply acyclic name
    rw [← transGen_swap]
    have lifted : ∀ other, TransGen
        (fun one other => other ∈ dependents db set one) name other →
        TransGen (fun one other => other ∈ set ∧ one ∈ set ∧
          Requires db other one) name other ∧ other ∈ set := by
      intro other path
      induction path with
      | single isNext =>
          obtain ⟨requires, inside⟩ := mem_dependents.mp isNext
          exact ⟨.single ⟨inside, member, requires⟩, inside⟩
      | tail _ isNext induction =>
          obtain ⟨requires, inside⟩ := mem_dependents.mp isNext
          exact ⟨induction.1.tail ⟨inside, induction.2, requires⟩, inside⟩
    exact (lifted name cycle).1
  apply visitAll_postordered (visit_visited (dependents_bounded set) _)
    (visit_postordered (dependents_bounded set) noCycle _) set ⟨[], []⟩
    (fun _ member => member) (dependents_enough set)
  · intro name _ other isOpen
    cases isOpen.1
  · intro before name after split
    simp at split

theorem removeOrder_plan
    (owned : ∀ row ∈ db.tables.deps, db.isInstalled row.1 = true) :
    CascadePlan db args (removeOrder db (removeSet db args true)) := by
  have isSet : removeSet db args true = toSet (cascadeSet db args) := rfl
  have perm : (removeOrder db (removeSet db args true)).Perm
      (toSet (cascadeSet db args)) :=
    isSet ▸ removeOrder_perm db (nodup_toSet _)
  constructor
  · exact perm.nodup_iff.mpr (nodup_toSet _)
  · intro name
    rw [perm.mem_iff, mem_toSet, mem_cascadeSet owned]
  · intro acyclic before name after split who member requires
    simp only [perm.mem_iff] at acyclic member
    rw [isSet] at split
    apply removeOrder_postordered acyclic before name after split
    exact mem_dependents.mpr ⟨requires, member⟩
  · exact cascade_not_dangling db args

/-- `remove --cascade` ends its loop and its visits and carries out a plan
with exactly the dependents of its arguments. -/
theorem nativeRemove_cascade (machine : Machine) (flags : TxnFlags)
    (args : List Bytes) (world : World) (opens : machine.opens = true)
    (cascades : flags.cascade = true)
    (owned : ∀ row ∈ world.db.tables.deps,
      world.db.isInstalled row.1 = true)
    (installed : ∀ arg ∈ args, world.db.isInstalled arg = true) :
    ∃ set trail,
      Cascade.Ends world.db ⟨args, args.reverse⟩ set ∧
      Visits (dependents world.db (toSet set)) (toSet set) ⟨[], []⟩ trail ∧
      nativeRemove machine args flags world =
        nativeTransaction machine.session flags (ascii "remove")
          ⟨trail.left, []⟩ world ∧
      CascadePlan world.db args trail.left := by
  obtain ⟨trail, visits, isLeft⟩ :=
    removeOrder_visits world.db (toSet (cascadeSet world.db args))
  refine ⟨cascadeSet world.db args, trail,
    cascade_ends (cascade_enough world.db args), visits, ?_, ?_⟩
  · have all : args.all world.db.isInstalled = true := by
      simpa using installed
    rw [isLeft, nativeRemove, if_neg (by simp [opens]), cascades]
    change (if ¬ args.all world.db.isInstalled then (return 1 : Io Nat)
      else nativeTransaction machine.session flags (ascii "remove")
        ⟨removeOrder world.db (removeSet world.db args true), []⟩) world = _
    rw [if_neg (by simp [all])]
    rfl
  · rw [isLeft]
    exact removeOrder_plan owned

/-- Removing `lib` takes `app` along. -/
theorem libCascade_plan : ∃ order,
    nativeRemove soloMachine [ascii "lib"]
        { plainFlags with cascade := true } smallWorld =
      nativeTransaction smallSession { plainFlags with cascade := true }
        (ascii "remove") ⟨order, []⟩ smallWorld ∧
      CascadePlan smallDb [ascii "lib"] order ∧ ascii "app" ∈ order := by
  obtain ⟨set, trail, -, -, run, plan⟩ := nativeRemove_cascade soloMachine
    { plainFlags with cascade := true } [ascii "lib"] smallWorld rfl rfl
    (by decide) (by decide)
  refine ⟨trail.left, run, plan, (plan.exact _).mpr ?_⟩
  refine ⟨ascii "lib", List.mem_singleton_self _, .single ?_⟩
  change (ascii "app", ascii "lib") ∈ smallDb.tables.deps
  decide

end SaltOS.Install
