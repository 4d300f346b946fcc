import SaltOS.Install.Resolve

/-!
# What ordering by dependencies gives

The visits of `order_by_deps` end for every list.  They bring the entries into
another order, and without cycles every entry stands behind those that it
depends on.
-/

namespace SaltOS.Install

open Lib Repo Relation

section

variable (items : List Entry)

/-- The dependencies between the entries of a list. -/
def DependsWithin (entry other : Entry) : Prop :=
  entry ∈ items ∧ other ∈ items ∧ other.name ∈ entry.deps

/-- Calls of `visit`, one after the other, without a bound on their depth. -/
inductive OrderVisits : List Entry → Ordering → Ordering → Prop where
  | done (state : Ordering) : OrderVisits [] state state
  | old {entry : Entry} {calls : List Entry} {state after : Ordering}
      (visited : entry.name ∈ state.done)
      (rest : OrderVisits calls state after) :
      OrderVisits (entry :: calls) state after
  | enter {entry : Entry} {calls : List Entry}
      {state inside after : Ordering} (fresh : entry.name ∉ state.done)
      (deps : OrderVisits (entry.deps.filterMap (byName items))
        { state with done := entry.name :: state.done } inside)
      (rest : OrderVisits calls
        { inside with out := inside.out ++ [entry] } after) :
      OrderVisits (entry :: calls) state after

end

variable {items : List Entry}

/-! ## Termination -/

theorem ownDeps_bounded : Bounded (ownDeps items)
    (items.map Entry.name).toFinset (· ∈ items.map Entry.name) :=
  ⟨fun _ _ _ => ownDeps_mem,
    fun _ isMet unknown => absurd (List.mem_toFinset.mpr isMet) unknown⟩

theorem items_enough : Enough (items.map Entry.name).toFinset
    (items.length + 1) ⟨[], []⟩ := by
  have known := (items.map Entry.name).toFinset_card_le
  rw [List.length_map] at known
  simpa [Enough] using Nat.lt_succ_of_le known

theorem orderVisits_of_enough (fuel : Nat) (calls : List Entry)
    (own : ∀ entry ∈ calls, byName items entry.name = some entry)
    {state : Ordering} {trail : Trail Bytes}
    (follows : Ordering.Follows items state trail)
    (enough : Enough (items.map Entry.name).toFinset fuel trail) :
    OrderVisits items calls state
      (calls.foldl (fun state entry => orderVisit items fuel entry state)
        state) := by
  -- A call that enters a name leaves less fuel for its dependencies.
  induction fuel generalizing calls state trail with
  | zero => exact absurd enough (Nat.not_lt_zero _)
  | succ fuel induction =>
      induction calls generalizing state trail with
      | nil => exact .done state
      | cons entry calls others =>
          have found := own entry List.mem_cons_self
          have member : entry.name ∈ items.map Entry.name :=
            List.mem_map_of_mem (byName_some found).2
          obtain ⟨new, one, -⟩ := visit_visited ownDeps_bounded (fuel + 1)
            entry.name trail member enough
          have rest := others
            (fun other inside => own other (List.mem_cons_of_mem _ inside))
            (orderVisit_follows (fuel + 1) found follows) (enough.later one)
          rw [List.foldl_cons]
          rw [orderVisit, orderVisit_calls] at rest ⊢
          by_cases old : entry.name ∈ state.done
          · rw [if_pos old] at rest ⊢
            exact .old old rest
          rw [if_neg old] at rest ⊢
          have entered : Ordering.Follows items
              { state with done := entry.name :: state.done }
              { trail with entered := entry.name :: trail.entered } :=
            ⟨by rw [follows.done], follows.out⟩
          have ownDeps : ∀ other ∈ entry.deps.filterMap (byName items),
              byName items other.name = some other := by
            intro other isDep
            obtain ⟨dep, -, isOther⟩ := List.mem_filterMap.mp isDep
            rwa [(byName_some isOther).1]
          have inside := induction _ ownDeps entered
            (enough.enter (List.mem_toFinset.mpr member)
              (by rwa [← follows.done]))
          exact .enter old inside rest

/-- `order_by_deps` ends. -/
theorem orderByDeps_visits (distinct : (items.map Entry.name).Nodup) :
    ∃ state, OrderVisits items items ⟨[], []⟩ state ∧
      state.out = orderByDeps items := by
  refine ⟨_, orderVisits_of_enough (items.length + 1) items ?_ ⟨rfl, rfl⟩
    items_enough, rfl⟩
  intro entry member
  exact byName_self distinct member

/-! ## The order -/

theorem mem_ownDeps (distinct : (items.map Entry.name).Nodup)
    {entry : Entry} (member : entry ∈ items) {dep : Bytes} :
    dep ∈ ownDeps items entry.name ↔
      ∃ other, DependsWithin items entry other ∧ other.name = dep := by
  rw [ownDeps, byName_self distinct member]
  simp only [List.mem_filter, Option.isSome_iff_exists]
  constructor
  · rintro ⟨isDep, other, found⟩
    obtain ⟨rfl, inItems⟩ := byName_some found
    exact ⟨other, ⟨member, inItems, isDep⟩, rfl⟩
  · rintro ⟨other, ⟨-, inItems, isDep⟩, rfl⟩
    exact ⟨isDep, other, byName_self distinct inItems⟩

/-- A path of names is one of entries. -/
theorem depends_of_names (distinct : (items.map Entry.name).Nodup)
    {entry : Entry} (member : entry ∈ items) {name : Bytes}
    (path : TransGen (fun one other => other ∈ ownDeps items one) entry.name
      name) :
    ∃ other, TransGen (DependsWithin items) entry other ∧
      other.name = name := by
  induction path with
  | single isNext =>
      obtain ⟨other, depends, isName⟩ :=
        (mem_ownDeps distinct member).mp isNext
      exact ⟨other, .single depends, isName⟩
  | tail _ isNext induction =>
      obtain ⟨middle, front, rfl⟩ := induction
      obtain ⟨one, -, depends⟩ := TransGen.tail'_iff.mp front
      obtain ⟨other, last, isName⟩ :=
        (mem_ownDeps distinct depends.2.1).mp isNext
      exact ⟨other, front.tail last, isName⟩

theorem names_postordered (distinct : (items.map Entry.name).Nodup)
    (acyclic : ∀ entry, ¬ TransGen (DependsWithin items) entry entry) :
    Postordered (ownDeps items) ((orderByDeps items).map Entry.name) := by
  have noCycle : ∀ name, name ∈ items.map Entry.name →
      ¬ TransGen (fun one other => other ∈ ownDeps items one) name name := by
    intro name isName cycle
    obtain ⟨entry, member, rfl⟩ := List.mem_map.mp isName
    obtain ⟨other, path, sameName⟩ := depends_of_names distinct member cycle
    obtain ⟨one, -, depends⟩ := TransGen.tail'_iff.mp path
    have same := List.inj_on_of_nodup_map distinct depends.2.1 member sameName
    exact acyclic entry (same ▸ path)
  have ordered := visitAll_postordered (visit_visited ownDeps_bounded _)
    (visit_postordered ownDeps_bounded noCycle _) (items.map Entry.name)
    ⟨[], []⟩ (fun _ member => member) items_enough
    (fun _ _ _ isOpen => absurd isOpen.1 List.not_mem_nil)
    (fun before name after split => by simp at split)
  have onlyItems := visitAll_forall
    (visit_forall ownDeps_bounded.closed (items.length + 1))
    (items.map Entry.name) ⟨[], []⟩ (fun _ member => member) (by simp)
  have names : ∀ left : List Bytes,
      (∀ name ∈ left, name ∈ items.map Entry.name) →
      (left.filterMap (byName items)).map Entry.name = left := by
    intro left areItems
    induction left with
    | nil => rfl
    | cons name left induction =>
        obtain ⟨entry, member, rfl⟩ :=
          List.mem_map.mp (areItems name List.mem_cons_self)
        rw [List.filterMap_cons_some (byName_self distinct member),
          List.map_cons, induction fun other inside =>
            areItems other (List.mem_cons_of_mem _ inside)]
  rw [orderByDeps_follows distinct, names _ onlyItems]
  exact ordered

/-- Ordering ends with the same entries, and without cycles each of them
stands behind all that it depends on. -/
theorem orderByDeps_exact (items : List Entry)
    (distinct : (items.map Entry.name).Nodup) :
    (∃ state, OrderVisits items items ⟨[], []⟩ state ∧
      state.out = orderByDeps items) ∧
    (orderByDeps items).Perm items ∧
    ((∀ entry, ¬ TransGen (DependsWithin items) entry entry) →
      ∀ before entry after, orderByDeps items = before ++ entry :: after →
        ∀ other, DependsWithin items entry other → other ∈ before) := by
  refine ⟨orderByDeps_visits distinct, orderByDeps_perm distinct, ?_⟩
  intro acyclic before entry after split other depends
  have ordered := names_postordered distinct acyclic
  rw [split, List.map_append, List.map_cons] at ordered
  have earlier := ordered _ _ _ rfl other.name
    ((mem_ownDeps distinct depends.1).mpr ⟨other, depends, rfl⟩)
  obtain ⟨same, inBefore, sameName⟩ := List.mem_map.mp earlier
  have inItems : same ∈ items := by
    rw [← (orderByDeps_perm distinct).mem_iff, split]
    exact List.mem_append_left _ inBefore
  rwa [← List.inj_on_of_nodup_map distinct inItems depends.2.1 sameName]

/-- An entry with nothing but dependencies. -/
def entryWith (name : String) (deps : List Bytes) : Entry where
  name := ascii name
  version := ascii "1"
  release := 1
  arch := ascii "any"
  filename := []
  url := none
  sha256 := []
  size := 0
  summary := []
  deps := deps
  conflicts := []

/-- Two programs that share a library. -/
def sharedItems : List Entry :=
  [entryWith "app" [ascii "lib"], entryWith "tool" [ascii "lib", ascii "app"],
    entryWith "lib" []]

theorem sharedItems_ordered :
    orderByDeps sharedItems = [entryWith "lib" [],
      entryWith "app" [ascii "lib"],
      entryWith "tool" [ascii "lib", ascii "app"]] ∧
    (orderByDeps sharedItems).Perm sharedItems := by
  refine ⟨by decide +kernel, ?_⟩
  exact (orderByDeps_exact sharedItems (by decide +kernel)).2.1

end SaltOS.Install
