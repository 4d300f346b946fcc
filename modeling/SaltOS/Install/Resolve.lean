import SaltOS.Install.PlanSafety
import SaltOS.Lib.DepthFirst

/-!
# Resolving and ordering

`resolve` and `order_by_deps` of `src/salt/cmd_install.cpp`.  Both are
depth-first visits of the names that entries depend on; what they collect
follows from the rules about such visits.
-/

namespace SaltOS.Install

open Lib Repo

/-- A `std::set` of strings, in the order in which it is iterated. -/
def toSet (names : List Bytes) : List Bytes :=
  names.dedup.insertionSort (· ≤ ·)

@[simp] theorem mem_toSet {names : List Bytes} {name : Bytes} :
    name ∈ toSet names ↔ name ∈ names := by
  simp [toSet, List.mem_insertionSort]

/-! ## Lookups in the index -/

/-- One round of the loop of `salt_repo_index_find`. -/
def findRound (name : Bytes) (best : Option Entry) (entry : Entry) :
    Option Entry :=
  if entry.name = name then
    match best with
    | none => some entry
    | some known => if entry.newerThan known then some entry else best
  else best

theorem findRound_cases (name : Bytes) (best : Option Entry)
    (entry : Entry) :
    (entry.name = name ∧ findRound name best entry = some entry) ∨
      findRound name best entry = best ∧
        (best = none → entry.name ≠ name) := by
  unfold findRound
  split
  · rename_i isName
    cases best with
    | none => exact .inl ⟨isName, rfl⟩
    | some known =>
        dsimp only
        split
        · exact .inl ⟨isName, rfl⟩
        · exact .inr ⟨rfl, by simp⟩
  · rename_i other
    exact .inr ⟨rfl, fun _ => other⟩

theorem find_foldl (name : Bytes) (items : List Entry) :
    (∀ entry, items.foldl (findRound name) none = some entry →
      entry.name = name ∧ entry ∈ items) ∧
      (items.foldl (findRound name) none = none ↔
        name ∉ items.map Entry.name) := by
  -- Entries are looked at from the front, so the list grows at its end.
  induction items using List.reverseRecOn with
  | nil => simp
  | append_singleton items item induction =>
      obtain ⟨found, missing⟩ := induction
      rw [List.foldl_append, List.foldl_cons, List.foldl_nil,
        List.map_append, List.mem_append]
      rcases findRound_cases name (items.foldl (findRound name) none) item
        with ⟨isName, round⟩ | ⟨round, other⟩
      · rw [round]
        constructor
        · intro entry isItem
          cases isItem
          exact ⟨isName, by simp⟩
        · simp [isName]
      · rw [round]
        constructor
        · intro entry isBest
          obtain ⟨isName, member⟩ := found entry isBest
          exact ⟨isName, List.mem_append_left _ member⟩
        · have different := fun none => Ne.symm (other none)
          rw [List.map_singleton, List.mem_singleton, missing]
          rw [missing] at different
          tauto

theorem find_some {index : Index} {name : Bytes} {entry : Entry}
    (found : index.find name = some entry) :
    entry.name = name ∧ entry ∈ index.items :=
  (find_foldl name index.items).1 entry found

theorem find_none {index : Index} {name : Bytes} :
    index.find name = none ↔ name ∉ index.items.map Entry.name :=
  (find_foldl name index.items).2

/-! ## Resolving -/

/-- What `resolve` collects. -/
structure Resolution where
  seen : List Bytes
  order : List Entry
  problems : List Bytes

/-- Whether a name has to be installed. -/
def wanted (db : Db) (targets : List Bytes) (name : Bytes) : Bool :=
  name ∈ targets ∨ ¬ db.isInstalled name

def notFound (name wantedBy : Bytes) : Bytes :=
  if wantedBy = [] then ascii "package not found: " ++ name
  else ascii "dependency " ++ name ++ ascii " of " ++ wantedBy ++
    ascii " is not available in the repository"

/-- `resolve`. -/
def resolve (index : Index) (db : Db) (targets : List Bytes)
    (nodeps : Bool) : Nat → Bytes → Bytes → Resolution → Resolution
  | 0, _, _, state => state
  | fuel + 1, name, wantedBy, state =>
      if name ∈ state.seen then state
      else
        let state := { state with seen := name :: state.seen }
        match index.find name with
        | none => { state with
            problems := state.problems ++ [notFound name wantedBy] }
        | some entry =>
            let deps := if nodeps then [] else entry.deps
            let state := deps.foldl (fun state dep =>
              if wanted db targets dep then
                resolve index db targets nodeps fuel dep name state
              else state) state
            if wanted db targets name then
              { state with order := state.order ++ [entry] }
            else state

/-- The loop of `do_install` over its targets.  An entry is entered once, so
calls nest no deeper than there are entries. -/
def resolveAll (index : Index) (db : Db) (targets : List Bytes)
    (nodeps : Bool) : Resolution :=
  targets.foldl (fun state name =>
    resolve index db targets nodeps (index.items.length + 1) name [] state)
    ⟨[], [], []⟩

section

variable (index : Index) (db : Db) (targets : List Bytes) (nodeps : Bool)

/-- The names that an entry makes `resolve` look at. -/
def wantedDeps (name : Bytes) : List Bytes :=
  match index.find name with
  | none => []
  | some entry =>
      if nodeps then [] else entry.deps.filter (wanted db targets ·)

/-- A resolution is what a visit of the names collects. -/
structure Resolution.Follows (state : Resolution) (trail : Trail Bytes) :
    Prop where
  seen : state.seen = trail.entered
  order : state.order = trail.left.filterMap index.find
  problems : state.problems = [] ↔
    ∀ name ∈ trail.left, index.find name ≠ none

variable {index db targets nodeps}

theorem resolve_follows (fuel : Nat) (name wantedBy : Bytes)
    (isWanted : wanted db targets name = true) {state : Resolution}
    {trail : Trail Bytes} (follows : Resolution.Follows index state trail) :
    Resolution.Follows index
      (resolve index db targets nodeps fuel name wantedBy state)
      (visit (wantedDeps index db targets nodeps) fuel name trail) := by
  induction fuel generalizing name wantedBy state trail with
  | zero => exact follows
  | succ fuel induction =>
      rw [resolve, visit, follows.seen]
      by_cases old : name ∈ trail.entered
      · rw [if_pos old, if_pos old]
        exact follows
      rw [if_neg old, if_neg old]
      have entered : Resolution.Follows index
          { state with seen := name :: trail.entered }
          { trail with entered := name :: trail.entered } :=
        ⟨rfl, follows.order, follows.problems⟩
      cases found : index.find name with
      | none =>
          have noDeps : wantedDeps index db targets nodeps name = [] := by
            rw [wantedDeps, found]
          rw [noDeps]
          refine ⟨rfl, ?_, ?_⟩
          · simp [follows.order, found]
          · simp [found]
      | some entry =>
          have deps : wantedDeps index db targets nodeps name =
              (if nodeps then [] else entry.deps).filter
                (wanted db targets ·) := by
            rw [wantedDeps, found]
            cases nodeps <;> rfl
          have inside : Resolution.Follows index
              ((wantedDeps index db targets nodeps name).foldl
                (fun state dep =>
                  resolve index db targets nodeps fuel dep name state)
                { state with seen := name :: trail.entered })
              (visitAll (wantedDeps index db targets nodeps) fuel
                (wantedDeps index db targets nodeps name)
                { trail with entered := name :: trail.entered }) := by
            apply visitAll_follows _ entered
            intro dep member state trail follows
            rw [deps, List.mem_filter] at member
            exact induction dep name member.2 follows
          rw [deps] at inside ⊢
          rw [List.foldl_filter] at inside
          simp only [isWanted, if_true]
          refine ⟨inside.seen, ?_, ?_⟩
          · simp only [List.filterMap_append, List.filterMap_cons, found,
              List.filterMap_nil]
            rw [inside.order]
            rfl
          · refine inside.problems.trans ?_
            simp only [List.mem_append, List.mem_singleton]
            constructor
            · rintro all other (member | rfl)
              · exact all other member
              · simp [found]
            · exact fun all other member => all other (.inl member)

theorem resolveAll_follows :
    Resolution.Follows index (resolveAll index db targets nodeps)
      (visitAll (wantedDeps index db targets nodeps)
        (index.items.length + 1) targets ⟨[], []⟩) := by
  have start : Resolution.Follows index ⟨[], [], []⟩ ⟨[], []⟩ :=
    ⟨rfl, rfl, by simp⟩
  apply visitAll_follows _ start
  intro name member state trail follows
  exact resolve_follows _ name [] (by simp [wanted, member]) follows

/-- A resolution without problems has every target, each name once, and of
everything it has the dependencies that are not installed. -/
structure Resolved (index : Index) (db : Db) (targets : List Bytes)
    (order : List Entry) : Prop where
  fromIndex : ∀ entry ∈ order, entry ∈ index.items
  distinct : (order.map Entry.name).Nodup
  targets : ∀ name ∈ targets, name ∈ order.map Entry.name
  deps : ∀ entry ∈ order, ∀ dep ∈ entry.deps,
    db.isInstalled dep = true ∨ dep ∈ order.map Entry.name

theorem names_filterMap {names : List Bytes}
    (all : ∀ name ∈ names, index.find name ≠ none) :
    (names.filterMap index.find).map Entry.name = names := by
  induction names with
  | nil => rfl
  | cons name names induction =>
      obtain ⟨entry, found⟩ := Option.ne_none_iff_exists'.mp
        (all name List.mem_cons_self)
      rw [List.filterMap_cons_some found, List.map_cons,
        (find_some found).1, induction fun other member =>
          all other (List.mem_cons_of_mem name member)]

theorem wantedDeps_bounded :
    Bounded (wantedDeps index db targets nodeps)
      (index.items.map Entry.name).toFinset fun _ => True := by
  constructor
  · exact fun _ _ _ _ => trivial
  · intro name _ unknown
    rw [wantedDeps, find_none.mpr (by simpa using unknown)]

theorem index_enough :
    (index.items.map Entry.name).toFinset.card < index.items.length + 1 := by
  have card := (index.items.map Entry.name).toFinset_card_le
  rw [List.length_map] at card
  omega

theorem resolveAll_resolved
    (noProblems : (resolveAll index db targets false).problems = []) :
    Resolved index db targets
      (resolveAll index db targets false).order := by
  have follows : Resolution.Follows index
      (resolveAll index db targets false) _ := resolveAll_follows
  have all := follows.problems.mp noProblems
  obtain ⟨distinct, starts, closed⟩ :=
    visitAll_closed wantedDeps_bounded targets (fun _ _ => trivial)
      index_enough
  have names : (resolveAll index db targets false).order.map Entry.name =
      (visitAll (wantedDeps index db targets false)
        (index.items.length + 1) targets ⟨[], []⟩).left := by
    rw [follows.order, names_filterMap all]
  have found : ∀ entry ∈ (resolveAll index db targets false).order,
      index.find entry.name = some entry := by
    intro entry member
    rw [follows.order, List.mem_filterMap] at member
    obtain ⟨name, -, found⟩ := member
    rw [(find_some found).1, found]
  refine ⟨?_, ?_, ?_, ?_⟩
  · exact fun entry member => (find_some (found entry member)).2
  · rw [names]
    exact distinct
  · rw [names]
    exact starts
  · intro entry member dep isDep
    by_cases installed : db.isInstalled dep = true
    · exact .inl installed
    · right
      rw [names]
      apply closed entry.name
      · rw [← names]
        exact List.mem_map_of_mem member
      · rw [wantedDeps, found entry member]
        simp [isDep, wanted, installed]

end

/-! ## Ordering -/

/-- What `visit` of `order_by_deps` has done. -/
structure Ordering where
  done : List Bytes
  out : List Entry

/-- The map `byname`; a later item replaces an earlier one of its name. -/
def byName (items : List Entry) (name : Bytes) : Option Entry :=
  items.reverse.find? fun entry => entry.name = name

/-- `visit` of `order_by_deps`. -/
def orderVisit (items : List Entry) : Nat → Entry → Ordering → Ordering
  | 0, _, state => state
  | fuel + 1, entry, state =>
      if entry.name ∈ state.done then state
      else
        let state := entry.deps.foldl (fun state dep =>
          match byName items dep with
          | none => state
          | some other => orderVisit items fuel other state)
          { state with done := entry.name :: state.done }
        { state with out := state.out ++ [entry] }

/-- `order_by_deps`. -/
def orderByDeps (items : List Entry) : List Entry :=
  (items.foldl (fun state entry =>
    orderVisit items (items.length + 1) entry state) ⟨[], []⟩).out

section

variable {items : List Entry}

/-- A visit calls itself for the entries that the dependencies name. -/
theorem orderVisit_calls (fuel : Nat) (deps : List Bytes)
    (state : Ordering) :
    deps.foldl (fun state dep =>
      match byName items dep with
      | none => state
      | some other => orderVisit items fuel other state) state =
    (deps.filterMap (byName items)).foldl
      (fun state other => orderVisit items fuel other state) state := by
  rw [List.foldl_filterMap]
  apply List.foldl_ext
  intro state dep _
  cases byName items dep <;> rfl

theorem byName_some {name : Bytes} {entry : Entry}
    (found : byName items name = some entry) :
    entry.name = name ∧ entry ∈ items := by
  constructor
  · simpa using List.find?_some found
  · exact List.mem_reverse.mp (List.mem_of_find?_eq_some found)

theorem byName_self (distinct : (items.map Entry.name).Nodup)
    {entry : Entry} (member : entry ∈ items) :
    byName items entry.name = some entry := by
  cases found : byName items entry.name with
  | none =>
      rw [byName, List.find?_eq_none] at found
      exact absurd member (by simpa using found entry)
  | some other =>
      obtain ⟨sameName, inItems⟩ := byName_some found
      rw [List.inj_on_of_nodup_map distinct inItems member sameName]

/-- The names of the items that an item depends on. -/
def ownDeps (items : List Entry) (name : Bytes) : List Bytes :=
  match byName items name with
  | none => []
  | some entry => entry.deps.filter fun dep => (byName items dep).isSome

structure Ordering.Follows (items : List Entry) (state : Ordering)
    (trail : Trail Bytes) : Prop where
  done : state.done = trail.entered
  out : state.out = trail.left.filterMap (byName items)

/-- A call of `orderVisit`, by name. -/
def orderCall (items : List Entry) (fuel : Nat) (name : Bytes)
    (state : Ordering) : Ordering :=
  match byName items name with
  | none => state
  | some entry => orderVisit items fuel entry state

theorem orderVisit_follows (fuel : Nat) {entry : Entry}
    (own : byName items entry.name = some entry) {state : Ordering}
    {trail : Trail Bytes} (follows : Ordering.Follows items state trail) :
    Ordering.Follows items (orderVisit items fuel entry state)
      (visit (ownDeps items) fuel entry.name trail) := by
  induction fuel generalizing entry state trail with
  | zero => exact follows
  | succ fuel induction =>
      rw [orderVisit, visit, follows.done]
      by_cases old : entry.name ∈ trail.entered
      · rw [if_pos old, if_pos old]
        exact follows
      rw [if_neg old, if_neg old]
      have entered : Ordering.Follows items
          { state with done := entry.name :: trail.entered }
          { trail with entered := entry.name :: trail.entered } :=
        ⟨rfl, follows.out⟩
      have inside : Ordering.Follows items
          ((ownDeps items entry.name).foldl
            (fun state dep => orderCall items fuel dep state)
            { state with done := entry.name :: trail.entered })
          (visitAll (ownDeps items) fuel (ownDeps items entry.name)
            { trail with entered := entry.name :: trail.entered }) := by
        apply visitAll_follows _ entered
        intro dep member state trail follows
        rw [ownDeps, own, List.mem_filter] at member
        obtain ⟨other, found⟩ := Option.isSome_iff_exists.mp member.2
        have isName := (byName_some found).1
        rw [orderCall, found]
        subst isName
        exact induction found follows
      have calls : ∀ state, (ownDeps items entry.name).foldl
          (fun state dep => orderCall items fuel dep state) state =
          entry.deps.foldl (fun state dep =>
            match byName items dep with
            | none => state
            | some other => orderVisit items fuel other state) state := by
        intro state
        rw [ownDeps, own, List.foldl_filter]
        congr 1
        funext state dep
        rw [orderCall]
        cases byName items dep <;> rfl
      rw [calls] at inside
      refine ⟨inside.done, ?_⟩
      dsimp only
      rw [List.filterMap_append, inside.out]
      simp [own, visitAll]

theorem orderByDeps_follows (distinct : (items.map Entry.name).Nodup) :
    orderByDeps items = (visitAll (ownDeps items) (items.length + 1)
      (items.map Entry.name) ⟨[], []⟩).left.filterMap (byName items) := by
  have follows : Ordering.Follows items
      ((items.map Entry.name).foldl (fun state name =>
        orderCall items (items.length + 1) name state) ⟨[], []⟩)
      (visitAll (ownDeps items) (items.length + 1)
        (items.map Entry.name) ⟨[], []⟩) := by
    have start : Ordering.Follows items ⟨[], []⟩ ⟨[], []⟩ := ⟨rfl, rfl⟩
    apply visitAll_follows _ start
    intro name member state trail follows
    obtain ⟨entry, inItems, rfl⟩ := List.mem_map.mp member
    have own := byName_self distinct inItems
    rw [orderCall, own]
    exact orderVisit_follows _ own follows
  rw [← follows.out, orderByDeps, List.foldl_map]
  congr 1
  apply List.foldl_ext
  intro state entry member
  rw [orderCall, byName_self distinct member]

theorem ownDeps_mem {name dep : Bytes} (isDep : dep ∈ ownDeps items name) :
    dep ∈ items.map Entry.name := by
  unfold ownDeps at isDep
  split at isDep
  · cases isDep
  · obtain ⟨other, found⟩ := Option.isSome_iff_exists.mp
      (List.mem_filter.mp isDep).2
    obtain ⟨rfl, member⟩ := byName_some found
    exact List.mem_map_of_mem member

/-- Ordering keeps the items, if their names are distinct. -/
theorem orderByDeps_perm (distinct : (items.map Entry.name).Nodup) :
    (orderByDeps items).Perm items := by
  have stays : ∀ name ∈ items.map Entry.name,
      ∀ dep ∈ ownDeps items name, dep ∈ items.map Entry.name :=
    fun _ _ _ => ownDeps_mem
  have names := visitAll_perm distinct stays
    (Nat.lt_succ_of_le (List.length_map Entry.name).le)
  have self : (items.map Entry.name).filterMap (byName items) = items := by
    rw [List.filterMap_map]
    calc items.filterMap (byName items ∘ Entry.name)
        = items.filterMap some := List.filterMap_congr fun entry member =>
          byName_self distinct member
      _ = items := List.filterMap_some
  rw [orderByDeps_follows distinct]
  exact (names.filterMap (byName items)).trans (.of_eq self)

end

end SaltOS.Install
