import SaltOS.Config.Native
import SaltOS.Lock.LockApply

/-!
# The native set is exact

After the native part of `config apply` has succeeded, the installed packages
are the closures of the declared roots that resolve, each in the version that
the pins and the index give.  The order in which the roots are declared does
not matter, and a second run finds nothing to do.
-/

namespace SaltOS.Config

open Lib Repo Install Txn Lock

/-! ## Pinned entries -/

theorem pinRound_foldl (name version : Bytes) (release : Int)
    (items : List Entry) {best found : Option Entry}
    (isFound : items.foldl (pinRound name version release) best = found) :
    found = best ∨ ∃ entry ∈ items, found = some entry ∧
      entry.name = name := by
  induction items generalizing best with
  | nil => exact .inl isFound.symm
  | cons item items induction =>
      have round : pinRound name version release best item = best ∨
          pinRound name version release best item = some item ∧
            item.name = name := by
        unfold pinRound
        split
        · exact .inl rfl
        rename_i different
        have isName : item.name = name := by
          by_contra other
          exact different (.inl other)
        split
        · exact .inl rfl
        cases best with
        | none => exact .inr ⟨rfl, isName⟩
        | some known =>
            dsimp only
            split
            · exact .inr ⟨rfl, isName⟩
            · exact .inl rfl
      rcases induction isFound with same | ⟨entry, member, isEntry, isName⟩
      · rcases round with kept | ⟨taken, isName⟩
        · exact .inl (same.trans kept)
        · exact .inr ⟨item, List.mem_cons_self, same.trans taken, isName⟩
      · exact .inr ⟨entry, List.mem_cons_of_mem item member, isEntry,
          isName⟩

theorem findPinned_ok {index : Index} {pins : List (Bytes × Bytes)}
    {name : Bytes} {entry : Entry}
    (found : findPinned index pins name = .ok entry) :
    entry.name = name ∧ entry ∈ index.items := by
  unfold findPinned at found
  cases isPin : pins.lookup name with
  | none =>
      simp only [isPin] at found
      cases isFound : index.find name with
      | none =>
          rw [isFound] at found
          cases found
      | some newest =>
          rw [isFound] at found
          cases found
          exact find_some isFound
  | some pin =>
      simp only [isPin] at found
      split at found
      · cases found
      · rename_i best isBest
        cases found
        rcases pinRound_foldl name _ _ index.items isBest with
          none | ⟨other, member, isOther, isName⟩
        · cases none
        · cases isOther
          exact ⟨isName, member⟩

section

variable {index : Index} {pins : List (Bytes × Bytes)}

/-! ## Closures -/

/-- One package depends on another one, with the pins. -/
def DependsOn (index : Index) (pins : List (Bytes × Bytes))
    (name dep : Bytes) : Prop :=
  ∃ entry, findPinned index pins name = .ok entry ∧ dep ∈ entry.deps

/-- The dependency closure of a root. -/
def InClosure (index : Index) (pins : List (Bytes × Bytes))
    (root name : Bytes) : Prop :=
  Relation.ReflTransGen (DependsOn index pins) root name

/-- Everything that a root leads to is offered. -/
def Resolves (index : Index) (pins : List (Bytes × Bytes))
    (root : Bytes) : Prop :=
  ∀ name, InClosure index pins root name →
    ∃ entry, findPinned index pins name = .ok entry

/-- The names that an entry makes `resolve_cfg` look at. -/
def pinnedDeps (index : Index) (pins : List (Bytes × Bytes))
    (name : Bytes) : List Bytes :=
  match findPinned index pins name with
  | .error _ => []
  | .ok entry => entry.deps

theorem mem_pinnedDeps {name dep : Bytes} :
    dep ∈ pinnedDeps index pins name ↔ DependsOn index pins name dep := by
  unfold pinnedDeps DependsOn
  cases findPinned index pins name <;> simp

/-- Entries of the index, no name twice, that the pins choose. -/
structure Chosen (index : Index) (pins : List (Bytes × Bytes))
    (entries : List Entry) : Prop where
  pinned : ∀ entry ∈ entries, findPinned index pins entry.name = .ok entry
  distinct : (entries.map Entry.name).Nodup

theorem Chosen.nil : Chosen index pins [] :=
  ⟨by simp, List.nodup_nil⟩

/-- What was collected is what a visit of the names has entered. -/
structure Closure.Follows (index : Index) (pins : List (Bytes × Bytes))
    (state : Closure) (trail : Trail Bytes) : Prop where
  chosen : Chosen index pins state.desired
  names : ∀ name, name ∈ state.desired.map Entry.name ↔
    name ∈ trail.entered ∧ ∃ entry, findPinned index pins name = .ok entry
  problems : state.problems = [] ↔ ∀ name ∈ trail.entered,
    ∃ entry, findPinned index pins name = .ok entry

section

variable {state : Closure} {trail : Trail Bytes} {name why : Bytes}

theorem Closure.Follows.missing
    (follows : Closure.Follows index pins state trail)
    (notFound : findPinned index pins name = .error why) (text : Bytes)
    (left : List Bytes) :
    Closure.Follows index pins
      { state with problems := state.problems ++ [text] }
      { entered := name :: trail.entered, left := left } := by
  have noEntry : ¬ ∃ entry, findPinned index pins name = .ok entry := by
    simp [notFound]
  refine ⟨follows.chosen, ?_, by simp [noEntry]⟩
  intro other
  refine (follows.names other).trans ?_
  constructor
  · exact fun ⟨entered, isFound⟩ =>
      ⟨List.mem_cons_of_mem name entered, isFound⟩
  · rintro ⟨entered, isFound⟩
    rcases List.mem_cons.mp entered with rfl | entered
    · exact absurd isFound noEntry
    · exact ⟨entered, isFound⟩

/-- A name that is not offered is a problem each time it is met. -/
theorem Closure.Follows.missingAgain
    (follows : Closure.Follows index pins state trail)
    (notFound : findPinned index pins name = .error why) (text : Bytes)
    (old : name ∈ trail.entered) :
    Closure.Follows index pins
      { state with problems := state.problems ++ [text] } trail := by
  refine ⟨follows.chosen, follows.names, ?_⟩
  have noEntry : ¬ ∃ entry, findPinned index pins name = .ok entry := by
    simp [notFound]
  constructor
  · simp
  · exact fun all => absurd (all name old) noEntry

end

theorem Closure.Follows.enter {state : Closure} {trail : Trail Bytes}
    (follows : Closure.Follows index pins state trail) {entry : Entry}
    (found : findPinned index pins entry.name = .ok entry)
    (fresh : entry.name ∉ trail.entered) :
    Closure.Follows index pins
      { state with desired := state.desired ++ [entry] }
      { trail with entered := entry.name :: trail.entered } := by
  have new : entry.name ∉ state.desired.map Entry.name :=
    fun member => fresh ((follows.names entry.name).mp member).1
  refine ⟨⟨?_, ?_⟩, ?_, ?_⟩
  · intro other member
    rcases List.mem_append.mp member with old | isEntry
    · exact follows.chosen.pinned other old
    · rw [List.mem_singleton.mp isEntry]
      exact found
  · rw [List.map_append, List.map_singleton]
    refine List.nodup_append.mpr ⟨follows.chosen.distinct, by simp, ?_⟩
    rintro name old _ isName rfl
    rw [List.mem_singleton.mp isName] at old
    exact new old
  · intro name
    rw [List.map_append, List.map_singleton, List.mem_append,
      List.mem_singleton, follows.names, List.mem_cons]
    constructor
    · rintro (⟨entered, isFound⟩ | rfl)
      · exact ⟨.inr entered, isFound⟩
      · exact ⟨.inl rfl, entry, found⟩
    · rintro ⟨rfl | entered, isFound⟩
      · exact .inr rfl
      · exact .inl ⟨entered, isFound⟩
  · refine follows.problems.trans ?_
    simp [found]

theorem resolveCfg_follows (fuel : Nat) (name wantedBy : Bytes)
    {state : Closure} {trail : Trail Bytes}
    (follows : Closure.Follows index pins state trail) :
    Closure.Follows index pins
      (resolveCfg index pins fuel name wantedBy state)
      (visit (pinnedDeps index pins) fuel name trail) := by
  induction fuel generalizing name wantedBy state trail with
  | zero => exact follows
  | succ fuel induction =>
      rw [resolveCfg, visit]
      by_cases known : name ∈ state.desired.map Entry.name
      · have old := ((follows.names name).mp known).1
        rw [if_pos known, if_pos old]
        exact follows
      rw [if_neg known]
      cases found : findPinned index pins name with
      | error why =>
          have noDeps : pinnedDeps index pins name = [] := by
            rw [pinnedDeps, found]
          rw [noDeps]
          by_cases old : name ∈ trail.entered
          · rw [if_pos old]
            exact follows.missingAgain found _ old
          · rw [if_neg old]
            exact follows.missing found _ _
      | ok entry =>
          obtain ⟨rfl, -⟩ := findPinned_ok found
          have fresh : entry.name ∉ trail.entered := by
            intro old
            exact known ((follows.names entry.name).mpr ⟨old, entry, found⟩)
          rw [if_neg fresh]
          have deps : pinnedDeps index pins entry.name = entry.deps := by
            rw [pinnedDeps, found]
          have each : ∀ dep ∈ entry.deps, ∀ state trail,
              Closure.Follows index pins state trail →
              Closure.Follows index pins
                (resolveCfg index pins fuel dep entry.name state)
                (visit (pinnedDeps index pins) fuel dep trail) :=
            fun dep _ _ _ follows => induction dep entry.name follows
          have inside := visitAll_follows each (follows.enter found fresh)
          rw [deps]
          exact ⟨inside.chosen, inside.names, inside.problems⟩

/-- `resolve_cfg` collects the closure of a root, or has problems. -/
theorem closureOf_spec (index : Index) (pins : List (Bytes × Bytes))
    (root : Bytes) :
    Chosen index pins (closureOf index pins root).desired ∧
      ((closureOf index pins root).problems = [] ↔
        Resolves index pins root) ∧
      ∀ name, name ∈ (closureOf index pins root).desired.map Entry.name ↔
        InClosure index pins root name ∧
          ∃ entry, findPinned index pins name = .ok entry := by
  have start : Closure.Follows index pins ⟨[], []⟩ ⟨[], []⟩ :=
    ⟨.nil, by simp, by simp⟩
  have follows : Closure.Follows index pins (closureOf index pins root) _ :=
    resolveCfg_follows (index.items.length + 1) root [] start
  have bounded : Bounded (pinnedDeps index pins)
      (index.items.map Entry.name).toFinset fun _ => True := by
    refine ⟨fun _ _ _ _ => trivial, fun name _ unknown => ?_⟩
    unfold pinnedDeps
    cases found : findPinned index pins name with
    | error => rfl
    | ok entry =>
        obtain ⟨rfl, member⟩ := findPinned_ok found
        exact absurd (List.mem_toFinset.mpr (List.mem_map_of_mem member))
          unknown
  have enough : (index.items.map Entry.name).toFinset.card <
      index.items.length + 1 := by
    have card := (index.items.map Entry.name).toFinset_card_le
    rw [List.length_map] at card
    omega
  have edges : (fun one other => other ∈ pinnedDeps index pins one) =
      DependsOn index pins := by
    funext one other
    exact propext mem_pinnedDeps
  have entered : ∀ name, name ∈ (visit (pinnedDeps index pins)
      (index.items.length + 1) root ⟨[], []⟩).entered ↔
        InClosure index pins root name := by
    intro name
    rw [visit_entered_iff bounded trivial enough, edges, InClosure]
  refine ⟨follows.chosen, ?_, ?_⟩
  · rw [follows.problems]
    exact forall_congr' fun name => imp_congr (entered name) Iff.rfl
  · intro name
    rw [follows.names name, entered name]

/-! ## The declared set -/

/-- A package that `[native]` asks for. -/
def Declared (index : Index) (pins : List (Bytes × Bytes))
    (packages : List Bytes) (name : Bytes) : Prop :=
  ∃ root ∈ packages, Resolves index pins root ∧
    InClosure index pins root name

theorem mem_insertAll {desired sub : List Entry} {name : Bytes} :
    name ∈ (insertAll desired sub).map Entry.name ↔
      name ∈ desired.map Entry.name ∨ name ∈ sub.map Entry.name := by
  constructor
  · intro member
    rw [insertAll, List.map_append, List.mem_append] at member
    refine member.imp_right fun inside => ?_
    exact (List.filter_sublist.map Entry.name).subset inside
  · intro member
    rw [insertAll, List.map_append, List.mem_append]
    by_cases old : name ∈ desired.map Entry.name
    · exact .inl old
    · obtain ⟨entry, inSub, rfl⟩ := List.mem_map.mp
        (member.resolve_left old)
      exact .inr (List.mem_map_of_mem
        (List.mem_filter.mpr ⟨inSub, by simpa using old⟩))

theorem Chosen.insertAll {desired sub : List Entry}
    (first : Chosen index pins desired) (second : Chosen index pins sub) :
    Chosen index pins (insertAll desired sub) := by
  constructor
  · intro entry member
    rcases List.mem_append.mp member with old | new
    · exact first.pinned entry old
    · exact second.pinned entry (List.mem_filter.mp new).1
  · rw [Config.insertAll, List.map_append]
    refine List.nodup_append.mpr ⟨first.distinct,
      second.distinct.sublist (List.filter_sublist.map _), ?_⟩
    rintro name old other isNew rfl
    obtain ⟨entry, member, rfl⟩ := List.mem_map.mp isNew
    have fresh := (List.mem_filter.mp member).2
    simp only [decide_eq_true_eq] at fresh
    exact fresh old

/-- What the loop over the roots has gathered. -/
structure Gathers (index : Index) (config : SystemConfig)
    (packages : List Bytes) (state : Gathered) : Prop where
  chosen : Chosen index config.pins state.desired
  names : ∀ name, name ∈ state.desired.map Entry.name ↔
    Declared index config.pins packages name
  ok : state.ok = true ↔ config.onMissing = .skip ∨
    ∀ root ∈ packages, Resolves index config.pins root

theorem gatherRound_gathers {config : SystemConfig} {packages : List Bytes}
    {state : Gathered} (gathers : Gathers index config packages state)
    (root : Bytes) :
    Gathers index config (packages ++ [root])
      (gatherRound index config state root) := by
  obtain ⟨chosen, resolves, names⟩ :=
    closureOf_spec index config.pins root
  have declared : ∀ name,
      Declared index config.pins (packages ++ [root]) name ↔
        Declared index config.pins packages name ∨
          Resolves index config.pins root ∧
            InClosure index config.pins root name := by
    intro name
    simp [Declared, or_and_right, exists_or]
  unfold gatherRound
  by_cases isOk : Resolves index config.pins root
  · rw [if_pos (resolves.mpr isOk)]
    refine ⟨gathers.chosen.insertAll chosen, ?_, ?_⟩
    · intro name
      rw [declared, mem_insertAll, gathers.names, names]
      exact or_congr_right ⟨fun both => ⟨isOk, both.1⟩,
        fun both => ⟨both.2, isOk name both.2⟩⟩
    · rw [gathers.ok]
      simp [isOk, or_imp, forall_and]
  · rw [if_neg fun none => isOk (resolves.mp none)]
    have same : ∀ name, name ∈ state.desired.map Entry.name ↔
        Declared index config.pins (packages ++ [root]) name := by
      intro name
      rw [declared, gathers.names]
      simp [isOk]
    split
    · rename_i skips
      exact ⟨gathers.chosen, same, by simp [gathers.ok, skips]⟩
    · rename_i fails
      refine ⟨gathers.chosen, same, ?_⟩
      simp [fails, or_imp, forall_and, isOk]

theorem gather_gathers (index : Index) (config : SystemConfig) :
    Gathers index config config.packages (gather index config) := by
  have rounds : ∀ packages : List Bytes, Gathers index config packages
      (packages.foldl (gatherRound index config) ⟨[], true⟩) := by
    intro packages
    -- Roots are taken from the front, so the list grows at its end.
    induction packages using List.reverseRecOn with
    | nil => exact ⟨.nil, by simp [Declared], by simp⟩
    | append_singleton packages root induction =>
        rw [List.foldl_append]
        exact gatherRound_gathers induction root
  exact rounds config.packages

/-! ## Resolving the section -/

theorem Chosen.mem_iff {entries : List Entry}
    (chosen : Chosen index pins entries) {entry : Entry} :
    entry ∈ entries ↔ entry.name ∈ entries.map Entry.name ∧
      findPinned index pins entry.name = .ok entry := by
  constructor
  · exact fun member =>
      ⟨List.mem_map_of_mem member, chosen.pinned entry member⟩
  · rintro ⟨isName, found⟩
    obtain ⟨other, member, sameName⟩ := List.mem_map.mp isName
    have isOther := chosen.pinned other member
    rw [sameName, found] at isOther
    cases isOther
    exact member

/-- A chosen list, put into the order of its names, is known by its names. -/
theorem Chosen.byNameOrder_eq {first second : List Entry}
    (one : Chosen index pins first) (other : Chosen index pins second)
    (names : ∀ name, name ∈ first.map Entry.name ↔
      name ∈ second.map Entry.name) :
    byNameOrder first = byNameOrder second := by
  have perm : first.Perm second :=
    (List.perm_ext_iff_of_nodup one.distinct.of_map
      other.distinct.of_map).mpr fun entry => by
        rw [one.mem_iff, other.mem_iff, names]
  have sorted : ∀ entries : List Entry, (byNameOrder entries).Pairwise
      fun one other => one.name ≤ other.name := fun entries =>
    List.pairwise_insertionSort _ entries
  have both : (byNameOrder first).Perm (byNameOrder second) :=
    (List.perm_insertionSort _ first).trans
      (perm.trans (List.perm_insertionSort _ second).symm)
  apply both.eq_of_pairwise _ (sorted first) (sorted second)
  intro entry another inFirst inSecond le ge
  exact List.inj_on_of_nodup_map one.distinct
    ((List.perm_insertionSort _ first).mem_iff.mp inFirst)
    (perm.mem_iff.mpr
      ((List.perm_insertionSort _ second).mem_iff.mp inSecond))
    (List.le_antisymm le ge)

/-- The set that a section resolves to. -/
structure ResolvesTo (index : Index) (config : SystemConfig)
    (desired : List Entry) : Prop where
  chosen : Chosen index config.pins desired
  names : ∀ name, name ∈ desired.map Entry.name ↔
    Declared index config.pins config.packages name

theorem resolveNative_some {config : SystemConfig} {desired : List Entry}
    (resolved : resolveNative index config = some desired) :
    ResolvesTo index config desired := by
  have gathers := gather_gathers index config
  simp only [resolveNative] at resolved
  split at resolved
  · cases resolved
    have perm := List.perm_insertionSort
      (fun first second : Entry => first.name ≤ second.name)
      (gather index config).desired
    constructor
    · constructor
      · exact fun entry member =>
          gathers.chosen.pinned entry (perm.mem_iff.mp member)
      · exact (perm.map Entry.name).nodup_iff.mpr gathers.chosen.distinct
    · exact fun name => (perm.map Entry.name).mem_iff.trans
        (gathers.names name)
  · cases resolved

/-- The order of `native.packages` does not matter. -/
theorem resolveNative_perm (config : SystemConfig) {packages : List Bytes}
    (perm : packages.Perm config.packages) :
    resolveNative index { config with packages := packages } =
      resolveNative index config := by
  have one := gather_gathers index { config with packages := packages }
  have other := gather_gathers index config
  have names : ∀ name,
      name ∈ (gather index { config with packages := packages }).desired.map
        Entry.name ↔ name ∈ (gather index config).desired.map Entry.name := by
    intro name
    rw [one.names, other.names]
    exact exists_congr fun root => and_congr_left' perm.mem_iff
  have ok : (gather index { config with packages := packages }).ok = true ↔
      (gather index config).ok = true := by
    rw [one.ok, other.ok]
    exact or_congr_right (forall_congr' fun root =>
      imp_congr_left perm.mem_iff)
  have used :
      pinsUsed { config with packages := packages }
          (gather index { config with packages := packages }).desired =
        pinsUsed config (gather index config).desired := by
    simp only [pinsUsed, names]
  simp only [resolveNative, ok, used,
    Chosen.byNameOrder_eq one.chosen other.chosen names]

/-! ## The plan -/

/-- The installed set is the declared one. -/
structure Realised (index : Index) (config : SystemConfig) (db : Db) :
    Prop where
  installed : ∀ name, Installed db.tables name ↔
    Declared index config.pins config.packages name
  version : ∀ name, Installed db.tables name → ∃ row entry,
    db.getPkg name = some row ∧
      findPinned index config.pins name = .ok entry ∧
      row.version = entry.version ∧ row.release = entry.release

theorem same_iff {db : Db} {entry : Entry} :
    same db entry = true ↔ ∃ row, db.getPkg entry.name = some row ∧
      row.version = entry.version ∧ row.release = entry.release := by
  unfold same
  cases db.getPkg entry.name <;> simp

theorem installed_of_getPkg {db : Db} {name : Bytes} {row : PackageRow}
    (isRow : db.getPkg name = some row) : Installed db.tables name := by
  have rowName : row.name = name := by
    simpa using List.find?_some isRow
  exact rowName ▸ List.mem_map_of_mem (List.mem_of_find?_eq_some isRow)

theorem mem_listInstalled {db : Db} {name : Bytes} :
    name ∈ db.listInstalled.map PackageRow.name ↔
      Installed db.tables name :=
  ((List.perm_insertionSort _ db.tables.packages).map
    PackageRow.name).mem_iff

section

variable {config : SystemConfig} {desired : List Entry} {db : Db}

theorem nativePlan_install (resolves : ResolvesTo index config desired) :
    (nativePlan db desired).install.Perm
      (desired.filter fun entry => ¬ same db entry) := by
  apply orderByDeps_perm
  exact resolves.chosen.distinct.sublist (List.filter_sublist.map Entry.name)

theorem nativePlan_distinct (resolves : ResolvesTo index config desired) :
    (nativePlan db desired).names.Nodup :=
  ((nativePlan_install resolves).map Entry.name).nodup_iff.mpr
    (resolves.chosen.distinct.sublist (List.filter_sublist.map Entry.name))

theorem mem_nativePlan_install (resolves : ResolvesTo index config desired)
    {entry : Entry} : entry ∈ (nativePlan db desired).install ↔
      entry ∈ desired ∧ same db entry ≠ true := by
  rw [(nativePlan_install resolves).mem_iff, List.mem_filter]
  simp

theorem mem_nativePlan_remove {name : Bytes} :
    name ∈ (nativePlan db desired).remove ↔
      Installed db.tables name ∧ name ∉ desired.map Entry.name := by
  rw [nativePlan, List.mem_filter, mem_listInstalled, decide_eq_true_iff]

theorem mem_nativePlan_names (resolves : ResolvesTo index config desired)
    {entry : Entry} (member : entry ∈ desired) :
    entry.name ∈ (nativePlan db desired).names ↔ same db entry ≠ true := by
  constructor
  · intro planned
    obtain ⟨other, inPlan, sameName⟩ := List.mem_map.mp planned
    obtain ⟨inDesired, differs⟩ := (mem_nativePlan_install resolves).mp inPlan
    obtain rfl : other = entry := List.inj_on_of_nodup_map
      resolves.chosen.distinct inDesired member sameName
    exact differs
  · intro differs
    exact List.mem_map_of_mem
      ((mem_nativePlan_install resolves).mpr ⟨member, differs⟩)

/-- Nothing is planned exactly where the set is realised. -/
theorem nativePlan_empty_iff (resolves : ResolvesTo index config desired) :
    (nativePlan db desired).install = [] ∧
        (nativePlan db desired).remove = [] ↔
      Realised index config db := by
  rw [List.eq_nil_iff_forall_not_mem, List.eq_nil_iff_forall_not_mem]
  constructor
  · rintro ⟨noInstall, noRemove⟩
    have allSame : ∀ entry ∈ desired, same db entry = true := by
      intro entry member
      by_contra differs
      exact noInstall entry
        ((mem_nativePlan_install resolves).mpr ⟨member, differs⟩)
    have isDesired : ∀ name, Installed db.tables name →
        name ∈ desired.map Entry.name := by
      intro name installed
      by_contra extra
      exact noRemove name (mem_nativePlan_remove.mpr ⟨installed, extra⟩)
    constructor
    · intro name
      rw [← resolves.names]
      refine ⟨isDesired name, ?_⟩
      intro member
      obtain ⟨entry, inDesired, rfl⟩ := List.mem_map.mp member
      obtain ⟨row, isRow, -⟩ := same_iff.mp (allSame entry inDesired)
      exact installed_of_getPkg isRow
    · intro name installed
      obtain ⟨entry, inDesired, rfl⟩ := List.mem_map.mp
        (isDesired name installed)
      obtain ⟨row, isRow, sameVersion⟩ :=
        same_iff.mp (allSame entry inDesired)
      exact ⟨row, entry, isRow, resolves.chosen.pinned entry inDesired,
        sameVersion⟩
  · intro realised
    constructor
    · intro entry inPlan
      obtain ⟨member, differs⟩ := (mem_nativePlan_install resolves).mp inPlan
      have declared := (resolves.names entry.name).mp
        (List.mem_map_of_mem member)
      obtain ⟨row, other, isRow, found, sameVersion⟩ :=
        realised.version entry.name ((realised.installed _).mpr declared)
      rw [resolves.chosen.pinned entry member] at found
      cases found
      exact differs (same_iff.mpr ⟨row, isRow, sameVersion⟩)
    · intro name inPlan
      obtain ⟨installed, extra⟩ := mem_nativePlan_remove.mp inPlan
      exact extra ((resolves.names name).mpr
        ((realised.installed name).mp installed))

/-- The plan of a section realises it. -/
theorem realised_of_applied {session : Session} {flags : TxnFlags}
    {after : Db} (resolves : ResolvesTo index config desired)
    (agree : ∀ entry ∈ index.items, VersionAgrees session entry)
    (applied : Applied session flags (nativePlan db desired) db.tables
      after.tables) : Realised index config after := by
  have distinct : (nativePlan db desired).names.Nodup :=
    nativePlan_distinct resolves
  have kept : ∀ entry ∈ desired,
      entry.name ∉ (nativePlan db desired).remove := by
    intro entry member removed
    exact (mem_nativePlan_remove.mp removed).2 (List.mem_map_of_mem member)
  have present : ∀ entry ∈ desired, ∃ row,
      after.getPkg entry.name = some row ∧
        row.version = entry.version ∧ row.release = entry.release := by
    intro entry member
    by_cases isSame : same db entry = true
    · rw [applied.getPkg_untouched (kept entry member) fun planned =>
        (mem_nativePlan_names resolves member).mp planned isSame]
      exact same_iff.mp isSame
    · obtain ⟨archive, id, brought, isRow⟩ := applied.getPkg_planned distinct
        ((mem_nativePlan_install resolves).mpr ⟨member, isSame⟩)
      have inIndex :=
        (findPinned_ok (resolves.chosen.pinned entry member)).2
      exact ⟨_, isRow, agree entry inIndex archive brought.opened⟩
  have isDesired : ∀ name, Installed after.tables name →
      name ∈ desired.map Entry.name := by
    intro name installed
    rcases (applied.installed_iff distinct).mp installed with
      planned | ⟨before, notRemoved⟩
    · obtain ⟨entry, inPlan, rfl⟩ := List.mem_map.mp planned
      exact List.mem_map_of_mem
        ((mem_nativePlan_install resolves).mp inPlan).1
    · by_contra extra
      exact notRemoved (mem_nativePlan_remove.mpr ⟨before, extra⟩)
  constructor
  · intro name
    rw [← resolves.names]
    refine ⟨isDesired name, ?_⟩
    intro member
    obtain ⟨entry, inDesired, rfl⟩ := List.mem_map.mp member
    obtain ⟨row, isRow, -⟩ := present entry inDesired
    exact installed_of_getPkg isRow
  · intro name installed
    obtain ⟨entry, inDesired, rfl⟩ := List.mem_map.mp
      (isDesired name installed)
    obtain ⟨row, isRow, sameVersion⟩ := present entry inDesired
    exact ⟨row, entry, isRow, resolves.chosen.pinned entry inDesired,
      sameVersion⟩

end

end

/-! ## Applying -/

theorem withRepo_artifact (config : SystemConfig) (session : Session) :
    (withRepo config session).artifact = session.artifact := by
  unfold withRepo
  split <;> rfl

/-- Where the set is realised, applying it reports so and changes nothing. -/
theorem applyNative_realised {machine : Machine} {config : SystemConfig}
    (flags : TxnFlags) {index : Index} {desired : List Entry}
    {world : World} (isIndex : machine.index = some index)
    (opens : machine.opens = true)
    (resolved : resolveNative index config = some desired)
    (realised : Realised index config world.db) :
    applyNative machine config flags world =
      .ok (.matched (desired.countP (same world.db))) world := by
  have empty := (nativePlan_empty_iff (resolveNative_some resolved)).mpr
    realised
  simp only [applyNative, isIndex, opens, resolved, not_true_eq_false,
    if_false]
  change (ite _ _ _ : Io NativeEnd) world = _
  rw [if_pos empty]
  rfl

/-- `app` is asked for, in the version that is not installed yet. -/
def swapConfig : SystemConfig :=
  { SystemConfig.empty with
    haveNative := true
    packages := [ascii "app"]
    pins := [(ascii "app", ascii "2-1")] }

def swapMachine : Machine where
  session := smallSession
  index := some swapIndex
  opens := true
  lock := fun _ => .error []

def endCode (result : EStateM.Result Failure World NativeEnd) : Option Nat :=
  match result with
  | .ok value _ => some value.code
  | .error _ _ => none

theorem swapConfig_done :
    endCode (applyNative swapMachine swapConfig plainFlags smallWorld) =
      some 0 := by
  decide +kernel

end SaltOS.Config
