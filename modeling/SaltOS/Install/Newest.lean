import SaltOS.Install.Commands
import SaltOS.Repo.VercmpOrder

/-!
# The newest entry of a name

`salt_repo_index_find` keeps the entry with the highest version and release,
and an update plans installed packages at what is above them only.
-/

namespace SaltOS.Install

open Lib Repo

/-- One version and release is above another. -/
def Above (version : Bytes) (release : Int) (version' : Bytes)
    (release' : Int) : Prop :=
  0 < vercmp version version' ∨
    vercmp version version' = 0 ∧ release' < release

/-- Where a version and a release stand. -/
def releaseKey (version : Bytes) (release : Int) :
    List (ℕ ×ₗ List ℕ) ×ₗ Int :=
  toLex (versionKey version, release)

theorem above_iff (version version' : Bytes) (release release' : Int) :
    Above version release version' release' ↔
      releaseKey version' release' < releaseKey version release := by
  rw [Above, releaseKey, releaseKey, Prod.Lex.toLex_lt_toLex,
    vercmp_comparesBy.above, vercmp_comparesBy.eq_zero_iff,
    @eq_comm _ (versionKey version)]

theorem newerThan_iff (entry best : Entry) :
    entry.newerThan best = true ↔
      releaseKey best.version best.release <
        releaseKey entry.version entry.release := by
  rw [← above_iff]
  simp [Entry.newerThan, Above]

/-! ## Lookups -/

/-- An entry of a name that no other entry of the name is above. -/
structure Newest (index : Index) (name : Bytes) (entry : Entry) : Prop where
  member : entry ∈ index.items
  isName : entry.name = name
  highest : ∀ other ∈ index.items, other.name = name →
    ¬ Above other.version other.release entry.version entry.release

/-- A lookup keeps the newest of the entries that have the name. -/
theorem find_eq_keepNewer (index : Index) (name : Bytes) :
    index.find name =
      (index.items.filter (·.name = name)).foldl
        (keepNewer Entry.newerThan) none := by
  rw [List.foldl_filter, Index.find]
  congr 1
  funext best entry
  by_cases isName : entry.name = name
  · rw [if_pos isName, if_pos (by simpa using isName)]
    cases best <;> rfl
  · rw [if_neg isName, if_neg (by simpa using isName)]

theorem find_newest {index : Index} {name : Bytes} {entry : Entry}
    (found : index.find name = some entry) : Newest index name entry := by
  rw [find_eq_keepNewer] at found
  obtain ⟨member, highest⟩ :=
    (foldl_keepNewer newerThan_iff _).2 entry found
  obtain ⟨inIndex, isName⟩ := List.mem_filter.mp member
  constructor
  · exact inIndex
  · simpa using isName
  · intro other isOther otherName
    rw [above_iff, not_lt]
    apply highest
    exact List.mem_filter.mpr ⟨isOther, by simpa using otherName⟩

/-- Two newest entries of a name have one version and release. -/
theorem Newest.equivalent {index : Index} {name : Bytes}
    {entry entry' : Entry} (newest : Newest index name entry)
    (newest' : Newest index name entry') :
    vercmp entry.version entry'.version = 0 ∧
      entry.release = entry'.release := by
  have notBelow := newest.highest entry' newest'.member newest'.isName
  have notAbove := newest'.highest entry newest.member newest.isName
  rw [above_iff, not_lt] at notBelow notAbove
  have same := congrArg ofLex (le_antisymm notAbove notBelow)
  rw [vercmp_comparesBy.eq_zero_iff]
  exact Prod.mk.inj same

theorem Newest.perm {index index' : Index} {name : Bytes} {entry : Entry}
    (newest : Newest index name entry)
    (permuted : index.items.Perm index'.items) :
    Newest index' name entry where
  member := permuted.mem_iff.mp newest.member
  isName := newest.isName
  highest other member := newest.highest other (permuted.mem_iff.mpr member)

/-! ## Updates -/

variable {index : Index} {db : Db} {targets : List Bytes} {nodeps : Bool}

/-- Only what is wanted gets into a plan. -/
theorem resolveAll_wanted {entry : Entry}
    (member : entry ∈ (resolveAll index db targets nodeps).order) :
    index.find entry.name = some entry ∧
      wanted db targets entry.name = true := by
  have follows : Resolution.Follows index
      (resolveAll index db targets nodeps) _ := resolveAll_follows
  rw [follows.order, List.mem_filterMap] at member
  obtain ⟨name, isLeft, found⟩ := member
  obtain rfl := (find_some found).1
  have closed : ∀ name, wanted db targets name = true →
      ∀ dep ∈ wantedDeps index db targets nodeps name,
        wanted db targets dep = true := by
    intro name _ dep isDep
    rw [wantedDeps] at isDep
    split at isDep
    · cases isDep
    split at isDep
    · cases isDep
    · exact (List.mem_filter.mp isDep).2
  have starts : ∀ name ∈ targets, wanted db targets name = true := by
    intro name member
    simp [wanted, member]
  exact ⟨found, visitAll_forall (visit_forall closed _) targets ⟨[], []⟩
    starts (by simp) entry.name isLeft⟩

theorem mem_updateTargets {name : Bytes} :
    name ∈ updateTargets index db ↔ ∃ row ∈ db.tables.packages,
      row.name = name ∧ ∃ entry, index.find name = some entry ∧
        Above entry.version entry.release row.version row.release := by
  simp only [updateTargets, mem_toSet, List.mem_map, List.mem_filter,
    Db.listInstalled, List.mem_insertionSort]
  constructor
  · rintro ⟨row, ⟨member, newer⟩, rfl⟩
    refine ⟨row, member, rfl, ?_⟩
    cases found : index.find row.name with
    | none => simp [found] at newer
    | some entry =>
        refine ⟨entry, rfl, ?_⟩
        simpa [found, Above] using newer
  · rintro ⟨row, member, rfl, entry, found, newer⟩
    refine ⟨row, ⟨member, ?_⟩, rfl⟩
    rw [found]
    simpa [Above] using newer

/-- What an update plans for an installed package is above it. -/
theorem update_above
    (distinct : (db.tables.packages.map PackageRow.name).Nodup)
    {entry : Entry}
    (member : entry ∈
      (resolveAll index db (updateTargets index db) nodeps).order)
    {row : PackageRow} (installed : row ∈ db.tables.packages)
    (isName : row.name = entry.name) :
    Above entry.version entry.release row.version row.release := by
  obtain ⟨found, isWanted⟩ := resolveAll_wanted member
  have isInstalled : db.isInstalled entry.name = true := by
    rw [Db.isInstalled, List.any_eq_true]
    exact ⟨row, installed, by simpa using isName⟩
  simp only [wanted, isInstalled, not_true_eq_false, or_false,
    decide_eq_true_eq] at isWanted
  obtain ⟨other, isOther, otherName, best, isBest, newer⟩ :=
    mem_updateTargets.mp isWanted
  rw [found] at isBest
  cases isBest
  have same : other = row := List.inj_on_of_nodup_map distinct isOther
    installed (otherName.trans isName.symm)
  rw [← same]
  exact newer

/-- Versions are ordered, lookups return the newest entry in whichever order
the index has them, and updates go up only. -/
theorem newest_wellDefined :
    TotalPreorder vercmp ∧
    (∀ version version', vercmp version version' = 0 ↔
      pieces version = pieces version') ∧
    (∀ (index : Index) name, match index.find name with
      | none => ∀ entry ∈ index.items, entry.name ≠ name
      | some entry => Newest index name entry) ∧
    (∀ (index index' : Index) name, index.items.Perm index'.items →
      match index.find name, index'.find name with
      | none, none => True
      | some entry, some entry' => vercmp entry.version entry'.version = 0 ∧
          entry.release = entry'.release
      | _, _ => False) ∧
    ∀ (index : Index) (db : Db) nodeps,
      (db.tables.packages.map PackageRow.name).Nodup →
      ∀ entry ∈ (resolveAll index db (updateTargets index db) nodeps).order,
      ∀ row ∈ db.tables.packages, row.name = entry.name →
        Above entry.version entry.release row.version row.release := by
  refine ⟨vercmp_comparesBy.totalPreorder, ?_, ?_, ?_, ?_⟩
  · intro version version'
    rw [vercmp_comparesBy.eq_zero_iff, versionKey_eq_iff]
  · intro index name
    cases found : index.find name with
    | none => simpa using find_none.mp found
    | some entry => exact find_newest found
  · intro index index' name permuted
    cases found : index.find name with
    | none =>
        have missing : index'.find name = none := by
          rw [find_none, ← (permuted.map Entry.name).mem_iff]
          exact find_none.mp found
        simp [missing]
    | some entry =>
        have newest := (find_newest found).perm permuted
        cases found' : index'.find name with
        | none =>
            have missing := find_none.mp found'
            rw [← (find_some found).1] at missing
            exact missing (List.mem_map_of_mem newest.member)
        | some entry' => exact newest.equivalent (find_newest found')
  · intro index db nodeps distinct entry member row installed isName
    exact update_above distinct member installed isName

/-- Two releases of a package, the newer one first. -/
def twoReleases : Index where
  repoName := none
  arch := none
  items := [smallEntry "app" "1.10" [] [], smallEntry "app" "1.9" [] []]

theorem twoReleases_newest :
    (smallDb.tables.packages.map PackageRow.name).Nodup ∧
      ∀ entry ∈ (resolveAll twoReleases smallDb
        (updateTargets twoReleases smallDb) false).order,
      ∀ row ∈ smallDb.tables.packages, row.name = entry.name →
        Above entry.version entry.release row.version row.release := by
  have distinct : (smallDb.tables.packages.map PackageRow.name).Nodup := by
    decide
  exact ⟨distinct,
    newest_wellDefined.2.2.2.2 twoReleases smallDb false distinct⟩

end SaltOS.Install
