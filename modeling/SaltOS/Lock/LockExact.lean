import SaltOS.Lock.ForeignTexts
import SaltOS.Lock.LockLoads
import SaltOS.Lib.Keyed
import Mathlib.Algebra.Order.BigOperators.Group.List

/-!
# Written lockfiles are exact

For which systems `lock_diff` counts no difference between the system and the
lockfile that `lock_write` has just written.
-/

namespace SaltOS.Lock

open Lib Repo Toml Install

/-! ## What is counted -/

/-- The first package of the name has the version and the digest that are
pinned. -/
def pinMatches (live : List ForeignPkg) (pin : ForeignPin) : Bool :=
  match live.find? (·.name = pin.name) with
  | none => false
  | some current =>
      pin.version = current.version ∧
        current.digest.all (pin.digest = ·)

/-- A round counts the pins that do not match. -/
theorem stratumRound_differs (live : List ForeignPkg)
    (compare : StratumCompare) (pin : ForeignPin) :
    (stratumRound live compare pin).missing.length +
        (stratumRound live compare pin).changed.length =
      compare.missing.length + compare.changed.length +
        (if pinMatches live pin then 0 else 1) := by
  unfold stratumRound pinMatches
  cases live.find? (·.name = pin.name) with
  | none => simp [Nat.add_right_comm]
  | some current =>
      obtain ⟨name, version, digest⟩ := current
      by_cases sameVersion : pin.version = version
      · cases digest with
        | none => simp [sameVersion]
        | some digest =>
            by_cases sameDigest : pin.digest = digest
            · simp [sameVersion, sameDigest, Option.filter]
            · simp [sameVersion, sameDigest, Option.filter, Nat.add_assoc]
      · simp [sameVersion, Nat.add_assoc]

theorem foldl_stratumRound_differs (live : List ForeignPkg)
    (pins : List ForeignPin) (compare : StratumCompare) :
    (pins.foldl (stratumRound live) compare).missing.length +
        (pins.foldl (stratumRound live) compare).changed.length =
      compare.missing.length + compare.changed.length +
        pins.countP fun pin => !pinMatches live pin := by
  induction pins generalizing compare with
  | nil => rfl
  | cons pin pins induction =>
      rw [List.foldl_cons, induction, stratumRound_differs,
        List.countP_cons]
      cases pinMatches live pin with
      | true => simp
      | false =>
          simp only [Bool.false_eq_true, if_false, Bool.not_false, if_true]
          omega

theorem compareStratum_diffs {lock : StratumLock}
    {live : List ForeignPkg} :
    (compareStratum lock live).diffs = 0 ↔
      (∀ pin ∈ lock.packages, pinMatches live pin = true) ∧
        ∀ pkg ∈ live, pkg.name ∈ lock.packages.map ForeignPin.name := by
  have counted := foldl_stratumRound_differs live lock.packages
    ⟨[], [], [], [], 0⟩
  have split : (compareStratum lock live).diffs =
      (lock.packages.countP fun pin => !pinMatches live pin) +
        ((live.map ForeignPkg.name).filter
          (· ∉ lock.packages.map ForeignPin.name)).length := by
    simp only [List.length_nil, Nat.zero_add] at counted
    rw [← counted]
    rfl
  rw [split, Nat.add_eq_zero_iff, List.countP_eq_zero,
    List.length_eq_zero_iff, List.filter_eq_nil_iff]
  simp

theorem diffs_eq_zero_iff {compare : LockCompare} :
    compare.diffs = 0 ↔ compare.Clean := by
  simp only [LockCompare.diffs, LockCompare.Clean, Nat.add_eq_zero_iff,
    List.length_eq_zero_iff]
  tauto

/-- The stratum of a lock is there, and has the packages that are pinned. -/
def StratumSettled (system : System) (lock : StratumLock) : Prop :=
  ∃ stratum live,
    (system.strata.getD []).find? (·.name = lock.name) = some stratum ∧
      system.livePkgs stratum = .ok live ∧
        (∀ pin ∈ lock.packages, pinMatches live pin = true) ∧
          ∀ pkg ∈ live, pkg.name ∈ lock.packages.map ForeignPin.name

theorem stratumDiffs_eq_zero_iff {system : System} {lock : StratumLock} :
    stratumDiffs system lock = .ok 0 ↔ StratumSettled system lock := by
  unfold stratumDiffs queryStratum StratumSettled
  cases system.strata with
  | none => simp [Except.map]
  | some strata =>
      cases found : strata.find? (·.name = lock.name) with
      | none => simp [found, Except.map]
      | some stratum =>
          cases isLive : system.livePkgs stratum with
          | error message => simp [found, isLive, Except.map]
          | ok live => simp [found, isLive, Except.map, compareStratum_diffs]

theorem mapM_sum_eq_zero {ε α : Type} {count : α → Except ε Nat}
    {items : List α} :
    (∃ counts, items.mapM count = .ok counts ∧ counts.sum = 0) ↔
      ∀ item ∈ items, count item = .ok 0 := by
  induction items with
  | nil => simp [pure, Except.pure]
  | cons item items induction =>
      rw [List.forall_mem_cons, ← induction, List.mapM_cons]
      cases count item with
      | error message => simp [bind, Except.bind]
      | ok first =>
          cases items.mapM count with
          | error message => simp [bind, Except.bind]
          | ok rest => simp [bind, Except.bind, pure, Except.pure]

theorem fileDiffs_eq_zero_iff {system : System} {file : LockFile} :
    fileDiffs system file = .ok 0 ↔ Settled system.db file.native ∧
      ∀ lock ∈ file.strata, StratumSettled system lock := by
  have strata := @mapM_sum_eq_zero _ _ (stratumDiffs system) file.strata
  simp only [stratumDiffs_eq_zero_iff] at strata
  rw [← strata, ← clean_iff_settled, ← diffs_eq_zero_iff, fileDiffs]
  cases file.strata.mapM (stratumDiffs system) with
  | error message => simp [bind, Except.bind]
  | ok counts => simp [bind, Except.bind, pure, Except.pure]

/-! ## Names that are read back -/

/-- A text that is read back as it is, and not as an empty one. -/
def IsName (text : Bytes) : Prop :=
  text ≠ [] ∧ PlainText text

instance (text : Bytes) : Decidable (IsName text) :=
  inferInstanceAs (Decidable (_ ∧ _))

theorem IsName.spelled_eq {text : Bytes} (isName : IsName text)
    (noNul : 0 ∉ text) : spelled text = text :=
  isName.2.spelled_eq noNul

theorem length_spelled_le {text : Bytes}
    (spells : ∃ source, Spells text source) :
    (spelled text).length ≤ text.length := by
  obtain ⟨source, isSpelled⟩ := spells
  rw [isSpelled.spelled_eq]
  exact (List.takeWhile_prefix _).length_le.trans isSpelled.length_le

theorem plain_of_length_spelled {text : Bytes}
    (spells : ∃ source, Spells text source)
    (length : text.length ≤ (spelled text).length) : PlainText text := by
  obtain ⟨source, isSpelled⟩ := spells
  rw [isSpelled.spelled_eq] at length
  exact isSpelled.plain_of_length
    (length.trans (List.takeWhile_prefix _).length_le)

/-- Names that are read back as some of the same names, each once, are plain:
an escape makes a text shorter, and together they have the same length. -/
theorem plain_of_permuted {names : List Bytes}
    (spells : ∀ name ∈ names, ∃ source, Spells name source)
    (distinct : (names.map spelled).Nodup)
    (among : ∀ name ∈ names, spelled name ∈ names) :
    ∀ name ∈ names, PlainText name := by
  have subset : names.map spelled ⊆ names := by
    intro name member
    obtain ⟨other, isOther, rfl⟩ := List.mem_map.mp member
    exact among other isOther
  have permuted : (names.map spelled).Perm names :=
    (List.subperm_of_subset distinct subset).perm_of_length_le
      (by rw [List.length_map])
  have total := (permuted.map List.length).sum_eq
  rw [List.map_map] at total
  intro name member
  apply plain_of_length_spelled (spells name member)
  by_contra shorter
  have less := List.sum_lt_sum (List.length ∘ spelled) List.length
    (fun other isOther => length_spelled_le (spells other isOther))
    ⟨name, member, Nat.lt_of_not_ge shorter⟩
  omega

/-! ## Systems whose lockfiles are exact -/

/-- The databases: names are keys, and texts are C strings. -/
structure System.WellFormed (system : System) : Prop where
  packagesDistinct : (system.db.tables.packages.map PackageRow.name).Nodup
  packages : ∀ row ∈ system.db.tables.packages,
    0 ∉ row.name ∧ 0 ∉ row.version
  release : ∀ row ∈ system.db.tables.packages,
    -2 ^ 31 ≤ row.release ∧ row.release < 2 ^ 31
  strataDistinct : ((system.strata.getD []).map Stratum.name).Nodup
  strata : ∀ stratum ∈ system.strata.getD [], 0 ∉ stratum.name

section

variable {system : System}

theorem mem_natives {entry : NativeEntry} (member : entry ∈ system.natives) :
    entry.row ∈ system.db.tables.packages := by
  obtain ⟨row, inRows, rfl⟩ := List.mem_map.mp member
  exact (List.perm_insertionSort _ system.db.tables.packages).mem_iff.mp inRows

theorem natives_names :
    (system.natives.map fun entry => entry.row.name).Perm
      (system.db.tables.packages.map PackageRow.name) := by
  rw [System.natives, List.map_map]
  exact (List.perm_insertionSort _ system.db.tables.packages).map _

theorem mem_entries {entry : StratumEntry}
    (member : entry ∈ system.entries) :
    entry.stratum ∈ system.strata.getD [] := by
  obtain ⟨stratum, inStrata, rfl⟩ := List.mem_map.mp member
  exact (List.perm_insertionSort _ (system.strata.getD [])).mem_iff.mp inStrata

theorem entries_names :
    (system.entries.map fun entry => entry.stratum.name).Perm
      ((system.strata.getD []).map Stratum.name) := by
  rw [System.entries, List.map_map]
  exact (List.perm_insertionSort _ (system.strata.getD [])).map _

theorem nativePin_valid {index : Option Index} {row : PackageRow}
    {pin : NativePin} (isPin : nativePin index row = some pin) :
    sha256HexValid pin.sha256 = true ∧ ∀ sha256,
      row.sha256.filter sha256HexValid = some sha256 →
        pin.sha256 = sha256 := by
  unfold nativePin at isPin
  cases inRow : row.sha256.filter sha256HexValid with
  | some sha256 =>
      rw [inRow] at isPin
      cases isPin
      have valid := (Option.filter_eq_some_iff.mp inRow).2
      exact ⟨valid, fun other isOther => Option.some.inj isOther⟩
  | none =>
      rw [inRow] at isPin
      obtain ⟨found, isFound, rfl⟩ := Option.map_eq_some_iff.mp isPin
      have valid := (Option.filter_eq_some_iff.mp isFound).2
      exact ⟨valid, fun other isOther => by cases isOther⟩

/-- A package whose name and version are read back matches its entry. -/
theorem matches_locked (wellFormed : system.WellFormed)
    (pinned : system.Pinned) {entry : NativeEntry}
    (member : entry ∈ system.natives)
    (name : spelled entry.row.name = entry.row.name) :
    Matches system.db entry.locked ↔
      spelled entry.row.version = entry.row.version := by
  have found : system.db.getPkg (spelled entry.row.name) =
      some entry.row := by
    rw [name]
    exact find?_of_distinct wellFormed.packagesDistinct (mem_natives member)
  have sha : sameSha entry.locked entry.row = true := by
    unfold sameSha
    split
    · rfl
    · rename_i sha256 isSha
      exact decide_eq_true
        ((nativePin_valid (pinned.natives entry member)).2 sha256 isSha)
  constructor
  · rintro ⟨row, isRow, sameVersion, -⟩
    obtain rfl : entry.row = row :=
      Option.some.inj (found.symm.trans isRow)
    exact (of_decide_eq_true sameVersion).1
  · intro version
    exact ⟨entry.row, found, decide_eq_true ⟨version, rfl⟩, sha⟩

/-- The packages are read back as they are when their names and versions are
not empty and plain. -/
theorem natives_exact (wellFormed : system.WellFormed)
    (pinned : system.Pinned)
    (spells : ∀ entry ∈ system.natives,
      (∃ source, Spells entry.row.name source) ∧
        ∃ source, Spells entry.row.version source) :
    ((∀ entry ∈ system.natives, entry.Loads) ∧
      (system.natives.map fun entry => spelled entry.row.name).Nodup ∧
        Settled system.db (system.natives.map NativeEntry.locked)) ↔
      ∀ entry ∈ system.natives,
        IsName entry.row.name ∧ IsName entry.row.version := by
  have lockedNames : (system.natives.map NativeEntry.locked).map
      LockEntry.name =
        system.natives.map fun entry => spelled entry.row.name := by
    simp [NativeEntry.locked]
  have names := @natives_names system
  constructor
  · rintro ⟨loads, distinct, settled, -⟩ entry member
    have among : ∀ name ∈ system.natives.map fun entry => entry.row.name,
        spelled name ∈ system.natives.map fun entry => entry.row.name := by
      intro name isName
      obtain ⟨other, isOther, rfl⟩ := List.mem_map.mp isName
      obtain ⟨row, isRow, -⟩ :=
        settled other.locked (List.mem_map_of_mem isOther)
      have sameName : row.name = spelled other.row.name :=
        key_of_find? isRow
      rw [names.mem_iff, ← sameName]
      exact List.mem_map_of_mem (List.mem_of_find?_eq_some isRow)
    have plainNames := plain_of_permuted (fun name isName => by
      obtain ⟨other, isOther, rfl⟩ := List.mem_map.mp isName
      exact (spells other isOther).1)
      (by rw [List.map_map]; exact distinct) among
    have noNul := wellFormed.packages entry.row (mem_natives member)
    have plain := plainNames entry.row.name (List.mem_map_of_mem member)
    have sameName := plain.spelled_eq noNul.1
    have sameVersion := (matches_locked wellFormed pinned member sameName).mp
      (settled entry.locked (List.mem_map_of_mem member))
    have isLoaded := loads entry member
    constructor
    · exact ⟨sameName ▸ isLoaded.name, plain⟩
    · exact ⟨sameVersion ▸ isLoaded.version,
        plain_of_spelled (spells entry member).2 sameVersion⟩
  · intro areNames
    have same : ∀ entry ∈ system.natives,
        spelled entry.row.name = entry.row.name ∧
          spelled entry.row.version = entry.row.version := by
      intro entry member
      have noNul := wellFormed.packages entry.row (mem_natives member)
      exact ⟨(areNames entry member).1.spelled_eq noNul.1,
        (areNames entry member).2.spelled_eq noNul.2⟩
    have spelledNames :
        (system.natives.map fun entry => spelled entry.row.name) =
          system.natives.map fun entry => entry.row.name :=
      List.map_congr_left fun entry member => (same entry member).1
    refine ⟨?_, ?_, ?_, ?_⟩
    · intro entry member
      constructor
      · rw [(same entry member).1]
        exact (areNames entry member).1.1
      · rw [(same entry member).2]
        exact (areNames entry member).2.1
    · rw [spelledNames, names.nodup_iff]
      exact wellFormed.packagesDistinct
    · intro locked isLocked
      obtain ⟨entry, member, rfl⟩ := List.mem_map.mp isLocked
      exact (matches_locked wellFormed pinned member (same entry member).1).mpr
        (same entry member).2
    · intro name installed
      rw [lockedNames, spelledNames, names.mem_iff]
      exact installed

/-- A package of a stratum that is read back as it is. -/
structure ForeignPkg.Plain (pkg : ForeignPkg) : Prop where
  name : IsName pkg.name
  version : IsName pkg.version
  digest : PlainText (pkg.digest.getD [])
  digestOk : digestOk (pkg.digest.getD []) = true

/-- What is printed of a package spells something. -/
structure ForeignPkg.Spelled (pkg : ForeignPkg) : Prop where
  name : ∃ source, Spells pkg.name source
  version : ∃ source, Spells pkg.version source
  digest : ∃ source, Spells (pkg.digest.getD []) source

theorem ForeignPkg.digest_noNul {pkg : ForeignPkg} (noNul : pkg.NoNul) :
    0 ∉ pkg.digest.getD [] := by
  have digestNoNul := noNul.digest
  cases digest : pkg.digest with
  | none => simp
  | some text => exact digestNoNul text digest

/-- A package whose name is read back matches its pin. -/
theorem pinMatches_locked {pkgs : List ForeignPkg}
    (distinct : (pkgs.map ForeignPkg.name).Nodup) {pkg : ForeignPkg}
    (member : pkg ∈ pkgs) (name : spelled pkg.name = pkg.name) :
    pinMatches pkgs pkg.locked = true ↔
      spelled pkg.version = pkg.version ∧
        ∀ digest ∈ pkg.digest, spelled digest = digest := by
  have found : pkgs.find? (·.name = pkg.locked.name) = some pkg := by
    change pkgs.find? (·.name = spelled pkg.name) = some pkg
    rw [name]
    exact find?_of_distinct distinct member
  rw [pinMatches, found]
  cases digest : pkg.digest with
  | none => simp [ForeignPkg.locked, digest]
  | some text => simp [ForeignPkg.locked, digest]

theorem pkgs_exact {entry : StratumEntry}
    (noNul : ∀ pkg ∈ entry.pkgs, pkg.NoNul)
    (spells : ∀ pkg ∈ entry.pkgs, pkg.Spelled) :
    ((∀ pkg ∈ entry.pkgs, pkg.Loads) ∧
      (entry.pkgs.map fun pkg => spelled pkg.name).Nodup ∧
        (∀ pin ∈ entry.locked.packages, pinMatches entry.pkgs pin = true) ∧
          ∀ pkg ∈ entry.pkgs,
            pkg.name ∈ entry.locked.packages.map ForeignPin.name) ↔
      (entry.pkgs.map ForeignPkg.name).Nodup ∧
        ∀ pkg ∈ entry.pkgs, pkg.Plain := by
  constructor
  · rintro ⟨loads, distinct, pins, -⟩
    have among : ∀ name ∈ entry.pkgs.map ForeignPkg.name,
        spelled name ∈ entry.pkgs.map ForeignPkg.name := by
      intro name isName
      obtain ⟨pkg, member, rfl⟩ := List.mem_map.mp isName
      have isPinned := pins pkg.locked (List.mem_map_of_mem member)
      unfold pinMatches at isPinned
      split at isPinned
      · cases isPinned
      · rename_i current isCurrent
        have sameName : current.name = spelled pkg.name :=
          key_of_find? isCurrent
        rw [← sameName]
        exact List.mem_map_of_mem (List.mem_of_find?_eq_some isCurrent)
    have plainNames := plain_of_permuted (fun name isName => by
      obtain ⟨pkg, member, rfl⟩ := List.mem_map.mp isName
      exact (spells pkg member).name)
      (by rw [List.map_map]; exact distinct) among
    have same : ∀ pkg ∈ entry.pkgs, spelled pkg.name = pkg.name :=
      fun pkg member => (plainNames pkg.name
        (List.mem_map_of_mem member)).spelled_eq (noNul pkg member).name
    have isDistinct : (entry.pkgs.map ForeignPkg.name).Nodup := by
      rw [← List.map_congr_left same]
      exact distinct
    refine ⟨isDistinct, ?_⟩
    intro pkg member
    have isLoaded := loads pkg member
    have isSpelled := spells pkg member
    obtain ⟨version, digests⟩ := (pinMatches_locked isDistinct member
      (same pkg member)).mp (pins pkg.locked (List.mem_map_of_mem member))
    have digest : spelled (pkg.digest.getD []) = pkg.digest.getD [] := by
      cases isDigest : pkg.digest with
      | none => rfl
      | some text => exact digests text isDigest
    exact {
      name := ⟨same pkg member ▸ isLoaded.name,
        plainNames pkg.name (List.mem_map_of_mem member)⟩
      version := ⟨version ▸ isLoaded.version,
        plain_of_spelled isSpelled.version version⟩
      digest := plain_of_spelled isSpelled.digest digest
      digestOk := digest ▸ isLoaded.digest }
  · rintro ⟨distinct, plain⟩
    have same : ∀ pkg ∈ entry.pkgs, spelled pkg.name = pkg.name :=
      fun pkg member => (plain pkg member).name.spelled_eq
        (noNul pkg member).name
    have version : ∀ pkg ∈ entry.pkgs, spelled pkg.version = pkg.version :=
      fun pkg member => (plain pkg member).version.spelled_eq
        (noNul pkg member).version
    have digest : ∀ pkg ∈ entry.pkgs,
        spelled (pkg.digest.getD []) = pkg.digest.getD [] :=
      fun pkg member => (plain pkg member).digest.spelled_eq
        (ForeignPkg.digest_noNul (noNul pkg member))
    have spelledNames : (entry.pkgs.map fun pkg => spelled pkg.name) =
        entry.pkgs.map ForeignPkg.name := List.map_congr_left same
    refine ⟨?_, ?_, ?_, ?_⟩
    · intro pkg member
      have isPlain := plain pkg member
      exact ⟨(same pkg member).symm ▸ isPlain.name.1,
        (version pkg member).symm ▸ isPlain.version.1,
        (digest pkg member).symm ▸ isPlain.digestOk⟩
    · rw [spelledNames]
      exact distinct
    · intro pin isPin
      obtain ⟨pkg, member, rfl⟩ := List.mem_map.mp isPin
      refine (pinMatches_locked distinct member (same pkg member)).mpr
        ⟨version pkg member, ?_⟩
      intro text isText
      have isSame := digest pkg member
      rw [Option.mem_def.mp isText] at isSame
      exact isSame
    · intro pkg member
      rw [← same pkg member]
      exact List.mem_map_of_mem (List.mem_map_of_mem member)

/-- The strata are read back as they are. -/
theorem strata_exact (wellFormed : system.WellFormed)
    (pinned : system.Pinned)
    (names : ∀ entry ∈ system.entries,
      ∃ source, Spells entry.stratum.name source)
    (pkgs : ∀ entry ∈ system.entries, ∀ pkg ∈ entry.pkgs, pkg.Spelled) :
    ((∀ entry ∈ system.entries, entry.Loads) ∧
      (system.entries.map fun entry => spelled entry.stratum.name).Nodup ∧
        ∀ lock ∈ system.entries.map StratumEntry.locked,
          StratumSettled system lock) ↔
      ∀ entry ∈ system.entries, IsName entry.stratum.name ∧
        (entry.pkgs.map ForeignPkg.name).Nodup ∧
          ∀ pkg ∈ entry.pkgs, pkg.Plain := by
  have isExact : ∀ entry ∈ system.entries, _ := fun entry member =>
    pkgs_exact (livePkgs_noNul (pinned.entries entry member))
      (pkgs entry member)
  have permuted := @entries_names system
  have found : ∀ entry ∈ system.entries,
      spelled entry.stratum.name = entry.stratum.name →
        (system.strata.getD []).find? (·.name = entry.locked.name) =
          some entry.stratum := by
    intro entry member same
    change (system.strata.getD []).find?
      (·.name = spelled entry.stratum.name) = _
    rw [same]
    exact find?_of_distinct wellFormed.strataDistinct (mem_entries member)
  constructor
  · rintro ⟨loads, distinct, settled⟩
    have among : ∀ name ∈ system.entries.map fun entry => entry.stratum.name,
        spelled name ∈ system.entries.map fun entry => entry.stratum.name := by
      intro name isName
      obtain ⟨entry, member, rfl⟩ := List.mem_map.mp isName
      obtain ⟨stratum, live, isFound, -⟩ :=
        settled entry.locked (List.mem_map_of_mem member)
      have sameName : stratum.name = spelled entry.stratum.name :=
        key_of_find? isFound
      rw [permuted.mem_iff, ← sameName]
      exact List.mem_map_of_mem (List.mem_of_find?_eq_some isFound)
    have plainNames := plain_of_permuted (fun name isName => by
      obtain ⟨entry, member, rfl⟩ := List.mem_map.mp isName
      exact names entry member)
      (by rw [List.map_map]; exact distinct) among
    intro entry member
    have plain := plainNames entry.stratum.name (List.mem_map_of_mem member)
    have same := plain.spelled_eq
      (wellFormed.strata entry.stratum (mem_entries member))
    obtain ⟨stratum, live, isFound, isLive, pins, present⟩ :=
      settled entry.locked (List.mem_map_of_mem member)
    obtain rfl : entry.stratum = stratum :=
      Option.some.inj ((found entry member same).symm.trans isFound)
    obtain rfl : entry.pkgs = live :=
      Except.ok.inj ((pinned.entries entry member).symm.trans isLive)
    have isLoaded := loads entry member
    exact ⟨⟨same ▸ isLoaded.name, plain⟩, (isExact entry member).mp
      ⟨isLoaded.pkgs, isLoaded.distinct, pins, present⟩⟩
  · intro areExact
    have same : ∀ entry ∈ system.entries,
        spelled entry.stratum.name = entry.stratum.name :=
      fun entry member => (areExact entry member).1.spelled_eq
        (wellFormed.strata entry.stratum (mem_entries member))
    have kept : ∀ entry ∈ system.entries, _ := fun entry member =>
      (isExact entry member).mpr (areExact entry member).2
    refine ⟨?_, ?_, ?_⟩
    · intro entry member
      obtain ⟨loads, distinct, -⟩ := kept entry member
      exact ⟨(same entry member).symm ▸ (areExact entry member).1.1, loads,
        distinct⟩
    · have spelledNames :
          (system.entries.map fun entry => spelled entry.stratum.name) =
            system.entries.map fun entry => entry.stratum.name :=
        List.map_congr_left same
      rw [spelledNames, permuted.nodup_iff]
      exact wellFormed.strataDistinct
    · intro lock isLock
      obtain ⟨entry, member, rfl⟩ := List.mem_map.mp isLock
      obtain ⟨-, -, pins, present⟩ := kept entry member
      exact ⟨entry.stratum, entry.pkgs, found entry member (same entry member),
        pinned.entries entry member, pins, present⟩

end

/-! ## Lockfiles of systems -/

/-- All that is printed of the system is the inside of a TOML string, names and
versions are not empty and need no escape, and in every stratum each name comes
once and has a digest of the right shape. -/
structure System.Readable (system : System) : Prop where
  fits : system.Fits
  spells : ∀ slots ∈ system.records,
    (∀ text ∈ slots.flatMap Slot.texts, ∃ source, Spells text source) ∧
      ∀ items ∈ slots.flatMap Slot.lists, ∀ item ∈ items,
        ∃ source, Spells item source
  natives : ∀ entry ∈ system.natives,
    IsName entry.row.name ∧ IsName entry.row.version
  entries : ∀ entry ∈ system.entries, IsName entry.stratum.name ∧
    (entry.pkgs.map ForeignPkg.name).Nodup ∧
      ∀ pkg ∈ entry.pkgs, pkg.Plain

/-- No text that is printed has a quote, and no dependency a backslash. -/
structure System.QuoteFree (system : System) : Prop where
  fits : system.Fits
  texts : ∀ slots ∈ system.records,
    ∀ text ∈ slots.flatMap Slot.texts, 34 ∉ text
  lists : ∀ slots ∈ system.records, ∀ items ∈ slots.flatMap Slot.lists,
    ∀ item ∈ items, 34 ∉ item ∧ 92 ∉ item

/-- `lock_load` accepts the file, and `lock_diff` counts no difference. -/
def System.Exact (system : System) (path text : Bytes) : Prop :=
  ∃ file, Returns (fun fuel => lockLoad fuel path (some text)) (.ok file) ∧
    Returns (fun fuel => lockDiff fuel path system (some text)) (.ok 0)

/-- Enough fuel for the longest list of dependencies. -/
def System.rounds (system : System) : Nat :=
  ((system.records.flatMap fun slots => slots.flatMap Slot.lists).map
    List.length).sum + 2

section

variable {system : System}

theorem length_lt_rounds {slots : List Slot} (inRecords : slots ∈ system.records)
    {items : List Bytes} (member : items ∈ slots.flatMap Slot.lists) :
    items.length + 1 < system.rounds := by
  have inLists : items ∈ system.records.flatMap fun slots =>
      slots.flatMap Slot.lists :=
    List.mem_flatMap.mpr ⟨slots, inRecords, member⟩
  have atMost := List.single_le_sum (fun _ _ => Nat.zero_le _) items.length
    (List.mem_map_of_mem (f := List.length) inLists)
  exact Nat.lt_succ_of_le (Nat.succ_le_succ atMost)

theorem System.slots_wellKeyed (system : System) :
    WellKeyed system.slots where
  bare := by
    have bare : ∀ key ∈ ["schema", "generated", "arch", "config_hash",
        "repo_index_sha256"], BareKey (ascii key) := by decide
    exact fun slot member => bare slot.key (List.mem_map_of_mem member)
  numbers := by
    intro key digits value member
    simp only [System.slots, List.mem_cons, reduceCtorEq, List.not_mem_nil,
      or_false, Slot.number.injEq] at member
    obtain ⟨-, rfl, rfl⟩ := member
    exact intText_nat (by decide : 2 < 2 ^ 63)

theorem NativeEntry.slots_wellKeyed {entry : NativeEntry}
    (low : -2 ^ 31 ≤ entry.row.release) (high : entry.row.release < 2 ^ 31) :
    WellKeyed entry.slots where
  bare := by
    have bare : ∀ key ∈ ["name", "version", "release", "arch",
        "grain_sha256", "filename", "repo", "deps"],
        BareKey (ascii key) := by decide
    exact fun slot member => bare slot.key (List.mem_map_of_mem member)
  numbers := by
    intro key digits value member
    simp only [NativeEntry.slots, List.mem_cons, reduceCtorEq,
      List.not_mem_nil, or_false, false_or, Slot.number.injEq] at member
    obtain ⟨-, rfl, rfl⟩ := member
    exact intText_int low high

theorem StratumEntry.slots_wellKeyed (entry : StratumEntry) :
    WellKeyed (entry.slots ++ entry.snapshots) where
  bare := by
    have bare : ∀ key ∈ ["name", "family", "package_manager",
        "bootstrap_url", "bootstrap_sha256"], BareKey (ascii key) := by decide
    intro slot member
    rcases List.mem_append.mp member with inSlots | inSnapshots
    · exact bare slot.key (List.mem_map_of_mem inSlots)
    · obtain ⟨url, -, rfl⟩ := List.mem_map.mp inSnapshots
      exact (by decide : BareKey (ascii "repo_snapshot"))
  numbers := by
    intro key digits value member
    simp [StratumEntry.slots, StratumEntry.snapshots] at member

theorem ForeignPkg.slots_wellKeyed (pkg : ForeignPkg) :
    WellKeyed pkg.slots where
  bare := by
    have bare : ∀ key ∈ ["name", "version", "digest"],
        BareKey (ascii key) := by decide
    exact fun slot member => bare slot.key (List.mem_map_of_mem member)
  numbers := by
    intro key digits value member
    simp [ForeignPkg.slots] at member

theorem mem_records {slots : List Slot} :
    slots ∈ system.records ↔ slots = system.slots ∨
      (∃ entry ∈ system.natives, slots = entry.slots) ∨
        ∃ entry ∈ system.entries, slots = entry.slots ++ entry.snapshots ∨
          ∃ pkg ∈ entry.pkgs, slots = pkg.slots := by
  simp only [System.records, List.mem_append, List.mem_cons,
    List.not_mem_nil, or_false, List.mem_map, List.mem_flatMap, or_assoc,
    eq_comm]

theorem records_wellKeyed (wellFormed : system.WellFormed) :
    ∀ slots ∈ system.records, WellKeyed slots := by
  intro slots member
  rcases mem_records.mp member with rfl | ⟨entry, inNatives, rfl⟩ |
    ⟨entry, inEntries, rfl | ⟨pkg, inPkgs, rfl⟩⟩
  · exact system.slots_wellKeyed
  · have release := wellFormed.release entry.row (mem_natives inNatives)
    exact NativeEntry.slots_wellKeyed release.1 release.2
  · exact entry.slots_wellKeyed
  · exact pkg.slots_wellKeyed

theorem linesOk_records {next : UInt8} {fuel : Nat} :
    LinesOk next fuel system.pieces ↔ ∀ slots ∈ system.records,
      ∀ line ∈ slotLines slots, line.Ok next fuel := by
  simp only [LinesOk, assign_mem_pieces]
  constructor
  · intro all slots inRecords line member
    exact all line ⟨slots, inRecords, member⟩
  · rintro all line ⟨slots, inRecords, member⟩
    exact all slots inRecords line member

/-- What is printed of a system is loaded, or rejected because of a line. -/
theorem lockLoad_pieces {fuel : Nat} (path : Bytes)
    (decided : ∀ slots ∈ system.records, ∀ line ∈ slotLines slots,
      line.Decided 0 fuel) :
    (∀ slots ∈ system.records, ∀ line ∈ slotLines slots, line.Ok 0 fuel) ∧
      lockLoad fuel path (some (emitPieces system.pieces)) =
        .ok (loadTree path system.tree) ∨
    ¬ (∀ slots ∈ system.records, ∀ line ∈ slotLines slots,
        line.Ok 0 fuel) ∧
      ∃ message, lockLoad fuel path (some (emitPieces system.pieces)) =
        .ok (.error message) := by
  obtain ⟨current, built⟩ := build_pieces system
  rcases parse_pieces (pieces_bare system)
    (fun line member => by
      obtain ⟨slots, inRecords, isLine⟩ := assign_mem_pieces.mp member
      exact decided slots inRecords line isLine) built with
    ⟨ok, parsed⟩ | ⟨notOk, message, failed⟩
  · left
    refine ⟨linesOk_records.mp ok, ?_⟩
    rw [lockLoad, parseFile, parsed]
    rfl
  · right
    refine ⟨fun ok => notOk (linesOk_records.mpr ok),
      ascii "no lockfile at " ++ path ++ ascii " (run 'salt lock')", ?_⟩
    rw [lockLoad, parseFile, failed]
    rfl

/-- Whether a system that is loaded is exact. -/
theorem loads_exact (wellFormed : system.WellFormed)
    (pinned : system.Pinned)
    (spells : ∀ slots ∈ system.records, ∀ text ∈ slots.flatMap Slot.texts,
      ∃ source, Spells text source) :
    (system.Loads ∧ fileDiffs system system.locked = .ok 0) ↔
      (∀ entry ∈ system.natives,
        IsName entry.row.name ∧ IsName entry.row.version) ∧
      ∀ entry ∈ system.entries, IsName entry.stratum.name ∧
        (entry.pkgs.map ForeignPkg.name).Nodup ∧
          ∀ pkg ∈ entry.pkgs, pkg.Plain := by
  have natives := natives_exact wellFormed pinned (by
    intro entry member
    have inRecords := mem_records.mpr (.inr (.inl ⟨entry, member, rfl⟩))
    exact ⟨spells _ inRecords _ (by simp [NativeEntry.slots, Slot.texts]),
      spells _ inRecords _ (by simp [NativeEntry.slots, Slot.texts])⟩)
  have strata := strata_exact wellFormed pinned (by
    intro entry member
    have inRecords := mem_records.mpr
      (.inr (.inr ⟨entry, member, .inl rfl⟩))
    exact spells _ inRecords _ (by simp [StratumEntry.slots, Slot.texts]))
    (by
      intro entry member pkg inPkgs
      have inRecords := mem_records.mpr
        (.inr (.inr ⟨entry, member, .inr ⟨pkg, inPkgs, rfl⟩⟩))
      exact ⟨spells _ inRecords _ (by simp [ForeignPkg.slots, Slot.texts]),
        spells _ inRecords _ (by simp [ForeignPkg.slots, Slot.texts]),
        spells _ inRecords _ (by simp [ForeignPkg.slots, Slot.texts])⟩)
  rw [← natives, ← strata, fileDiffs_eq_zero_iff]
  constructor
  · rintro ⟨loads, settled, strataSettled⟩
    exact ⟨⟨loads.natives, loads.nativesDistinct, settled⟩, loads.entries,
      loads.entriesDistinct, strataSettled⟩
  · rintro ⟨⟨nativesLoad, nativesDistinct, settled⟩, entriesLoad,
      entriesDistinct, strataSettled⟩
    exact ⟨⟨nativesLoad, nativesDistinct, entriesLoad, entriesDistinct⟩,
      settled, strataSettled⟩

theorem tree_loads (wellFormed : system.WellFormed)
    (pinned : system.Pinned) (path : Bytes) (file : LockFile) :
    loadTree path system.tree = .ok file ↔
      file = system.locked ∧ system.Loads :=
  loadTree_ok_iff
    (fun entry member => (nativePin_valid (pinned.natives entry member)).1)
    (fun entry member => wellFormed.release entry.row (mem_natives member))
    path file

theorem System.Readable.exact (readable : system.Readable)
    (wellFormed : system.WellFormed) {text : Bytes}
    (written : lockWrite system = some text) (path : Bytes) :
    system.Exact path text := by
  obtain ⟨pinned, rfl⟩ := lockWrite_pieces readable.fits written
  obtain ⟨loads, noDiffs⟩ := (loads_exact wellFormed pinned
    fun slots member => (readable.spells slots member).1).mpr
      ⟨readable.natives, readable.entries⟩
  have loaded : ∀ fuel ≥ system.rounds,
      lockLoad fuel path (some (emitPieces system.pieces)) =
        .ok (.ok system.locked) := by
    intro fuel enough
    obtain ⟨rounds, rfl⟩ : ∃ rounds, fuel = rounds + 1 :=
      ⟨fuel - 1, by unfold System.rounds at enough; omega⟩
    have ok : ∀ slots ∈ system.records, ∀ line ∈ slotLines slots,
        line.Ok 0 (rounds + 1) := by
      intro slots member
      obtain ⟨texts, lists⟩ := readable.spells slots member
      refine slots_ok (records_wellKeyed wellFormed slots member) texts ?_
      intro items inLists
      have short := length_lt_rounds member inLists
      exact ⟨lists items inLists, by omega⟩
    rcases lockLoad_pieces path (fun slots member line isLine =>
      .inl (ok slots member line isLine)) with ⟨-, isLoaded⟩ | ⟨notOk, -⟩
    · rw [isLoaded, (tree_loads wellFormed pinned path _).mpr ⟨rfl, loads⟩]
    · exact absurd ok notOk
  refine ⟨system.locked, ⟨system.rounds, loaded⟩, system.rounds, ?_⟩
  intro fuel enough
  change lockDiff fuel path system (some (emitPieces system.pieces)) = _
  rw [lockDiff, loaded fuel enough]
  exact congrArg Except.ok noDiffs

/-- Without quotes, a system whose lockfile is exact is readable: every other
byte is read as itself, starts an escape or stops the parser on its line. -/
theorem System.Exact.readable {path text : Bytes}
    (exact' : system.Exact path text) (wellFormed : system.WellFormed)
    (quoteFree : system.QuoteFree) (written : lockWrite system = some text) :
    system.Readable := by
  obtain ⟨pinned, rfl⟩ := lockWrite_pieces quoteFree.fits written
  obtain ⟨file, ⟨bound, loads⟩, other, counts⟩ := exact'
  obtain ⟨fuel, enoughLoad, enoughDiff, enough⟩ : ∃ fuel, bound ≤ fuel + 1 ∧
      other ≤ fuel + 1 ∧ system.rounds ≤ fuel + 1 :=
    ⟨bound + other + system.rounds, by omega, by omega, by omega⟩
  have isLoaded : lockLoad (fuel + 1) path (some (emitPieces system.pieces)) =
      .ok (.ok file) := loads (fuel + 1) enoughLoad
  have isCounted : lockDiff (fuel + 1) path system
      (some (emitPieces system.pieces)) = .ok (.ok 0) :=
    counts (fuel + 1) enoughDiff
  have lists : ∀ slots ∈ system.records,
      ∀ items ∈ slots.flatMap Slot.lists,
        (∀ item ∈ items, 34 ∉ item ∧ 92 ∉ item) ∧
          items.length + 1 < fuel + 1 := by
    intro slots member items inLists
    have short := length_lt_rounds member inLists
    exact ⟨quoteFree.lists slots member items inLists, by omega⟩
  have decided : ∀ slots ∈ system.records, ∀ line ∈ slotLines slots,
      line.Decided 0 (fuel + 1) := fun slots member =>
    slots_decided (records_wellKeyed wellFormed slots member)
      (quoteFree.texts slots member) (lists slots member)
  rcases lockLoad_pieces path decided with ⟨ok, fromTree⟩ |
    ⟨-, _, failed⟩
  · have texts : ∀ slots ∈ system.records,
        ∀ text ∈ slots.flatMap Slot.texts, ∃ source, Spells text source :=
      fun slots member => spells_of_slots_ok (quoteFree.texts slots member)
        (ok slots member)
    obtain ⟨rfl, treeLoads⟩ := (tree_loads wellFormed pinned path file).mp
      (Except.ok.inj (fromTree.symm.trans isLoaded))
    rw [lockDiff, isLoaded] at isCounted
    obtain ⟨natives, entries⟩ := (loads_exact wellFormed pinned texts).mp
      ⟨treeLoads, Except.ok.inj isCounted⟩
    refine ⟨quoteFree.fits, ?_, natives, entries⟩
    intro slots member
    refine ⟨texts slots member, ?_⟩
    intro items inLists item inItems
    exact ⟨item, (plain_of_slots_ok (lists slots member) (ok slots member)
      items inLists item inItems).spells⟩
  · rw [isLoaded] at failed
    cases failed

end

/-- A lockfile that is written is read back without a difference when the
system is readable, and, for texts without quotes, only then. -/
theorem lockWrite_exact_iff_readable {system : System}
    (wellFormed : system.WellFormed) {text : Bytes}
    (written : lockWrite system = some text) (path : Bytes) :
    (system.Readable → system.Exact path text) ∧
      (system.QuoteFree → system.Exact path text → system.Readable) :=
  ⟨fun readable => readable.exact wellFormed written path,
    fun quoteFree isExact => isExact.readable wellFormed quoteFree written⟩

/-- A machine without packages of its own and with one Debian stratum, in which
`dpkg-query` prints some listing. -/
def debianSystem (listing : Bytes) : System where
  generated := ascii "2026-01-01T00:00:00Z"
  arch := ascii "x86_64"
  configSha256 := none
  indexSha256 := none
  index := none
  db := .empty
  strata := some [⟨ascii "debian", some (ascii "debian"),
    some (ascii "apt")⟩]
  recipe := fun _ => none
  tools := fun _ => {
    root := ascii "/strata/debian"
    listing := .ok listing
    digests := .ok []
    hasFile := fun file => file = ascii "var/lib/dpkg/info/bash.md5sums"
    hostSha256 := fun _ => some ⟨List.replicate 64 97, by decide⟩
    dpkgInfo := [ascii "bash.md5sums", ascii "libc6:amd64.md5sums",
      ascii "libc6:i386.md5sums"] }

def plainListing : Bytes :=
  ascii "installed\tlibc6\t2.36-9\ndeinstalled\tvim\t9\n" ++
    ascii "installed\tbash\t5.2-1\n"

theorem debianSystem_wellFormed (listing : Bytes) :
    (debianSystem listing).WellFormed where
  packagesDistinct := .nil
  packages := fun row member => by cases member
  release := fun row member => by cases member
  strataDistinct := List.nodup_singleton _
  strata := by
    have noNul : 0 ∉ ascii "debian" := by decide
    intro stratum member
    rw [List.mem_singleton.mp member]
    exact noNul

theorem plainSystem_readable : (debianSystem plainListing).Readable where
  fits := by
    intro prints isPrints
    have short : ∀ prints ∈ lockPrints (debianSystem plainListing),
        ∀ text ∈ prints, text.length < 2 ^ 31 := by decide +kernel
    exact short prints isPrints
  spells := by
    have plain : ∀ slots ∈ (debianSystem plainListing).records,
        (∀ text ∈ slots.flatMap Slot.texts, PlainText text) ∧
          ∀ items ∈ slots.flatMap Slot.lists, ∀ item ∈ items,
            PlainText item := by decide +kernel
    intro slots member
    exact ⟨fun text isText => ⟨text,
        ((plain slots member).1 text isText).spells⟩,
      fun items isList item isItem => ⟨item,
        ((plain slots member).2 items isList item isItem).spells⟩⟩
  natives := fun entry member => by cases member
  entries := by
    have plain : ∀ entry ∈ (debianSystem plainListing).entries,
        IsName entry.stratum.name ∧
          (entry.pkgs.map ForeignPkg.name).Nodup ∧
            ∀ pkg ∈ entry.pkgs, IsName pkg.name ∧ IsName pkg.version ∧
              PlainText (pkg.digest.getD []) ∧
                digestOk (pkg.digest.getD []) = true := by decide +kernel
    intro entry member
    obtain ⟨name, distinct, pkgs⟩ := plain entry member
    refine ⟨name, distinct, fun pkg inPkgs => ?_⟩
    obtain ⟨pkgName, version, digest, isOk⟩ := pkgs pkg inPkgs
    exact ⟨pkgName, version, digest, isOk⟩

theorem plainSystem_exact : ∃ text,
    lockWrite (debianSystem plainListing) = some text ∧
      (debianSystem plainListing).Exact (ascii "salt.lock") text := by
  have isSome : (lockWrite (debianSystem plainListing)).isSome = true := by
    decide +kernel
  obtain ⟨text, written⟩ := Option.isSome_iff_exists.mp isSome
  exact ⟨text, written, (lockWrite_exact_iff_readable
    (debianSystem_wellFormed plainListing) written _).1
      plainSystem_readable⟩

/-- A package of two architectures has two lines in the listing. -/
def multiarchListing : Bytes :=
  ascii "installed\tlibc6\t2.36-9\ninstalled\tlibc6\t2.36-9\n"

/-- The lockfile of a stratum with such a package is written and then
rejected: `lock_load` finds the package pinned twice. -/
theorem multiarch_not_exact :
    (debianSystem multiarchListing).WellFormed ∧ ∃ text,
      lockWrite (debianSystem multiarchListing) = some text ∧
        ¬ (debianSystem multiarchListing).Exact (ascii "salt.lock") text := by
  refine ⟨debianSystem_wellFormed multiarchListing, ?_⟩
  have isSome :
      (lockWrite (debianSystem multiarchListing)).isSome = true := by
    decide +kernel
  have rejected : lockLoad 9 (ascii "salt.lock")
      (lockWrite (debianSystem multiarchListing)) =
        .ok (.error (ascii
          "salt.lock: stratum debian: libc6 is pinned twice")) := by
    decide +kernel
  obtain ⟨text, written⟩ := Option.isSome_iff_exists.mp isSome
  rw [written] at rejected
  refine ⟨text, written, ?_⟩
  rintro ⟨file, ⟨bound, loads⟩, -⟩
  have isLoaded : lockLoad (bound + 9) (ascii "salt.lock") (some text) =
      .ok (.ok file) := loads (bound + 9) (by omega)
  rcases lockLoad_extends (by omega : 9 ≤ bound + 9) (ascii "salt.lock")
    (some text) with empty | same
  · rw [rejected] at empty
    cases empty
  · rw [same, rejected] at isLoaded
    cases isLoaded

end SaltOS.Lock
