import SaltOS.Lock.LockRoundTrip

/-!
# Written lockfiles are loaded

The tree of a lockfile that `lock_write` writes is accepted by `lock_load` when
no name is empty or comes twice and every digest has its shape.
-/

namespace SaltOS.Lock

open Repo Toml Install

/-! ## What is loaded -/

/-- What is read back for a package. -/
def NativeEntry.locked (entry : NativeEntry) : LockEntry where
  name := spelled entry.row.name
  version := spelled entry.row.version
  release := entry.row.release
  arch := spelled entry.row.arch
  sha256 := entry.pin.sha256
  repo := spelled entry.row.repo
  filename := ((nonEmpty entry.pin.filename).map spelled).getD []

structure NativeEntry.Loads (entry : NativeEntry) : Prop where
  name : spelled entry.row.name ≠ []
  version : spelled entry.row.version ≠ []

def ForeignPkg.locked (pkg : ForeignPkg) : ForeignPin where
  name := spelled pkg.name
  version := spelled pkg.version
  digest := spelled (pkg.digest.getD [])

structure ForeignPkg.Loads (pkg : ForeignPkg) : Prop where
  name : spelled pkg.name ≠ []
  version : spelled pkg.version ≠ []
  digest : digestOk (spelled (pkg.digest.getD [])) = true

def StratumEntry.locked (entry : StratumEntry) : StratumLock where
  name := spelled entry.stratum.name
  family := (entry.stratum.family.map spelled).getD []
  packageManager := (entry.stratum.packageManager.map spelled).getD []
  packages := entry.pkgs.map ForeignPkg.locked

structure StratumEntry.Loads (entry : StratumEntry) : Prop where
  name : spelled entry.stratum.name ≠ []
  pkgs : ∀ pkg ∈ entry.pkgs, pkg.Loads
  distinct : (entry.pkgs.map fun pkg => spelled pkg.name).Nodup

/-- A list is loaded when each of its items is and no name comes twice. -/
theorem loadDistinct_ok_iff {α β : Type} {name : β → Bytes}
    {twice : Bytes → Bytes} {load : Nat → Node → Except Bytes β}
    {node : α → Node} {locked : α → β} {valid : α → Prop} {items : List α}
    (loads : ∀ item ∈ items, ∀ index found,
      load index (node item) = .ok found ↔
        found = locked item ∧ valid item)
    (index : Nat) (seen : List Bytes) (found : List β) :
    loadDistinct name twice load index seen (items.map node) = .ok found ↔
      found = items.map locked ∧ (∀ item ∈ items, valid item) ∧
        (items.map fun item => name (locked item)).Nodup ∧
          ∀ item ∈ items, name (locked item) ∉ seen := by
  induction items generalizing index seen found with
  | nil =>
      simp only [List.map_nil, loadDistinct, Except.ok.injEq]
      exact ⟨fun same => ⟨same.symm, by simp⟩, fun all => all.1.symm⟩
  | cons item items induction =>
      have first := loads item List.mem_cons_self index
      have others := induction
        (fun other member => loads other (List.mem_cons_of_mem item member))
        (index + 1) (name (locked item) :: seen)
      rw [List.map_cons, loadDistinct]
      cases one : load index (node item) with
      | error message =>
          constructor
          · intro isOk
            cases isOk
          · rintro ⟨-, valid, -⟩
            have isOk := (first (locked item)).mpr
              ⟨rfl, valid item List.mem_cons_self⟩
            rw [one] at isOk
            cases isOk
      | ok loaded =>
          obtain ⟨rfl, isValid⟩ := (first loaded).mp one
          by_cases isSeen : name (locked item) ∈ seen
          · simp only [bind, Except.bind, if_pos isSeen]
            constructor
            · intro isOk
              cases isOk
            · rintro ⟨-, -, -, fresh⟩
              exact absurd isSeen (fresh item List.mem_cons_self)
          · simp only [bind, Except.bind, if_neg isSeen]
            cases rest : loadDistinct name twice load (index + 1)
                (name (locked item) :: seen) (items.map node) with
            | error message =>
                constructor
                · intro isOk
                  cases isOk
                · rintro ⟨-, valid, distinct, fresh⟩
                  rw [List.map_cons, List.nodup_cons] at distinct
                  have isOk := (others (items.map locked)).mpr
                    ⟨rfl, fun other member =>
                      valid other (List.mem_cons_of_mem item member),
                    distinct.2, fun other member again => by
                      rcases List.mem_cons.mp again with same | inSeen
                      · exact distinct.1
                          (List.mem_map.mpr ⟨other, member, same⟩)
                      · exact fresh other
                          (List.mem_cons_of_mem item member) inSeen⟩
                  rw [rest] at isOk
                  cases isOk
            | ok found' =>
                obtain ⟨rfl, valid, distinct, fresh⟩ :=
                  (others found').mp rest
                simp only [List.mem_cons, not_or] at fresh
                constructor
                · intro isOk
                  cases isOk
                  refine ⟨rfl, ?_, ?_, ?_⟩
                  · simpa using ⟨isValid, valid⟩
                  · rw [List.map_cons, List.nodup_cons]
                    refine ⟨fun again => ?_, distinct⟩
                    obtain ⟨other, member, same⟩ := List.mem_map.mp again
                    exact (fresh other member).1 same
                  · intro other member
                    rcases List.mem_cons.mp member with rfl | inside
                    · exact isSeen
                    · exact (fresh other inside).2
                · rintro ⟨rfl, -⟩
                  rfl

theorem nonEmptyAt_eq {node : Node} {key : String} {text : Bytes}
    (isText : stringAt node key = some text) :
    nonEmptyAt node key = nonEmpty text := by
  rw [nonEmptyAt, isText, nonEmpty]
  by_cases empty : text = [] <;> simp [Option.filter, empty]

/-- Hex digits stand for themselves. -/
theorem spelled_sha256 {sha256 : Bytes}
    (valid : sha256HexValid sha256 = true) :
    spelled (ascii "sha256:" ++ sha256) = ascii "sha256:" ++ sha256 := by
  simp only [sha256HexValid, Bool.and_eq_true, List.all_eq_true] at valid
  have plainByte : ∀ byte : UInt8, (Bytes.isDigit byte ||
      (decide (97 ≤ byte) && decide (byte ≤ 102))) = true →
        byte ≠ 34 ∧ byte ≠ 92 ∧ byte ≠ 10 ∧ byte ≠ 0 := by
    apply forall_byte
    decide +kernel
  have plain : ∀ byte ∈ ascii "sha256:" ++ sha256,
      byte ≠ 34 ∧ byte ≠ 92 ∧ byte ≠ 10 ∧ byte ≠ 0 := by
    intro byte member
    rcases List.mem_append.mp member with inLabel | inHex
    · have label : ∀ byte ∈ ascii "sha256:",
          byte ≠ 34 ∧ byte ≠ 92 ∧ byte ≠ 10 ∧ byte ≠ 0 := by
        decide +kernel
      exact label byte inLabel
    · exact plainByte byte (valid.1 byte inHex)
  apply PlainText.spelled_eq
  · exact ⟨fun member => (plain _ member).1 rfl,
      fun member => (plain _ member).2.1 rfl,
      fun member => (plain _ member).2.2.1 rfl⟩
  · exact fun member => (plain _ member).2.2.2 rfl

theorem NativeEntry.keys_distinct (entry : NativeEntry) :
    (entry.slots.map fun slot => ascii slot.key).Nodup := by
  change (["name", "version", "release", "arch", "grain_sha256", "filename",
    "repo", "deps"].map ascii).Nodup
  decide

theorem loadEntry_ok_iff {entry : NativeEntry}
    (valid : sha256HexValid entry.pin.sha256 = true)
    (low : -2 ^ 31 ≤ entry.row.release) (high : entry.row.release < 2 ^ 31)
    (path : Bytes) (index : Nat) (found : LockEntry) :
    loadEntry path index (linesNode (slotLines entry.slots)) = .ok found ↔
      found = entry.locked ∧ entry.Loads := by
  have distinct := entry.keys_distinct
  have name := stringAt_slots distinct (by simp [NativeEntry.slots] :
    .text "name" (some entry.row.name) ∈ entry.slots) (by decide)
  have version := stringAt_slots distinct (by simp [NativeEntry.slots] :
    .text "version" (some entry.row.version) ∈ entry.slots) (by decide)
  have arch := stringAt_slots distinct (by simp [NativeEntry.slots] :
    .text "arch" (some entry.row.arch) ∈ entry.slots) (by decide)
  have sha256 := stringAt_slots distinct (by simp [NativeEntry.slots] :
    .text "grain_sha256" (some (ascii "sha256:" ++ entry.pin.sha256)) ∈
      entry.slots) (by decide)
  have filename := stringAt_slots distinct (by simp [NativeEntry.slots] :
    .text "filename" (nonEmpty entry.pin.filename) ∈ entry.slots)
    (by decide)
  have repo := stringAt_slots distinct (by simp [NativeEntry.slots] :
    .text "repo" (some entry.row.repo) ∈ entry.slots) (by decide)
  have release := intAt_slots 1 distinct (by simp [NativeEntry.slots] :
    .number "release" (printInt entry.row.release) entry.row.release ∈
      entry.slots) (by decide)
  have isInt : Pkg.toInt32 entry.row.release = entry.row.release :=
    Pkg.toInt32_eq low high
  have stripped : stripShaPrefix (ascii "sha256:" ++ entry.pin.sha256) =
      entry.pin.sha256 := rfl
  simp only [Option.map_some] at name version arch repo
  simp only [Option.map_some, spelled_sha256 valid] at sha256
  unfold loadEntry
  rw [nonEmptyAt_eq name, nonEmptyAt_eq version]
  unfold nonEmpty
  by_cases noName : spelled entry.row.name = []
  · simp only [noName, if_true]
    exact ⟨fun isOk => (by cases isOk), fun both => absurd noName both.2.name⟩
  by_cases noVersion : spelled entry.row.version = []
  · simp only [noName, noVersion, if_true, if_false]
    exact ⟨fun isOk => (by cases isOk),
      fun both => absurd noVersion both.2.version⟩
  simp only [noName, noVersion, if_false, sha256, Option.some_or,
    Option.elim_some, stripped, valid, not_true_eq_false, arch, repo,
    filename, release, isInt, Option.getD_some, Except.ok.injEq]
  exact ⟨fun same => ⟨same.symm, noName, noVersion⟩,
    fun both => both.1.symm⟩

theorem ForeignPkg.keys_distinct (pkg : ForeignPkg) :
    (pkg.slots.map fun slot => ascii slot.key).Nodup := by
  change (["name", "version", "digest"].map ascii).Nodup
  decide

theorem loadPin_ok_iff (pkg : ForeignPkg) (path stratum : Bytes)
    (index : Nat) (found : ForeignPin) :
    loadPin path stratum index (linesNode (slotLines pkg.slots)) =
      .ok found ↔ found = pkg.locked ∧ pkg.Loads := by
  have distinct := pkg.keys_distinct
  have name := stringAt_slots distinct (by simp [ForeignPkg.slots] :
    .text "name" (some pkg.name) ∈ pkg.slots) (by decide)
  have version := stringAt_slots distinct (by simp [ForeignPkg.slots] :
    .text "version" (some pkg.version) ∈ pkg.slots) (by decide)
  have digest := stringAt_slots distinct (by simp [ForeignPkg.slots] :
    .text "digest" (some (pkg.digest.getD [])) ∈ pkg.slots) (by decide)
  simp only [Option.map_some] at name version digest
  unfold loadPin
  dsimp only
  rw [nonEmptyAt_eq name, nonEmptyAt_eq version, digest]
  unfold nonEmpty
  by_cases noName : spelled pkg.name = []
  · simp only [noName, if_true]
    exact ⟨fun isOk => (by cases isOk), fun both => absurd noName both.2.name⟩
  by_cases noVersion : spelled pkg.version = []
  · simp only [noName, noVersion, if_true, if_false]
    exact ⟨fun isOk => (by cases isOk),
      fun both => absurd noVersion both.2.version⟩
  by_cases isDigest : digestOk (spelled (pkg.digest.getD [])) = true
  · simp only [noName, noVersion, if_false,
      Option.filter_some_pos isDigest, Except.ok.injEq]
    exact ⟨fun same => ⟨same.symm, noName, noVersion, isDigest⟩,
      fun both => both.1.symm⟩
  · have noDigest : (some (spelled (pkg.digest.getD []))).filter digestOk =
        none := Option.filter_some_neg (by simpa using isDigest)
    simp only [noName, noVersion, if_false, noDigest]
    exact ⟨fun isOk => (by cases isOk),
      fun both => absurd both.2.digest isDigest⟩

/-! ## Strata that are loaded -/

/-- What `loadStrata` makes of one table. -/
def loadStratum (path : Bytes) (index : Nat) (node : Node) :
    Except Bytes StratumLock :=
  match nonEmptyAt node "name" with
  | none => .error (path ++ ascii ": stratum entry " ++
      printBase 10 (index + 1) ++ ascii " has no name")
  | some name => do
      let nodes ← arrayAt node "package" (path ++ ascii ": stratum " ++
        name ++ ascii ": 'package' must be an array of tables")
      let packages ← loadDistinct ForeignPin.name
        (fun pin => path ++ ascii ": stratum " ++ name ++ ascii ": " ++
          pin ++ ascii " is pinned twice")
        (loadPin path name) 0 [] nodes
      return {
        name := name
        family := (stringAt node "family").getD []
        packageManager := (stringAt node "package_manager").getD []
        packages := packages }

/-- The checks come in another order, but the same lists are accepted. -/
theorem loadStrata_ok_iff_distinct (path : Bytes) (twice : Bytes → Bytes)
    (index : Nat) (seen : List Bytes) (nodes : List Node)
    (found : List StratumLock) :
    loadStrata path index seen nodes = .ok found ↔
      loadDistinct StratumLock.name twice (loadStratum path) index seen
        nodes = .ok found := by
  induction nodes generalizing index seen found with
  | nil => exact Iff.rfl
  | cons node nodes induction =>
      rw [loadStrata, loadDistinct, loadStratum]
      cases nonEmptyAt node "name" with
      | none => exact ⟨fun isOk => (by cases isOk), fun isOk => (by cases isOk)⟩
      | some name =>
          dsimp only
          cases arrayAt node "package" (path ++ ascii ": stratum " ++
              name ++ ascii ": 'package' must be an array of tables") with
          | error message =>
              by_cases isSeen : name ∈ seen
              · simp [bind, Except.bind, isSeen, throw, throwThe,
                  MonadExceptOf.throw]
              · simp [bind, Except.bind, isSeen]
          | ok items =>
              simp only [bind, Except.bind]
              cases loadDistinct ForeignPin.name
                  (fun pin => path ++ ascii ": stratum " ++ name ++
                    ascii ": " ++ pin ++ ascii " is pinned twice")
                  (loadPin path name) 0 [] items with
              | error message =>
                  by_cases isSeen : name ∈ seen
                  · simp [isSeen, throw, throwThe, MonadExceptOf.throw]
                  · simp [isSeen]
              | ok packages =>
                  by_cases isSeen : name ∈ seen
                  · simp [isSeen, throw, throwThe, MonadExceptOf.throw,
                      pure, Except.pure]
                  · have others := induction (index + 1) (name :: seen)
                    simp only [isSeen, if_false, pure, Except.pure]
                    cases first : loadStrata path (index + 1)
                        (name :: seen) nodes with
                    | error message =>
                        cases second : loadDistinct StratumLock.name twice
                            (loadStratum path) (index + 1) (name :: seen)
                            nodes with
                        | error other => simp
                        | ok rest =>
                            have isOk := (others rest).mpr second
                            rw [first] at isOk
                            cases isOk
                    | ok rest =>
                        rw [(others rest).mp first]

/-- What is done with the only value that a computation returns. -/
theorem bind_ok_iff {ε α β : Type} {run : Except ε α} {value : α}
    {valid : Prop} (returns : ∀ found, run = .ok found ↔ found = value ∧ valid)
    (next : α → Except ε β) (result : β) :
    (run >>= next) = .ok result ↔ valid ∧ next value = .ok result := by
  cases run with
  | error message =>
      constructor
      · intro isOk
        cases isOk
      · rintro ⟨isValid, -⟩
        cases (returns value).mpr ⟨rfl, isValid⟩
  | ok found =>
      obtain ⟨rfl, isValid⟩ := (returns found).mp rfl
      exact ⟨fun isOk => ⟨isValid, isOk⟩, fun both => both.2⟩

theorem arrayAt_of_tableGet {table : Table} {key : String}
    {items : List Node}
    (found : tableGet table (ascii key) =
      if items = [] then none else some (.arr items)) (notArray : Bytes) :
    arrayAt (.tab table) key notArray = .ok items := by
  rw [arrayAt, found]
  by_cases empty : items = []
  · rw [if_pos empty, empty]
  · rw [if_neg empty]

section

variable (entry : StratumEntry)

theorem StratumEntry.keys_distinct :
    (entry.slots.map fun slot => ascii slot.key).Nodup := by
  change (["name", "family", "package_manager", "bootstrap_url",
    "bootstrap_sha256"].map ascii).Nodup
  decide

/-- The packages and the snapshots of a stratum hide none of its texts. -/
theorem stringAt_stratum {key : String} {text : Option Bytes}
    (member : .text key text ∈ entry.slots)
    (notPackage : packageKey ≠ ascii key)
    (notSnapshot : ascii "repo_snapshot" ≠ ascii key)
    (segment : Segment (ascii key)) :
    stringAt entry.node key = text.map spelled := by
  have differ : ascii key ∉
      (slotLines entry.snapshots).map Line.key := by
    intro inLines
    have inKeys := key_of_mem_slotLines inLines
    simp only [StratumEntry.snapshots, List.map_map, List.mem_map,
      Function.comp_apply, Slot.key] at inKeys
    obtain ⟨_, -, same⟩ := inKeys
    exact notSnapshot same
  have inTable : stringAt entry.node key =
      stringAt (linesNode entry.nest.1) key := by
    rw [stringAt, stringAt, StratumEntry.node, nestedNode, linesNode,
      getPath_bare segment, getPath_bare segment,
      tableGet_withTables_other notPackage]
  rw [inTable, StratumEntry.nest, slotLines_append,
    stringAt_append differ segment]
  exact stringAt_slots entry.keys_distinct member segment

theorem arrayAt_packages (notArray : Bytes) :
    arrayAt entry.node "package" notArray =
      .ok (entry.pkgs.map fun pkg => linesNode (slotLines pkg.slots)) := by
  have found := tableGet_withTables (tableGet_base entry.package_new)
    (entry.nest.2.map linesNode)
  have nodes : entry.nest.2.map linesNode =
      entry.pkgs.map fun pkg => linesNode (slotLines pkg.slots) := by
    simp [StratumEntry.nest]
  rw [nodes] at found
  rw [StratumEntry.node, nestedNode, nodes]
  exact arrayAt_of_tableGet found notArray

theorem loadStratum_ok_iff (path : Bytes) (index : Nat)
    (found : StratumLock) :
    loadStratum path index entry.node = .ok found ↔
      found = entry.locked ∧ entry.Loads := by
  have name := stringAt_stratum entry (by simp [StratumEntry.slots] :
    .text "name" (some entry.stratum.name) ∈ entry.slots) (by decide)
    (by decide) (by decide)
  have family := stringAt_stratum entry (by simp [StratumEntry.slots] :
    .text "family" entry.stratum.family ∈ entry.slots) (by decide)
    (by decide) (by decide)
  have manager := stringAt_stratum entry (by simp [StratumEntry.slots] :
    .text "package_manager" entry.stratum.packageManager ∈ entry.slots)
    (by decide) (by decide) (by decide)
  simp only [Option.map_some] at name
  unfold loadStratum
  rw [nonEmptyAt_eq name]
  unfold nonEmpty
  by_cases noName : spelled entry.stratum.name = []
  · simp only [noName, if_true]
    exact ⟨fun isOk => (by cases isOk), fun both => absurd noName both.2.name⟩
  have pins : ∀ found, loadDistinct ForeignPin.name
      (fun pin => path ++ ascii ": stratum " ++
        spelled entry.stratum.name ++ ascii ": " ++ pin ++
        ascii " is pinned twice")
      (loadPin path (spelled entry.stratum.name)) 0 []
      (entry.pkgs.map fun pkg => linesNode (slotLines pkg.slots)) =
        .ok found ↔ found = entry.pkgs.map ForeignPkg.locked ∧
          (∀ pkg ∈ entry.pkgs, pkg.Loads) ∧
            (entry.pkgs.map fun pkg => spelled pkg.name).Nodup := by
    intro found
    rw [loadDistinct_ok_iff fun pkg _ index found =>
      loadPin_ok_iff pkg path (spelled entry.stratum.name) index found]
    simp [ForeignPkg.locked]
  simp only [noName, if_false, arrayAt_packages, family, manager]
  change (loadDistinct _ _ _ 0 [] _ >>= _) = _ ↔ _
  rw [bind_ok_iff pins]
  constructor
  · rintro ⟨⟨loads, distinct⟩, isOk⟩
    cases isOk
    exact ⟨rfl, noName, loads, distinct⟩
  · rintro ⟨rfl, valid⟩
    exact ⟨⟨valid.pkgs, valid.distinct⟩, rfl⟩

end

/-! ## Files that are loaded -/

/-- What is read back for a whole system. -/
def System.locked (system : System) : LockFile where
  native := system.natives.map NativeEntry.locked
  strata := system.entries.map StratumEntry.locked

structure System.Loads (system : System) : Prop where
  natives : ∀ entry ∈ system.natives, entry.Loads
  nativesDistinct :
    (system.natives.map fun entry => spelled entry.row.name).Nodup
  entries : ∀ entry ∈ system.entries, entry.Loads
  entriesDistinct :
    (system.entries.map fun entry => spelled entry.stratum.name).Nodup

theorem loadTree_ok_iff {system : System}
    (valid : ∀ entry ∈ system.natives,
      sha256HexValid entry.pin.sha256 = true)
    (release : ∀ entry ∈ system.natives,
      -2 ^ 31 ≤ entry.row.release ∧ entry.row.release < 2 ^ 31)
    (path : Bytes) (file : LockFile) :
    loadTree path system.tree = .ok file ↔
      file = system.locked ∧ system.Loads := by
  have nativeFound : tableGet system.tree nativeKey = _ :=
    (tableGet_withTables_other (by decide) _).trans
      (tableGet_withTables (native_new system) _)
  have stratumFound : tableGet system.tree stratumKey = _ :=
    tableGet_withTables (stratum_new system _) _
  have natives : ∀ found, loadDistinct LockEntry.name
      (fun name => path ++ ascii ": " ++ name ++ ascii " is pinned twice")
      (loadEntry path) 0 []
      (system.natives.map fun entry => linesNode (slotLines entry.slots)) =
        .ok found ↔ found = system.natives.map NativeEntry.locked ∧
          (∀ entry ∈ system.natives, entry.Loads) ∧
            (system.natives.map fun entry =>
              spelled entry.row.name).Nodup := by
    intro found
    rw [loadDistinct_ok_iff fun entry member index found =>
      loadEntry_ok_iff (valid entry member) (release entry member).1
        (release entry member).2 path index found]
    simp [NativeEntry.locked]
  have strata : ∀ found, loadStrata path 0 []
      (system.entries.map StratumEntry.node) = .ok found ↔
        found = system.entries.map StratumEntry.locked ∧
          (∀ entry ∈ system.entries, entry.Loads) ∧
            (system.entries.map fun entry =>
              spelled entry.stratum.name).Nodup := by
    intro found
    rw [loadStrata_ok_iff_distinct path id, loadDistinct_ok_iff
      fun entry _ index found => loadStratum_ok_iff entry path index found]
    simp [StratumEntry.locked]
  rw [loadTree, arrayAt_of_tableGet nativeFound]
  change (loadDistinct _ _ _ 0 [] _ >>= _) = _ ↔ _
  rw [bind_ok_iff natives, arrayAt_of_tableGet stratumFound]
  change _ ∧ (loadStrata path 0 [] _ >>= _) = _ ↔ _
  rw [bind_ok_iff strata]
  constructor
  · rintro ⟨⟨nativesLoad, distinct⟩, ⟨entriesLoad, others⟩, isOk⟩
    cases isOk
    exact ⟨rfl, nativesLoad, distinct, entriesLoad, others⟩
  · rintro ⟨rfl, loads⟩
    exact ⟨⟨loads.natives, loads.nativesDistinct⟩,
      ⟨loads.entries, loads.entriesDistinct⟩, rfl⟩

end SaltOS.Lock
