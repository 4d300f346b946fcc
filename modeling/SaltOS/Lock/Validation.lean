import SaltOS.Lock.LockLoads

/-!
# Which lockfiles are accepted

The rules that the documentation lists under "Validation on load", those that
`lock_load` checks, and when they accept the same trees.
-/

namespace SaltOS.Lock

open Repo Toml Install

/-! ## Trees -/

/-- The value that a table has for a key. -/
def fieldOf (node : Node) (key : String) : Option Node :=
  match node with
  | .tab table => tableGet table (ascii key)
  | _ => none

/-- A field is a text with a property. -/
def HasText (node : Node) (key : String) (property : Bytes → Prop) : Prop :=
  ∃ text, fieldOf node key = some (.str text) ∧ property text

/-- A field is an array of tables with a property, each name once. -/
def IsList (items : List Node) (property : Node → Prop) : Prop :=
  (∀ item ∈ items, property item) ∧
    items.Pairwise fun one other => ∀ name,
      fieldOf one "name" = some (.str name) →
        fieldOf other "name" ≠ some (.str name)

/-! ## The documented rules -/

/-- A digest of 64 lowercase hex digits, with or without its prefix. -/
def DocumentedHash (text : Bytes) : Prop :=
  ∃ hex, sha256HexValid hex = true ∧
    (text = hex ∨ text = ascii "sha256:" ++ hex)

structure DocumentedEntry (node : Node) : Prop where
  name : HasText node "name" (· ≠ [])
  version : HasText node "version" (· ≠ [])
  release : ∃ release, fieldOf node "release" = some (.int release) ∧
    0 < release
  sha256 : HasText node "grain_sha256" DocumentedHash

/-- A digest `<kind>:<value>`. -/
def DocumentedDigest (text : Bytes) : Prop :=
  ∃ kind value, text = kind ++ 58 :: value ∧ 58 ∉ kind ∧ kind ≠ [] ∧
    value ≠ []

structure DocumentedPin (node : Node) : Prop where
  name : HasText node "name" (· ≠ [])
  version : HasText node "version" (· ≠ [])
  digest : HasText node "digest" DocumentedDigest

structure DocumentedStratum (node : Node) : Prop where
  name : HasText node "name" (· ≠ [])
  packages : ∀ value, fieldOf node "package" = some value →
    ∃ items, value = .arr items ∧ IsList items DocumentedPin

/-- What "Validation on load" asks of a lockfile. -/
structure Documented (root : Table) : Prop where
  native : ∃ items, fieldOf (.tab root) "native" = some (.arr items) ∧
    IsList items DocumentedEntry
  strata : ∀ value, fieldOf (.tab root) "stratum" = some value →
    ∃ items, value = .arr items ∧ IsList items DocumentedStratum

/-! ## The checked rules -/

/-- A hash may come under its older key. -/
structure CheckedEntry (node : Node) : Prop where
  name : HasText node "name" (· ≠ [])
  version : HasText node "version" (· ≠ [])
  sha256 : HasText node "grain_sha256" DocumentedHash ∨
    (∀ text, fieldOf node "grain_sha256" ≠ some (.str text)) ∧
      HasText node "sha256" DocumentedHash

/-- A kind may be empty. -/
def CheckedDigest (text : Bytes) : Prop :=
  ∃ kind value, text = kind ++ 58 :: value ∧ 58 ∉ kind ∧ value ≠ []

structure CheckedPin (node : Node) : Prop where
  name : HasText node "name" (· ≠ [])
  version : HasText node "version" (· ≠ [])
  digest : HasText node "digest" CheckedDigest

structure CheckedStratum (node : Node) : Prop where
  name : HasText node "name" (· ≠ [])
  packages : ∀ value, fieldOf node "package" = some value →
    ∃ items, value = .arr items ∧ IsList items CheckedPin

/-- What `lock_load` checks; no entry at all is needed. -/
structure Checked (root : Table) : Prop where
  native : ∀ value, fieldOf (.tab root) "native" = some value →
    ∃ items, value = .arr items ∧ IsList items CheckedEntry
  strata : ∀ value, fieldOf (.tab root) "stratum" = some value →
    ∃ items, value = .arr items ∧ IsList items CheckedStratum

/-! ## What the checks leave open -/

/-- Nothing is left to a default: an entry spells its hash and a positive
release out. -/
structure SpelledEntry (node : Node) : Prop where
  release : ∃ release, fieldOf node "release" = some (.int release) ∧
    0 < release
  sha256 : ∃ text, fieldOf node "grain_sha256" = some (.str text)

/-- No digest of the packages of a stratum starts with its colon. -/
def KindsNamed (node : Node) : Prop :=
  ∀ items, fieldOf node "package" = some (.arr items) →
    ∀ item ∈ items, ∀ text, fieldOf item "digest" = some (.str text) →
      text.head? ≠ some 58

structure SpelledOut (root : Table) : Prop where
  native : ∃ items, fieldOf (.tab root) "native" = some (.arr items) ∧
    ∀ item ∈ items, SpelledEntry item
  strata : ∀ items, fieldOf (.tab root) "stratum" = some (.arr items) →
    ∀ item ∈ items, KindsNamed item

/-! ## Reading fields -/

theorem getPath_segment {key : Bytes} (segment : Segment key) (node : Node) :
    getPath node key = segmentGet key node := by
  have read := path_cons key.length node segment (.inl rfl)
  rw [List.append_nil] at read
  rw [getPath, read]
  cases found : segmentGet key node with
  | none => rfl
  | some value =>
      cases key with
      | nil => exact absurd rfl segment.nonempty
      | cons first more => simp [path]

theorem stringAt_iff {node : Node} {key : String} {text : Bytes}
    (segment : Segment (ascii key)) (noIndex : segmentIndex (ascii key) = none) :
    stringAt node key = some text ↔ fieldOf node key = some (.str text) := by
  rw [stringAt, getPath_segment segment]
  cases node with
  | tab table =>
      rw [segmentGet, fieldOf]
      cases tableGet table (ascii key) with
      | none => simp
      | some value => cases value <;> simp [asString]
  | arr items => simp [segmentGet, noIndex, fieldOf]
  | str text => simp [segmentGet, fieldOf]
  | int value => simp [segmentGet, fieldOf]
  | bool value => simp [segmentGet, fieldOf]

theorem nonEmptyAt_iff {node : Node} {key : String} {text : Bytes}
    (segment : Segment (ascii key)) (noIndex : segmentIndex (ascii key) = none) :
    nonEmptyAt node key = some text ↔
      fieldOf node key = some (.str text) ∧ text ≠ [] := by
  rw [nonEmptyAt, Option.filter_eq_some_iff, stringAt_iff segment noIndex]
  simp

theorem nonEmptyAt_isSome {node : Node} {key : String}
    (segment : Segment (ascii key)) (noIndex : segmentIndex (ascii key) = none) :
    HasText node key (· ≠ []) ↔ ∃ text, nonEmptyAt node key = some text := by
  simp only [nonEmptyAt_iff segment noIndex]
  rfl

/-! ## Hashes and digests -/

theorem stripShaPrefix_valid_iff (text : Bytes) :
    sha256HexValid (stripShaPrefix text) = true ↔ DocumentedHash text := by
  rw [stripShaPrefix]
  constructor
  · intro valid
    split at valid
    · rename_i isPrefix
      obtain ⟨hex, rfl⟩ := List.isPrefixOf_iff_prefix.mp isPrefix
      exact ⟨hex, valid, .inr rfl⟩
    · exact ⟨text, valid, .inl rfl⟩
  · rintro ⟨hex, valid, rfl | rfl⟩
    · -- The prefix does not start with a hex digit.
      have noPrefix : ¬ (ascii "sha256:").isPrefixOf text = true := by
        intro isPrefix
        obtain ⟨rest, rfl⟩ := List.isPrefixOf_iff_prefix.mp isPrefix
        rw [sha256HexValid, Bool.and_eq_true, List.all_eq_true] at valid
        have digit := valid.1 115 (by simp [ascii])
        revert digit
        decide
      rwa [if_neg noPrefix]
    · have isPrefix : (ascii "sha256:").isPrefixOf
          (ascii "sha256:" ++ hex) = true :=
        List.isPrefixOf_iff_prefix.mpr (List.prefix_append _ _)
      rw [if_pos isPrefix]
      exact valid

theorem digestOk_iff (text : Bytes) :
    digestOk text = true ↔ CheckedDigest text := by
  rw [digestOk, decide_eq_true_iff]
  constructor
  · intro long
    have split := @List.takeWhile_append_dropWhile _ (· != 58) text
    cases rest : text.dropWhile (· != 58) with
    | nil =>
        rw [rest] at long
        simp at long
    | cons colon value =>
        have isColon : colon = 58 := by
          have first := List.head?_dropWhile_not (· != 58) text
          rw [rest] at first
          simpa using first
        subst isColon
        rw [rest] at long split
        refine ⟨text.takeWhile (· != 58), value, split.symm, ?_, ?_⟩
        · intro member
          have differs := List.mem_takeWhile_imp member
          simp at differs
        · rintro rfl
          simp at long
  · rintro ⟨kind, value, rfl, noColon, notEmpty⟩
    have dropped : (kind ++ 58 :: value).dropWhile (· != 58) =
        58 :: value := by
      rw [List.dropWhile_append_of_pos]
      · rfl
      · intro byte member
        simpa using fun isColon : byte = 58 => noColon (isColon ▸ member)
    rw [dropped, List.length_cons]
    have long := List.length_pos_of_ne_nil notEmpty
    omega

/-! ## Entries -/

/-- What is loaded of an entry. -/
def entryOf (node : Node) : LockEntry where
  name := (stringAt node "name").getD []
  version := (stringAt node "version").getD []
  release := Pkg.toInt32 (intAt node "release" 1)
  arch := (stringAt node "arch").getD []
  sha256 := ((stringAt node "grain_sha256").or
    (stringAt node "sha256")).elim [] stripShaPrefix
  repo := (stringAt node "repo").getD (ascii "current")
  filename := (stringAt node "filename").getD []

theorem getD_of_nonEmptyAt {node : Node} {key : String} {text : Bytes}
    (found : nonEmptyAt node key = some text) :
    (stringAt node key).getD [] = text := by
  rw [nonEmptyAt, Option.filter_eq_some_iff] at found
  rw [found.1, Option.getD_some]

theorem entryOf_sha256_valid_iff (node : Node) :
    sha256HexValid (entryOf node).sha256 = true ↔
      HasText node "grain_sha256" DocumentedHash ∨
        (∀ text, fieldOf node "grain_sha256" ≠ some (.str text)) ∧
          HasText node "sha256" DocumentedHash := by
  have grain := fun text => @stringAt_iff node "grain_sha256" text (by decide)
    (by decide)
  have older := fun text => @stringAt_iff node "sha256" text (by decide)
    (by decide)
  rw [entryOf]
  simp only [HasText, ne_eq, ← grain, ← older, ← stripShaPrefix_valid_iff]
  cases stringAt node "grain_sha256" with
  | some text => simp
  | none =>
      cases stringAt node "sha256" with
      | some text => simp
      | none => simp [sha256HexValid]

theorem loadEntry_iff (path : Bytes) (index : Nat) (node : Node)
    (found : LockEntry) :
    loadEntry path index node = .ok found ↔
      found = entryOf node ∧ CheckedEntry node := by
  have hasName := @nonEmptyAt_isSome node "name" (by decide) (by decide)
  have hasVersion := @nonEmptyAt_isSome node "version" (by decide)
    (by decide)
  have hash := entryOf_sha256_valid_iff node
  unfold loadEntry
  cases isName : nonEmptyAt node "name" with
  | none =>
      rw [isName] at hasName
      exact ⟨fun isOk => (by cases isOk),
        fun both => by simpa using hasName.mp both.2.name⟩
  | some name =>
      cases isVersion : nonEmptyAt node "version" with
      | none =>
          rw [isVersion] at hasVersion
          exact ⟨fun isOk => (by cases isOk),
            fun both => by simpa using hasVersion.mp both.2.version⟩
      | some version =>
          dsimp only
          by_cases valid : sha256HexValid (entryOf node).sha256 = true
          · have isEntry : entryOf node = {
                name := name
                version := version
                release := Pkg.toInt32 (intAt node "release" 1)
                arch := (stringAt node "arch").getD []
                sha256 := (entryOf node).sha256
                repo := (stringAt node "repo").getD (ascii "current")
                filename := (stringAt node "filename").getD [] } := by
              rw [← getD_of_nonEmptyAt isName, ← getD_of_nonEmptyAt isVersion]
              rfl
            have checked : CheckedEntry node :=
              ⟨hasName.mpr ⟨name, isName⟩, hasVersion.mpr ⟨version, isVersion⟩,
                hash.mp valid⟩
            rw [isEntry]
            change (if ¬ sha256HexValid (entryOf node).sha256 = true then _
              else _) = _ ↔ _
            rw [if_neg (not_not.mpr valid), Except.ok.injEq]
            exact ⟨fun same => ⟨same.symm, checked⟩, fun both => both.1.symm⟩
          · change (if ¬ sha256HexValid (entryOf node).sha256 = true then _
              else _) = _ ↔ _
            rw [if_pos valid]
            exact ⟨fun isOk => (by cases isOk),
              fun both => absurd (hash.mpr both.2.sha256) valid⟩

/-! ## Lists -/

theorem names_nodup_iff {items : List Node}
    (named : ∀ item ∈ items, HasText item "name" (· ≠ [])) :
    (items.map fun item => (stringAt item "name").getD []).Nodup ↔
      items.Pairwise fun one other => ∀ name,
        fieldOf one "name" = some (.str name) →
          fieldOf other "name" ≠ some (.str name) := by
  have names := fun node text => @stringAt_iff node "name" text (by decide)
    (by decide)
  rw [List.Nodup, List.pairwise_map]
  apply List.Pairwise.iff_of_mem
  intro one other isOne isOther
  obtain ⟨name, isName, -⟩ := named one isOne
  obtain ⟨name', isName', -⟩ := named other isOther
  rw [(names one name).mpr isName, (names other name').mpr isName', isName,
    isName']
  simp [eq_comm]

/-- A list is loaded when each item is and no name comes twice. -/
theorem loadDistinct_iff {β : Type} {name : β → Bytes}
    {twice : Bytes → Bytes} {load : Nat → Node → Except Bytes β}
    {itemOf : Node → β} {checked : Node → Prop}
    (loads : ∀ index node found,
      load index node = .ok found ↔ found = itemOf node ∧ checked node)
    (isName : ∀ node, name (itemOf node) = (stringAt node "name").getD [])
    (named : ∀ node, checked node → HasText node "name" (· ≠ []))
    (items : List Node) (found : List β) :
    loadDistinct name twice load 0 [] items = .ok found ↔
      found = items.map itemOf ∧ IsList items checked := by
  have lists := @loadDistinct_ok_iff Node β name twice load id itemOf checked
    items (fun item _ index found => loads index item found) 0 [] found
  rw [List.map_id] at lists
  simp only [isName] at lists
  rw [lists, IsList]
  constructor
  · rintro ⟨isFound, all, distinct, -⟩
    exact ⟨isFound, all, (names_nodup_iff
      fun item member => named item (all item member)).mp distinct⟩
  · rintro ⟨isFound, all, distinct⟩
    exact ⟨isFound, all, (names_nodup_iff
      fun item member => named item (all item member)).mpr distinct, by simp⟩

theorem arrayAt_iff (node : Node) (key : String) (notArray : Bytes)
    (items : List Node) :
    arrayAt node key notArray = .ok items ↔
      items = arrayItems (fieldOf node key) ∧
        ∀ value, fieldOf node key = some value →
          ∃ items, value = .arr items := by
  cases node with
  | tab table =>
      simp only [arrayAt, fieldOf]
      cases tableGet table (ascii key) with
      | none => simp [arrayItems, eq_comm]
      | some value => cases value <;> simp [arrayItems, eq_comm]
  | _ => simp [arrayAt, fieldOf, arrayItems, eq_comm]

/-! ## Packages and strata -/

def pinOf (node : Node) : ForeignPin where
  name := (stringAt node "name").getD []
  version := (stringAt node "version").getD []
  digest := (stringAt node "digest").getD []

theorem loadPin_iff (path stratum : Bytes) (index : Nat) (node : Node)
    (found : ForeignPin) :
    loadPin path stratum index node = .ok found ↔
      found = pinOf node ∧ CheckedPin node := by
  have hasName := @nonEmptyAt_isSome node "name" (by decide) (by decide)
  have hasVersion := @nonEmptyAt_isSome node "version" (by decide)
    (by decide)
  have hasDigest : HasText node "digest" CheckedDigest ↔
      ∃ digest, (stringAt node "digest").filter digestOk = some digest := by
    have digests := fun text => @stringAt_iff node "digest" text (by decide)
      (by decide)
    simp only [HasText, ← digests, ← digestOk_iff,
      Option.filter_eq_some_iff]
  unfold loadPin
  dsimp only
  cases isName : nonEmptyAt node "name" with
  | none =>
      rw [isName] at hasName
      exact ⟨fun isOk => (by cases isOk),
        fun both => by simpa using hasName.mp both.2.name⟩
  | some name =>
      cases isVersion : nonEmptyAt node "version" with
      | none =>
          rw [isVersion] at hasVersion
          exact ⟨fun isOk => (by cases isOk),
            fun both => by simpa using hasVersion.mp both.2.version⟩
      | some version =>
          cases isDigest : (stringAt node "digest").filter digestOk with
          | none =>
              rw [isDigest] at hasDigest
              exact ⟨fun isOk => (by cases isOk),
                fun both => by simpa using hasDigest.mp both.2.digest⟩
          | some digest =>
              have isPin : pinOf node = ⟨name, version, digest⟩ := by
                rw [pinOf, getD_of_nonEmptyAt isName,
                  getD_of_nonEmptyAt isVersion,
                  (Option.filter_eq_some_iff.mp isDigest).1,
                  Option.getD_some]
              rw [isPin, Except.ok.injEq]
              exact ⟨fun same => ⟨same.symm, hasName.mpr ⟨name, isName⟩,
                hasVersion.mpr ⟨version, isVersion⟩,
                hasDigest.mpr ⟨digest, isDigest⟩⟩, fun both => both.1.symm⟩

def stratumOf (node : Node) : StratumLock where
  name := (stringAt node "name").getD []
  family := (stringAt node "family").getD []
  packageManager := (stringAt node "package_manager").getD []
  packages := (arrayItems (fieldOf node "package")).map pinOf

/-- Lists that a table may lack are loaded item by item. -/
theorem arrayAt_lists_iff {node : Node} {key : String}
    {property : Node → Prop} :
    ((∀ value, fieldOf node key = some value →
        ∃ items, value = .arr items) ∧
      IsList (arrayItems (fieldOf node key)) property) ↔
      ∀ value, fieldOf node key = some value →
        ∃ items, value = .arr items ∧ IsList items property := by
  cases fieldOf node key with
  | none => simp [IsList, arrayItems]
  | some value =>
      simp only [Option.some.injEq, forall_eq']
      constructor
      · rintro ⟨⟨items, rfl⟩, lists⟩
        exact ⟨items, rfl, lists⟩
      · rintro ⟨items, rfl, lists⟩
        exact ⟨⟨items, rfl⟩, lists⟩

/-- Loading the list of a key, which a table may lack. -/
theorem bind_list_iff {β γ : Type} {node : Node} {key : String}
    {notArray : Bytes} {loadAll : List Node → Except Bytes (List β)}
    {itemOf : Node → β} {checked : Node → Prop}
    (loads : ∀ items found, loadAll items = .ok found ↔
      found = items.map itemOf ∧ IsList items checked)
    (next : List β → Except Bytes γ) (result : γ) :
    (arrayAt node key notArray >>= fun items =>
      loadAll items >>= next) = .ok result ↔
      (∀ value, fieldOf node key = some value →
        ∃ items, value = .arr items ∧ IsList items checked) ∧
      next ((arrayItems (fieldOf node key)).map itemOf) = .ok result := by
  rw [bind_ok_iff (arrayAt_iff node key notArray), bind_ok_iff (loads _),
    ← and_assoc, arrayAt_lists_iff]

theorem loadStratum_iff (path : Bytes) (index : Nat) (node : Node)
    (found : StratumLock) :
    loadStratum path index node = .ok found ↔
      found = stratumOf node ∧ CheckedStratum node := by
  have hasName := @nonEmptyAt_isSome node "name" (by decide) (by decide)
  unfold loadStratum
  cases isName : nonEmptyAt node "name" with
  | none =>
      rw [isName] at hasName
      exact ⟨fun isOk => (by cases isOk),
        fun both => by simpa using hasName.mp both.2.name⟩
  | some name =>
      dsimp only
      rw [bind_list_iff (loadDistinct_iff (loadPin_iff path name)
        (fun _ => rfl) (fun _ checked => checked.name))]
      have isStratum : stratumOf node = {
          name := name
          family := (stringAt node "family").getD []
          packageManager := (stringAt node "package_manager").getD []
          packages := (arrayItems (fieldOf node "package")).map pinOf } := by
        rw [stratumOf, getD_of_nonEmptyAt isName]
      rw [isStratum]
      constructor
      · rintro ⟨packages, isOk⟩
        cases isOk
        exact ⟨rfl, hasName.mpr ⟨name, isName⟩, packages⟩
      · rintro ⟨rfl, -, packages⟩
        exact ⟨packages, rfl⟩

/-! ## Lockfiles -/

/-- What is loaded of a tree. -/
def fileOf (root : Table) : LockFile where
  native := (arrayItems (fieldOf (.tab root) "native")).map entryOf
  strata := (arrayItems (fieldOf (.tab root) "stratum")).map stratumOf

theorem loadTree_iff (path : Bytes) (root : Table) (file : LockFile) :
    loadTree path root = .ok file ↔ file = fileOf root ∧ Checked root := by
  have strata : ∀ items found, loadStrata path 0 [] items = .ok found ↔
      found = items.map stratumOf ∧ IsList items CheckedStratum := by
    intro items found
    rw [loadStrata_ok_iff_distinct path id]
    exact loadDistinct_iff (loadStratum_iff path) (fun _ => rfl)
      (fun _ checked => checked.name) items found
  unfold loadTree
  rw [bind_list_iff (loadDistinct_iff (loadEntry_iff path) (fun _ => rfl)
    (fun _ checked => checked.name)), bind_list_iff strata]
  constructor
  · rintro ⟨native, strata, isOk⟩
    cases isOk
    exact ⟨rfl, native, strata⟩
  · rintro ⟨rfl, native, strata⟩
    exact ⟨native, strata, rfl⟩

/-! ## Where the rules agree -/

theorem IsList.mono {items : List Node} {property other : Node → Prop}
    (list : IsList items property)
    (implies : ∀ item ∈ items, property item → other item) :
    IsList items other :=
  ⟨fun item member => implies item member (list.1 item member), list.2⟩

theorem documentedEntry_iff (node : Node) :
    DocumentedEntry node ↔ CheckedEntry node ∧ SpelledEntry node := by
  constructor
  · intro documented
    obtain ⟨text, isText, valid⟩ := documented.sha256
    exact ⟨⟨documented.name, documented.version, .inl documented.sha256⟩,
      documented.release, text, isText⟩
  · rintro ⟨checked, release, text, isText⟩
    refine ⟨checked.name, checked.version, release, ?_⟩
    rcases checked.sha256 with hash | ⟨missing, -⟩
    · exact hash
    · exact absurd isText (missing text)

theorem documentedDigest_iff (text : Bytes) :
    DocumentedDigest text ↔ CheckedDigest text ∧ text.head? ≠ some 58 := by
  constructor
  · rintro ⟨kind, value, rfl, noColon, hasKind, hasValue⟩
    refine ⟨⟨kind, value, rfl, noColon, hasValue⟩, ?_⟩
    obtain ⟨byte, rest, rfl⟩ := List.exists_cons_of_ne_nil hasKind
    rintro isColon
    cases isColon
    exact noColon List.mem_cons_self
  · rintro ⟨⟨kind, value, rfl, noColon, hasValue⟩, named⟩
    refine ⟨kind, value, rfl, noColon, ?_, hasValue⟩
    rintro rfl
    exact named rfl

theorem documentedPin_iff (node : Node) :
    DocumentedPin node ↔ CheckedPin node ∧ ∀ text,
      fieldOf node "digest" = some (.str text) → text.head? ≠ some 58 := by
  constructor
  · intro documented
    obtain ⟨text, isText, digest⟩ := documented.digest
    obtain ⟨checked, named⟩ := (documentedDigest_iff text).mp digest
    refine ⟨⟨documented.name, documented.version, text, isText, checked⟩, ?_⟩
    intro other isOther
    rw [isText] at isOther
    cases isOther
    exact named
  · rintro ⟨checked, named⟩
    obtain ⟨text, isText, digest⟩ := checked.digest
    exact ⟨checked.name, checked.version, text, isText,
      (documentedDigest_iff text).mpr ⟨digest, named text isText⟩⟩

theorem documentedStratum_iff (node : Node) :
    DocumentedStratum node ↔ CheckedStratum node ∧ KindsNamed node := by
  constructor
  · intro documented
    constructor
    · refine ⟨documented.name, fun value isValue => ?_⟩
      obtain ⟨items, rfl, list⟩ := documented.packages value isValue
      exact ⟨items, rfl, list.mono
        fun item _ pin => ((documentedPin_iff item).mp pin).1⟩
    · intro items isItems item member
      obtain ⟨_, same, list⟩ := documented.packages _ isItems
      cases same
      exact ((documentedPin_iff item).mp (list.1 item member)).2
  · rintro ⟨checked, named⟩
    refine ⟨checked.name, fun value isValue => ?_⟩
    obtain ⟨items, rfl, list⟩ := checked.packages value isValue
    exact ⟨items, rfl, list.mono fun item member pin =>
      (documentedPin_iff item).mpr ⟨pin, named items isValue item member⟩⟩

theorem documented_iff (root : Table) :
    Documented root ↔ Checked root ∧ SpelledOut root := by
  constructor
  · intro documented
    obtain ⟨natives, isNative, native⟩ := documented.native
    have strata := documented.strata
    refine ⟨⟨fun value isValue => ?_, fun value isValue => ?_⟩,
      ⟨natives, isNative, fun item member =>
        ((documentedEntry_iff item).mp (native.1 item member)).2⟩,
      fun items isItems item member => ?_⟩
    · rw [isNative] at isValue
      cases isValue
      exact ⟨natives, rfl, native.mono
        fun item _ entry => ((documentedEntry_iff item).mp entry).1⟩
    · obtain ⟨items, rfl, list⟩ := strata value isValue
      exact ⟨items, rfl, list.mono fun item _ stratum =>
        ((documentedStratum_iff item).mp stratum).1⟩
    · obtain ⟨_, same, list⟩ := strata _ isItems
      cases same
      exact ((documentedStratum_iff item).mp (list.1 item member)).2
  · rintro ⟨checked, ⟨natives, isNative, spelled⟩, named⟩
    constructor
    · obtain ⟨_, same, list⟩ := checked.native _ isNative
      cases same
      exact ⟨natives, isNative, list.mono fun item member entry =>
        (documentedEntry_iff item).mpr ⟨entry, spelled item member⟩⟩
    · intro value isValue
      obtain ⟨items, rfl, list⟩ := checked.strata value isValue
      exact ⟨items, rfl, list.mono fun item member stratum =>
        (documentedStratum_iff item).mpr
          ⟨stratum, named items isValue item member⟩⟩

/-- The documented trees are the accepted ones unless the checks pass a tree
that leaves something to a default or a digest without its kind. -/
theorem loadTree_documented_iff (path : Bytes) (root : Table) :
    ((∃ file, loadTree path root = .ok file) ↔ Documented root) ↔
      (Checked root → SpelledOut root) := by
  have accepts : (∃ file, loadTree path root = .ok file) ↔ Checked root := by
    simp [loadTree_iff]
  rw [accepts, documented_iff]
  tauto

/-- An entry whose release is 0. -/
def unreleased : Table :=
  [(ascii "native", .arr [.tab [
    (ascii "name", .str (ascii "app")),
    (ascii "version", .str (ascii "1")),
    (ascii "release", .int 0),
    (ascii "grain_sha256", .str (List.replicate 64 48))]])]

theorem unreleased_accepted :
    (∃ file, loadTree (ascii "salt.lock") unreleased = .ok file) ∧
      ¬ Documented unreleased := by
  constructor
  · exact ⟨_, rfl⟩
  · intro documented
    obtain ⟨items, isNative, entries, -⟩ := documented.native
    cases isNative
    obtain ⟨release, isRelease, positive⟩ :=
      (entries _ List.mem_cons_self).release
    cases isRelease
    exact absurd positive (by decide)

end SaltOS.Lock
