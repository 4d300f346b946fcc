import SaltOS.Lock.LockWrite
import SaltOS.Lock.LockApply

/-!
# Lockfiles are read back

What `lock_write` writes is a document of pieces: a group of lines, one table
for every package, and for every stratum a table with its packages in it.
-/

namespace SaltOS.Lock

open Repo Toml Install

/-! ## The pieces of a lockfile -/

def nativeKey : Bytes := ascii "native"

def stratumKey : Bytes := ascii "stratum"

def packageKey : Bytes := ascii "package"

def nonEmpty (text : Bytes) : Option Bytes :=
  if text = [] then none else some text

/-- An installed package, what it is pinned with, and its dependencies. -/
structure NativeEntry where
  row : PackageRow
  pin : NativePin
  deps : List Bytes

/-- A stratum, its recipe and its packages. -/
structure StratumEntry where
  stratum : Stratum
  recipe : Option Recipe
  pkgs : List ForeignPkg

def NativeEntry.slots (entry : NativeEntry) : List Slot :=
  [.text "name" (some entry.row.name),
    .text "version" (some entry.row.version),
    .number "release" (printInt entry.row.release) entry.row.release,
    .text "arch" (some entry.row.arch),
    .text "grain_sha256" (some (ascii "sha256:" ++ entry.pin.sha256)),
    .text "filename" (nonEmpty entry.pin.filename),
    .text "repo" (some entry.row.repo), .items "deps" entry.deps]

def StratumEntry.slots (entry : StratumEntry) : List Slot :=
  [.text "name" (some entry.stratum.name),
    .text "family" entry.stratum.family,
    .text "package_manager" entry.stratum.packageManager,
    .text "bootstrap_url"
      (entry.recipe.bind fun recipe => nonEmpty recipe.rootfsUrl),
    .text "bootstrap_sha256"
      (entry.recipe.bind fun recipe => nonEmpty recipe.rootfsSha256)]

/-- The lines of one key, one for every repository of the recipe. -/
def StratumEntry.snapshots (entry : StratumEntry) : List Slot :=
  (entry.recipe.elim [] Recipe.repoUrls).map fun url =>
    .text "repo_snapshot" (some url)

def ForeignPkg.slots (pkg : ForeignPkg) : List Slot :=
  [.text "name" (some pkg.name), .text "version" (some pkg.version),
    .text "digest" (some (pkg.digest.getD []))]

def StratumEntry.nest (entry : StratumEntry) :
    List Line × List (List Line) :=
  (slotLines (entry.slots ++ entry.snapshots),
    entry.pkgs.map fun pkg => slotLines pkg.slots)

def shaText (sha256 : Option Sha256) : Option Bytes :=
  sha256.map fun sha256 => ascii "sha256:" ++ sha256.val

def System.slots (system : System) : List Slot :=
  [.number "schema" (ascii "2") 2, .text "generated" (some system.generated),
    .text "arch" (some system.arch),
    .text "config_hash" (shaText system.configSha256),
    .text "repo_index_sha256" (shaText system.indexSha256)]

def System.natives (system : System) : List NativeEntry :=
  system.db.listInstalled.map fun row =>
    ⟨row, (nativePin system.index row).getD ⟨[], []⟩,
      system.db.pkgDeps row.name⟩

def System.entries (system : System) : List StratumEntry :=
  system.listStrata.map fun stratum =>
    ⟨stratum, system.recipe stratum.name,
      (system.livePkgs stratum).toOption.getD []⟩

def System.pieces (system : System) : List Toml.Piece :=
  (slotLines system.slots).map .assign ++
    (system.indexSha256.map fun _ => Toml.Piece.blank).toList ++
    (system.natives.map fun entry => slotLines entry.slots).flatMap
      (tablePieces 0 1 [] nativeKey) ++
    (system.entries.map StratumEntry.nest).flatMap
      (nestedPieces 0 1 stratumKey packageKey)

/-! ## The text of a lockfile -/

theorem printed_eq (key : String) (text : Bytes) :
    printed key text = (quotedField key text).lines.flatMap Line.emit := by
  simp [printed, quotedField, Field.lines, Line.emit, quoted, ascii]

/-- The text of a record, field by field. -/
theorem emit_slots (slots : List Slot) :
    (slotLines slots).flatMap Line.emit =
      slots.flatMap fun slot => slot.field.lines.flatMap Line.emit := by
  rw [slotLines, recordLines_flatMap, List.flatMap_map]

theorem emit_text (key : String) (text : Option Bytes) :
    (Slot.text key text).field.lines.flatMap Line.emit =
      (text.map (printed key)).toList.flatten := by
  cases text with
  | none => rfl
  | some text =>
      have whole : (Slot.text key (some text)).field.lines.flatMap Line.emit =
          printed key text := (printed_eq key text).symm
      simp [whole]

theorem emit_some (key : String) (text : Bytes) :
    (Slot.text key (some text)).field.lines.flatMap Line.emit =
      printed key text := by
  rw [emit_text]
  exact List.append_nil _

theorem emit_nonEmpty (key : String) (text : Bytes) :
    (Slot.text key (nonEmpty text)).field.lines.flatMap Line.emit =
      (if text = [] then [] else [printed key text]).flatten := by
  rw [emit_text]
  unfold nonEmpty
  split <;> rfl

theorem emit_table (path : List Bytes) (key : Bytes) (lines : List Line) :
    emitPieces (tablePieces 0 1 path key lines) =
      91 :: 91 :: dotted (path ++ [key]) ++ [93, 93, 10] ++
        lines.flatMap Line.emit ++ [10] := by
  have assigns := emit_assigns lines
  rw [emitPieces] at assigns
  simp [emitPieces, tablePieces, assigns, Toml.Piece.emit]

theorem quotedItems_cons (first : Bytes) (rest : List Bytes) :
    quotedItems (first :: rest) =
      quoted first ++ rest.flatMap fun item => ascii ", " ++ quoted item := by
  induction rest generalizing first with
  | nil => simp [quotedItems]
  | cons second rest induction =>
      rw [quotedItems, induction, List.flatMap_cons]
      · simp
      · simp

theorem emit_deps (deps : List Bytes) :
    (Slot.items "deps" deps).field.lines.flatMap Line.emit =
      (depsPrints deps).flatten := by
  cases deps with
  | nil => rfl
  | cons first rest =>
      simp [depsPrints, Slot.field, itemsField, Field.lines, Line.emit,
        quotedItems_cons, ascii, List.flatMap]

theorem nativePrints_flatten (entry : NativeEntry) :
    (nativePrints entry.row entry.pin entry.deps).flatten =
      emitPieces (tablePieces 0 1 [] nativeKey (slotLines entry.slots)) := by
  have header : ascii "[[native]]\n" =
      91 :: 91 :: dotted ([] ++ [nativeKey]) ++ [93, 93, 10] := rfl
  have release : (Slot.number "release" (printInt entry.row.release)
      entry.row.release).field.lines.flatMap Line.emit =
        ascii "release = " ++ printInt entry.row.release ++ [10] := by
    simp [Slot.field, numberField, Field.lines, Line.emit, ascii]
  rw [emit_table, ← header, emit_slots]
  simp only [NativeEntry.slots, List.flatMap_cons, List.flatMap_nil,
    emit_some, emit_nonEmpty, emit_deps, release, nativePrints,
    List.flatten_append, List.flatten_cons, List.flatten_nil,
    List.append_nil, List.append_assoc]

theorem pkgPrint_eq (pkg : ForeignPkg) :
    pkgPrint pkg = emitPieces (tablePieces 0 1 [stratumKey] packageKey
      (slotLines pkg.slots)) := by
  have header : ascii "[[stratum.package]]\n" =
      91 :: 91 :: dotted ([stratumKey] ++ [packageKey]) ++ [93, 93, 10] := rfl
  rw [emit_table, ← header, emit_slots]
  simp only [ForeignPkg.slots, List.flatMap_cons, List.flatMap_nil,
    emit_some, pkgPrint, List.append_nil, List.append_assoc]

theorem recipePrints_flatten (entry : StratumEntry) :
    (entry.recipe.elim [] recipePrints).flatten =
      (Slot.text "bootstrap_url" (entry.recipe.bind fun recipe =>
        nonEmpty recipe.rootfsUrl)).field.lines.flatMap Line.emit ++
      ((Slot.text "bootstrap_sha256" (entry.recipe.bind fun recipe =>
        nonEmpty recipe.rootfsSha256)).field.lines.flatMap Line.emit ++
      entry.snapshots.flatMap fun slot =>
        slot.field.lines.flatMap Line.emit) := by
  unfold StratumEntry.snapshots
  cases entry.recipe with
  | none => rfl
  | some recipe =>
      have urls : (recipe.repoUrls.map fun url =>
          Slot.text "repo_snapshot" (some url)).flatMap
            (fun slot => slot.field.lines.flatMap Line.emit) =
          (recipe.repoUrls.map (printed "repo_snapshot")).flatten := by
        rw [List.flatMap_map]
        exact List.flatMap_congr fun url _ => emit_some _ url
      simp only [Option.elim_some, recipePrints, Option.bind_some,
        List.flatten_append, emit_nonEmpty, urls, List.append_assoc]

theorem stratumPrints_flatten (entry : StratumEntry) :
    (stratumPrints entry.stratum entry.recipe entry.pkgs).flatten =
      emitPieces (nestedPieces 0 1 stratumKey packageKey entry.nest) := by
  have header : ascii "[[stratum]]\n" =
      91 :: 91 :: dotted ([] ++ [stratumKey]) ++ [93, 93, 10] := rfl
  have pkgs : (entry.pkgs.map pkgPrint).flatten =
      emitPieces ((entry.pkgs.map fun pkg => slotLines pkg.slots).flatMap
        (tablePieces 0 1 [stratumKey] packageKey)) := by
    rw [emitPieces, List.flatMap_assoc, List.flatMap_map]
    exact List.flatMap_congr fun pkg _ => pkgPrint_eq pkg
  have whole : emitPieces (nestedPieces 0 1 stratumKey packageKey
      entry.nest) = emitPieces (tablePieces 0 1 [] stratumKey
        (slotLines (entry.slots ++ entry.snapshots))) ++
      emitPieces ((entry.pkgs.map fun pkg => slotLines pkg.slots).flatMap
        (tablePieces 0 1 [stratumKey] packageKey)) := List.flatMap_append
  rw [whole, ← pkgs, emit_table, ← header, emit_slots]
  simp only [StratumEntry.slots, List.cons_append, List.nil_append,
    List.flatMap_cons, emit_some, emit_text "family",
    emit_text "package_manager", stratumPrints, List.flatten_append,
    recipePrints_flatten, List.flatten_cons, List.append_assoc]

/-! ## What is written -/

theorem mapM_map_some {α β γ : Type} {find : α → Option β} {emit : α → β → γ}
    (default : β) {items : List α} {emitted : List γ}
    (written : items.mapM (fun item => (find item).map (emit item)) =
      some emitted) :
    (∀ item ∈ items, find item = some ((find item).getD default)) ∧
      emitted = items.map fun item =>
        emit item ((find item).getD default) := by
  induction items generalizing emitted with
  | nil =>
      cases written
      simp
  | cons item items induction =>
      rw [List.mapM_cons] at written
      cases found : find item with
      | none => simp [found] at written
      | some value =>
          cases others : items.mapM
              (fun item => (find item).map (emit item)) with
          | none => simp [found, others] at written
          | some rest =>
              obtain rfl : emit item value :: rest = emitted := by
                simpa [found, others] using written
              obtain ⟨areFound, isRest⟩ := induction others
              constructor
              · intro other member
                rcases List.mem_cons.mp member with rfl | inside
                · rw [found]
                  rfl
                · exact areFound other inside
              · rw [List.map_cons, ← isRest, found]
                rfl

/-- Every package is pinned, and the packages of every stratum are known. -/
structure System.Pinned (system : System) : Prop where
  natives : ∀ entry ∈ system.natives,
    nativePin system.index entry.row = some entry.pin
  entries : ∀ entry ∈ system.entries,
    system.livePkgs entry.stratum = .ok entry.pkgs

theorem flatten_flatten_map {α β : Type} (emit : α → List (List β))
    (items : List α) :
    (items.map emit).flatten.flatten =
      items.flatMap fun item => (emit item).flatten := by
  induction items with
  | nil => rfl
  | cons item items induction => simp [induction]

theorem emit_header (system : System) :
    emitPieces ((slotLines system.slots).map .assign ++
      (system.indexSha256.map fun _ => Toml.Piece.blank).toList) =
    ascii "schema = 2\n" ++ printed "generated" system.generated ++
      printed "arch" system.arch ++
      (system.configSha256.map fun sha256 =>
        printed "config_hash" (ascii "sha256:" ++ sha256.val)).toList.flatten ++
      (system.indexSha256.map fun sha256 =>
        printed "repo_index_sha256" (ascii "sha256:" ++ sha256.val) ++
          [10]).toList.flatten := by
  have schema : (Slot.number "schema" (ascii "2") 2).field.lines.flatMap
      Line.emit = ascii "schema = 2\n" := rfl
  have assigns := emit_assigns (slotLines system.slots)
  rw [emitPieces] at assigns
  rw [emitPieces, List.flatMap_append, assigns, emit_slots]
  simp only [System.slots, List.flatMap_cons, List.flatMap_nil, emit_some,
    emit_text "config_hash", emit_text "repo_index_sha256", schema, shaText,
    Option.map_map, Function.comp_def, List.append_nil, List.append_assoc]
  cases system.indexSha256 <;> simp [Toml.Piece.emit]

/-- The texts that are printed are the ones of the pieces. -/
theorem lockPrints_pieces {system : System} {prints : List Bytes}
    (written : lockPrints system = some prints) :
    system.Pinned ∧ prints.flatten = emitPieces system.pieces := by
  simp only [lockPrints, emitNative, emitStrata, bind,
    Option.bind_eq_some_iff, Option.map_eq_some_iff] at written
  obtain ⟨_, ⟨natives, areNatives, rfl⟩, _, ⟨strata, areStrata, rfl⟩,
    isPrints⟩ := written
  cases isPrints
  obtain ⟨pins, rfl⟩ := mapM_map_some ⟨[], []⟩ areNatives
  obtain ⟨pkgs, rfl⟩ := mapM_map_some [] areStrata
  have nativeText : (system.db.listInstalled.map fun row =>
      nativePrints row ((nativePin system.index row).getD ⟨[], []⟩)
        (system.db.pkgDeps row.name)).flatten.flatten =
      emitPieces ((system.natives.map fun entry =>
        slotLines entry.slots).flatMap (tablePieces 0 1 [] nativeKey)) := by
    rw [flatten_flatten_map, emitPieces, List.flatMap_assoc,
      List.flatMap_map, System.natives, List.flatMap_map]
    exact List.flatMap_congr fun row _ =>
      nativePrints_flatten ⟨row, _, system.db.pkgDeps row.name⟩
  have strataText : (system.listStrata.map fun stratum =>
      stratumPrints stratum (system.recipe stratum.name)
        ((system.livePkgs stratum).toOption.getD [])).flatten.flatten =
      emitPieces ((system.entries.map StratumEntry.nest).flatMap
        (nestedPieces 0 1 stratumKey packageKey)) := by
    rw [flatten_flatten_map, emitPieces, List.flatMap_assoc,
      List.flatMap_map, System.entries, List.flatMap_map]
    exact List.flatMap_congr fun stratum _ =>
      stratumPrints_flatten ⟨stratum, _, _⟩
  constructor
  · constructor
    · intro entry member
      obtain ⟨row, inRows, rfl⟩ := List.mem_map.mp member
      exact pins row inRows
    · intro entry member
      obtain ⟨stratum, inStrata, rfl⟩ := List.mem_map.mp member
      have known := pkgs stratum inStrata
      cases isLive : system.livePkgs stratum with
      | error message =>
          rw [isLive] at known
          cases known
      | ok live => rfl
  · have split : emitPieces system.pieces =
        emitPieces ((slotLines system.slots).map .assign ++
          (system.indexSha256.map fun _ => Toml.Piece.blank).toList) ++
        emitPieces ((system.natives.map fun entry =>
          slotLines entry.slots).flatMap (tablePieces 0 1 [] nativeKey)) ++
        emitPieces ((system.entries.map StratumEntry.nest).flatMap
          (nestedPieces 0 1 stratumKey packageKey)) := by
      simp only [System.pieces, emitPieces, List.flatMap_append]
    rw [split, ← nativeText, ← strataText, emit_header]
    simp only [List.flatten_append, List.flatten_cons, List.flatten_nil,
      List.append_nil, List.append_assoc]

/-- No printed text is too long for `vsnprintf`. -/
def System.Fits (system : System) : Prop :=
  ∀ prints, lockPrints system = some prints →
    ∀ text ∈ prints, text.length < 2 ^ 31

theorem lockWrite_pieces {system : System} {text : Bytes}
    (fits : system.Fits) (written : lockWrite system = some text) :
    system.Pinned ∧ text = emitPieces system.pieces := by
  obtain ⟨prints, isPrints, rfl⟩ := Option.map_eq_some_iff.mp written
  obtain ⟨pinned, whole⟩ := lockPrints_pieces isPrints
  refine ⟨pinned, ?_⟩
  rw [← whole, ← List.flatMap_id']
  exact List.flatMap_congr fun text member =>
    bufPrintf_eq (fits prints isPrints text member)

/-! ## The tree of a lockfile -/

/-- The records of a lockfile. -/
def System.records (system : System) : List (List Slot) :=
  [system.slots] ++ system.natives.map NativeEntry.slots ++
    system.entries.flatMap fun entry =>
      (entry.slots ++ entry.snapshots) :: entry.pkgs.map ForeignPkg.slots

def StratumEntry.node (entry : StratumEntry) : Node :=
  nestedNode packageKey entry.nest

def System.tree (system : System) : Table :=
  withTables (withTables (setLines [] (slotLines system.slots)) nativeKey
      (system.natives.map fun entry => linesNode (slotLines entry.slots)))
    stratumKey (system.entries.map StratumEntry.node)

theorem header_new (system : System) {key : Bytes}
    (other : key ∉ ["schema", "generated", "arch", "config_hash",
      "repo_index_sha256"].map ascii) :
    tableGet (setLines [] (slotLines system.slots)) key = none := by
  apply tableGet_base
  intro member
  exact other (key_of_mem_slotLines member)

theorem native_new (system : System) :
    tableGet (setLines [] (slotLines system.slots)) nativeKey = none :=
  header_new system (by decide)

theorem stratum_new (system : System) (items : List Node) :
    tableGet (withTables (setLines [] (slotLines system.slots)) nativeKey
      items) stratumKey = none := by
  rw [tableGet_withTables_other (by decide)]
  exact header_new system (by decide)

theorem StratumEntry.mem_keys {entry : StratumEntry} {key : Bytes}
    (member : key ∈ entry.nest.1.map Line.key) :
    key ∈ ["name", "family", "package_manager", "bootstrap_url",
      "bootstrap_sha256", "repo_snapshot"].map ascii := by
  have inKeys := key_of_mem_slotLines member
  rw [List.map_append, List.mem_append] at inKeys
  rcases inKeys with isSlot | isSnapshot
  · exact List.mem_append_left [ascii "repo_snapshot"] isSlot
  · have isKey : key = ascii "repo_snapshot" := by
      simp only [StratumEntry.snapshots, List.map_map, List.mem_map,
        Function.comp_apply, Slot.key] at isSnapshot
      obtain ⟨_, -, same⟩ := isSnapshot
      exact same.symm
    simp [isKey]

theorem StratumEntry.package_new (entry : StratumEntry) :
    packageKey ∉ entry.nest.1.map Line.key := by
  intro member
  exact absurd (StratumEntry.mem_keys member) (by decide)

theorem build_pieces (system : System) :
    ∃ current, system.pieces.foldlM Toml.Piece.build ([], []) =
      some (system.tree, current) := by
  have header := build_lines isPlace_root (slotLines system.slots) []
  have blank : ∀ built, (system.indexSha256.map fun _ =>
      Toml.Piece.blank).toList.foldlM Toml.Piece.build built = some built := by
    intro built
    cases system.indexSha256 <;> rfl
  obtain ⟨middle, natives⟩ := build_tables 0 1 isPlace_root
    (native_new system)
    (system.natives.map fun entry => slotLines entry.slots) [] []
  obtain ⟨current, strata⟩ := @build_nests 0 1 _ _ packageKey
    (stratum_new system (system.natives.map fun entry =>
      linesNode (slotLines entry.slots)))
    (system.entries.map StratumEntry.nest) (by
      intro nest member
      obtain ⟨entry, -, rfl⟩ := List.mem_map.mp member
      exact entry.package_new) [] middle
  refine ⟨current, ?_⟩
  rw [List.nil_append, List.map_map] at natives strata
  rw [System.pieces, List.foldlM_append, List.foldlM_append,
    List.foldlM_append]
  change ((List.foldlM Toml.Piece.build (id [], []) _ >>= _) >>= _) >>= _ = _
  rw [header]
  change ((List.foldlM Toml.Piece.build _ _ >>= _) >>= _) = _
  rw [blank]
  change (List.foldlM Toml.Piece.build (id (withTables (setLines []
    (slotLines system.slots)) nativeKey []), []) _ >>= _) = _
  rw [natives]
  exact strata

theorem assign_mem_pieces {system : System} {line : Line} :
    .assign line ∈ system.pieces ↔
      ∃ slots ∈ system.records, line ∈ slotLines slots := by
  have header : .assign line ∈ (slotLines system.slots).map Toml.Piece.assign ++
      (system.indexSha256.map fun _ => Toml.Piece.blank).toList ↔
        line ∈ slotLines system.slots := by
    cases system.indexSha256 <;> simp
  have natives : .assign line ∈ (system.natives.map fun entry =>
      slotLines entry.slots).flatMap (tablePieces 0 1 [] nativeKey) ↔
        ∃ slots ∈ system.natives.map NativeEntry.slots,
          line ∈ slotLines slots := by
    simp [assign_mem_tablePieces]
  have strata : .assign line ∈ (system.entries.map
      StratumEntry.nest).flatMap (nestedPieces 0 1 stratumKey packageKey) ↔
        ∃ slots ∈ system.entries.flatMap (fun entry =>
          (entry.slots ++ entry.snapshots) ::
            entry.pkgs.map ForeignPkg.slots), line ∈ slotLines slots := by
    simp only [List.flatMap_map, List.mem_flatMap, assign_mem_nestedPieces,
      StratumEntry.nest, List.mem_cons, List.mem_map]
    constructor
    · rintro ⟨entry, member, isLine | ⟨_, ⟨pkg, inPkgs, rfl⟩, isLine⟩⟩
      · exact ⟨_, ⟨entry, member, .inl rfl⟩, isLine⟩
      · exact ⟨_, ⟨entry, member, .inr ⟨pkg, inPkgs, rfl⟩⟩, isLine⟩
    · rintro ⟨_, ⟨entry, member, rfl | ⟨pkg, inPkgs, rfl⟩⟩, isLine⟩
      · exact ⟨entry, member, .inl isLine⟩
      · exact ⟨entry, member, .inr ⟨_, ⟨pkg, inPkgs, rfl⟩, isLine⟩⟩
  rw [System.pieces, List.mem_append, List.mem_append, header, natives,
    strata, System.records]
  simp only [List.mem_append, List.mem_singleton, or_and_right, exists_or,
    exists_eq_left]

theorem pieces_bare (system : System) :
    ∀ piece ∈ system.pieces, piece.Bare := by
  intro piece member
  cases piece with
  | blank => trivial
  | assign line => trivial
  | header path key =>
      have known : (path, key) ∈ [([], nativeKey), ([], stratumKey),
          ([stratumKey], packageKey)] := by
        cases index : system.indexSha256 <;>
          simp [System.pieces, nestedPieces, tablePieces, index,
            StratumEntry.nest] at member ⊢ <;> tauto
      have bare : ∀ pair ∈ [([], nativeKey), ([], stratumKey),
          ([stratumKey], packageKey)], ∀ part ∈ pair.1 ++ [pair.2],
            BareKey part := by decide
      exact bare (path, key) known

end SaltOS.Lock
