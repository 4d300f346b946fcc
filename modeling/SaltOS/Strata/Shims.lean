import SaltOS.Strata.ExposeAll
import SaltOS.Lib.Run

/-!
# Shims say what the table says

Whatever commands change the exposed commands, one after the other, at the
path of the shim of an alias is the script of the row of the alias, and
nothing where there is no row, as long as the statements are carried out and
shims can be removed.
-/

namespace SaltOS.Strata

open Lib Util Config

variable {env : Environment} {root : Bytes} {world before after : World}

/-! ## Paths -/

/-- A name that is one component of a path. -/
def Plain (name : Bytes) : Prop :=
  name ≠ [] ∧ 47 ∉ name

instance (name : Bytes) : Decidable (Plain name) :=
  inferInstanceAs (Decidable (_ ∧ _))

/-- What a path below a root starts with. -/
def front (root : Bytes) : Bytes :=
  if root = [] then [] else root ++ (if root.getLast? = some 47 then [] else [47])

theorem joinPath_front (root : Bytes) {rest : Bytes} {byte : UInt8}
    (noSlash : byte ≠ 47) :
    joinPath root (byte :: rest) = front root ++ byte :: rest := by
  unfold joinPath front
  split
  · rfl
  · rw [if_neg (List.cons_ne_nil byte rest),
      List.dropWhile_cons_of_neg (by simpa using noSlash)]

theorem joinPath_name {dir name : Bytes} (nonempty : dir ≠ [])
    (noSlash : dir.getLast? ≠ some 47) (plain : Plain name) :
    joinPath dir name = dir ++ 47 :: name := by
  obtain ⟨byte, rest, rfl⟩ := List.exists_cons_of_ne_nil plain.1
  have differ : byte ≠ 47 := fun same => plain.2 (same ▸ List.mem_cons_self)
  rw [joinPath_front dir differ, front, if_neg nonempty, if_neg noSlash]
  simp

/-- The directory of the shims. -/
def shimDir (root : Bytes) : Bytes :=
  front root ++ ascii "usr/local/salt/shims"

theorem shimPath_eq (root : Bytes) {name : Bytes} (plain : Plain name) :
    shimPath root name = shimDir root ++ 47 :: name := by
  have isDir : joinPath root (ascii "usr/local/salt/shims") =
      shimDir root :=
    joinPath_front root (by decide)
  rw [shimPath, isDir]
  apply joinPath_name _ _ plain
  · rw [shimDir, ascii]
    simp
  · have last : (ascii "usr/local/salt/shims").getLast? = some 115 := by
      decide
    rw [shimDir, List.getLast?_append, last]
    simp

theorem shimPath_injective {name other : Bytes} (plain : Plain name)
    (otherPlain : Plain other)
    (same : shimPath root name = shimPath root other) : name = other := by
  rw [shimPath_eq root plain, shimPath_eq root otherPlain] at same
  exact List.tail_eq_of_cons_eq (List.append_cancel_left same)

/-- A path elsewhere below the root. -/
theorem shimPath_ne {name rest : Bytes} (plain : Plain name)
    (differs : ¬ ascii "usr/local/salt/" <+: rest) :
    front root ++ rest ≠ shimPath root name := by
  intro same
  rw [shimPath_eq root plain, shimDir, List.append_assoc,
    List.append_cancel_left_eq] at same
  have split : ascii "usr/local/salt/shims" =
      ascii "usr/local/salt/" ++ ascii "shims" := by
    decide
  apply differs
  rw [same, split, List.append_assoc]
  exact List.prefix_append _ _

theorem shimPath_ne_desktop {name : Bytes} (plain : Plain name)
    (stratum command : Bytes) :
    desktopPath root stratum command ≠ shimPath root name := by
  have isPath : desktopPath root stratum command = front root ++
      (ascii "usr/local/share/applications/" ++ stratum ++ [45] ++ command ++
        ascii ".desktop") :=
    joinPath_front root (by decide)
  rw [isPath]
  apply shimPath_ne plain
  intro isPrefix
  rw [List.append_assoc, List.append_assoc, List.append_assoc] at isPrefix
  have shorter := List.prefix_of_prefix_length_le isPrefix
    (List.prefix_append (ascii "usr/local/share/applications/") _) (by decide)
  revert shorter
  decide

/-! ## What is to hold -/

/-- What the shim of a row says. -/
def scriptOf (row : ExposedRow) : Bytes :=
  if row.kind = .pm then pmShimText row.stratum row.command
  else shimText row.stratum row.command

/-- At the path of the shim of a name is the script of its row, or nothing. -/
structure Faithful (root : Bytes) (world : World) : Prop where
  shims : ∀ name, Plain name → world.files (shimPath root name) =
    (world.exposed.get name).map fun row => ⟨some (scriptOf row), 493⟩
  rows : ∀ name row, world.exposed.get name = some row →
    Plain name ∧ row.shimPath = shimPath root name

/-- Every statement is carried out, and every shim can be removed. -/
structure Environment.Sure (env : Environment) : Prop where
  records : ∀ name, env.records name = true
  deletes : ∀ name, env.deletes name = true
  removes : ∀ path, env.removes path = true

namespace Faithful

/-- Only files that are no shims have changed. -/
theorem elsewhere (faithful : Faithful root before)
    (exposed : after.exposed = before.exposed)
    (files : ∀ name, Plain name →
      after.files (shimPath root name) = before.files (shimPath root name)) :
    Faithful root after where
  shims name plain := by
    rw [files name plain, exposed]
    exact faithful.shims name plain
  rows name row found := by
    rw [exposed] at found
    exact faithful.rows name row found

theorem write (faithful : Faithful root world) {path : Bytes}
    (noShim : ∀ name, Plain name → path ≠ shimPath root name) (text : Bytes)
    (mode : Nat) : Faithful root (world.write path text mode) := by
  refine faithful.elsewhere rfl ?_
  intro name plain
  exact Function.update_of_ne (Ne.symm (noShim name plain)) _ _

theorem remove (faithful : Faithful root world) {path : Bytes}
    (noShim : ∀ name, Plain name → path ≠ shimPath root name) :
    Faithful root (world.remove env path) := by
  unfold World.remove
  split
  · refine faithful.elsewhere rfl ?_
    intro name plain
    exact Function.update_of_ne (Ne.symm (noShim name plain)) _ _
  · exact faithful

/-- A shim is written, and its row recorded. -/
theorem plant (faithful : Faithful root world) {row : ExposedRow}
    (plain : Plain row.aliasName)
    (isPath : row.shimPath = shimPath root row.aliasName) :
    Faithful root { world.write row.shimPath (scriptOf row) 493 with
      exposed := world.exposed.put row } where
  shims name otherPlain := by
    rw [KeyedTable.get_put]
    by_cases same : row.aliasName = name
    · rw [if_pos same, ← same, ← isPath]
      exact Function.update_self _ _ _
    · rw [if_neg same, ← faithful.shims name otherPlain]
      apply Function.update_of_ne
      rw [isPath]
      intro samePath
      exact same (shimPath_injective plain otherPlain samePath.symm)
  rows name other found := by
    rw [KeyedTable.get_put] at found
    by_cases same : row.aliasName = name
    · rw [if_pos same] at found
      obtain rfl := Option.some.inj found
      rw [← same]
      exact ⟨plain, isPath⟩
    · rw [if_neg same] at found
      exact faithful.rows name other found

end Faithful

/-! ## One command -/

theorem exposeAdd_faithful (sure : env.Sure) (faithful : Faithful root world)
    {stratum command name : Bytes} {kind : Kind} (noPm : kind ≠ .pm)
    (plain : Plain name) :
    Faithful root (exposeAdd env root stratum command name kind world).2 := by
  unfold exposeAdd
  extract_lets path
  split
  · exact faithful
  split
  · exact faithful
  rename_i planted _ _
  rw [if_neg (by rw [sure.records]; simp)]
  have isScript : shimText stratum command =
      scriptOf ⟨name, stratum, command, kind, path⟩ := (if_neg noPm).symm
  have isPlanted : planted = world.write path
      (scriptOf ⟨name, stratum, command, kind, path⟩) 493 := by
    rw [← isScript]
  rw [isPlanted]
  exact faithful.plant plain rfl

theorem exposePm_faithful (sure : env.Sure) (faithful : Faithful root world)
    {stratum binary : Bytes} (plain : Plain binary) :
    Faithful root (exposePm env root stratum binary world).2 := by
  unfold exposePm
  extract_lets path
  split
  · exact faithful
  split
  · exact faithful
  rw [if_neg (by rw [sure.records]; simp)]
  exact faithful.plant plain rfl

theorem Faithful.unplant (faithful : Faithful root world) {name : Bytes}
    {row : ExposedRow} (found : world.exposed.get name = some row) :
    Faithful root { world with
      files := Function.update world.files row.shimPath none
      exposed := world.exposed.drop name } where
  shims other otherPlain := by
    obtain ⟨plain, isPath⟩ := faithful.rows name row found
    rw [KeyedTable.get_drop, isPath]
    by_cases same : other = name
    · rw [if_pos same, same]
      exact Function.update_self _ _ _
    · rw [if_neg same, ← faithful.shims other otherPlain]
      apply Function.update_of_ne
      intro samePath
      exact same (shimPath_injective otherPlain plain samePath)
  rows other otherRow found := by
    rw [KeyedTable.get_drop] at found
    by_cases same : other = name
    · rw [if_pos same] at found
      cases found
    · rw [if_neg same] at found
      exact faithful.rows other otherRow found

theorem shimPath_ne_nil (root : Bytes) {name : Bytes} (plain : Plain name) :
    shimPath root name ≠ [] := by
  rw [shimPath_eq root plain]
  simp

theorem exposeRemove_faithful (sure : env.Sure)
    (faithful : Faithful root world) (name : Bytes) :
    Faithful root (exposeRemove env name world).2 := by
  unfold exposeRemove
  split
  · exact faithful
  · rename_i row found
    obtain ⟨plain, isPath⟩ := faithful.rows name row found
    have nonempty : row.shimPath ≠ [] := by
      rw [isPath]
      exact shimPath_ne_nil root plain
    simp only [if_pos nonempty, World.remove, sure.removes, sure.deletes,
      if_true]
    exact faithful.unplant found

theorem exposeDesktop_faithful (sure : env.Sure)
    (faithful : Faithful root world) (row : StratumRow) {app : Bytes}
    (plain : Plain app) :
    Faithful root (exposeDesktop env root row app world).2 := by
  unfold exposeDesktop
  split
  · exact faithful
  · extract_lets path
    split
    · exact faithful
    · apply exposeAdd_faithful sure _ (by decide) plain
      apply faithful.write
      exact fun name namePlain => shimPath_ne_desktop namePlain row.name app

/-! ## Applying a configuration -/

/-- The aliases of an entry are plain names. -/
def PlainEntry (entry : ExposeConfig) : Prop :=
  Plain entry.aliasName ∧ (entry.desktop = true → Plain entry.command)

theorem exposeEntry_faithful (sure : env.Sure)
    (faithful : Faithful root world) {entry : ExposeConfig}
    (plain : PlainEntry entry) :
    Faithful root (exposeEntry env root entry world).2 := by
  unfold exposeEntry
  split
  · exact faithful
  · rename_i row _
    have readied : Faithful root (if entry.desktop then
        exposeDesktop env root row entry.command world
        else (true, world)).2 := by
      split
      · rename_i isDesktop
        exact exposeDesktop_faithful sure faithful row (plain.2 isDesktop)
      · exact faithful
    generalize (if entry.desktop = true then
        exposeDesktop env root row entry.command world
        else (true, world)) = ready at readied
    obtain ⟨isReady, world⟩ := ready
    dsimp only
    split
    · exact readied
    · exact exposeAdd_faithful sure readied (by decide) plain.1

theorem exposeRound_faithful (sure : env.Sure) {dryRun : Bool}
    {known : KeyedTable ExposedRow.aliasName} {progress : Progress}
    (faithful : Faithful root progress.world) {entry : ExposeConfig}
    (plain : PlainEntry entry) :
    Faithful root
      (exposeRound env root dryRun known progress entry).world := by
  unfold exposeRound
  split
  · exact faithful
  split
  · exact faithful
  · exact exposeEntry_faithful sure faithful plain

theorem unexposeRound_faithful (sure : env.Sure) {dryRun : Bool}
    {progress : Progress} (faithful : Faithful root progress.world)
    (row : ExposedRow) :
    Faithful root (unexposeRound env root dryRun progress row).world := by
  have removed := exposeRemove_faithful sure faithful row.aliasName
  unfold unexposeRound
  split
  · exact faithful
  · generalize exposeRemove env row.aliasName progress.world = result at *
    obtain ⟨isRemoved, world⟩ := result
    dsimp only
    split
    · exact removed
    · change Faithful root (if _ then _ else _)
      split
      · apply removed.remove
        exact fun name plain => shimPath_ne_desktop plain _ _
      · exact removed

theorem exposeLoop_faithful (sure : env.Sure) {dryRun : Bool}
    {known : KeyedTable ExposedRow.aliasName} {entries : List ExposeConfig}
    (plain : ∀ entry ∈ entries, PlainEntry entry) {progress : Progress}
    (faithful : Faithful root progress.world) :
    Faithful root
      (entries.foldl (exposeRound env root dryRun known) progress).world := by
  induction entries generalizing progress with
  | nil => exact faithful
  | cons entry entries induction =>
      obtain ⟨entryPlain, restPlain⟩ := List.forall_mem_cons.mp plain
      exact induction restPlain (exposeRound_faithful sure faithful entryPlain)

theorem unexposeLoop_faithful (sure : env.Sure) {dryRun : Bool}
    {rows : List ExposedRow} {progress : Progress}
    (faithful : Faithful root progress.world) :
    Faithful root
      (rows.foldl (unexposeRound env root dryRun) progress).world := by
  induction rows generalizing progress with
  | nil => exact faithful
  | cons row rows induction =>
      exact induction (unexposeRound_faithful sure faithful row)

theorem applyExpose_faithful (sure : env.Sure)
    (faithful : Faithful root world) {dryRun : Bool}
    {entries : List ExposeConfig}
    (plain : ∀ entry ∈ entries, PlainEntry entry) :
    Faithful root (applyExpose env root dryRun entries world).2 := by
  unfold applyExpose
  split
  · exact faithful
  · apply unexposeLoop_faithful sure
    exact exposeLoop_faithful sure plain faithful

/-! ## Whole strata -/

theorem exposeFound_faithful (sure : env.Sure) {row : StratumRow}
    {progress : Nat × World} (faithful : Faithful root progress.2)
    (dir : Bytes) {name : Bytes} (plain : Plain name) :
    Faithful root (exposeFound env root row dir progress name).2 := by
  obtain ⟨count, world⟩ := progress
  unfold exposeFound
  dsimp only
  split
  · exact faithful
  split
  · exact faithful
  split
  · exact faithful
  split
  · exact faithful
  · exact exposeAdd_faithful sure faithful (by decide) plain

/-- The names of a directory are plain ones. -/
def PlainEntries (entries : Bytes → Option (List Bytes)) : Prop :=
  ∀ dir names, entries dir = some names → ∀ name ∈ names, Plain name

theorem plain_of_found {entries : Bytes → Option (List Bytes)}
    (plain : PlainEntries entries) {base : Bytes} {found : Bytes × Bytes}
    (member : found ∈ foundNames entries base) : Plain found.2 := by
  obtain ⟨dir, -, inDir⟩ := List.mem_flatMap.mp member
  obtain ⟨name, inNames, rfl⟩ := List.mem_map.mp inDir
  cases isDir : entries (joinPath base (ascii dir)) with
  | none =>
      rw [isDir] at inNames
      cases inNames
  | some names =>
      rw [isDir] at inNames
      exact plain _ names isDir name inNames

theorem exposeAll_faithful (sure : env.Sure) (faithful : Faithful root world)
    (row : StratumRow) {entries : Bytes → Option (List Bytes)}
    (plain : PlainEntries entries) :
    Faithful root (exposeAll env entries root row world).2 := by
  have loop : ∀ (found : List (Bytes × Bytes)) (progress : Nat × World),
      (∀ one ∈ found, Plain one.2) → Faithful root progress.2 →
      Faithful root (found.foldl (fun progress one =>
        exposeFound env root row one.1 progress one.2) progress).2 := by
    intro found
    induction found with
    | nil => exact fun _ _ faithful => faithful
    | cons one found induction =>
        intro progress allPlain faithful
        obtain ⟨onePlain, restPlain⟩ := List.forall_mem_cons.mp allPlain
        exact induction _ restPlain
          (exposeFound_faithful sure faithful one.1 onePlain)
  unfold exposeAll
  split
  · exact faithful
  · exact loop _ (0, world) (fun one member => plain_of_found plain member)
      faithful

/-! ## A stratum that is destroyed -/

theorem removeAll_files (sure : env.Sure) (rows : List ExposedRow)
    (world : World) :
    let after := rows.foldl (fun world row =>
      if row.shimPath ≠ [] then world.remove env row.shimPath else world)
      world
    after.exposed = world.exposed ∧ ∀ path, path ≠ [] → after.files path =
      if path ∈ rows.map ExposedRow.shimPath then none
      else world.files path := by
  induction rows generalizing world with
  | nil => exact ⟨rfl, fun path _ => rfl⟩
  | cons row rows induction =>
      intro after
      obtain ⟨exposed, files⟩ := induction
        (if row.shimPath ≠ [] then world.remove env row.shimPath else world)
      have first : (if row.shimPath ≠ [] then
          world.remove env row.shimPath else world).exposed = world.exposed ∧
          ∀ path, path ≠ [] → (if row.shimPath ≠ [] then
            world.remove env row.shimPath else world).files path =
              if path = row.shimPath then none else world.files path := by
        split
        · rw [World.remove, if_pos (sure.removes _)]
          exact ⟨rfl, fun path _ => Function.update_apply _ _ _ _⟩
        · rename_i isEmpty
          refine ⟨rfl, ?_⟩
          intro path nonempty
          rw [if_neg (by rw [not_not.mp isEmpty]; exact nonempty)]
      refine ⟨exposed.trans first.1, ?_⟩
      intro path nonempty
      rw [List.map_cons]
      by_cases isLater : path ∈ rows.map ExposedRow.shimPath
      · rw [if_pos (List.mem_cons_of_mem _ isLater)]
        exact (files path nonempty).trans (if_pos isLater)
      · apply (files path nonempty).trans
        rw [if_neg isLater, first.2 path nonempty]
        by_cases isFirst : path = row.shimPath <;> simp [isFirst, isLater]

theorem get_dropAll (names : List Bytes)
    (table : KeyedTable ExposedRow.aliasName) (name : Bytes) :
    (names.foldl (fun table other => table.drop other) table).get name =
      if name ∈ names then none else table.get name := by
  induction names generalizing table with
  | nil => rfl
  | cons first names induction =>
      rw [List.foldl_cons, induction, KeyedTable.get_drop]
      by_cases isLater : name ∈ names <;> by_cases isFirst : name = first <;>
        simp [isLater, isFirst]

theorem destroyStratum_faithful (sure : env.Sure)
    (faithful : Faithful root world) {name : Bytes}
    {clear : (Bytes → Option Stored) → Bytes → Option Stored}
    (spares : ∀ files other, Plain other →
      clear files (shimPath root other) = files (shimPath root other)) :
    Faithful root (destroyStratum env clear name world) := by
  unfold destroyStratum
  split
  · exact faithful
  extract_lets cleared own emptied
  obtain ⟨exposed, files⟩ := removeAll_files sure own cleared
  have allDeleted : (own.all fun row => env.deletes row.aliasName) =
      true := by
    rw [List.all_eq_true]
    exact fun row _ => sure.deletes row.aliasName
  rw [if_pos allDeleted]
  have isOwn : ∀ row ∈ own,
      world.exposed.get row.aliasName = some row := by
    intro row member
    exact KeyedTable.get_eq_some.mpr ⟨(List.mem_filter.mp member).1, rfl⟩
  constructor
  · intro other plain
    change emptied.files (shimPath root other) =
      (((own.map ExposedRow.aliasName).foldl (fun table name =>
        table.drop name) emptied.exposed).get other).map _
    rw [files _ (shimPath_ne_nil root plain), get_dropAll, exposed]
    by_cases gone : other ∈ own.map ExposedRow.aliasName
    · -- The row of the name is one of the stratum.
      obtain ⟨row, member, rfl⟩ := List.mem_map.mp gone
      obtain ⟨-, isPath⟩ := faithful.rows _ row (isOwn row member)
      have isShim : shimPath root row.aliasName ∈
          own.map ExposedRow.shimPath :=
        isPath ▸ List.mem_map_of_mem member
      rw [if_pos gone, if_pos isShim]
      rfl
    · have noShim : shimPath root other ∉ own.map ExposedRow.shimPath := by
        intro isShim
        obtain ⟨row, member, same⟩ := List.mem_map.mp isShim
        obtain ⟨rowPlain, isPath⟩ := faithful.rows _ row (isOwn row member)
        apply gone
        rw [← shimPath_injective rowPlain plain (isPath.symm.trans same)]
        exact List.mem_map_of_mem member
      rw [if_neg gone, if_neg noShim]
      exact (spares world.files other plain).trans (faithful.shims other plain)
  · intro other row found
    change ((own.map ExposedRow.aliasName).foldl (fun table name =>
      table.drop name) emptied.exposed).get other = some row at found
    rw [get_dropAll, exposed] at found
    split at found
    · cases found
    · exact faithful.rows other row found

/-! ## Runs -/

/-- The names that a command exposes are plain ones, and what removes the
trees of a stratum spares the shims. -/
def ExposeCommand.Plain (root : Bytes) : ExposeCommand → Prop
  | .expose _ command given => Strata.Plain (chosenAlias command given)
  | .exposePm _ binary => Strata.Plain binary
  | .exposeAll _ entries => PlainEntries entries
  | .exposeDesktop _ app => Strata.Plain app
  | .unexpose _ => True
  | .apply _ entries => ∀ entry ∈ entries, PlainEntry entry
  | .destroy _ clear => ∀ files other, Strata.Plain other →
      clear files (shimPath root other) = files (shimPath root other)

/-- A command, with the environment that it meets. -/
def ExposeStep (root : Bytes) (before : World)
    (event : Environment × ExposeCommand) (after : World) : Prop :=
  after = event.2.run event.1 root before

theorem run_faithful (sure : env.Sure) (faithful : Faithful root world)
    {command : ExposeCommand} (plain : command.Plain root) :
    Faithful root (command.run env root world) := by
  cases command with
  | expose stratum command given =>
      exact exposeAdd_faithful sure faithful (by decide) plain
  | exposePm stratum binary => exact exposePm_faithful sure faithful plain
  | exposeAll row entries => exact exposeAll_faithful sure faithful row plain
  | exposeDesktop row app => exact exposeDesktop_faithful sure faithful row plain
  | unexpose name => exact exposeRemove_faithful sure faithful name
  | apply dryRun entries => exact applyExpose_faithful sure faithful plain
  | destroy name clear => exact destroyStratum_faithful sure faithful plain

/-- Whatever is tried works. -/
def sureEnvironment : Environment where
  opens := true
  writes _ := true
  removes _ := true
  records _ := true
  deletes _ := true

def voidRow : StratumRow := ⟨ascii "void", ascii "/strata/void"⟩

/-- A stratum with its package manager and an editor. -/
def voidWorld : World where
  strata := [voidRow]
  exposed := ⟨[], List.nodup_nil⟩
  files := fun path =>
    if path = ascii "/strata/void/usr/bin/vim" ∨
        path = ascii "/strata/void/usr/bin/xbps-install" then
      some ⟨some [], 493⟩
    else none

def voidEntries (dir : Bytes) : Option (List Bytes) :=
  if dir = ascii "/strata/void/usr/bin" then
    some [ascii "xbps-install", ascii "vim"]
  else none

def voidEvents : List (Environment × ExposeCommand) :=
  [(sureEnvironment, .exposePm (ascii "void") (ascii "xbps-install")),
    (sureEnvironment, .exposeAll voidRow voidEntries)]

def voidFinal : World :=
  voidEvents.foldl (fun world event =>
    event.2.run event.1 (ascii "/") world) voidWorld

theorem voidEntries_plain : PlainEntries voidEntries := by
  intro dir names isDir name member
  unfold voidEntries at isDir
  split at isDir
  · obtain rfl := Option.some.inj isDir
    revert name
    decide
  · cases isDir

end SaltOS.Strata
