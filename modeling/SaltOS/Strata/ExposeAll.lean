import SaltOS.Strata.Expose

/-!
# Exposing package managers and whole strata

`salt_expose_pm`, `salt_expose_all`, with `host_has_command` and
`exposed_alias_exists`, and what `salt_stratum_destroy` does to the exposed
commands, of `src/halite/src/stratum.c`, and `cmd_expose` and `cmd_unexpose` of
`src/salt/cmd_expose.cpp`.

What reading the directories of a stratum gives, and what removing the trees
of a stratum does to the files, is up to the environment.
-/

namespace SaltOS.Strata

open Lib Util Config

/-! ## Package managers -/

def pmShimText (stratum binary : Bytes) : Bytes :=
  ascii "#!/bin/sh\nexec salt pm " ++ stratum ++ [32] ++ binary ++
    ascii " \"$@\"\n"

/-- `salt_expose_pm`. -/
def exposePm (env : Environment) (root stratum binary : Bytes)
    (world : World) : Bool × World :=
  let path := shimPath root binary
  if (world.stratum stratum).isNone then (false, world)
  else if ¬ env.writes path then (false, world)
  else
    let world := world.write path (pmShimText stratum binary) 493
    if ¬ env.records binary then (false, world)
    else (true, { world with
      exposed := world.exposed.put ⟨binary, stratum, binary, .pm, path⟩ })

/-! ## Everything that a stratum can run -/

def hostBinDirs : List String :=
  ["usr/bin", "bin", "usr/local/bin", "usr/sbin", "sbin"]

/-- `host_has_command`. -/
def hostHasCommand (root name : Bytes) (world : World) : Bool :=
  hostBinDirs.any fun dir =>
    world.pathExists (joinPath (joinPath root (ascii dir)) name)

def stratumBinDirs : List String :=
  ["usr/bin", "bin", "usr/local/bin"]

/-- The base of the directories of a stratum. -/
def stratumBase (root : Bytes) (row : StratumRow) : Bytes :=
  if root ≠ ascii "/" then joinPath root row.root else row.root

/-- A regular file that somebody may execute. -/
def runnable (world : World) (path : Bytes) : Bool :=
  match world.files path with
  | some ⟨some _, mode⟩ => mode &&& 0o111 ≠ 0
  | _ => false

/-- An entry of a directory is exposed, unless the host has such a command or
the alias is taken. -/
def exposeFound (env : Environment) (root : Bytes) (row : StratumRow)
    (dir : Bytes) (progress : Nat × World) (name : Bytes) : Nat × World :=
  let (count, world) := progress
  if name.head? = some 46 then progress
  else if ¬ runnable world (joinPath dir name) then progress
  else if hostHasCommand root name world then progress
  else if (world.exposed.get name).isSome then progress
  else
    let (added, world) := exposeAdd env root row.name name name .cli world
    (if added then count + 1 else count, world)

/-- The names that are found, each with its directory, in the order in which
the directories are read. -/
def foundNames (entries : Bytes → Option (List Bytes)) (base : Bytes) :
    List (Bytes × Bytes) :=
  stratumBinDirs.flatMap fun dir =>
    ((entries (joinPath base (ascii dir))).getD []).map
      (joinPath base (ascii dir), ·)

/-- `salt_expose_all`, with the count of what was exposed. -/
def exposeAll (env : Environment) (entries : Bytes → Option (List Bytes))
    (root : Bytes) (row : StratumRow) (world : World) :
    Option Nat × World :=
  if (world.stratum row.name).isNone then (none, world)
  else
    let (count, world) := (foundNames entries (stratumBase root row)).foldl
      (fun progress found =>
        exposeFound env root row found.1 progress found.2) (0, world)
    (some count, world)

/-! ## A stratum that is destroyed -/

/-- What `salt_stratum_destroy` does to the shims and the rows of a stratum,
with what it makes of the files otherwise. -/
def destroyStratum (env : Environment)
    (clear : (Bytes → Option Stored) → Bytes → Option Stored) (name : Bytes)
    (world : World) : World :=
  match world.stratum name with
  | none => world
  | some _ =>
      let world := { world with files := clear world.files }
      let own := world.exposed.rows.filter fun row => row.stratum = name
      let world := own.foldl (fun world row =>
        if row.shimPath ≠ [] then world.remove env row.shimPath else world)
        world
      { world with
        strata := world.strata.filter fun row => row.name ≠ name
        -- One statement deletes the rows, or none of them.
        exposed :=
          if own.all fun row => env.deletes row.aliasName then
            (own.map ExposedRow.aliasName).foldl (fun table name =>
              table.drop name) world.exposed
          else world.exposed }

/-! ## Commands -/

/-- The last component of a command. -/
def basenameOf (command : Bytes) : Bytes :=
  command.rtakeWhile (· != 47)

/-- The alias of `cmd_expose`. -/
def chosenAlias (command : Bytes) (given : Option Bytes) : Bytes :=
  match given.filter (· ≠ []) with
  | some name => name
  | none => basenameOf command

/-- What changes the exposed commands. -/
inductive ExposeCommand where
  | expose (stratum command : Bytes) (given : Option Bytes)
  | exposePm (stratum binary : Bytes)
  | exposeAll (row : StratumRow) (entries : Bytes → Option (List Bytes))
  | exposeDesktop (row : StratumRow) (app : Bytes)
  | unexpose (aliasName : Bytes)
  | apply (dryRun : Bool) (entries : List ExposeConfig)
  | destroy (name : Bytes)
      (clear : (Bytes → Option Stored) → Bytes → Option Stored)

/-- What a command leaves. -/
def ExposeCommand.run (env : Environment) (root : Bytes)
    (world : World) : ExposeCommand → World
  | .expose stratum command given =>
      (exposeAdd env root stratum command (chosenAlias command given) .cli
        world).2
  | .exposePm stratum binary =>
      (Strata.exposePm env root stratum binary world).2
  | .exposeAll row entries =>
      (Strata.exposeAll env entries root row world).2
  | .exposeDesktop row app =>
      (Strata.exposeDesktop env root row app world).2
  | .unexpose aliasName => (exposeRemove env aliasName world).2
  | .apply dryRun entries => (applyExpose env root dryRun entries world).2
  | .destroy name clear => destroyStratum env clear name world

end SaltOS.Strata
