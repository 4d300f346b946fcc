import SaltOS.Base.Written
import SaltOS.Lib.Run
import SaltOS.Txn.Txn

/-!
# The list of added paths

`salt_install_archive` puts the paths that its checks find missing on a list,
one a line, and `salt_txn_revert_files` unlinks what it reads back from the
lines.  This module says what an install finds missing, what a revert
unlinks, and when the list holds the one for the other over all installs of a
transaction.
-/

namespace SaltOS.Txn

open Lib Pkg

/-- The text of the list for some paths. -/
def lines (paths : List Bytes) : Bytes :=
  paths.flatMap fun path => path ++ [10]

/-- What the list holds; one that cannot be read holds nothing. -/
def addedBytes (root : Bytes) (id : Nat) (disk : Disk Content) : Bytes :=
  match disk.contents (addedPath root id) with
  | .ok content => content.bytes
  | .error _ => []

/-- The paths that a revert unlinks, in order. -/
def unlinkedPaths (root : Bytes) (id : Nat) (disk : Disk Content) :
    List Bytes :=
  (addedLines (addedBytes root id disk)).filter fun line =>
    line ≠ [] ∧ Util.pathIsConfined line = true

/-- Unlinking paths below the root, whatever becomes of each. -/
def unlinkUnder (root : Bytes) (paths : List Bytes) : DiskIo Unit :=
  paths.forM fun path =>
    ignore (Disk.unlink (Util.joinPath root path) :
      EStateM Errno (Disk Content) Unit)

/-- A revert but for the list: everything backed up is put back. -/
def restoreBackup (root : Bytes) (id : Nat) : DiskIo Unit := do
  let disk ← get
  restoreTree (disk.fs.depth + 1) (backupDir root id) [] root

/-- The paths of no directory that the checks of an install look at and find
missing, in order.  A check that fails is the last one. -/
def missingPaths (root backup name : Bytes) : Manifest → World → List Bytes
  | [], _ => []
  | entry :: rest, world =>
      if entry.typeflag = Tar.typeDir then
        missingPaths root backup name rest world
      else
        match checkOwner name entry.path world with
        | .error _ _ => []
        | .ok _ world =>
            match world.disk.lstat (Util.joinPath root entry.path) with
            | .error _ =>
                entry.path :: missingPaths root backup name rest world
            | .ok _ =>
                match onDisk (backupFile root backup entry.path) world with
                | .error _ _ => []
                | .ok _ world => missingPaths root backup name rest world

/-! ## Lines -/

theorem splitOn_lines {paths : List Bytes}
    (oneLine : ∀ path ∈ paths, 10 ∉ path) :
    (lines paths).splitOn 10 = paths ++ [[]] := by
  have ended : (lines paths).splitOn 10 =
      paths.map (fun path => path) ++ [[]] := splitOn_flatMap oneLine
  rw [ended, List.map_id']

theorem zero_not_mem_lines {paths : List Bytes}
    (noNul : ∀ path ∈ paths, 0 ∉ path) : 0 ∉ lines paths := by
  intro member
  obtain ⟨path, inPaths, inLine⟩ := List.mem_flatMap.mp member
  rcases List.mem_append.mp inLine with inPath | isNewline
  · exact noNul path inPaths inPath
  · simp at isNewline

theorem pathIsConfined_ne_nil {path : Bytes}
    (confined : Util.pathIsConfined path = true) : path ≠ [] := by
  rintro rfl
  revert confined
  decide

/-- Paths without a newline are read back from their lines. -/
theorem filter_addedLines {paths : List Bytes}
    (confined : ∀ path ∈ paths, Util.pathIsConfined path = true)
    (noNul : ∀ path ∈ paths, 0 ∉ path)
    (oneLine : ∀ path ∈ paths, 10 ∉ path) :
    (addedLines (lines paths)).filter (fun line =>
      line ≠ [] ∧ Util.pathIsConfined line = true) = paths := by
  unfold addedLines
  rw [cstr_eq_self (zero_not_mem_lines noNul), splitOn_lines oneLine,
    List.filter_append]
  have all : paths.filter (fun line =>
      line ≠ [] ∧ Util.pathIsConfined line = true) = paths := by
    apply List.filter_eq_self.mpr
    intro path member
    simp [confined path member, pathIsConfined_ne_nil (confined path member)]
  rw [all]
  simp

/-! ## A revert -/

theorem forM_unlinkAdded (root : Bytes) (candidates : List Bytes) :
    candidates.forM (unlinkAdded root) =
      unlinkUnder root (candidates.filter fun line =>
        line ≠ [] ∧ Util.pathIsConfined line = true) := by
  induction candidates with
  | nil => rfl
  | cons line rest ih =>
      change (unlinkAdded root line >>= fun _ =>
        rest.forM (unlinkAdded root)) = _
      rw [ih]
      unfold unlinkAdded
      by_cases taken : line ≠ [] ∧ Util.pathIsConfined line = true
      · rw [if_pos taken, List.filter_cons_of_pos (by simpa using taken)]
        rfl
      · rw [if_neg taken, List.filter_cons_of_neg (by simpa using taken)]
        rfl

/-- A revert unlinks the paths it reads off the list and puts everything
back. -/
theorem revertFiles_eq (root : Bytes) (id : Nat) (disk : Disk Content) :
    revertFiles root id disk =
      (do unlinkUnder root (unlinkedPaths root id disk)
          restoreBackup root id) disk := by
  unfold revertFiles
  change EStateM.bind _ _ disk = _
  unfold EStateM.bind attempt Util.readFile
  cases found : disk.contents (addedPath root id) with
  | ok content =>
      have listed : addedBytes root id disk = content.bytes := by
        simp [addedBytes, found]
      rw [unlinkedPaths, listed, ← forM_unlinkAdded]
      simp only [bind, EStateM.bind, get_run, found, pure, EStateM.pure]
      rfl
  | error errno =>
      have listed : addedBytes root id disk = [] := by
        simp [addedBytes, found]
      have nothing : unlinkedPaths root id disk = [] := by
        rw [unlinkedPaths, listed]
        rfl
      rw [nothing]
      simp only [bind, EStateM.bind, get_run, found, throw_run]
      rfl

/-! ## One install -/

/-- One call of `salt_install_archive`. -/
structure Call where
  archive : Archive
  repo : Option Bytes
  sigStatus : Option Bytes

/-- The manifests an archive can have: paths are C strings, and
`manifest_check_confined` passes. -/
def Call.Admitted (call : Call) : Prop :=
  ∀ entry ∈ call.archive.manifest,
    Util.pathIsConfined entry.path = true ∧ 0 ∉ entry.path

section Phases

variable (host : Host) (root : Bytes) (id : Nat) (call : Call)
  (world : World)

def Call.perform : Io Unit :=
  installArchive host root call.archive call.repo call.sigStatus id

/-- The backup directory is made. -/
def begun : World :=
  finalState ((ignore (onDisk (Util.mkdirs (backupDir root id) 493)) :
    Io Unit) world)

/-- The checks of the manifest. -/
def Call.checks : EStateM.Result Failure World Bytes :=
  checkEntries root (backupDir root id) call.archive.pkg.name
    call.archive.manifest [] (begun root id world)

/-- What the checks find missing. -/
def Call.missing : List Bytes :=
  missingPaths root (backupDir root id) call.archive.pkg.name
    call.archive.manifest (begun root id world)

/-- What an install does once the list is written, with the database as it
was before. -/
def Call.rest (db : Db) : Io Unit := do
  let archive := call.archive
  let name := archive.pkg.name
  onDisk (extractPayload host archive root)
  (dropped (oldManifest db name) archive.manifest).forM fun entry =>
    onDisk (takeAway root (backupDir root id) entry.path)
  let hook :=
    if db.isInstalled name then Hook.postUpgrade else Hook.postInstall
  runHookIf (archive.pkg.hooks hook) hook name
  Db.recordInstall archive.pkg archive.manifest call.repo call.sigStatus id

end Phases

section Install

variable {host : Host} {root : Bytes} {id : Nat} {call : Call}
  {world : World}

theorem manifestCheckConfined_ok {manifest : Manifest}
    (confined : ∀ entry ∈ manifest, Util.pathIsConfined entry.path = true)
    (world : World) :
    manifestCheckConfined manifest world = .ok () world := by
  induction manifest with
  | nil => rfl
  | cons entry rest ih =>
      have first := confined entry List.mem_cons_self
      have later := ih fun other member =>
        confined other (List.mem_cons_of_mem _ member)
      change EStateM.bind _ _ world = _
      unfold EStateM.bind
      rw [if_pos first]
      exact later

/-- The phases of an install. -/
theorem perform_eq (admitted : call.Admitted) :
    call.perform host root id world =
      match call.checks root id world with
      | .ok added checked =>
          match onDisk (appendAdded (addedPath root id) added) checked with
          | .ok _ appended =>
              call.rest host root id (begun root id world).db appended
          | .error failure appended => .error failure appended
      | .error failure checked => .error failure checked := by
  have passes := manifestCheckConfined_ok
    (fun entry member => (admitted entry member).1) world
  unfold Call.perform installArchive
  change EStateM.bind _ _ world = _
  unfold EStateM.bind
  rw [passes]
  -- Making the backup directory always returns.
  change EStateM.bind (checkEntries root (backupDir root id)
    call.archive.pkg.name call.archive.manifest []) _
    (begun root id world) = _
  unfold EStateM.bind Call.checks
  cases checkEntries root (backupDir root id) call.archive.pkg.name
      call.archive.manifest [] (begun root id world) with
  | error failure checked => rfl
  | ok added checked =>
      dsimp only
      change EStateM.bind _ _ checked = _
      unfold EStateM.bind
      cases onDisk (appendAdded (addedPath root id) added) checked with
      | error failure appended => rfl
      | ok _ appended => rfl

/-! ## What the checks leave on the list -/

theorem checkEntries_lines {root backup name : Bytes} {manifest : Manifest}
    {world : World} {added : Bytes} :
    Ends (checkEntries root backup name manifest added world)
      (fun list _ => list =
        added ++ lines (missingPaths root backup name manifest world))
      (fun _ _ => True) := by
  induction manifest generalizing world added with
  | nil => simp [checkEntries, missingPaths, lines, Ends, pure, EStateM.pure]
  | cons entry rest ih =>
      unfold checkEntries missingPaths
      by_cases isDir : entry.typeflag = Tar.typeDir
      · rw [if_pos isDir, if_pos isDir]
        exact ih
      · rw [if_neg isDir, if_neg isDir]
        change Ends (EStateM.bind _ _ world) _ _
        unfold EStateM.bind
        cases checkOwner name entry.path world with
        | error failure checked => trivial
        | ok _ checked =>
            dsimp only
            change Ends (EStateM.bind _ _ checked) _ _
            unfold EStateM.bind
            cases absent : checked.disk.lstat
                (Util.joinPath root entry.path) with
            | error errno =>
                have saved : saveEntry root backup entry.path added checked =
                    .ok (added ++ entry.path ++ [10]) checked := by
                  simp [saveEntry, bind, EStateM.bind, get_run, absent, pure, EStateM.pure]
                rw [saved]
                dsimp only
                apply ih.mono _ (fun _ _ _ => trivial)
                rintro list _ rfl
                simp [lines]
            | ok node =>
                have saved : saveEntry root backup entry.path added checked =
                    match onDisk (backupFile root backup entry.path)
                      checked with
                    | .ok _ after => .ok added after
                    | .error failure after => .error failure after := by
                  simp only [saveEntry, bind, EStateM.bind, get_run, absent, pure, EStateM.pure]
                  cases onDisk (backupFile root backup entry.path) checked <;>
                    rfl
                rw [saved]
                cases onDisk (backupFile root backup entry.path) checked with
                | error failure after => trivial
                | ok _ after => exact ih

theorem missingPaths_subset {root backup name path : Bytes}
    {manifest : Manifest} {world : World}
    (member : path ∈ missingPaths root backup name manifest world) :
    ∃ entry ∈ manifest, entry.path = path ∧ entry.typeflag ≠ Tar.typeDir := by
  induction manifest generalizing world with
  | nil => cases member
  | cons entry rest ih =>
      have later {next : World}
          (inRest : path ∈ missingPaths root backup name rest next) :
          ∃ other ∈ entry :: rest, other.path = path ∧
            other.typeflag ≠ Tar.typeDir := by
        obtain ⟨other, inManifest, found⟩ := ih inRest
        exact ⟨other, List.mem_cons_of_mem _ inManifest, found⟩
      unfold missingPaths at member
      split at member
      · exact later member
      · rename_i noDir
        split at member
        · cases member
        · split at member
          · rcases List.mem_cons.mp member with rfl | inRest
            · exact ⟨entry, List.mem_cons_self, rfl, noDir⟩
            · exact later inRest
          · split at member
            · cases member
            · exact later member

theorem appendAdded_eq {root added : Bytes} {id : Nat}
    (nonempty : added ≠ []) (disk : Disk Content) :
    appendAdded (addedPath root id) added disk =
      Util.writeFile (addedPath root id)
        (Content.raw (addedBytes root id disk ++ added)) 420 disk := by
  unfold appendAdded addedBytes
  rw [if_neg nonempty]
  change EStateM.bind _ _ disk = _
  unfold EStateM.bind
  cases found : disk.contents (addedPath root id) with
  | ok content =>
      simp only [bind, EStateM.bind, attempt, Util.readFile, get_run, found, pure, EStateM.pure]
  | error errno =>
      simp only [bind, EStateM.bind, attempt, Util.readFile, get_run, found, throw_run, pure, EStateM.pure]

/-- `append_added` puts the text behind what the list held. -/
theorem appendAdded_adds {root : Bytes} {id : Nat} (added : Bytes)
    {disk : Disk Content} {loc : Loc}
    (resolved : disk.resolve (Util.dirname (addedPath root id)) = .ok loc)
    (notLink : ∀ target,
      disk.lstat (addedPath root id) ≠ .ok (.symlink target)) :
    Ends (appendAdded (addedPath root id) added disk)
      (fun _ after => addedBytes root id after =
        addedBytes root id disk ++ added)
      (fun _ _ => True) := by
  by_cases nothing : added = []
  · subst nothing
    change addedBytes root id disk = addedBytes root id disk ++ []
    rw [List.append_nil]
  · rw [appendAdded_eq nothing]
    refine (Util.writeFile_contents resolved notLink).mono ?_
      (fun _ _ _ => trivial)
    intro _ after written
    rw [addedBytes, written]
    rfl

end Install

/-! ## All installs of a transaction -/

/-- The list can be written: its directory is there, and it is no link. -/
structure ListWritable (root : Bytes) (id : Nat) (disk : Disk Content) :
    Prop where
  directory : (disk.resolve (Util.dirname (addedPath root id))).isOk = true
  noLink : ∀ node, disk.lstat (addedPath root id) = .ok node →
    node.isSymlink = false

/-- A step of a transaction is an install with what it found missing. -/
def Installs (host : Host) (root : Bytes) (id : Nat) (before : World)
    (step : Call × List Bytes) (after : World) : Prop :=
  step.1.Admitted ∧ step.2 = step.1.missing root id before ∧
    after = finalState (step.1.perform host root id before)

/-- An install under which the list stays what it is meant to be: what is
missing fits on lines, `append_added` gets to write it, and nothing else that
the install does reaches the list. -/
structure Orderly (host : Host) (root : Bytes) (id : Nat) (before : World)
    (step : Call × List Bytes) : Prop where
  oneLine : ∀ path ∈ step.1.missing root id before, 10 ∉ path
  checksSpare : addedBytes root id
      (finalState (step.1.checks root id before)).disk =
    addedBytes root id before.disk
  checksStop : succeeded (step.1.checks root id before) = false →
    step.1.missing root id before = []
  appends : step.1.missing root id before ≠ [] →
    ListWritable root id (finalState (step.1.checks root id before)).disk ∧
      succeeded (appendAdded (addedPath root id)
        (lines (step.1.missing root id before))
        (finalState (step.1.checks root id before)).disk) = true
  restSpares : ∀ appended,
    onDisk (appendAdded (addedPath root id)
        (lines (step.1.missing root id before)))
      (finalState (step.1.checks root id before)) = .ok () appended →
    addedBytes root id (finalState (step.1.rest host root id
      (begun root id before).db appended)).disk =
    addedBytes root id appended.disk

section Transaction

variable {host : Host} {root : Bytes} {id : Nat} {before after : World}
  {step : Call × List Bytes}

/-- An install in order puts what it finds missing on the list. -/
theorem Installs.adds (installs : Installs host root id before step after)
    (orderly : Orderly host root id before step) :
    addedBytes root id after.disk =
      addedBytes root id before.disk ++ lines step.2 := by
  obtain ⟨admitted, isMissing, rfl⟩ := installs
  rw [perform_eq admitted, isMissing]
  have listed : Ends (step.1.checks root id before)
      (fun list _ => list = [] ++ lines (step.1.missing root id before))
      (fun _ _ => True) := checkEntries_lines
  have spare := orderly.checksSpare
  have stop := orderly.checksStop
  have appends := orderly.appends
  have rest := orderly.restSpares
  cases outcome : step.1.checks root id before with
  | error failure checked =>
      rw [outcome] at spare stop
      rw [stop rfl]
      exact spare.trans (List.append_nil _).symm
  | ok added checked =>
      rw [outcome] at listed spare appends rest
      have isList : added = lines (step.1.missing root id before) := listed
      subst isList
      dsimp only [finalState] at spare appends rest ⊢
      by_cases nothing : step.1.missing root id before = []
      · have noLine : lines (step.1.missing root id before) = [] := by
          rw [nothing]
          rfl
        have unchanged : onDisk (appendAdded (addedPath root id)
            (lines (step.1.missing root id before))) checked =
            .ok () checked := by
          rw [noLine]
          rfl
        rw [unchanged]
        have kept := rest checked unchanged
        dsimp only
        rw [kept, spare, noLine, List.append_nil]
      · obtain ⟨writable, done⟩ := appends nothing
        obtain ⟨loc, resolved⟩ : ∃ loc, checked.disk.resolve
            (Util.dirname (addedPath root id)) = .ok loc := by
          have directory := writable.directory
          cases there : checked.disk.resolve
              (Util.dirname (addedPath root id)) with
          | ok loc => exact ⟨loc, rfl⟩
          | error errno =>
              rw [there] at directory
              cases directory
        have wrote := appendAdded_adds
          (lines (step.1.missing root id before)) resolved
          (fun target isLink => by
            have noLink := writable.noLink _ isLink
            cases noLink)
        rw [eq_ok_of_succeeded done] at wrote
        have onWorld : onDisk (appendAdded (addedPath root id)
            (lines (step.1.missing root id before))) checked =
            .ok () { checked with
              disk := finalState (appendAdded (addedPath root id)
                (lines (step.1.missing root id before)) checked.disk) } := by
          rw [onDisk, eq_ok_of_succeeded done]
          rfl
        rw [onWorld]
        have kept := rest _ onWorld
        dsimp only
        rw [kept]
        exact wrote.trans (congrArg (· ++ _) spare)

variable {start now : World} {steps : List (Call × List Bytes)}

/-- After installs in order, the list holds what they found missing. -/
theorem run_adds (fresh : addedBytes root id start.disk = [])
    (run : Run (Guarded (Orderly host root id) (Installs host root id))
      start steps now) :
    addedBytes root id now.disk = lines (steps.flatMap Prod.snd) := by
  induction run with
  | nil => exact fresh
  | snoc _ last ih =>
      obtain ⟨orderly, installs⟩ := last
      rw [installs.adds orderly, ih]
      simp [lines]

/-- What the installs of a run found missing are paths of their manifests
that fit on a line. -/
theorem run_paths
    (run : Run (Guarded (Orderly host root id) (Installs host root id))
      start steps now) :
    ∀ path ∈ steps.flatMap Prod.snd,
      Util.pathIsConfined path = true ∧ 0 ∉ path ∧ 10 ∉ path := by
  induction run with
  | nil => exact fun _ member => nomatch member
  | snoc _ last ih =>
      obtain ⟨orderly, admitted, isMissing, -⟩ := last
      intro path member
      rw [List.flatMap_append, List.mem_append] at member
      rcases member with earlier | here
      · exact ih path earlier
      · rw [List.flatMap_singleton, isMissing] at here
        obtain ⟨entry, inManifest, rfl, -⟩ := missingPaths_subset here
        obtain ⟨confined, noNul⟩ := admitted entry inManifest
        exact ⟨confined, noNul, orderly.oneLine _ here⟩

end Transaction

/-! ## Two installs -/

/-- A compressed tar archive of no member, and what it decompresses to. -/
def memberless : Bytes :=
  [0x28, 0xB5, 0x2F, 0xFD, 0x60, 0x00, 0x03, 0x03, 0x20, 0x00, 0x00]

def memberlessHost : Host where
  decompress := fun input =>
    if input = memberless then .ok (List.replicate 1024 0)
    else .error ⟨.format, none⟩
  image := fun _ => ascii "SQLite format 3" ++ [0]
  btrfs := none

/-- An archive of one file. -/
def installOf (path : String) : Call where
  archive := {
    pkg := {
      name := ascii "tool"
      version := ascii "1"
      release := 1
      arch := ascii "any"
      summary := none
      license := none
      reproStatus := none
      reproReason := none
      deps := []
      conflicts := []
      hooks := fun _ => none }
    manifest := [⟨ascii path, 48, 420, 0, none, none⟩]
    payload := memberless
    scripts := [] }
  repo := none
  sigStatus := none

/-- A root with one file, `etc/passwd`. -/
def passwdRoot : World where
  disk := ⟨((FileSystem.bare Content).replace (ascii "etc") []
      (some (.dir 493))).replace (ascii "passwd") [ascii "etc"]
        (some (.file (Content.raw (ascii "root")) 420)), [], []⟩
  db := ⟨Tables.empty, [], 0, []⟩
  saved := none
  sqlFaults := []
  deleteFaults := []
  picks := []
  hookEnds := []

/-- The transaction of one install, with the root directory as the root. -/
def afterInstall (path : String) : World :=
  finalState ((installOf path).perform memberlessHost [47] 1 passwdRoot)

theorem admitted_installOf {path : String}
    (confined : Util.pathIsConfined (ascii path) = true)
    (noNul : 0 ∉ ascii path) : (installOf path).Admitted := by
  intro entry member
  rw [List.mem_singleton.mp member]
  exact ⟨confined, noNul⟩

end SaltOS.Txn
