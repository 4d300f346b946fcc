import SaltOS.Base.Numerals
import SaltOS.Lib.FirstWins
import SaltOS.Lib.Pieces
import SaltOS.Strata.Expose

/-!
# Accounts of the host and of the strata

`append_missing_identity` and `cmd_run` of `src/salt/cmd_run.cpp`: a run by
root adds the people of the host to the stratum that the command runs in, and
when the command has changed the accounts there, adds its people to the host
and those of the host to every other stratum.

An `etc` directory is what these functions see of it, `passwd`, `shadow` and
`group`.  Which directory a path leads to, what a command leaves in the `etc`
of its stratum and whether the fingerprints of the files differ afterwards is
up to the environment.  What becomes of the command itself is left out.
-/

namespace SaltOS.Strata

open Lib

/-! ## Lines -/

def isSpace (byte : UInt8) : Bool :=
  byte == 32 || (9 ≤ byte && byte ≤ 13)

/-- `strtol` of a field that is a number as a whole.  A number that saturates
is far above every id, or below. -/
def wholeNumber (field : Bytes) : Option Int :=
  let body := (cstr field).dropWhile isSpace
  let digits :=
    if body.head? = some 43 ∨ body.head? = some 45 then body.drop 1 else body
  if digits ≠ [] ∧ digits.all Bytes.isDigit then
    some (if body.head? = some 45 then -(readBase 10 digits : Int)
      else readBase 10 digits)
  else none

def isHumanId (field : Bytes) : Bool :=
  match wholeNumber field with
  | none => false
  | some id => 1000 ≤ id && id < 65534

/-- The text up to the first colon; without one there is no name. -/
def firstField (line : Bytes) : Bytes :=
  if 58 ∈ line then line.takeWhile (· != 58) else []

/-- The field after `index` colons. -/
def nthField : Nat → Bytes → Bytes
  | 0, line => line.takeWhile (· != 58)
  | index + 1, line =>
      match line.dropWhile (· != 58) with
      | [] => []
      | _ :: rest => nthField index rest

/-- The lines that `getline` reads and that are not skipped as empty. -/
def fileLines (content : Bytes) : List Bytes :=
  (content.splitOn 10).filter (· ≠ [])

/-- The third field is the id of somebody, both in `passwd` and in `group`. -/
def isHuman (line : Bytes) : Bool :=
  firstField line ≠ [] ∧ isHumanId (nthField 2 line)

/-! ## Files -/

structure AccountFile where
  content : Bytes
  mode : Nat
  deriving DecidableEq, Repr

/-- The place of a file, and whether it can be opened for appending. -/
structure Slot where
  file : Option AccountFile
  writable : Bool
  deriving DecidableEq, Repr

namespace Slot

def content (slot : Slot) : Bytes :=
  (slot.file.map AccountFile.content).getD []

def lines (slot : Slot) : List Bytes :=
  fileLines slot.content

/-- A content that ends in a newline, unless it is empty. -/
def ended (content : Bytes) : Bytes :=
  if content ≠ [] ∧ content.getLast? ≠ some 10 then content ++ [10]
  else content

/-- `append_lines`, of lines that each get their newline. -/
def appendLines (slot : Slot) (mode : Nat) (lines : List Bytes) : Slot :=
  if lines = [] ∨ ¬ slot.writable then slot
  else
    { slot with
      file := some ⟨ended slot.content ++ lines.flatMap (· ++ [10]), mode⟩ }

/-- The lines whose names `collect_names` does not find are appended. -/
def addMissing (slot : Slot) (mode : Nat) (lines : List Bytes) : Slot :=
  slot.appendLines mode (missingRows firstField slot.lines lines)

end Slot

structure Etc where
  passwd : Slot
  shadow : Slot
  group : Slot
  deriving DecidableEq, Repr

namespace Etc

/-- The people of `passwd`. -/
def people (etc : Etc) : List Bytes :=
  etc.passwd.lines.filter isHuman

/-- The lines of `shadow` that belong to people. -/
def secrets (etc : Etc) : List Bytes :=
  etc.shadow.lines.filter fun line =>
    firstField line ≠ [] ∧ firstField line ∈ etc.people.map firstField

def groups (etc : Etc) : List Bytes :=
  etc.group.lines.filter isHuman

end Etc

/-- `append_missing_identity`.  A file that is not there has no lines. -/
def appendMissingIdentity (source target : Etc) : Etc :=
  if source.passwd.file.isNone then target
  else
    { passwd := target.passwd.addMissing 0o644 source.people
      shadow := target.shadow.addMissing 0o600 source.secrets
      group := target.group.addMissing 0o644 source.groups }

/-! ## Runs -/

variable {π : Type} [DecidableEq π]

/-- Where `/etc` of the host is, and that of a stratum with a given root. -/
structure Layout (π : Type) where
  host : π
  place : Bytes → π

/-- A run of `salt run`: who runs it, in which stratum, what the command makes
of the accounts there, whether it was run, whether the fingerprints differ
afterwards, and the strata that are listed then. -/
structure AccountRun where
  asRoot : Bool
  stratum : StratumRow
  command : Etc → Etc
  carriedOut : Bool
  changed : Bool
  listed : List StratumRow

def AccountRun.identity (run : AccountRun) : Bool :=
  run.asRoot ∧ run.stratum.root ≠ []

/-- The `etc` directories, after one of them has been replaced. -/
def putEtc (etcs : π → Etc) (place : π) (etc : Etc) : π → Etc :=
  fun other => if other = place then etc else etcs other

/-- `append_missing_identity` between two places. -/
def push (source target : π) (etcs : π → Etc) : π → Etc :=
  putEtc etcs target (appendMissingIdentity (etcs source) (etcs target))

/-- The strata that get the people of the host after a run. -/
def AccountRun.others (run : AccountRun) : List StratumRow :=
  run.listed.filter fun row =>
    row.root ≠ [] ∧ row.name ≠ run.stratum.name

/-- The places that accounts are pushed to, in turn. -/
def fanOut (layout : Layout π) (rows : List StratumRow) (etcs : π → Etc) :
    π → Etc :=
  rows.foldl (fun etcs row => push layout.host (layout.place row.root) etcs)
    etcs

/-- What a command finds when it starts. -/
def beforeCommand (layout : Layout π) (run : AccountRun) (etcs : π → Etc) :
    π → Etc :=
  if run.identity then push layout.host (layout.place run.stratum.root) etcs
  else etcs

/-- The accounts after `cmd_run`. -/
def cmdRun (layout : Layout π) (run : AccountRun) (etcs : π → Etc) :
    π → Etc :=
  let own := layout.place run.stratum.root
  let etcs := beforeCommand layout run etcs
  let etcs := putEtc etcs own (run.command (etcs own))
  if run.identity ∧ run.carriedOut ∧ run.changed then
    fanOut layout run.others (push own layout.host etcs)
  else etcs

/-- One run after the other. -/
def cmdRuns (layout : Layout π) (runs : List AccountRun) (etcs : π → Etc) :
    π → Etc :=
  runs.foldl (fun etcs run => cmdRun layout run etcs) etcs

end SaltOS.Strata
