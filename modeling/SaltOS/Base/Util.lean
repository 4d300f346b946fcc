import SaltOS.Base.Numerals
import SaltOS.Lib.Posix

/-!
# Files and paths

`src/halite/src/util.c`: what the library does with paths, on a disk whose
files hold anything.
-/

namespace SaltOS

open Lib

/-- The `SALT_ERR` return codes. -/
inductive Code where
  | err
  | io
  | format
  | notFound
  | verify
  | exists
  deriving DecidableEq, Repr

/-- A return code other than `SALT_OK`, with the message of `salt_set_error`
where the failing function sets one. -/
structure Failure where
  code : Code
  message : Option Bytes
  deriving DecidableEq, Repr

def strerror : Errno → Bytes
  | .noent => ascii "No such file or directory"
  | .io => ascii "Input/output error"
  | .exist => ascii "File exists"
  | .notdir => ascii "Not a directory"
  | .isdir => ascii "Is a directory"
  | .inval => ascii "Invalid argument"
  | .busy => ascii "Device or resource busy"
  | .notempty => ascii "Directory not empty"
  | .loop => ascii "Too many levels of symbolic links"

/-- `salt_set_error("<what> <path>: <strerror>")`. -/
def callFailed (what : String) (path : Bytes) (errno : Errno) : Failure :=
  ⟨.io, some (ascii what ++ [32] ++ path ++ ascii ": " ++ strerror errno)⟩

namespace Util

variable {γ : Type}

/-- A call whose failure makes the caller return `SALT_ERR_IO`. -/
def checked (what : String) (path : Bytes)
    (program : EStateM Errno (Disk γ) Unit) :
    EStateM Failure (Disk γ) Unit := do
  match ← attempt program with
  | .ok () => pure ()
  | .error errno => throw (callFailed what path errno)

/-- `salt_join_path`. -/
def joinPath (first second : Bytes) : Bytes :=
  if first = [] then second
  else if second = [] then first
  else first ++ (if first.getLast? = some 47 then [] else [47]) ++
    second.dropWhile (· == 47)

/-- `dirname` of the C library. -/
def dirname (path : Bytes) : Bytes :=
  let body := Disk.trimmed path
  if body = [] then (if path = [] then ascii "." else ascii "/")
  else if body.dropLast = [] then ascii "."
  else
    let dir := body.dropLast.rdropWhile (· = [])
    if dir = [] then ascii "/" else joinSlash dir

/-- The paths `salt_mkdirs` makes: cut before each slash but a leading one,
and the path itself without one trailing slash. -/
def mkdirsSteps (path : Bytes) : List Bytes :=
  let body :=
    if 1 < path.length ∧ path.getLast? = some 47 then path.dropLast else path
  ((components body).inits.map joinSlash).filter (· ≠ [])

/-- `salt_mkdirs`. -/
def mkdirs (path : Bytes) (mode : Nat) : EStateM Failure (Disk γ) Unit :=
  (mkdirsSteps path).forM fun step => do
    match ← attempt (Disk.mkdir step mode) with
    | .ok () => pure ()
    | .error errno =>
        if errno = .exist then pure ()
        else throw (callFailed "mkdir" step errno)

/-- `salt_read_file`. -/
def readFile (path : Bytes) : EStateM Failure (Disk γ) γ := do
  let disk ← get
  match disk.contents path with
  | .ok content => return content
  | .error errno =>
      throw (callFailed (if errno = .isdir then "read" else "open") path
        errno)

def makeDirname (path : Bytes) : EStateM Failure (Disk γ) Unit :=
  let dir := dirname path
  if dir ≠ ascii "." ∧ dir ≠ ascii "/" then
    ignore (mkdirs dir 493 : EStateM Failure (Disk γ) Unit)
  else pure ()

/-- `salt_write_file`. -/
def writeFile (path : Bytes) (content : γ) (mode : Nat) :
    EStateM Failure (Disk γ) Unit := do
  let temporary := path ++ ascii ".salt-XXXXXX"
  makeDirname path
  checked "mkstemp" temporary (Disk.mkstemp path)
  checked "rename" (temporary ++ ascii " -> " ++ path)
    (Disk.rename content mode path)

/-- `salt_path_is_confined`. -/
def pathIsConfined (rel : Bytes) : Bool :=
  rel.head? ≠ some 47 &&
    (components rel).all (fun comp => comp ≠ dotDot) &&
    (components rel).any (fun comp => ¬ IsDot comp)

/-- The absolute path that `realpath` prints for a location. -/
def locPath (loc : Loc) : Bytes :=
  if loc = [] then [47] else joinSlash ([] :: loc.reverse)

/-- `salt_path_within_root`. -/
def pathWithinRoot (disk : Disk γ) (root path : Bytes) : Bool :=
  match disk.resolve root, disk.resolve path with
  | .ok rootLoc, .ok pathLoc =>
      let rr := locPath rootLoc
      let rp := locPath pathLoc
      let next := (rp.drop rr.length).head?
      if rr = [47] then true
      else rr.isPrefixOf rp && (next == none || next == some 47)
  | _, _ => false

/-- `salt_path_exists`. -/
def pathExists (disk : Disk γ) (path : Bytes) : Bool :=
  match disk.stat path with
  | .ok _ => true
  | .error _ => false

/-- `salt_is_dir`. -/
def isDir (disk : Disk γ) (path : Bytes) : Bool :=
  match disk.stat path with
  | .ok node => node.isDir
  | .error _ => false

/-- `salt_copy_file`. -/
def copyFile (source target : Bytes) : EStateM Failure (Disk γ) Unit := do
  let content ← match ← attempt (readFile source) with
    | .ok content => pure content
    | .error failure => throw { failure with code := .io }
  let disk ← get
  let mode :=
    match disk.stat source with
    | .ok (.file _ mode) => mode % 512
    | .ok (.dir mode) => mode % 512
    | _ => 420
  writeFile target content mode

/-- `salt_remove_recursive`; the fuel bounds the depth of the tree. -/
def removeRecursive : Nat → Bytes → EStateM Failure (Disk γ) Unit
  | 0, path => throw (callFailed "lstat" path .loop)
  | fuel + 1, path => do
      let disk ← get
      match disk.lstat path with
      | .error errno =>
          if errno = .noent then pure ()
          else throw (callFailed "lstat" path errno)
      | .ok node =>
          if node.isDir then
            match disk.readdir path with
            | .error errno => throw (callFailed "opendir" path errno)
            | .ok names =>
                names.forM fun name =>
                  removeRecursive fuel (joinPath path name)
                checked "rmdir" path (Disk.rmdir path)
          else checked "unlink" path (Disk.unlink path)

end Util

end SaltOS
