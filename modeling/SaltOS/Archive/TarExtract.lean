import SaltOS.Archive.Tar
import SaltOS.Base.Util

/-!
# Extraction of a tar archive

`extract_cb` and `salt_tar_extract` of `src/halite/src/tar.c`, with the checks
that keep the entries below the destination.
-/

namespace SaltOS.Tar

open Lib Util

variable {γ : Type}

/-- The loop of `strip_dot_slash`; every round takes two bytes off. -/
def stripLoop : Nat → Bytes → Bytes
  | 0, path => path
  | fuel + 1, path =>
      if path.take 2 = [46, 47] then
        stripLoop fuel ((path.drop 2).dropWhile (· == 47))
      else path

def stripDotSlash (path : Bytes) : Bytes :=
  stripLoop path.length path

/-- The path before its last slash, unless it is empty. -/
def cutLast (path : Bytes) : Option Bytes :=
  let front := joinSlash (components path).dropLast
  if front = [] then none else some front

/-- The loop of `existing_ancestor_within`, which shortens the path by a
component in every round. -/
def ancestorLoop (disk : Disk γ) (dest : Bytes) : Nat → Bytes → Bool
  | 0, _ => false
  | fuel + 1, path =>
      match disk.lstat path with
      | .ok _ => pathWithinRoot disk dest path
      | .error _ =>
          match cutLast path with
          | none => pathWithinRoot disk dest (ascii ".")
          | some front => ancestorLoop disk dest fuel front

def existingAncestorWithin (disk : Disk γ) (dest path : Bytes) : Bool :=
  ancestorLoop disk dest (components path).length path

def escapes (full : Bytes) : Failure :=
  ⟨.format, some (ascii "tar: " ++ full ++
    ascii " escapes the install root")⟩

def confineParent (dest full : Bytes) : EStateM Failure (Disk γ) Unit := do
  match cutLast full with
  | none =>
      let disk ← get
      if pathWithinRoot disk dest dest then pure () else throw (escapes full)
  | some parent =>
      let disk ← get
      if existingAncestorWithin disk dest parent then
        mkdirs parent 493
        let disk ← get
        if pathWithinRoot disk dest parent then pure ()
        else throw (escapes full)
      else throw (escapes full)

/-- The path is a symbolic link that leaves the destination. -/
def leavesRoot (disk : Disk γ) (dest full : Bytes) : Bool :=
  match disk.lstat full with
  | .ok (.symlink _) => !pathWithinRoot disk dest full
  | _ => false

def extractDir (dest full : Bytes) (mode : Nat) :
    EStateM Failure (Disk γ) Unit := do
  let disk ← get
  if leavesRoot disk dest full then throw (escapes full)
  else mkdirs full mode

/-- The path has a node that is no directory. -/
def isLeaf (disk : Disk γ) (full : Bytes) : Bool :=
  match disk.lstat full with
  | .ok node => !node.isDir
  | .error _ => false

def unlinkLeaf (full : Bytes) : EStateM Failure (Disk γ) Unit := do
  let disk ← get
  if isLeaf disk full then
    ignore (Disk.unlink full : EStateM Errno (Disk γ) Unit)
  else pure ()

def extractSymlink (full target : Bytes) :
    EStateM Failure (Disk γ) Unit := do
  unlinkLeaf full
  checked "symlink" full (Disk.symlink target full)

/-- `extract_cb`. -/
def extractCb (stored : Bytes → γ) (dest : Bytes) (entry : Entry) :
    EStateM Failure (Disk γ) Unit := do
  let rel := stripDotSlash entry.path
  if pathIsConfined rel then
    let full := joinPath dest rel
    confineParent dest full
    if entry.typeflag = typeDir then
      extractDir dest full (if entry.mode = 0 then 493 else entry.mode)
    else if entry.typeflag = typeSymlink then
      extractSymlink full (entry.linkname.getD [])
    else if entry.typeflag = typeFile ∨ entry.typeflag = 0 then
      writeFile full (stored (entry.data.getD []))
        (if entry.mode = 0 then 420 else entry.mode)
    else pure ()
  else if entry.typeflag = typeDir ∧ (rel = [] ∨ rel = ascii ".") then
    pure ()
  else throw ⟨.format, some (ascii "tar: refusing unsafe path '" ++
    entry.path ++ ascii "'")⟩

/-- `salt_tar_extract`. -/
def extract (stored : Bytes → γ) (input dest : Bytes) :
    EStateM Failure (Disk γ) Unit := do
  mkdirs dest 493
  let reading := read input
  reading.entries.forM (extractCb stored dest)
  if reading.ending = .complete then pure ()
  else throw ⟨.format, some (ascii "tar: entry size exceeds archive")⟩

end SaltOS.Tar
