import SaltOS.Install.Resolve

/-!
# Lockfiles

`lock_load`, `compare_lock` and the native part of `lock_apply` of
`src/salt/cmd_lock.cpp`.  What is printed is left out; the text of an error is
what `lock_load` reports.
-/

namespace SaltOS.Lock

open Lib Repo Toml Install

structure LockEntry where
  name : Bytes
  version : Bytes
  release : Int
  arch : Bytes
  sha256 : Bytes
  repo : Bytes
  filename : Bytes
  deriving DecidableEq, Repr

structure ForeignPin where
  name : Bytes
  version : Bytes
  digest : Bytes
  deriving DecidableEq, Repr

structure StratumLock where
  name : Bytes
  family : Bytes
  packageManager : Bytes
  packages : List ForeignPin
  deriving DecidableEq, Repr

structure LockFile where
  native : List LockEntry
  strata : List StratumLock
  deriving DecidableEq, Repr

/-! ## Reading -/

/-- `strip_sha_prefix`. -/
def stripShaPrefix (text : Bytes) : Bytes :=
  if (ascii "sha256:").isPrefixOf text then text.drop 7 else text

/-- A string that is there and not empty. -/
def nonEmptyAt (node : Node) (key : String) : Option Bytes :=
  (stringAt node key).filter (· ≠ [])

/-- Items of one of the lists of a lockfile, each name once. -/
def loadDistinct {α : Type} (name : α → Bytes) (twice : Bytes → Bytes)
    (load : Nat → Node → Except Bytes α) :
    Nat → List Bytes → List Node → Except Bytes (List α)
  | _, _, [] => .ok []
  | index, seen, node :: rest => do
      let item ← load index node
      if name item ∈ seen then throw (twice (name item))
      let items ← loadDistinct name twice load (index + 1)
        (name item :: seen) rest
      return item :: items

def loadEntry (path : Bytes) (index : Nat) (node : Node) :
    Except Bytes LockEntry :=
  match nonEmptyAt node "name" with
  | none => .error (path ++ ascii ": native entry " ++
      printBase 10 (index + 1) ++ ascii " has no name")
  | some name =>
      match nonEmptyAt node "version" with
      | none => .error (path ++ ascii ": " ++ name ++
          ascii " has no version")
      | some version =>
          let sha256 := ((stringAt node "grain_sha256").or
            (stringAt node "sha256")).elim [] stripShaPrefix
          if ¬ sha256HexValid sha256 then
            .error (path ++ ascii ": " ++ name ++
              ascii " has no valid grain_sha256")
          else
            .ok {
              name := name
              version := version
              release := Pkg.toInt32 (intAt node "release" 1)
              arch := (stringAt node "arch").getD []
              sha256 := sha256
              repo := (stringAt node "repo").getD (ascii "current")
              filename := (stringAt node "filename").getD [] }

/-- A digest has something behind its first colon. -/
def digestOk (digest : Bytes) : Bool :=
  1 < (digest.dropWhile (· != 58)).length

def loadPin (path stratum : Bytes) (index : Nat) (node : Node) :
    Except Bytes ForeignPin :=
  let about := path ++ ascii ": stratum " ++ stratum ++ ascii ": "
  match nonEmptyAt node "name" with
  | none => .error (about ++ ascii "package entry " ++
      printBase 10 (index + 1) ++ ascii " has no name")
  | some name =>
      match nonEmptyAt node "version" with
      | none => .error (about ++ name ++ ascii " has no version")
      | some version =>
          match (stringAt node "digest").filter digestOk with
          | none => .error (about ++ name ++ ascii
              " has no digest (regenerate the lockfile with 'salt lock')")
          | some digest => .ok ⟨name, version, digest⟩

/-- The array of a key, which may be missing. -/
def arrayAt (node : Node) (key : String) (notArray : Bytes) :
    Except Bytes (List Node) :=
  match node with
  | .tab table =>
      match tableGet table (ascii key) with
      | none => .ok []
      | some (.arr items) => .ok items
      | some _ => .error notArray
  | _ => .ok []

/-- `load_strata`. -/
def loadStrata (path : Bytes) :
    Nat → List Bytes → List Node → Except Bytes (List StratumLock)
  | _, _, [] => .ok []
  | index, seen, node :: rest =>
      match nonEmptyAt node "name" with
      | none => .error (path ++ ascii ": stratum entry " ++
          printBase 10 (index + 1) ++ ascii " has no name")
      | some name => do
          if name ∈ seen then
            throw (path ++ ascii ": stratum " ++ name ++
              ascii " is listed twice")
          let nodes ← arrayAt node "package" (path ++ ascii ": stratum " ++
            name ++ ascii ": 'package' must be an array of tables")
          let packages ← loadDistinct ForeignPin.name
            (fun pin => path ++ ascii ": stratum " ++ name ++ ascii ": " ++
              pin ++ ascii " is pinned twice")
            (loadPin path name) 0 [] nodes
          let strata ← loadStrata path (index + 1) (name :: seen) rest
          return {
            name := name
            family := (stringAt node "family").getD []
            packageManager := (stringAt node "package_manager").getD []
            packages := packages } :: strata

/-- `lock_load` of a parsed file. -/
def loadTree (path : Bytes) (root : Table) : Except Bytes LockFile := do
  let natives ← arrayAt (.tab root) "native"
    (path ++ ascii ": 'native' must be an array of tables")
  let native ← loadDistinct LockEntry.name
    (fun name => path ++ ascii ": " ++ name ++ ascii " is pinned twice")
    (loadEntry path) 0 [] natives
  let strata ← arrayAt (.tab root) "stratum"
    (path ++ ascii ": 'stratum' must be an array of tables")
  let strata ← loadStrata path 0 [] strata
  return ⟨native, strata⟩

/-- `lock_load`; the outer error is the parser that does not return. -/
def lockLoad (fuel : Nat) (path : Bytes) (content : Option Bytes) :
    Except Stop (Except Bytes LockFile) := do
  match ← parseFile fuel content with
  | none => return .error (ascii "no lockfile at " ++ path ++
      ascii " (run 'salt lock')")
  | some root => return loadTree path root

/-! ## Comparing -/

structure LockCompare where
  extra : List Bytes
  missing : List LockEntry
  changed : List (LockEntry × Bytes)
  matched : Nat
  deriving DecidableEq, Repr

def sameVersion (entry : LockEntry) (row : PackageRow) : Bool :=
  entry.version = row.version ∧ entry.release = row.release

/-- Without a valid digest in the database there is nothing to compare. -/
def sameSha (entry : LockEntry) (row : PackageRow) : Bool :=
  match row.sha256.filter sha256HexValid with
  | none => true
  | some sha256 => entry.sha256 = sha256

/-- What the differences say about a package that is installed. -/
def currentText (entry : LockEntry) (row : PackageRow) : Bytes :=
  let current := row.version ++ ascii "-" ++ printInt row.release
  if ¬ sameVersion entry row then current
  else current ++ ascii " (sha256 " ++ row.sha256.getD [] ++ ascii ")"

def compareRound (db : Db) (compare : LockCompare) (entry : LockEntry) :
    LockCompare :=
  match db.getPkg entry.name with
  | none => { compare with missing := compare.missing ++ [entry] }
  | some row =>
      if sameVersion entry row ∧ sameSha entry row then
        { compare with matched := compare.matched + 1 }
      else
        { compare with
          changed := compare.changed ++ [(entry, currentText entry row)] }

/-- `compare_lock`. -/
def compareLock (db : Db) (lock : List LockEntry) : LockCompare :=
  { lock.foldl (compareRound db) ⟨[], [], [], 0⟩ with
    extra := (db.listInstalled.map PackageRow.name).filter
      (· ∉ lock.map LockEntry.name) }

/-! ## Applying -/

/-- The entry of the index that a lock entry pins. -/
def pinned (index : Index) (entry : LockEntry) : Option Entry :=
  (index.findExact entry.name entry.version entry.release).filter
    fun found => found.hashOk && entry.sha256 = found.sha256

/-- The plan of `lock_apply`, unless it refuses. -/
def lockPlan (index : Option Index) (compare : LockCompare) :
    Option NativePlan :=
  let wanted := compare.missing ++ compare.changed.map Prod.fst
  match index with
  | none => if wanted = [] then some ⟨compare.extra, []⟩ else none
  | some index => (wanted.mapM (pinned index)).map fun entries =>
      ⟨compare.extra, orderByDeps entries⟩

/-- The native part of `lock_apply`, with its exit code. -/
def lockApplyNative (session : Session) (flags : TxnFlags)
    (index : Option Index) (lock : List LockEntry) : Io Nat := do
  let world ← get
  match lockPlan index (compareLock world.db lock) with
  | none => return 1
  | some plan =>
      if plan.install = [] ∧ plan.remove = [] then return 0
      nativeTransaction session { flags with allowUnverified := false }
        (ascii "lock-apply") plan

end SaltOS.Lock
