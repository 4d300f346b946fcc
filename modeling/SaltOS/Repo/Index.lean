import SaltOS.Archive.Pkg
import SaltOS.Toml.Printed
import SaltOS.Repo.Vercmp

/-!
# The repository index

`src/halite/src/repo.c`: the index as a record, as TOML text, and the lookups
in it.  Most fields are printed between quotes as they are; `toml_quote` is
used for the summary and the two lists.
-/

namespace SaltOS.Repo

open Toml

/-- `salt_repo_entry`; only the URL may be a null pointer. -/
@[ext]
structure Entry where
  name : Bytes
  version : Bytes
  release : Int
  arch : Bytes
  filename : Bytes
  url : Option Bytes
  sha256 : Bytes
  size : Nat
  summary : Bytes
  deps : List Bytes
  conflicts : List Bytes
  deriving DecidableEq, Repr

/-- `salt_repo_index`. -/
structure Index where
  repoName : Option Bytes
  arch : Option Bytes
  items : List Entry
  deriving DecidableEq, Repr

/-! ## Writing -/

def quoteByte (byte : UInt8) : Bytes :=
  if byte == 34 || byte == 92 then [92, byte]
  else if byte == 10 then ascii "\\n"
  else [byte]

/-- `toml_quote`. -/
def tomlQuote (text : Bytes) : Bytes :=
  [34] ++ text.flatMap quoteByte ++ [34]

/-- `emit_list`. -/
def emitList (key : String) (items : List Bytes) : Bytes :=
  bufPrintf (ascii key ++ ascii " = [") ++
    (ascii ", ").intercalate (items.map tomlQuote) ++ ascii "]\n"

def emitEntry (entry : Entry) : Bytes :=
  ascii "\n[[package]]\n" ++
  printString "name" entry.name ++
  printString "version" entry.version ++
  printNumber "release" (printInt entry.release) ++
  printString "arch" entry.arch ++
  printString "filename" entry.filename ++
  (if entry.url.getD [] = [] then []
    else printString "url" (entry.url.getD [])) ++
  printString "sha256" entry.sha256 ++
  printNumber "size" (printBase 10 entry.size) ++
  ascii "summary = " ++ tomlQuote entry.summary ++ [10] ++
  emitList "deps" entry.deps ++
  (if entry.conflicts = [] then []
    else emitList "conflicts" entry.conflicts)

/-- `salt_repo_index_to_toml`. -/
def indexToToml (index : Index) : Bytes :=
  printString "repo" (index.repoName.getD (ascii "current")) ++
  printString "arch" (index.arch.getD []) ++
  index.items.flatMap emitEntry

/-! ## Reading -/

def entryFromNode (node : Node) : Entry where
  name := (stringAt node "name").getD []
  version := (stringAt node "version").getD []
  release := Pkg.toInt32 (intAt node "release" 1)
  arch := (stringAt node "arch").getD []
  filename := (stringAt node "filename").getD []
  url := (stringAt node "url").filter (· ≠ [])
  sha256 := (stringAt node "sha256").getD []
  size := (intAt node "size" 0 % 2 ^ 64).toNat
  summary := (stringAt node "summary").getD []
  deps := stringArrayAt node "deps"
  conflicts := stringArrayAt node "conflicts"

/-- `salt_repo_index_load` of a file that holds the text. -/
def indexLoad (next : UInt8) (fuel : Nat) (text : Bytes) :
    Except Stop Index := do
  let root ← parse next fuel text
  return {
    repoName := some ((stringAt (.tab root) "repo").getD (ascii "current"))
    arch := some ((stringAt (.tab root) "arch").getD [])
    items := (arrayItems (tableGet root (ascii "package"))).map
      entryFromNode }

/-! ## Lookups -/

/-- `salt_sha256_hex_valid`. -/
def sha256HexValid (hex : Bytes) : Bool :=
  hex.all (fun byte => Bytes.isDigit byte || (97 ≤ byte && byte ≤ 102)) &&
    hex.length == 64

/-- A digest of 64 digits. -/
structure IsHex (value : Bytes) : Prop where
  length : value.length = 64
  digits : ∀ byte ∈ value,
    (48 ≤ byte ∧ byte ≤ 57) ∨ (97 ≤ byte ∧ byte ≤ 102)

theorem sha256HexValid_iff {value : Bytes} :
    sha256HexValid value = true ↔ IsHex value := by
  have parts : sha256HexValid value = true ↔ (∀ byte ∈ value,
      (48 ≤ byte ∧ byte ≤ 57) ∨ (97 ≤ byte ∧ byte ≤ 102)) ∧
        value.length = 64 := by
    simp [sha256HexValid, Bytes.isDigit]
  rw [parts]
  constructor
  · intro valid
    exact ⟨valid.2, valid.1⟩
  · intro valid
    exact ⟨valid.digits, valid.length⟩

/-- `salt_repo_entry_hash_ok`. -/
def Entry.hashOk (entry : Entry) : Bool :=
  sha256HexValid entry.sha256

/-- Whether the loop of `salt_repo_index_find` prefers an entry to the best
one so far. -/
def Entry.newerThan (entry best : Entry) : Bool :=
  let order := vercmp entry.version best.version
  order > 0 || (order == 0 && entry.release > best.release)

/-- `salt_repo_index_find`: the newest entry of a name. -/
def Index.find (index : Index) (name : Bytes) : Option Entry :=
  index.items.foldl (fun best entry =>
    if entry.name = name then
      match best with
      | none => some entry
      | some known => if entry.newerThan known then some entry else best
    else best) none

/-- `salt_repo_index_find_exact`. -/
def Index.findExact (index : Index) (name version : Bytes) (release : Int) :
    Option Entry :=
  index.items.find? fun entry =>
    entry.name = name ∧ entry.version = version ∧ entry.release = release

end SaltOS.Repo
