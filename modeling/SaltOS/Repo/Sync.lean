import SaltOS.Base.Util
import SaltOS.Lib.Ends
import SaltOS.Repo.Index

/-!
# Installing a repository index

`cmd_sync` and `index_signed_ok` of `src/salt/cmd_install.cpp`, with
`salt_repo_index_verify` and the parts of `src/halite/src/sign.c` that check a
signature.

Two paths name the same file only when they are the same text.  What is fetched
for a URL, whether a file can be renamed and the checks of libsodium are up to
the environment.
-/

namespace SaltOS.Sync

open Lib Repo Toml

/-! ## Signatures -/

/-- What comes from outside.  A file that is fetched but cannot be written
counts as one that is not fetched; `verifyDetached` takes the signature, the
data and the public key. -/
structure Env where
  arch : Bytes
  fetch : Bytes → Except Bytes Bytes
  renameFails : Bytes → Bool
  sodiumInit : Bool
  verifyDetached : Bytes → Bytes → Bytes → Bool

/-- A digit of `hex_decode`. -/
def hexDigit (digit : UInt8) : Option UInt8 :=
  if 48 ≤ digit ∧ digit ≤ 57 then some (digit - 48)
  else if 97 ≤ digit ∧ digit ≤ 102 then some (digit - 97 + 10)
  else if 65 ≤ digit ∧ digit ≤ 70 then some (digit - 65 + 10)
  else none

def hexBytes : Bytes → Option Bytes
  | high :: low :: rest => do
      let high ← hexDigit high
      let low ← hexDigit low
      let rest ← hexBytes rest
      return (high <<< 4 ||| low) :: rest
  | _ => some []

/-- `hex_decode`. -/
def hexDecode (length : Nat) (hex : Bytes) : Option Bytes :=
  if hex.length ≠ length * 2 then none else hexBytes hex

/-- `salt_verify_buf`. -/
def verifyBuf (env : Env) (data sigHex pubHex : Bytes) : Except Bytes Unit :=
  if ¬ env.sodiumInit then .error (ascii "libsodium init failed")
  else
    match hexDecode 32 pubHex with
    | none => .error (ascii "invalid public key")
    | some key =>
        match hexDecode 64 sigHex with
        | none => .error (ascii "invalid signature")
        | some signature =>
            if env.verifyDetached signature data key then .ok ()
            else .error (ascii "signature verification failed")

/-! ## Entries -/

/-- What `salt_repo_index_verify` says about an entry, if anything. -/
def entryProblem (position : Nat) (entry : Entry) : Option Bytes :=
  if entry.name = [] then
    some (ascii "entry " ++ printBase 10 position ++ ascii ": missing name")
  else if entry.version = [] then
    some (entry.name ++ ascii ": missing version")
  else if entry.filename = [] then
    some (entry.name ++ ascii ": missing filename")
  else if entry.sha256 = [] then
    some (entry.name ++ ascii ": missing sha256")
  else if ¬ sha256HexValid entry.sha256 then
    some (entry.name ++
      ascii ": sha256 is not a 64-char lowercase hex digest (" ++
      entry.sha256 ++ ascii ")")
  else if 47 ∈ entry.filename ∨ entry.filename = ascii ".." then
    some (entry.name ++ ascii ": filename must be a bare file name (" ++
      entry.filename ++ ascii ")")
  else none

/-- `salt_repo_index_verify`: the problems; the index passes when there are
none.  A message that `printf` does not print is no problem. -/
def indexVerify (index : Index) : List Bytes :=
  (index.items.mapIdx fun position entry =>
    bufPrintf ((entryProblem position entry).getD [])).filter (· ≠ [])

/-! ## Files -/

/-- The files, and what was printed. -/
structure State where
  files : Bytes → Option Bytes
  printed : List Bytes

/-- A command returns 1, or the parser of the index goes on. -/
inductive Stopped where
  | failed
  | outOfFuel
  deriving DecidableEq, Repr

abbrev SyncIo := EStateM Stopped State

def say (line : Bytes) : SyncIo Unit :=
  modify fun state => { state with printed := state.printed ++ [line] }

def writeFile (path content : Bytes) : SyncIo Unit :=
  modify fun state =>
    { state with files := Function.update state.files path (some content) }

def unlink (path : Bytes) : SyncIo Unit :=
  modify fun state =>
    { state with files := Function.update state.files path none }

/-- `rename`, with its return code. -/
def rename (env : Env) (source target : Bytes) : SyncIo Bool := do
  let state ← get
  match state.files source with
  | none => return false
  | some content =>
      if env.renameFails target then return false
      else do
        let moved := Function.update (Function.update state.files source none)
          target (some content)
        set { state with files := moved }
        return true

/-! ## The command -/

/-- `RepoConf`, as far as it is read here. -/
structure RepoConf where
  source : Bytes
  key : Bytes
  deriving DecidableEq, Repr

/-- `repo_url`. -/
def repoUrl (env : Env) (conf : RepoConf) (file : Bytes) : Bytes :=
  (if conf.source.getLast? = some 47 then conf.source.dropLast
    else conf.source) ++ [47] ++ env.arch ++ [47] ++ file

/-- `read_key`: what the file of the name holds, or the name. -/
def readKey (files : Bytes → Option Bytes) (key : Bytes) : Bytes :=
  if key = [] then []
  else
    match files key with
    | none => key
    | some text => text.rdropWhile fun byte =>
        byte == 10 || byte == 13 || byte == 32

/-- A signature without its line end. -/
def trimSignature (text : Bytes) : Bytes :=
  text.rdropWhile fun byte => byte == 10 || byte == 13

/-- `index_path_for`. -/
def indexPath (env : Env) (root : Bytes) : Bytes :=
  Util.joinPath root
    (ascii "var/lib/salt/repo/" ++ env.arch ++ ascii "/index.toml")

def sigPath (env : Env) (root : Bytes) : Bytes :=
  indexPath env root ++ ascii ".sig"

/-- The file that the index is fetched to. -/
def newPath (env : Env) (root : Bytes) : Bytes :=
  indexPath env root ++ ascii ".new"

def newSigPath (env : Env) (root : Bytes) : Bytes :=
  sigPath env root ++ ascii ".new"

/-- `salt_verify_file`. -/
def verifyFile (env : Env) (files : Bytes → Option Bytes)
    (path sigHex pubHex : Bytes) : Except Bytes Unit :=
  match files path with
  | none => .error (ascii "open " ++ path ++
      ascii ": No such file or directory")
  | some data => verifyBuf env data sigHex pubHex

section

variable (env : Env) (root : Bytes) (conf : RepoConf)

/-- A failure behind the downloads. -/
def giveUp {α : Type} (lines : List Bytes) : SyncIo α := do
  lines.forM say
  unlink (newPath env root)
  unlink (newSigPath env root)
  throw .failed

/-- The index, which must be there. -/
def fetchIndex : SyncIo Unit :=
  match env.fetch (repoUrl env conf (ascii "index.toml")) with
  | .error message => do
      say (ascii "salt: sync failed: " ++ message)
      throw .failed
  | .ok body => writeFile (newPath env root) body

/-- Whether there is a signature. -/
def fetchSig : SyncIo Bool :=
  match env.fetch (repoUrl env conf (ascii "index.toml.sig")) with
  | .error _ => return false
  | .ok body => do
      writeFile (newSigPath env root) body
      return true

/-- The check of the signature, if there is a key. -/
def checkSignature (key : Bytes) (haveSig : Bool) : SyncIo Unit := do
  if key = [] then
    say (ascii
      "warning: no trusted key configured; index signature not verified")
  else if ¬ haveSig then
    say (ascii
      "salt: trusted key configured but repository index is unsigned")
    unlink (newPath env root)
    throw .failed
  else
    let state ← get
    match state.files (newSigPath env root) with
    | none => giveUp env root [ascii "salt: cannot read index signature"]
    | some text =>
        match verifyFile env state.files (newPath env root)
            (cstr (trimSignature text)) (cstr key) with
        | .ok () => say (ascii "repository index verified with trusted key")
        | .error _ => giveUp env root [ascii
            "salt: SIGNATURE VERIFICATION FAILED for repository index"]

/-- The index that was fetched, if it can be parsed. -/
def loadIndex (fuel : Nat) : SyncIo Index := do
  let state ← get
  let unparseable := giveUp env root [ascii
    "salt: sync failed: repository index is not parseable: " ++
    ascii "repo index parse: " ++ newPath env root]
  match state.files (newPath env root) with
  | none => unparseable
  | some text =>
      match indexLoad 0 fuel text with
      | .ok index => return index
      | .error .outOfFuel => throw .outOfFuel
      | .error (.error _) => unparseable

/-- What the entries lack. -/
def checkEntries (index : Index) : SyncIo Unit :=
  let problems := indexVerify index
  if problems = [] then return ()
  else giveUp env root (
    (ascii "salt: sync failed: repository index rejected (" ++
      printBase 10 problems.length ++ ascii " problem" ++
      (if problems.length = 1 then [] else ascii "s") ++ ascii "):") ::
    problems.map (ascii "  " ++ ·))

/-- The two renames. -/
def installIndex (haveSig : Bool) (index : Index) : SyncIo Unit := do
  if ¬ (← rename env (newPath env root) (indexPath env root)) then
    giveUp env root [ascii "salt: cannot install repository index at " ++
      indexPath env root]
  else
    if haveSig then
      discard (rename env (newSigPath env root) (sigPath env root))
    else unlink (sigPath env root)
    say (ascii "synced " ++ printBase 10 index.items.length ++
      ascii " packages from " ++ conf.source)

/-- `cmd_sync`, with the fuel for the parser of the index. -/
def cmdSync (fuel : Nat) : SyncIo Unit := do
  if conf.source = [] then
    say (ascii ("salt: no repository source configured " ++
      "(etc/salt/repo.lua or --repo)"))
    throw .failed
  else
    fetchIndex env root conf
    let haveSig ← fetchSig env root conf
    let state ← get
    checkSignature env root (readKey state.files conf.key) haveSig
    let index ← loadIndex env root fuel
    checkEntries env root index
    installIndex env root conf haveSig index

/-- `index_signed_ok`. -/
def indexSignedOk (files : Bytes → Option Bytes) : Bool :=
  let key := readKey files conf.key
  if key = [] then false
  else
    match files (sigPath env root) with
    | none => false
    | some text =>
        match verifyFile env files (indexPath env root)
            (cstr (trimSignature text)) (cstr key) with
        | .ok () => true
        | .error _ => false

end

end SaltOS.Sync
