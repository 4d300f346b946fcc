import SaltOS.Archive.Build
import SaltOS.Repo.Sync

/-!
# Publishing a repository

`salt_repo_build_index`, `salt_repo_publish` and `salt_fetch` of
`src/halite/src/repo.c`, with `salt_sign_buf` and `hex_encode` of
`src/halite/src/sign.c`.

SHA-256 and the signatures of libsodium are parameters, and so is what `curl`
gets.  The file of an archive is the same whenever it is read.
-/

namespace SaltOS.Repo

open Lib Util Pkg

/-! ## Signing -/

/-- What comes from outside: the digest of some data, and the signature of
some data with a secret key. -/
structure Publisher where
  digest : Bytes → Bytes
  sodiumInit : Bool
  signDetached : Bytes → Bytes → Bytes

/-- A character of `hex_encode`. -/
def hexChar (digit : UInt8) : UInt8 :=
  (ascii "0123456789abcdef").getD digit.toNat 0

/-- `hex_encode`. -/
def hexEncode (data : Bytes) : Bytes :=
  data.flatMap fun byte : UInt8 =>
    [hexChar (byte >>> 4), hexChar (byte &&& 15)]

/-- `salt_sign_buf`. -/
def signBuf (publisher : Publisher) (data secHex : Bytes) :
    Except Failure Bytes :=
  if ¬ publisher.sodiumInit then
    .error ⟨.err, some (ascii "libsodium init failed")⟩
  else
    match Sync.hexDecode 64 secHex with
    | none => .error ⟨.format, some (ascii "invalid secret key")⟩
    | some key => .ok (hexEncode (publisher.signDetached data key))

/-! ## The index of a directory -/

/-- The names that `salt_repo_build_index` takes. -/
def isGrain (name : Bytes) : Bool :=
  6 < name.length && (ascii ".grain").isSuffixOf name

/-- The entry for an archive. -/
def entryOf (publisher : Publisher) (filename data : Bytes) (pkg : PkgMeta) :
    Entry where
  name := pkg.name
  version := pkg.version
  release := pkg.release
  arch := pkg.arch
  filename := filename
  url := none
  sha256 := hexEncode (publisher.digest data)
  size := data.length
  summary := pkg.summary.getD []
  deps := pkg.deps
  conflicts := pkg.conflicts

section

variable (publisher : Publisher) (behind : Tar.Entry → UInt8)
  (fuel : Nat)

/-- The loop body of `salt_repo_build_index`: what does not open is left
out. -/
def indexFile (disk : Disk Bytes) (packagesDir name : Bytes) :
    Except Archive.OpenError (Option Entry) :=
  let full := joinPath packagesDir name
  match disk.contents full with
  | .error _ => .ok none
  | .ok data =>
      match Archive.open behind fuel full data with
      | .ok archive => .ok (some (entryOf publisher name data archive.pkg))
      | .error (.format _) => .ok none
      | .error stop => .error stop

/-- What publishing ends with. -/
inductive PublishError where
  | failed (failure : Failure)
  | opening (stop : Archive.OpenError)
  deriving DecidableEq, Repr

/-- `salt_repo_build_index`. -/
def buildIndex (disk : Disk Bytes) (packagesDir repoName arch : Bytes) :
    Except PublishError Index :=
  match disk.readdir packagesDir with
  | .error _ =>
      .error (.failed ⟨.io, some (ascii "opendir " ++ packagesDir)⟩)
  | .ok names =>
      match (Archive.sortNames (names.filter isGrain)).mapM
        (indexFile publisher behind fuel disk packagesDir) with
      | .error stop => .error (.opening stop)
      | .ok entries => .ok ⟨some repoName, some arch, entries.reduceOption⟩

/-- The address of a file below the base. -/
def urlText (urlBase filename : Bytes) : Bytes :=
  urlBase ++ (if urlBase.getLast? = some 47 then [] else [47]) ++ filename

/-- The addresses that `salt_repo_publish` gives the entries. -/
def withUrls (urlBase : Bytes) (index : Index) : Index :=
  if urlBase = [] then index
  else
    { index with
      items := index.items.map fun entry =>
        { entry with
          url := some (bufPrintf (urlText urlBase entry.filename)) } }

/-- A step of `salt_repo_publish`. -/
def orFail {α : Type} (program : EStateM Failure (Disk Bytes) α) :
    EStateM PublishError (Disk Bytes) α :=
  EStateM.adaptExcept .failed program

/-- `salt_repo_publish`. -/
def publish (outDir repoName arch urlBase secHex : Bytes) :
    EStateM PublishError (Disk Bytes) Unit := do
  let disk ← get
  match buildIndex publisher behind fuel disk
    (joinPath outDir (ascii "packages")) repoName arch with
  | .error stop => throw stop
  | .ok index =>
      let text := indexToToml (withUrls urlBase index)
      orFail (writeFile (joinPath outDir (ascii "index.toml")) text 420)
      if secHex = [] then return ()
      else
        match signBuf publisher text secHex with
        | .error failure => throw (.failed failure)
        | .ok sig =>
            orFail (writeFile (joinPath outDir (ascii "index.toml.sig")) sig
              420)

end

/-! ## Fetching -/

/-- The path that `salt_fetch` reads, unless it runs `curl`. -/
def localPath (url : Bytes) : Option Bytes :=
  if (ascii "http://").isPrefixOf url || (ascii "https://").isPrefixOf url then
    none
  else if (ascii "file://").isPrefixOf url then some (url.drop 7)
  else some url

/-- `salt_fetch`. -/
def fetch (http : Bytes → Except Bytes Bytes) (disk : Disk Bytes)
    (url : Bytes) : Except Bytes Bytes :=
  match localPath url with
  | none => http url
  | some path =>
      match disk.contents path with
      | .ok data => .ok data
      | .error errno =>
          .error ((callFailed (if errno = .isdir then "read" else "open")
            path errno).message.getD [])

end SaltOS.Repo
