import SaltOS.Repo.Index
import Mathlib.Data.List.Sort

/-!
# Packages of a stratum

The lists that package managers print, and the digests of what they installed:
`salt_foreign_pkg_parse`, `salt_stratum_pkg_digests` and what these use of
`src/halite/src/run.c`.  What the tools print and what lies below the root of a
stratum comes from outside.
-/

namespace SaltOS.Lock

open Repo

inductive PkgKind where
  | pacman
  | apt
  | xbps
  | apk
  | dnf
  | zypper
  deriving DecidableEq, Repr

/-- A row of the `strata` table. -/
structure Stratum where
  name : Bytes
  family : Option Bytes
  packageManager : Option Bytes
  deriving DecidableEq, Repr

structure ForeignPkg where
  name : Bytes
  version : Bytes
  digest : Option Bytes
  deriving DecidableEq, Repr

/-- A digest as `salt_sha256_file` prints it. -/
abbrev Sha256 := { hex : Bytes // sha256HexValid hex = true }

/-- What the tools of a stratum print, unless they fail, its root, and what
lies below it: whether a path exists, the digests of files, and the entries of
dpkg's directory. -/
structure Tools where
  root : Bytes
  listing : Except Bytes Bytes
  digests : Except Bytes Bytes
  hasFile : Bytes → Bool
  hostSha256 : Bytes → Option Sha256
  dpkgInfo : List Bytes

/-! ## Kinds -/

def candidateKind (value : Bytes) : Option PkgKind :=
  if value ∈ ["pacman", "arch"].map ascii then some .pacman
  else if value ∈ ["apt", "apt-get", "debian", "ubuntu"].map ascii then
    some .apt
  else if value ∈ ["xbps", "void"].map ascii then some .xbps
  else if value ∈ ["apk", "alpine"].map ascii then some .apk
  else if value ∈ ["dnf", "yum", "fedora", "rhel", "centos", "rocky",
      "almalinux"].map ascii then some .dnf
  else if value ∈ ["zypper", "opensuse", "suse", "sles"].map ascii then
    some .zypper
  else none

/-- `salt_stratum_pkg_kind`. -/
def pkgKind (stratum : Stratum) : Option PkgKind :=
  (stratum.packageManager.bind candidateKind).or
    (stratum.family.bind candidateKind)

/-! ## Lines -/

/-- The text in front of the first such byte and the text behind it. -/
def strchr (byte : UInt8) (text : Bytes) : Option (Bytes × Bytes) :=
  if byte ∈ text then
    some (text.takeWhile (· != byte), (text.dropWhile (· != byte)).drop 1)
  else none

/-- Lines without the blanks and carriage returns at their ends. -/
def toolLines (text : Bytes) : List Bytes :=
  (text.splitOn 10).map fun line =>
    (line.reverse.dropWhile fun byte => byte == 13 || byte == 32).reverse

/-- The last dash at or in front of a position, but not at the start. -/
def lastDash (token : Bytes) : Nat → Option Nat
  | 0 => none
  | cut + 1 =>
      if token[cut + 1]? = some 45 then some (cut + 1)
      else lastDash token cut

def trailingCut (token : Bytes) : Nat → Nat → Option Nat
  | 0, cut => some cut
  | dashes + 1, cut =>
      (lastDash token cut).bind fun dash =>
        if dashes = 0 then some dash
        else trailingCut token dashes (dash - 1)

/-- `split_trailing`: the version is made of the last fields. -/
def splitTrailing (token : Bytes) (dashes : Nat) : Option (Bytes × Bytes) :=
  (trailingCut token dashes token.length).map fun cut =>
    (token.take cut, token.drop (cut + 1))

def malformed (tool : String) (line : Bytes) : Bytes :=
  ascii tool ++ ascii ": malformed line '" ++ line ++ ascii "'"

/-- What a line of a listing says: a name and a version, nothing, or an
error. -/
def parsePkgLine (kind : PkgKind) (line : Bytes) :
    Except Bytes (Option (Bytes × Bytes)) :=
  match kind with
  | .pacman =>
      match strchr 32 line with
      | none => .error (malformed "pacman -Q" line)
      | some found => .ok (some found)
  | .apt =>
      match (strchr 9 line).bind fun first =>
          (strchr 9 first.2).map fun second => (first.1, second) with
      | none => .error (malformed "dpkg-query" line)
      | some (status, found) =>
          .ok (if status = ascii "installed" then some found else none)
  | .apk =>
      if (ascii "WARNING").isPrefixOf line then .ok none
      else
        match splitTrailing line 2 with
        | none => .error (malformed "apk info" line)
        | some found => .ok (some found)
  | .dnf | .zypper =>
      match strchr 9 line with
      | none => .error (malformed "rpm -qa" line)
      | some found =>
          .ok (if found.1 = ascii "gpg-pubkey" then none else some found)
  | .xbps =>
      match line with
      | 105 :: _ :: 32 :: rest =>
          let token := (rest.dropWhile (· == 32)).takeWhile (· != 32)
          match splitTrailing token 1 with
          | none => .error (malformed "xbps-query -l" line)
          | some found => .ok (some found)
      | _ => .ok none

/-- `salt_foreign_pkg_parse`, sorted by name. -/
def foreignPkgParse (kind : PkgKind) (text : Bytes) :
    Except Bytes (List ForeignPkg) := do
  let found ← ((toolLines text).filter (· ≠ [])).mapM fun line =>
    parsePkgLine kind (cstr line)
  let pkgs := (found.filterMap id).map fun pkg =>
    ({ name := pkg.1, version := pkg.2, digest := none } : ForeignPkg)
  return pkgs.insertionSort fun first second => first.name ≤ second.name

/-- `salt_stratum_pkg_query`. -/
def pkgQuery (stratum : Stratum) (tools : Tools) :
    Except Bytes (List ForeignPkg) :=
  match pkgKind stratum with
  | none => .error (ascii "unknown package manager for stratum '" ++
      stratum.name ++ ascii "'")
  | some kind => tools.listing.bind (foreignPkgParse kind)

/-! ## Digests -/

/-- Give the first package of a name its digest, if it has the version. -/
def setDigest (name version : Bytes) (digest : Except Bytes Bytes) :
    List ForeignPkg → Except Bytes (List ForeignPkg)
  | [] => .ok []
  | pkg :: rest =>
      if pkg.name = name then
        if pkg.version = version then
          digest.map fun digest =>
            { pkg with digest := some digest } :: rest
        else .ok (pkg :: rest)
      else (setDigest name version digest rest).map (pkg :: ·)

/-- A digest that a tool reports is taken when it is one. -/
def reported (label value error : Bytes) : Except Bytes Bytes :=
  if sha256HexValid value then .ok (label ++ value)
  else .error (error ++ ascii " (got '" ++ value ++ ascii "')")

/-- `digest_set_prefixed`; a text whose length is no `int` is not printed. -/
def prefixed (label value : Bytes) : Except Bytes Bytes :=
  if (label ++ value).length < 2 ^ 31 then .ok (label ++ value)
  else .error []

def parseRpmDigest (pkgs : List ForeignPkg) (line : Bytes) :
    Except Bytes (List ForeignPkg) :=
  match (strchr 9 line).bind fun first =>
      (strchr 9 first.2).map fun second => (first.1, second) with
  | none => .error (ascii "rpm -qa: malformed digest line '" ++ line ++
      ascii "'")
  | some (name, version, digest) =>
      setDigest name version (reported (ascii "rpm-sha256header:") digest
        (ascii "rpm reports no SHA256HEADER for " ++ name ++ [32] ++
          version)) pkgs

def parseXbpsDigest (pkgs : List ForeignPkg) (line : Bytes) :
    Except Bytes (List ForeignPkg) :=
  match strchr 9 line with
  | none => .error (ascii "xbps-query: malformed digest line '" ++ line ++
      ascii "'")
  | some (pkgver, digest) =>
      match splitTrailing pkgver 1 with
      | none => .error (ascii "xbps-query: malformed pkgver '" ++ pkgver ++
          ascii "'")
      | some (name, version) =>
          setDigest name version (reported (ascii "sha256:") digest
            (ascii "xbps reports no filename-sha256 for " ++ name ++ [45] ++
              version)) pkgs

/-- The fields of a record of apk's database. -/
structure ApkRecord where
  name : Option Bytes
  version : Option Bytes
  checksum : Option Bytes

/-- A line of apk's database; an empty one ends a record. -/
def parseApkLine (state : List ForeignPkg × ApkRecord) (line : Bytes) :
    Except Bytes (List ForeignPkg × ApkRecord) :=
  let (pkgs, record) := state
  if line = [] then do
    let pkgs ←
      match record with
      | ⟨some name, some version, some checksum⟩ =>
          setDigest name version (prefixed (ascii "apk-checksum:") checksum)
            pkgs
      | ⟨some name, _, _⟩ => .error (ascii "apk installed db: " ++ name ++
          ascii " lacks a version or checksum")
      | _ => .ok pkgs
    return (pkgs, ⟨none, none, none⟩)
  else
    match cstr line with
    | 80 :: 58 :: value => .ok (pkgs, { record with name := some value })
    | 86 :: 58 :: value => .ok (pkgs, { record with version := some value })
    | 67 :: 58 :: value => .ok (pkgs, { record with checksum := some value })
    | _ => .ok (pkgs, record)

/-- `digests_complete`. -/
def digestsComplete (manager : String) (pkgs : List ForeignPkg) :
    Except Bytes (List ForeignPkg) :=
  match pkgs.find? (·.digest.isNone) with
  | some pkg => .error (ascii manager ++ ascii
      " reports no content digest for " ++ pkg.name ++ [32] ++ pkg.version)
  | none => .ok pkgs

/-- `dpkg_info_file`: the file of a package, or the first one of an
architecture of it. -/
def dpkgInfoFile (tools : Tools) (name ext : Bytes) : Option Bytes :=
  let info := ascii "var/lib/dpkg/info/"
  if tools.hasFile (info ++ name ++ ext) then some (info ++ name ++ ext)
  else
    (tools.dpkgInfo.find? fun entry =>
      (name ++ [58]).isPrefixOf entry && ext.isSuffixOf entry &&
        name.length + ext.length < entry.length &&
        !((entry.drop (name.length + 1)).take
          (entry.length - name.length - 1 - ext.length)).contains 46).map
      (info ++ ·)

/-- The digest of a file below the root of the stratum. -/
def digestHostFile (tools : Tools) (label file : Bytes)
    (pkg : ForeignPkg) : Option ForeignPkg :=
  (tools.hostSha256 file).map fun sha256 =>
    { pkg with digest := some (label ++ sha256.val) }

def pacmanDigest (tools : Tools) (pkg : ForeignPkg) :
    Except Bytes ForeignPkg :=
  let file := ascii "var/lib/pacman/local/" ++ pkg.name ++ [45] ++
    pkg.version ++ ascii "/mtree"
  match digestHostFile tools (ascii "pacman-mtree-sha256:") file pkg with
  | some digested => .ok digested
  | none => .error (ascii "pacman has no mtree manifest for " ++ pkg.name ++
      [32] ++ pkg.version ++ ascii " under " ++ tools.root ++ [47] ++ file)

def aptDigest (tools : Tools) (pkg : ForeignPkg) :
    Except Bytes ForeignPkg :=
  let digested :=
    match dpkgInfoFile tools pkg.name (ascii ".md5sums") with
    | some file =>
        digestHostFile tools (ascii "dpkg-md5sums-sha256:") file pkg
    | none =>
        (dpkgInfoFile tools pkg.name (ascii ".list")).bind fun file =>
          digestHostFile tools (ascii "dpkg-list-sha256:") file pkg
  match digested with
  | some digested => .ok digested
  | none => .error (ascii "dpkg has no md5sums or list file for " ++
      pkg.name ++ [32] ++ pkg.version ++ ascii " under " ++ tools.root ++
      ascii "/var/lib/dpkg/info")

/-- `salt_foreign_pkg_parse_digests`. -/
def parseDigests (kind : PkgKind) (text : Bytes) (pkgs : List ForeignPkg) :
    Except Bytes (List ForeignPkg) :=
  let lines := ((toolLines text).filter (· ≠ [])).map cstr
  match kind with
  | .dnf => do
      digestsComplete "dnf" (← lines.foldlM parseRpmDigest pkgs)
  | .zypper => do
      digestsComplete "zypper" (← lines.foldlM parseRpmDigest pkgs)
  | .xbps => do
      digestsComplete "xbps" (← lines.foldlM parseXbpsDigest pkgs)
  | .apk => do
      let (pkgs, _) ← (toolLines text).foldlM parseApkLine
        (pkgs, ⟨none, none, none⟩)
      digestsComplete "apk" pkgs
  | .pacman => .error (ascii "pacman digests are not parsed from text")
  | .apt => .error (ascii "apt digests are not parsed from text")

/-- `salt_stratum_pkg_digests`. -/
def pkgDigests (stratum : Stratum) (tools : Tools) (pkgs : List ForeignPkg) :
    Except Bytes (List ForeignPkg) :=
  match pkgKind stratum with
  | none => .error (ascii "unknown package manager for stratum '" ++
      stratum.name ++ ascii "'")
  | some .pacman => pkgs.mapM (pacmanDigest tools)
  | some .apt => pkgs.mapM (aptDigest tools)
  | some kind => do parseDigests kind (← tools.digests) pkgs

/-- The packages of a stratum with their digests. -/
def livePkgs (stratum : Stratum) (tools : Tools) :
    Except Bytes (List ForeignPkg) :=
  pkgQuery stratum tools >>= pkgDigests stratum tools

end SaltOS.Lock
