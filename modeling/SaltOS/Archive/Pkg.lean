import SaltOS.Toml.Parser

/-!
# Package metadata and manifests

`src/halite/src/pkg.c`: the TOML members of a package archive, written and
read.
-/

namespace SaltOS.Pkg

open Toml

inductive Hook where
  | postInstall
  | postUpgrade
  | preRemove
  | postRemove
  deriving DecidableEq, Repr

def Hook.all : List Hook :=
  [.postInstall, .postUpgrade, .preRemove, .postRemove]

/-- `salt_hook_name`. -/
def Hook.name : Hook → Bytes
  | .postInstall => ascii "post_install"
  | .postUpgrade => ascii "post_upgrade"
  | .preRemove => ascii "pre_remove"
  | .postRemove => ascii "post_remove"

/-- `salt_hook_from_name`. -/
def Hook.fromName (name : Bytes) : Option Hook :=
  Hook.all.find? (fun hook => hook.name == name)

/-- `salt_pkg_meta`; a null pointer is `none`. -/
structure PkgMeta where
  name : Bytes
  version : Bytes
  release : Int
  arch : Bytes
  summary : Option Bytes
  license : Option Bytes
  reproStatus : Option Bytes
  reproReason : Option Bytes
  deps : List Bytes
  conflicts : List Bytes
  hooks : Hook → Option Bytes

/-- `salt_manifest_entry`. -/
structure ManifestEntry where
  path : Bytes
  typeflag : UInt8
  mode : Nat
  size : Nat
  sha256 : Option Bytes
  linkname : Option Bytes
  deriving DecidableEq, Repr

abbrev Manifest := List ManifestEntry

/-! ## Writing -/

def escapeByte (byte : UInt8) : Bytes :=
  if byte == 34 || byte == 92 then [92, byte]
  else if byte == 10 then ascii "\\n"
  else if byte == 9 then ascii "\\t"
  else if byte == 13 then ascii "\\r"
  else [byte]

/-- `toml_escape`. -/
def tomlEscape (text : Bytes) : Bytes :=
  [34] ++ text.flatMap escapeByte ++ [34]

def emitLine (key value : Bytes) : Bytes :=
  key ++ ascii " = " ++ value ++ [10]

/-- The items of an array, separated by commas. -/
def emitItems : List Bytes → Bytes
  | [] => []
  | [item] => tomlEscape item
  | item :: rest => tomlEscape item ++ ascii ", " ++ emitItems rest

def emitStrArray (key : Bytes) (items : List Bytes) : Bytes :=
  emitLine key ([91] ++ emitItems items ++ [93])

def emitHook (pkg : PkgMeta) (hook : Hook) : Bytes :=
  match pkg.hooks hook with
  | none => []
  | some body => emitLine hook.name (tomlEscape body)

/-- `salt_pkg_meta_to_toml`. -/
def pkgMetaToToml (pkg : PkgMeta) : Bytes :=
  emitLine (ascii "name") (tomlEscape pkg.name) ++
  emitLine (ascii "version") (tomlEscape pkg.version) ++
  emitLine (ascii "release") (printInt pkg.release) ++
  emitLine (ascii "arch") (tomlEscape pkg.arch) ++
  emitLine (ascii "summary") (tomlEscape (pkg.summary.getD [])) ++
  emitLine (ascii "license") (tomlEscape (pkg.license.getD [])) ++
  emitStrArray (ascii "deps") pkg.deps ++
  (if pkg.conflicts = [] then []
    else emitStrArray (ascii "conflicts") pkg.conflicts) ++
  ascii "\n[reproducibility]\n" ++
  emitLine (ascii "status")
    (tomlEscape (pkg.reproStatus.getD (ascii "unverified"))) ++
  (if pkg.reproReason.getD [] = [] then []
    else emitLine (ascii "reason") (tomlEscape (pkg.reproReason.getD []))) ++
  (if Hook.all.all (fun hook => (pkg.hooks hook).isNone) then []
    else ascii "\n[hooks]\n") ++
  Hook.all.flatMap (emitHook pkg)

def emitEntry (entry : ManifestEntry) : Bytes :=
  ascii "[[file]]\n" ++
  emitLine (ascii "path") (tomlEscape entry.path) ++
  emitLine (ascii "type") ([34] ++
    [if entry.typeflag = 0 then 48 else entry.typeflag] ++ [34]) ++
  emitLine (ascii "mode") ([34] ++
    padZeros 4 (printBase 8 (entry.mode % 4096)) ++ [34]) ++
  emitLine (ascii "size") (printBase 10 entry.size) ++
  (if entry.sha256.getD [] = [] then []
    else emitLine (ascii "sha256")
      ([34] ++ entry.sha256.getD [] ++ [34])) ++
  (if entry.linkname.getD [] = [] then []
    else emitLine (ascii "linkname")
      (tomlEscape (entry.linkname.getD []))) ++
  [10]

/-- `salt_manifest_to_toml`. -/
def manifestToToml (manifest : Manifest) : Bytes :=
  manifest.flatMap emitEntry

/-! ## Reading -/

/-- The conversion of a `long long` to an `int`. -/
def toInt32 (value : Int) : Int :=
  (value + 2 ^ 31) % 2 ^ 32 - 2 ^ 31

theorem toInt32_eq {value : Int} (low : -2 ^ 31 ≤ value)
    (high : value < 2 ^ 31) : toInt32 value = value := by
  unfold toInt32
  omega

/-- The hooks table as `salt_pkg_meta_from_toml` walks it. -/
def readHooks : Table → (Hook → Option Bytes) →
    Except Stop (Hook → Option Bytes)
  | [], hooks => .ok hooks
  | (key, node) :: rest, hooks =>
      match Hook.fromName key, asString node with
      | some kind, some body =>
          readHooks rest fun hook =>
            if hook = kind then some body else hooks hook
      | _, _ => .error (.error (some
          (ascii "metadata: undeclared or malformed hook '" ++ key ++
            ascii "'")))

/-- The entries of `[hooks]`; anything but a table has none. -/
def hooksTable (root : Table) : Table :=
  match tableGet root (ascii "hooks") with
  | some (.tab table) => table
  | _ => []

/-- `salt_pkg_meta_from_toml`. -/
def pkgMetaFromToml (next : UInt8) (fuel : Nat) (text : Bytes) :
    Except Stop PkgMeta := do
  let root ← parse next fuel text
  let node := Node.tab root
  let hooks ← readHooks (hooksTable root) (fun _ => none)
  return {
    name := (stringAt node "name").getD []
    version := (stringAt node "version").getD []
    release := toInt32 (intAt node "release" 1)
    arch := (stringAt node "arch").getD []
    summary := some ((stringAt node "summary").getD [])
    license := some ((stringAt node "license").getD [])
    reproStatus := some
      ((stringAt node "reproducibility.status").getD (ascii "unverified"))
    reproReason := stringAt node "reproducibility.reason"
    deps := stringArrayAt node "deps"
    conflicts := stringArrayAt node "conflicts"
    hooks := hooks }

/-- `(unsigned)strtoul(text, NULL, 8)`. -/
def strtoul8 (text : Bytes) : Nat :=
  let body := text.dropWhile (fun byte => byte == 32 || (9 ≤ byte &&
    byte ≤ 13))
  let negative := body.head? = some 45
  let digits :=
    (if negative ∨ body.head? = some 43 then body.drop 1 else body).takeWhile
      (fun byte => 48 ≤ byte && byte ≤ 55)
  let value := readBase 8 digits
  let value := if value < 2 ^ 64 then value else 2 ^ 64 - 1
  (if negative ∧ readBase 8 digits < 2 ^ 64 then 2 ^ 64 - value
    else value) % 2 ^ 32

def entryFromNode (node : Node) : ManifestEntry where
  path := (stringAt node "path").getD []
  typeflag := ((stringAt node "type").getD (ascii "0")).headD 0
  mode := strtoul8 ((stringAt node "mode").getD (ascii "0644"))
  size := (intAt node "size" 0 % 2 ^ 64).toNat
  sha256 := stringAt node "sha256"
  linkname := stringAt node "linkname"

/-- `salt_manifest_from_toml`. -/
def manifestFromToml (next : UInt8) (fuel : Nat) (text : Bytes) :
    Except Stop Manifest := do
  let root ← parse next fuel text
  match tableGet root (ascii "file") with
  | some (.arr items) => return items.map entryFromNode
  | _ => return []

end SaltOS.Pkg
