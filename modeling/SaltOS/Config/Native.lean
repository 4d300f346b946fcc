import SaltOS.Config.SystemConfig
import SaltOS.Install.Commands

/-!
# The native set of a system configuration

`find_pinned`, `resolve_cfg` and `apply_native` of `src/salt/cmd_config.cpp`.
A `std::map` from names to entries is the list of its entries, ordered by name
where the code iterates over it.
-/

namespace SaltOS.Config

open Lib Repo Install

/-! ## Pins -/

/-- `atoi` of a run of digits: `strtol` is capped, and the result is cut to an
`int`. -/
def atoi (digits : Bytes) : Int :=
  Pkg.toInt32 (min (readBase 10 digits) (2 ^ 63 - 1) : Nat)

/-- A pin as the version and, unless it is negative, the release. -/
def splitPin (pin : Bytes) : Bytes × Int :=
  let head := pin.rdropWhile (· ≠ 45)
  let tail := pin.rtakeWhile (· ≠ 45)
  if head ≠ [] ∧ tail ≠ [] ∧ tail.all Bytes.isDigit then
    (head.dropLast, atoi tail)
  else (pin, -1)

/-- One round of the loop of `find_pinned`. -/
def pinRound (name version : Bytes) (release : Int) (best : Option Entry)
    (entry : Entry) : Option Entry :=
  if entry.name ≠ name ∨ entry.version ≠ version then best
  else if 0 ≤ release ∧ entry.release ≠ release then best
  else
    match best with
    | none => some entry
    | some known => if entry.release > known.release then some entry else best

/-- `find_pinned`; the error is `why`. -/
def findPinned (index : Index) (pins : List (Bytes × Bytes))
    (name : Bytes) : Except Bytes Entry :=
  match pins.lookup name with
  | none =>
      match index.find name with
      | none => .error (ascii "not in the repository index")
      | some entry => .ok entry
  | some pin =>
      let (version, release) := splitPin pin
      match index.items.foldl (pinRound name version release) none with
      | none => .error (ascii "pinned to " ++ pin ++
          ascii ", which the repository index does not offer")
      | some entry => .ok entry

/-! ## Resolving -/

/-- What `resolve_cfg` collects for one root. -/
structure Closure where
  desired : List Entry
  problems : List Bytes
  deriving DecidableEq, Repr

def notOffered (name wantedBy why : Bytes) : Bytes :=
  if wantedBy = [] then
    ascii "native package " ++ name ++ ascii " is " ++ why
  else
    ascii "dependency " ++ name ++ ascii " of " ++ wantedBy ++
      ascii " is " ++ why

/-- `resolve_cfg`. -/
def resolveCfg (index : Index) (pins : List (Bytes × Bytes)) :
    Nat → Bytes → Bytes → Closure → Closure
  | 0, _, _, state => state
  | fuel + 1, name, wantedBy, state =>
      if name ∈ state.desired.map Entry.name then state
      else
        match findPinned index pins name with
        | .error why => { state with
            problems := state.problems ++ [notOffered name wantedBy why] }
        | .ok entry =>
            entry.deps.foldl
              (fun state dep => resolveCfg index pins fuel dep name state)
              { state with desired := state.desired ++ [entry] }

/-- What a root resolves to; calls that enter an entry nest no deeper than
there are entries. -/
def closureOf (index : Index) (pins : List (Bytes × Bytes))
    (root : Bytes) : Closure :=
  resolveCfg index pins (index.items.length + 1) root [] ⟨[], []⟩

/-- `desired.insert` of a whole map. -/
def insertAll (desired sub : List Entry) : List Entry :=
  desired ++ sub.filter fun entry =>
    entry.name ∉ desired.map Entry.name

/-- The maps `desired` and the flag `ok` of `apply_native`. -/
structure Gathered where
  desired : List Entry
  ok : Bool
  deriving DecidableEq, Repr

def gatherRound (index : Index) (config : SystemConfig) (state : Gathered)
    (root : Bytes) : Gathered :=
  let closure := closureOf index config.pins root
  if closure.problems = [] then
    { state with desired := insertAll state.desired closure.desired }
  else if config.onMissing = .skip then state
  else { state with ok := false }

/-- The loop of `apply_native` over its roots. -/
def gather (index : Index) (config : SystemConfig) : Gathered :=
  config.packages.foldl (gatherRound index config) ⟨[], true⟩

/-- Every pin is for a package of the set. -/
def pinsUsed (config : SystemConfig) (desired : List Entry) : Bool :=
  config.pins.all fun pin => pin.1 ∈ desired.map Entry.name

def byNameOrder (entries : List Entry) : List Entry :=
  entries.insertionSort fun first second => first.name ≤ second.name

/-- The set that `[native]` asks for, in the order of its names, unless it
does not resolve. -/
def resolveNative (index : Index) (config : SystemConfig) :
    Option (List Entry) :=
  let gathered := gather index config
  if gathered.ok ∧ pinsUsed config gathered.desired then
    some (byNameOrder gathered.desired)
  else none

/-! ## Applying -/

/-- The installed package of the name is the entry. -/
def same (db : Db) (entry : Entry) : Bool :=
  match db.getPkg entry.name with
  | none => false
  | some row => row.version = entry.version ∧ row.release = entry.release

/-- The plan of `apply_native`. -/
def nativePlan (db : Db) (desired : List Entry) : NativePlan where
  install := orderByDeps (desired.filter fun entry => ¬ same db entry)
  remove := (db.listInstalled.map PackageRow.name).filter fun name =>
    name ∉ desired.map Entry.name

/-- How `apply_native` ends: it reports that nothing has to be done for a
number of packages, or it has an exit code. -/
inductive NativeEnd where
  | matched (count : Nat)
  | exit (code : Nat)
  deriving DecidableEq, Repr

def NativeEnd.code : NativeEnd → Nat
  | .matched _ => 0
  | .exit code => code

/-- The repository name that is recorded. -/
def withRepo (config : SystemConfig) (session : Session) : Session :=
  if config.repo = [] then session else { session with repo := config.repo }

/-- `apply_native`. -/
def applyNative (machine : Machine) (config : SystemConfig)
    (flags : TxnFlags) : Io NativeEnd := do
  match machine.index with
  | none => return .exit 1
  | some index =>
      if ¬ machine.opens then return .exit 1
      match resolveNative index config with
      | none => return .exit 1
      | some desired =>
          let world ← get
          let plan := nativePlan world.db desired
          if plan.install = [] ∧ plan.remove = [] then
            return .matched (desired.countP (same world.db))
          let code ← nativeTransaction (withRepo config machine.session)
            flags (ascii "config-apply") plan
          return .exit code

end SaltOS.Config
