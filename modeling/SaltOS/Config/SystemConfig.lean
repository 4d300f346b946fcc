import SaltOS.Lib.Ends
import SaltOS.Toml.Parser

/-!
# The system configuration

`config_load` of `src/salt/cmd_config.cpp` from the table that the file
evaluates to.
-/

namespace SaltOS.Config

open Lib Toml

structure StratumConfig where
  name : Bytes
  recipe : Bytes
  packages : List Bytes
  deriving DecidableEq, Repr

structure ExposeConfig where
  stratum : Bytes
  command : Bytes
  aliasName : Bytes
  desktop : Bool
  deriving DecidableEq, Repr

/-- The values of `on_missing_artifact`. -/
inductive OnMissing where
  | fail
  | skip
  deriving DecidableEq, Repr

structure SystemConfig where
  haveNative : Bool
  repo : Bytes
  packages : List Bytes
  pins : List (Bytes × Bytes)
  haveStrata : Bool
  strata : List StratumConfig
  haveExpose : Bool
  expose : List ExposeConfig
  requireSignedNative : Bool
  allowUnverifiedRepro : Bool
  onMissing : OnMissing
  deriving DecidableEq, Repr

def SystemConfig.empty : SystemConfig where
  haveNative := false
  repo := []
  packages := []
  pins := []
  haveStrata := false
  strata := []
  haveExpose := false
  expose := []
  requireSignedNative := false
  allowUnverifiedRepro := false
  onMissing := .fail

/-! ## Pieces of a section -/

/-- The items of a list, loaded one after the other; `load` also gets the
position of an item and the names of those before it. -/
def loadEach {ν α : Type} (name : α → Bytes)
    (load : Nat → List Bytes → ν → Except Bytes α) :
    Nat → List Bytes → List ν → Except Bytes (List α)
  | _, _, [] => .ok []
  | index, seen, node :: rest => do
      let item ← load index seen node
      let items ← loadEach name load (index + 1) (name item :: seen) rest
      return item :: items

/-- `toml_strings`. -/
def tomlStrings (what : Bytes) (node : Node) : Except Bytes (List Bytes) :=
  match node with
  | .arr items =>
      loadEach id (fun _ seen item =>
        match (asString item).filter (· ≠ []) with
        | none => .error (what ++
            ascii " must contain only non-empty strings")
        | some text =>
            if text ∈ seen then
              .error (what ++ ascii " lists " ++ text ++ ascii " twice")
            else .ok text) 0 [] items
  | _ => .error (what ++ ascii " must be an array of strings")

/-- `config_check_keys`. -/
def configCheckKeys (what : Bytes) (allowed : List String) (table : Table) :
    Except Bytes Unit :=
  match table.find? fun entry => entry.1 ∉ allowed.map ascii with
  | none => .ok ()
  | some (key, _) => .error (what ++ ascii " has unknown key '" ++ key ++
      ascii "'")

/-- A key that may be missing and otherwise has to be a boolean. -/
def boolAt (table : Table) (key : String) (what : Bytes) :
    Except Bytes Bool :=
  match tableGet table (ascii key) with
  | none => .ok false
  | some (.bool value) => .ok value
  | some _ => .error (what ++ ascii " must be true or false")

/-! ## Sections -/

/-- The table `[native.pin]`, read as a map. -/
def loadPins (pins : List (Bytes × Bytes)) :
    Table → Except Bytes (List (Bytes × Bytes))
  | [] => .ok pins
  | (key, node) :: rest =>
      match (asString node).filter (· ≠ []) with
      | none => .error (ascii "[native.pin] " ++ key ++
          ascii " must be a non-empty version string")
      | some version =>
          loadPins (pins.filter (·.1 ≠ key) ++ [(key, version)]) rest

def nativePackages (table : Table) : Except Bytes (List Bytes) :=
  match tableGet table (ascii "packages") with
  | none => .error (ascii "[native] must declare packages = [...]")
  | some node => tomlStrings (ascii "native.packages") node

def nativePins (table : Table) : Except Bytes (List (Bytes × Bytes)) :=
  match tableGet table (ascii "pin") with
  | none => .ok []
  | some (.tab pins) => loadPins [] pins
  | some _ => .error (ascii
      "[native.pin] must be a table of name = \"version[-release]\"")

def loadNative (config : SystemConfig) (node : Node) :
    Except Bytes SystemConfig :=
  match node with
  | .tab table => do
      configCheckKeys (ascii "[native]") ["repo", "packages", "pin"] table
      let packages ← nativePackages table
      let pins ← nativePins table
      return { config with
        haveNative := true
        repo := (stringAt node "repo").getD []
        packages := packages
        pins := pins }
  | _ => .error (ascii "[native] must be a table")

/-- The packages of a stratum, which need not be given. -/
def stratumPackages (name : Bytes) (table : Table) :
    Except Bytes (List Bytes) :=
  match tableGet table (ascii "packages") with
  | none => .ok []
  | some node =>
      tomlStrings (ascii "strata." ++ name ++ ascii ".packages") node

def loadStratum (index : Nat) (seen : List Bytes) (node : Node) :
    Except Bytes StratumConfig :=
  let what := ascii "[[strata]] #" ++ printBase 10 (index + 1)
  match node with
  | .tab table => do
      configCheckKeys what ["name", "recipe", "packages"] table
      let name := (stringAt node "name").getD []
      if name = [] then
        .error (what ++ ascii " needs name = \"...\"")
      else if name ∈ seen then
        .error (ascii "[[strata]] declares " ++ name ++ ascii " twice")
      else do
        let packages ← stratumPackages name table
        return ⟨name, (stringAt node "recipe").getD name, packages⟩
  | _ => .error (what ++ ascii " must be a table")

def loadStrata (config : SystemConfig) (node : Node) :
    Except Bytes SystemConfig :=
  match node with
  | .arr items => do
      let strata ← loadEach StratumConfig.name loadStratum 0 [] items
      return { config with haveStrata := true, strata := strata }
  | _ => .error (ascii "[[strata]] must be an array of tables")

/-- The alias and the flag of an entry of `[expose]`. -/
def exposeValue (key : Bytes) (node : Node) : Except Bytes (Bytes × Bool) :=
  match node with
  | .str text => .ok (text, false)
  | .tab table => do
      configCheckKeys (ascii "[expose] " ++ key) ["alias", "desktop"] table
      let desktop ← boolAt table "desktop"
        (ascii "[expose] " ++ key ++ ascii ": desktop")
      return ((stringAt node "alias").getD [], desktop)
  | _ => .error (ascii "[expose] " ++ key ++
      ascii " must be an alias string or an inline table")

/-- The checks of the alias of an entry. -/
def checkAlias (seen : List Bytes) (key : Bytes) (entry : ExposeConfig) :
    Except Bytes ExposeConfig :=
  if 47 ∈ entry.aliasName then
    .error (ascii "[expose] " ++ key ++ ascii ": alias '" ++
      entry.aliasName ++ ascii "' must be a bare command name")
  else if entry.aliasName ∈ seen then
    .error (ascii "[expose] exposes alias '" ++ entry.aliasName ++
      ascii "' twice")
  else .ok entry

def loadExposeEntry (seen : List Bytes) (key : Bytes) (node : Node) :
    Except Bytes ExposeConfig :=
  let stratum := key.takeWhile (· != 47)
  let command := (key.dropWhile (· != 47)).drop 1
  if stratum = [] ∨ command = [] then
    .error (ascii "[expose] key '" ++ key ++
      ascii "' must be \"stratum/command\"")
  else
    match exposeValue key node with
    | .error message => .error message
    | .ok (text, desktop) =>
        checkAlias seen key
          ⟨stratum, command, if text = [] then command else text, desktop⟩

def loadExpose (config : SystemConfig) (node : Node) :
    Except Bytes SystemConfig :=
  match node with
  | .tab table => do
      let expose ← loadEach ExposeConfig.aliasName
        (fun _ seen (entry : Bytes × Node) =>
          loadExposeEntry seen entry.1 entry.2) 0 [] table
      return { config with haveExpose := true, expose := expose }
  | _ => .error (ascii
      "[expose] must be a table of \"stratum/command\" = alias | \x7b ... \x7d")

def onMissingAt (node : Node) : Except Bytes OnMissing :=
  let text := (stringAt node "on_missing_artifact").getD (ascii "fail")
  if text = ascii "fail" then .ok .fail
  else if text = ascii "skip" then .ok .skip
  else .error (ascii
    "[policy] on_missing_artifact must be \"fail\" or \"skip\" (got \"" ++
      text ++ ascii "\")")

def loadPolicy (config : SystemConfig) (node : Node) :
    Except Bytes SystemConfig :=
  match node with
  | .tab table => do
      configCheckKeys (ascii "[policy]") ["require_signed_native",
        "allow_unverified_repro", "on_missing_artifact"] table
      let signed ← boolAt table "require_signed_native"
        (ascii "[policy] require_signed_native")
      let unverified ← boolAt table "allow_unverified_repro"
        (ascii "[policy] allow_unverified_repro")
      let onMissing ← onMissingAt node
      return { config with
        requireSignedNative := signed
        allowUnverifiedRepro := unverified
        onMissing := onMissing }
  | _ => .error (ascii "[policy] must be a table")

/-- A section that may be missing. -/
def loadSection (table : Table) (key : String)
    (load : SystemConfig → Node → Except Bytes SystemConfig)
    (config : SystemConfig) : Except Bytes SystemConfig :=
  match tableGet table (ascii key) with
  | none => .ok config
  | some node => load config node

def checkSchema (table : Table) : Except Bytes Unit :=
  let schema := intAt (.tab table) "schema" 0
  if (tableGet table (ascii "schema")).isSome ∧ schema ≠ 1 then
    .error (ascii "unsupported schema " ++ printInt schema ++
      ascii " (this salt understands schema = 1)")
  else .ok ()

/-- `config_load` of a file that evaluates to the table. -/
def configLoad (table : Table) : Except Bytes SystemConfig := do
  configCheckKeys (ascii "system.lua") ["schema", "system", "kernel",
    "stratum", "native", "strata", "expose", "policy"] table
  checkSchema table
  let config ← loadSection table "native" loadNative .empty
  let config ← loadSection table "strata" loadStrata config
  let config ← loadSection table "expose" loadExpose config
  loadSection table "policy" loadPolicy config

/-! ## What is loaded -/

/-- Items whose loading rejects a name that was seen have distinct names. -/
theorem loadEach_distinct {ν α : Type} {name : α → Bytes}
    {load : Nat → List Bytes → ν → Except Bytes α}
    (fresh : ∀ index seen node item, load index seen node = .ok item →
      name item ∉ seen) {index : Nat} {seen : List Bytes} {nodes : List ν}
    {items : List α} (loaded : loadEach name load index seen nodes = .ok items) :
    (items.map name).Nodup ∧ ∀ item ∈ items, name item ∉ seen := by
  induction nodes generalizing index seen items with
  | nil =>
      cases loaded
      simp
  | cons node nodes induction =>
      rw [loadEach] at loaded
      cases one : load index seen node with
      | error message =>
          rw [one] at loaded
          cases loaded
      | ok item =>
          cases others : loadEach name load (index + 1) (name item :: seen)
              nodes with
          | error message =>
              simp only [one, others, bind, Except.bind] at loaded
              cases loaded
          | ok rest =>
              simp only [one, others, bind, Except.bind] at loaded
              cases loaded
              obtain ⟨distinct, unseen⟩ := induction others
              have new := fresh index seen node item one
              constructor
              · rw [List.map_cons, List.nodup_cons]
                refine ⟨?_, distinct⟩
                intro again
                obtain ⟨other, member, same⟩ := List.mem_map.mp again
                exact unseen other member (same ▸ List.mem_cons_self)
              · intro other member
                rcases List.mem_cons.mp member with rfl | inside
                · exact new
                · exact fun old => unseen other inside
                    (List.mem_cons_of_mem _ old)

theorem checkAlias_ok {seen : List Bytes} {key : Bytes}
    {entry checked : ExposeConfig}
    (isOk : checkAlias seen key entry = .ok checked) :
    checked.aliasName ∉ seen ∧ 47 ∉ checked.aliasName := by
  unfold checkAlias at isOk
  split at isOk
  · cases isOk
  · rename_i bare
    split at isOk
    · cases isOk
    · rename_i fresh
      cases isOk
      exact ⟨fresh, bare⟩

theorem loadExposeEntry_ok {seen : List Bytes} {key : Bytes}
    {node : Node} {entry : ExposeConfig}
    (loaded : loadExposeEntry seen key node = .ok entry) :
    entry.aliasName ∉ seen ∧ 47 ∉ entry.aliasName := by
  simp only [loadExposeEntry] at loaded
  split at loaded
  · cases loaded
  · split at loaded
    · cases loaded
    · exact checkAlias_ok loaded

/-- No alias is exposed twice by what `[expose]` loads. -/
theorem loadExpose_distinct {before config : SystemConfig} {node : Node}
    (loaded : loadExpose before node = .ok config) :
    (config.expose.map ExposeConfig.aliasName).Nodup := by
  unfold loadExpose at loaded
  cases node with
  | tab table =>
      simp only [bind, Except.bind] at loaded
      split at loaded
      · cases loaded
      · rename_i expose isExpose
        cases loaded
        exact (loadEach_distinct (fun _ _ _ _ isEntry =>
          (loadExposeEntry_ok isEntry).1) isExpose).1
  | _ => cases loaded

theorem loadNative_expose {before after : SystemConfig} {node : Node}
    (loaded : loadNative before node = .ok after) :
    after.expose = before.expose := by
  unfold loadNative at loaded
  cases node with
  | tab table =>
      obtain ⟨_, -, loaded⟩ := bind_ok loaded
      obtain ⟨_, -, loaded⟩ := bind_ok loaded
      obtain ⟨_, -, loaded⟩ := bind_ok loaded
      cases loaded
      rfl
  | _ => cases loaded

theorem loadStrata_expose {before after : SystemConfig} {node : Node}
    (loaded : loadStrata before node = .ok after) :
    after.expose = before.expose := by
  unfold loadStrata at loaded
  cases node with
  | arr items =>
      obtain ⟨_, -, loaded⟩ := bind_ok loaded
      cases loaded
      rfl
  | _ => cases loaded

theorem loadPolicy_expose {before after : SystemConfig} {node : Node}
    (loaded : loadPolicy before node = .ok after) :
    after.expose = before.expose := by
  unfold loadPolicy at loaded
  cases node with
  | tab table =>
      obtain ⟨_, -, loaded⟩ := bind_ok loaded
      obtain ⟨_, -, loaded⟩ := bind_ok loaded
      obtain ⟨_, -, loaded⟩ := bind_ok loaded
      obtain ⟨_, -, loaded⟩ := bind_ok loaded
      cases loaded
      rfl
  | _ => cases loaded

theorem loadSection_ok {property : SystemConfig → Prop} {table : Table}
    {key : String} {load : SystemConfig → Node → Except Bytes SystemConfig}
    {before after : SystemConfig}
    (loaded : loadSection table key load before = .ok after)
    (missing : property before)
    (present : ∀ node, load before node = .ok after → property after) :
    property after := by
  unfold loadSection at loaded
  split at loaded
  · cases loaded
    exact missing
  · exact present _ loaded

/-- The aliases of the entries that `config_load` accepts are distinct. -/
theorem configLoad_distinct {table : Table} {config : SystemConfig}
    (loaded : configLoad table = .ok config) :
    (config.expose.map ExposeConfig.aliasName).Nodup := by
  let exposes (expose : List ExposeConfig) (config : SystemConfig) : Prop :=
    config.expose = expose
  let distinct (config : SystemConfig) : Prop :=
    (config.expose.map ExposeConfig.aliasName).Nodup
  unfold configLoad at loaded
  obtain ⟨_, -, loaded⟩ := bind_ok loaded
  obtain ⟨_, -, loaded⟩ := bind_ok loaded
  obtain ⟨native, isNative, loaded⟩ := bind_ok loaded
  obtain ⟨strata, isStrata, loaded⟩ := bind_ok loaded
  obtain ⟨expose, isExpose, loaded⟩ := bind_ok loaded
  have ofNative : exposes [] native :=
    loadSection_ok isNative rfl fun _ => loadNative_expose
  have ofStrata : exposes [] strata :=
    loadSection_ok isStrata ofNative
      fun _ one => (loadStrata_expose one).trans ofNative
  have ofExpose : distinct expose := by
    refine loadSection_ok isExpose ?_ fun _ => loadExpose_distinct
    simp [distinct, show strata.expose = [] from ofStrata]
  refine loadSection_ok loaded ofExpose fun _ one => ?_
  simpa [distinct, loadPolicy_expose one] using ofExpose

end SaltOS.Config
