import SaltOS.Lib.Ends
import SaltOS.Setup.SavedTree

/-!
# Loading a saved configuration

`load_config` leaves a field as it is when the file does not have it, and
`to_lua` leaves out empty texts.  So a saved configuration comes back with the
defaults in the place of empty texts.
-/

namespace SaltOS.Setup

open Lib Toml Config

/-! ## The loop -/

def orDefault (value fallback : Bytes) : Bytes :=
  if value = [] then fallback else value

@[simp] theorem orDefault_nil (value : Bytes) : orDefault value [] = value := by
  unfold orDefault
  split
  · rename_i isEmpty
    exact isEmpty.symm
  · rfl

theorem orDefault_eq_iff {value fallback : Bytes} (nonempty : fallback ≠ []) :
    orDefault value fallback = value ↔ value ≠ [] := by
  unfold orDefault
  split
  · rename_i isEmpty
    rw [isEmpty]
    exact iff_of_false nonempty fun differs => differs rfl
  · rename_i differs
    exact iff_of_true rfl differs

/-- A field as it is after loading. -/
def restoreField (saved start : SetupConfig) (field : Field) : SetupConfig :=
  match field.member with
  | .str get set => set start (orDefault (get saved) (get start))
  | .bool get set => set start (get saved)

/-- The configuration that is loaded over the defaults. -/
def restored (saved : SetupConfig) : SetupConfig where
  hostname := orDefault saved.hostname (ascii "saltos")
  locale := orDefault saved.locale (ascii "en_US.UTF-8")
  timezone := orDefault saved.timezone (ascii "UTC")
  keymap := orDefault saved.keymap (ascii "us")
  xkbLayout := orDefault saved.xkbLayout []
  xkbVariant := orDefault saved.xkbVariant []
  disk := orDefault saved.disk []
  mode := orDefault saved.mode (ascii "erase")
  target := orDefault saved.target []
  filesystem := orDefault saved.filesystem (ascii "btrfs")
  encrypt := saved.encrypt
  passphrase := orDefault saved.passphrase []
  passphraseFile := orDefault saved.passphraseFile []
  swap := orDefault saved.swap (ascii "none")
  swapSize := orDefault saved.swapSize (ascii "auto")
  swapDevice := orDefault saved.swapDevice []
  rootSize := orDefault saved.rootSize []
  desktop := orDefault saved.desktop (ascii "auto")
  firmware := orDefault saved.firmware (ascii "auto")
  osProber := saved.osProber
  cmdline := orDefault saved.cmdline []
  shim := orDefault saved.shim (ascii "auto")
  username := orDefault saved.username (ascii "salt")
  password := orDefault saved.password []
  passwordHash := orDefault saved.passwordHash []
  rootPassword := orDefault saved.rootPassword []
  rootPasswordHash := orDefault saved.rootPasswordHash []
  shell := orDefault saved.shell (ascii "/bin/bash")
  withSudo := saved.withSudo
  autologin := saved.autologin
  createUser := saved.createUser
  network := orDefault saved.network (ascii "dhcp")
  wifiSsid := orDefault saved.wifiSsid []
  wifiPsk := orDefault saved.wifiPsk []
  kernel := orDefault saved.kernel (ascii "native")
  distro := saved.distro

theorem foldl_restoreField (saved : SetupConfig) :
    { fields.foldl (restoreField saved) {} with distro := saved.distro } =
      restored saved :=
  rfl

/-- Every text field sets what it gets. -/
theorem fields_lawful {field : Field} (member : field ∈ fields)
    {get : SetupConfig → Bytes} {set : SetupConfig → Bytes → SetupConfig}
    (isText : field.member = .str get set) (config : SetupConfig) :
    set config (get config) = config := by
  have lawful : ∀ field ∈ fields, ∀ get set, field.member = .str get set →
      set config (get config) = config := by
    simp [fields]
  exact lawful field member get set isText

section

variable {config : SetupConfig}

theorem loadField_run {field : Field} (member : field ∈ fields)
    (start : SetupConfig) :
    loadField (.tab (storedTable (savedNodes config))) field start =
      .ok () (restoreField config start field) := by
  have found := @getPath_saved config field member
  unfold loadField restoreField
  rw [found]
  cases isMember : field.member with
  | str get set =>
      rw [Member.answer]
      by_cases isEmpty : get config = []
      · have kept : set start (orDefault (get config) (get start)) =
            start := by
          rw [orDefault, if_pos isEmpty, fields_lawful member isMember]
        rw [if_pos isEmpty]
        exact congrArg (EStateM.Result.ok ()) kept.symm
      · have changed : orDefault (get config) (get start) = get config :=
          if_neg isEmpty
        rw [if_neg isEmpty]
        exact congrArg (fun value => EStateM.Result.ok () (set start value))
          changed.symm
  | bool get set => rfl

/-- The interpreter gives a literal the value that it has. -/
def Evaluates (interpret : Interpreter) (name text : Bytes) : Prop :=
  ∀ value, evalLiteral text = some value → interpret name text = .ok value

theorem stratum_saved (config : SetupConfig) :
    (nodeGet (ascii "stratum")
        (.tab (storedTable (savedNodes config)))).bind stratumName =
      some config.distro := by
  have found : tableGet (storedTable (savedNodes config)) stratumKey =
      some (stratumNode config.distro) := by
    rw [tableGet_storedTable]
    exact tableGet_of_mem (nodes_distinct config)
      (List.mem_append_right _ (List.mem_singleton.mpr rfl))
  have stored (key : String) (segment : Segment (ascii key)) :
      getPath (linesNode (primaryLines config.distro)) (ascii key) =
        tableGet ((primaryLines config.distro).map fun line =>
          (line.1, line.2.node)) (ascii key) := by
    unfold linesNode
    rw [getPath_bare segment, tableGet_storedTable]
  have isName : stringAt (linesNode (primaryLines config.distro)) "name" =
      some config.distro := by
    rw [stringAt, stored "name" (by decide)]
    rfl
  have isRole : stringAt (linesNode (primaryLines config.distro)) "role" =
      some (ascii "primary") := by
    rw [stringAt, stored "role" (by decide)]
    rfl
  change (tableGet _ stratumKey).bind stratumName = _
  rw [found, Option.bind_some, stratumNode, stratumName, primaryName, isName]
  dsimp only
  rw [isRole]
  rfl

/-- A saved configuration comes back with defaults for empty texts. -/
theorem loadConfig_toLua (interpret : Interpreter) (fuel : Nat)
    {name : Bytes} (isLuaName : isLua name) (nulFree : NulFree config)
    (evaluates : Evaluates interpret name (toLua config true)) :
    loadConfig interpret fuel (toLua config true) name {} =
      .ok () (restored config) := by
  have isValue := evaluates _ (evalLiteral_toLua config)
  have isTree : confParse interpret fuel (toLua config true) name =
      .ok (.tab (storedTable (savedNodes config))) := by
    rw [confParse, if_pos isLuaName, confEval, isValue]
    have converted := convertValue_saved nulFree 61 name
    unfold savedValue at converted ⊢
    dsimp only
    change (convertValue (61 + 4) name _ >>= _) = _
    rw [converted]
    rfl
  have isLoop := forM_run
    (fun field member start => @loadField_run config field member start) {}
  unfold loadConfig
  rw [isTree]
  apply (bind_run isLoop).trans
  rw [stratum_saved]
  exact congrArg (EStateM.Result.ok ()) (foldl_restoreField config)

end

/-! ## Checked configurations -/

/-- The texts with a default that `validate` does not take when empty. -/
structure Checked (config : SetupConfig) : Prop where
  hostname : config.hostname ≠ []
  mode : config.mode ≠ []
  filesystem : config.filesystem ≠ []
  swap : config.swap ≠ []
  desktop : config.desktop ≠ []
  firmware : config.firmware ≠ []
  shim : config.shim ≠ []
  network : config.network ≠ []
  kernel : config.kernel ≠ []

theorem enumCheck_ne_nil {field : String} {value : Bytes}
    {allowed : List String} (accepted : enumCheck field value allowed = .ok ())
    (noEmpty : [] ∉ allowed.map ascii) : value ≠ [] := by
  unfold enumCheck at accepted
  split at accepted
  · rename_i member
    rintro rfl
    exact noEmpty member
  · cases accepted

theorem refuseIf_ok {condition : Bool} {message : Bytes}
    (accepted : refuseIf condition message = .ok ()) : condition = false := by
  cases condition with
  | false => rfl
  | true => cases accepted

theorem validate_checked {strtod : Strtod} {config : SetupConfig}
    {interactive : Bool} (accepted : validate strtod config interactive =
      .ok ()) : Checked config := by
  unfold validate at accepted
  obtain ⟨_, enums, accepted⟩ := bind_ok accepted
  obtain ⟨_, _, accepted⟩ := bind_ok accepted
  obtain ⟨_, _, accepted⟩ := bind_ok accepted
  obtain ⟨_, _, accepted⟩ := bind_ok accepted
  obtain ⟨_, _, accepted⟩ := bind_ok accepted
  obtain ⟨_, hostname, accepted⟩ := bind_ok accepted
  obtain ⟨_, _, accepted⟩ := bind_ok accepted
  obtain ⟨_, _, accepted⟩ := bind_ok accepted
  obtain ⟨_, _, accepted⟩ := bind_ok accepted
  obtain ⟨_, _, kernel⟩ := bind_ok accepted
  unfold checkEnums at enums
  obtain ⟨_, mode, enums⟩ := bind_ok enums
  obtain ⟨_, filesystem, enums⟩ := bind_ok enums
  obtain ⟨_, swap, enums⟩ := bind_ok enums
  obtain ⟨_, desktop, enums⟩ := bind_ok enums
  obtain ⟨_, firmware, enums⟩ := bind_ok enums
  obtain ⟨_, shim, network⟩ := bind_ok enums
  unfold checkHostname at hostname
  obtain ⟨_, named, _⟩ := bind_ok hostname
  exact ⟨of_decide_eq_false (refuseIf_ok named),
    enumCheck_ne_nil mode (by decide), enumCheck_ne_nil filesystem (by decide),
    enumCheck_ne_nil swap (by decide), enumCheck_ne_nil desktop (by decide),
    enumCheck_ne_nil firmware (by decide), enumCheck_ne_nil shim (by decide),
    enumCheck_ne_nil network (by decide),
    of_decide_eq_false (refuseIf_ok kernel)⟩

/-! ## The round trip -/

/-- No text that may be empty although it has a default is empty. -/
structure Complete (config : SetupConfig) : Prop where
  locale : config.locale ≠ []
  timezone : config.timezone ≠ []
  keymap : config.keymap ≠ []
  swapSize : config.swapSize ≠ []
  username : config.username ≠ []
  shell : config.shell ≠ []

theorem restored_eq_iff {config : SetupConfig} (checked : Checked config) :
    restored config = config ↔ Complete config := by
  constructor
  · intro same
    have kept {value fallback : Bytes} (nonempty : fallback ≠ [])
        (isSame : orDefault value fallback = value) : value ≠ [] :=
      (orDefault_eq_iff nonempty).mp isSame
    exact ⟨kept (by decide) (congrArg SetupConfig.locale same),
      kept (by decide) (congrArg SetupConfig.timezone same),
      kept (by decide) (congrArg SetupConfig.keymap same),
      kept (by decide) (congrArg SetupConfig.swapSize same),
      kept (by decide) (congrArg SetupConfig.username same),
      kept (by decide) (congrArg SetupConfig.shell same)⟩
  · intro complete
    have kept {value fallback : Bytes} (nonempty : value ≠ []) :
        orDefault value fallback = value :=
      if_neg nonempty
    unfold restored
    rw [kept checked.hostname, kept complete.locale, kept complete.timezone,
      kept complete.keymap, kept checked.mode, kept checked.filesystem,
      kept checked.swap, kept complete.swapSize, kept checked.desktop,
      kept checked.firmware, kept checked.shim, kept complete.username,
      kept complete.shell, kept checked.network, kept checked.kernel]
    simp only [orDefault_nil]

/-- A saved configuration reproduces itself exactly when none of the texts
with a default that may be empty is. -/
theorem loadConfig_toLua_iff (interpret : Interpreter) (strtod : Strtod)
    (fuel : Nat) {config : SetupConfig} {name : Bytes} {interactive : Bool}
    (isLuaName : isLua name) (nulFree : NulFree config)
    (accepted : validate strtod config interactive = .ok ())
    (evaluates : Evaluates interpret name (toLua config true)) :
    loadConfig interpret fuel (toLua config true) name {} = .ok () config ↔
      Complete config := by
  rw [loadConfig_toLua interpret fuel isLuaName nulFree evaluates,
    ← restored_eq_iff (validate_checked accepted)]
  constructor
  · intro same
    exact (EStateM.Result.ok.inj same).2
  · exact congrArg (EStateM.Result.ok ())

/-- An interpreter of literals. -/
def literals : Interpreter := fun _ text =>
  match evalLiteral text with
  | some value => .ok value
  | none => .error (ascii "syntax error")

theorem literals_evaluates (name text : Bytes) :
    Evaluates literals name text := by
  intro value isValue
  unfold literals
  rw [isValue]

/-- A `strtod` that reads no number. -/
def noNumber : Strtod := fun text => (text, false)

/-- Answers for a disk, with the locale as given. -/
def diskConfig (locale : Bytes) : SetupConfig :=
  { disk := ascii "/dev/sda", password := ascii "pw", distro := ascii "void",
    locale := locale }

theorem diskConfig_nulFree {locale : Bytes} (noNul : (0 : UInt8) ∉ locale) :
    NulFree (diskConfig locale) := by
  constructor
  · have plain : ∀ text ∈ [ascii "saltos", ascii "UTC", ascii "us",
        ascii "/dev/sda", ascii "erase", ascii "btrfs", ascii "none",
        ascii "auto", ascii "salt", ascii "pw", ascii "/bin/bash",
        ascii "dhcp", ascii "native"], (0 : UInt8) ∉ text := by
      decide
    simp only [List.forall_mem_cons] at plain
    simp [fields, diskConfig, noNul, plain]
  · change (0 : UInt8) ∉ ascii "void"
    decide

/-- The defaults with a disk and a locale are saved and loaded. -/
theorem diskConfig_reproduced :
    loadConfig literals 0 (toLua (diskConfig (ascii "C")) true)
      (ascii "system.lua") {} = .ok () (diskConfig (ascii "C")) := by
  have complete : Complete (diskConfig (ascii "C")) :=
    ⟨by decide, by decide, by decide, by decide, by decide, by decide⟩
  exact (@loadConfig_toLua_iff literals noNumber 0 (diskConfig (ascii "C"))
    (ascii "system.lua") false (by decide) (diskConfig_nulFree (by decide))
    (by decide +kernel) (literals_evaluates _ _)).mpr complete

/-- An empty locale comes back as the default one. -/
theorem emptyLocale_lost :
    NulFree (diskConfig []) ∧
      validate noNumber (diskConfig []) false = .ok () ∧
      Evaluates literals (ascii "system.lua") (toLua (diskConfig []) true) ∧
      loadConfig literals 0 (toLua (diskConfig []) true)
        (ascii "system.lua") {} ≠ .ok () (diskConfig []) := by
  have nulFree := @diskConfig_nulFree [] List.not_mem_nil
  have evaluates := literals_evaluates (ascii "system.lua")
    (toLua (diskConfig []) true)
  refine ⟨nulFree, by decide +kernel, evaluates, ?_⟩
  rw [loadConfig_toLua literals 0 (by decide) nulFree evaluates]
  intro same
  have isLocale := congrArg SetupConfig.locale (EStateM.Result.ok.inj same).2
  exact absurd isLocale (by decide)

end SaltOS.Setup
