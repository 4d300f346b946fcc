import SaltOS.Config.Conf

/-!
# The installer's configuration

`src/setup/config.cpp`: the answers of the installer, how they are checked,
written to a file and loaded from one.
-/

namespace SaltOS.Setup

open Lib Toml Config

/-! ## Fields -/

/-- `struct Config`. -/
structure SetupConfig where
  hostname : Bytes := ascii "saltos"
  locale : Bytes := ascii "en_US.UTF-8"
  timezone : Bytes := ascii "UTC"
  keymap : Bytes := ascii "us"
  xkbLayout : Bytes := []
  xkbVariant : Bytes := []
  disk : Bytes := []
  mode : Bytes := ascii "erase"
  target : Bytes := []
  filesystem : Bytes := ascii "btrfs"
  encrypt : Bool := false
  passphrase : Bytes := []
  passphraseFile : Bytes := []
  swap : Bytes := ascii "none"
  swapSize : Bytes := ascii "auto"
  swapDevice : Bytes := []
  rootSize : Bytes := []
  desktop : Bytes := ascii "auto"
  firmware : Bytes := ascii "auto"
  osProber : Bool := true
  cmdline : Bytes := []
  shim : Bytes := ascii "auto"
  username : Bytes := ascii "salt"
  password : Bytes := []
  passwordHash : Bytes := []
  rootPassword : Bytes := []
  rootPasswordHash : Bytes := []
  shell : Bytes := ascii "/bin/bash"
  withSudo : Bool := true
  autologin : Bool := false
  createUser : Bool := true
  network : Bytes := ascii "dhcp"
  wifiSsid : Bytes := []
  wifiPsk : Bytes := []
  kernel : Bytes := ascii "native"
  distro : Bytes := []
  deriving DecidableEq, Repr

/-- The member that a field points to. -/
inductive Member where
  | str (get : SetupConfig → Bytes) (set : SetupConfig → Bytes → SetupConfig)
  | bool (get : SetupConfig → Bool) (set : SetupConfig → Bool → SetupConfig)

structure Field where
  key : String
  secret : Bool
  member : Member

def Field.sectionName (field : Field) : Bytes :=
  (ascii field.key).takeWhile (· != 46)

def Field.name (field : Field) : Bytes :=
  ((ascii field.key).dropWhile (· != 46)).drop 1

def fields : List Field :=
  [⟨"system.hostname", false,
      .str SetupConfig.hostname fun c value => { c with hostname := value }⟩,
    ⟨"system.locale", false,
      .str SetupConfig.locale fun c value => { c with locale := value }⟩,
    ⟨"system.timezone", false,
      .str SetupConfig.timezone fun c value => { c with timezone := value }⟩,
    ⟨"system.keymap", false,
      .str SetupConfig.keymap fun c value => { c with keymap := value }⟩,
    ⟨"system.xkb_layout", false,
      .str SetupConfig.xkbLayout
        fun c value => { c with xkbLayout := value }⟩,
    ⟨"system.xkb_variant", false,
      .str SetupConfig.xkbVariant
        fun c value => { c with xkbVariant := value }⟩,
    ⟨"install.disk", false,
      .str SetupConfig.disk fun c value => { c with disk := value }⟩,
    ⟨"install.mode", false,
      .str SetupConfig.mode fun c value => { c with mode := value }⟩,
    ⟨"install.target", false,
      .str SetupConfig.target fun c value => { c with target := value }⟩,
    ⟨"install.filesystem", false,
      .str SetupConfig.filesystem
        fun c value => { c with filesystem := value }⟩,
    ⟨"install.encrypt", false,
      .bool SetupConfig.encrypt fun c value => { c with encrypt := value }⟩,
    ⟨"install.passphrase", true,
      .str SetupConfig.passphrase
        fun c value => { c with passphrase := value }⟩,
    ⟨"install.passphrase_file", false,
      .str SetupConfig.passphraseFile
        fun c value => { c with passphraseFile := value }⟩,
    ⟨"install.swap", false,
      .str SetupConfig.swap fun c value => { c with swap := value }⟩,
    ⟨"install.swap_size", false,
      .str SetupConfig.swapSize fun c value => { c with swapSize := value }⟩,
    ⟨"install.swap_device", false,
      .str SetupConfig.swapDevice
        fun c value => { c with swapDevice := value }⟩,
    ⟨"install.root_size", false,
      .str SetupConfig.rootSize fun c value => { c with rootSize := value }⟩,
    ⟨"install.desktop", false,
      .str SetupConfig.desktop fun c value => { c with desktop := value }⟩,
    ⟨"boot.firmware", false,
      .str SetupConfig.firmware fun c value => { c with firmware := value }⟩,
    ⟨"boot.os_prober", false,
      .bool SetupConfig.osProber fun c value => { c with osProber := value }⟩,
    ⟨"boot.cmdline", false,
      .str SetupConfig.cmdline fun c value => { c with cmdline := value }⟩,
    ⟨"boot.shim", false,
      .str SetupConfig.shim fun c value => { c with shim := value }⟩,
    ⟨"user.name", false,
      .str SetupConfig.username fun c value => { c with username := value }⟩,
    ⟨"user.password", true,
      .str SetupConfig.password fun c value => { c with password := value }⟩,
    ⟨"user.password_hash", true,
      .str SetupConfig.passwordHash
        fun c value => { c with passwordHash := value }⟩,
    ⟨"user.root_password", true,
      .str SetupConfig.rootPassword
        fun c value => { c with rootPassword := value }⟩,
    ⟨"user.root_password_hash", true,
      .str SetupConfig.rootPasswordHash
        fun c value => { c with rootPasswordHash := value }⟩,
    ⟨"user.shell", false,
      .str SetupConfig.shell fun c value => { c with shell := value }⟩,
    ⟨"user.sudo", false,
      .bool SetupConfig.withSudo
        fun c value => { c with withSudo := value }⟩,
    ⟨"user.autologin", false,
      .bool SetupConfig.autologin
        fun c value => { c with autologin := value }⟩,
    ⟨"user.create", false,
      .bool SetupConfig.createUser
        fun c value => { c with createUser := value }⟩,
    ⟨"network.mode", false,
      .str SetupConfig.network fun c value => { c with network := value }⟩,
    ⟨"network.wifi_ssid", false,
      .str SetupConfig.wifiSsid fun c value => { c with wifiSsid := value }⟩,
    ⟨"network.wifi_psk", true,
      .str SetupConfig.wifiPsk fun c value => { c with wifiPsk := value }⟩,
    ⟨"kernel.source", false,
      .str SetupConfig.kernel fun c value => { c with kernel := value }⟩]

/-! ## Writing -/

/-- A byte of a string literal. -/
def quoteByte (byte : UInt8) : Bytes :=
  if byte == 34 then [92, 34]
  else if byte == 92 then [92, 92]
  else if byte == 10 then [92, 110]
  else if byte == 9 then [92, 116]
  else if byte == 13 then [92, 114]
  else if byte < 32 then 92 :: padZeros 3 (printBase 10 byte.toNat)
  else [byte]

def quote (text : Bytes) : Bytes :=
  34 :: text.flatMap quoteByte ++ [34]

/-- What is written for a member; an empty text is left out. -/
def Member.shown (member : Member) (config : SetupConfig) : Option Bytes :=
  match member with
  | .str get _ => if get config = [] then none else some (quote (get config))
  | .bool get _ => some (if get config then ascii "true" else ascii "false")

def sectionEnd : Bytes :=
  ascii "  \x7d,\n"

/-- One round of the loop, with the text so far and the section that is
open. -/
def writeField (config : SetupConfig) (includeSecrets : Bool)
    (state : Bytes × Bytes) (field : Field) : Bytes × Bytes :=
  if field.secret && !includeSecrets then state
  else
    match field.member.shown config with
    | none => state
    | some shown =>
        let opened :=
          if field.sectionName = state.2 then state.1
          else
            (if state.2 = [] then state.1 else state.1 ++ sectionEnd) ++
              ascii "  " ++ field.sectionName ++ ascii " = \x7b\n"
        (opened ++ ascii "    " ++ field.name ++ ascii " = " ++ shown ++
          ascii ",\n", field.sectionName)

def luaHeader : Bytes :=
  ascii "-- saltOS system configuration (written by salt-setup)\nreturn \x7b\n"

def stratumText (distro : Bytes) : Bytes :=
  ascii "  stratum = \x7b\n    \x7b name = " ++ quote distro ++
    ascii ", role = \"primary\", expose = true \x7d,\n  \x7d,\n\x7d\n"

def toLua (config : SetupConfig) (includeSecrets : Bool) : Bytes :=
  let state := fields.foldl (writeField config includeSecrets) (luaHeader, [])
  (if state.2 = [] then state.1 else state.1 ++ sectionEnd) ++
    stratumText config.distro

/-! ## Loading -/

/-- One field of the tree; a field that is not there stays as it is. -/
def loadField (root : Node) (field : Field) :
    EStateM Stop SetupConfig Unit :=
  match getPath root (ascii field.key), field.member with
  | none, _ => pure ()
  | some (.str text), .str _ set => modify fun config => set config text
  | some (.bool value), .bool _ set => modify fun config => set config value
  | some _, .str _ _ =>
      throw (.error (some (ascii field.key ++ ascii " must be a string")))
  | some _, .bool _ _ =>
      throw (.error (some (ascii field.key ++ ascii " must be a boolean")))

/-- The name of the primary stratum, or else the first name. -/
def primaryName : Bytes → List Node → Option Bytes
  | first, [] => if first = [] then none else some first
  | first, node :: rest =>
      match stringAt node "name" with
      | none => primaryName first rest
      | some name =>
          if (stringAt node "role").getD [] = ascii "primary" then some name
          else primaryName (if first = [] then name else first) rest

def stratumName : Node → Option Bytes
  | .arr items => primaryName [] items
  | .tab table => stringAt (.tab table) "name"
  | _ => none

/-- `salt_toml_get`. -/
def nodeGet (key : Bytes) : Node → Option Node
  | .tab table => tableGet table key
  | _ => none

/-- `load_config`; what it loads into is the state. -/
def loadConfig (interpret : Interpreter) (fuel : Nat) (text name : Bytes) :
    EStateM Stop SetupConfig Unit := do
  match confParse interpret fuel text name with
  | .error stop => throw stop
  | .ok root => do
      fields.forM (loadField root)
      match (nodeGet (ascii "stratum") root).bind stratumName with
      | some distro => modify fun config => { config with distro := distro }
      | none => pure ()

/-! ## Checks -/

/-- `strtod`: the text behind the number, and whether the number is below
zero. -/
abbrev Strtod := Bytes → Bytes × Bool

def toupper (byte : UInt8) : UInt8 :=
  if 97 ≤ byte && byte ≤ 122 then byte - 32 else byte

def sizeUnits : List String :=
  ["", "M", "MB", "MIB", "G", "GB", "GIB", "T", "TB", "TIB", "K", "KB", "KIB"]

/-- Whether `parse_size_mib` takes the text for a size. -/
def parseSizeMib (strtod : Strtod) (text : Bytes) : Bool :=
  let digits := text.filter fun byte => byte != 32 && byte != 9
  let (rest, negative) := strtod (cstr digits)
  digits ≠ [] && rest ≠ cstr digits && !negative &&
    rest.map toupper ∈ sizeUnits.map ascii

/-- `join` of the values that an enumeration has. -/
def joinAllowed (allowed : List String) : Bytes :=
  List.intercalate (ascii "|") (allowed.map ascii)

/-- `ENUM_CHECK`. -/
def enumCheck (field : String) (value : Bytes) (allowed : List String) :
    Except Bytes Unit :=
  if value ∈ allowed.map ascii then .ok ()
  else .error (ascii field ++ ascii " must be one of " ++
    joinAllowed allowed ++ ascii " (got '" ++ value ++ ascii "')")

/-- A check that fails with its message. -/
def refuseIf (condition : Bool) (message : Bytes) : Except Bytes Unit :=
  if condition then .error message else .ok ()

/-- Every byte has to be allowed; the message names the first other one. -/
def checkBytes (field : String) (allowed : UInt8 → Bool) (text : Bytes) :
    Except Bytes Unit :=
  match text.find? (fun byte => !allowed byte) with
  | none => .ok ()
  | some byte => .error (ascii field ++ ascii " contains invalid character '" ++
      [byte] ++ ascii "'")

def isHostnameByte (byte : UInt8) : Bool :=
  isAlnum byte || byte == 45 || byte == 46

def isUsernameByte (byte : UInt8) : Bool :=
  (97 ≤ byte && byte ≤ 122) || Bytes.isDigit byte || byte == 45 ||
    byte == 95

def checkTarget (config : SetupConfig) : Except Bytes Unit :=
  if config.mode = ascii "mounted" then
    refuseIf (config.target = [])
      (ascii "install.target is required when install.mode = \"mounted\"")
  else if config.disk = [] then .error (ascii "install.disk is required")
  else
    refuseIf (!(ascii "/dev/").isPrefixOf config.disk)
      (ascii "install.disk must be a /dev path (got '" ++ config.disk ++
        ascii "')")

def checkNewUser (config : SetupConfig) (interactive : Bool) :
    Except Bytes Unit := do
  refuseIf (config.username = []) (ascii "user.name must not be empty")
  refuseIf (config.username = ascii "root")
    (ascii "user.name must not be root")
  checkBytes "user.name" isUsernameByte config.username
  refuseIf (!interactive && config.password = [] && config.passwordHash = [])
    (ascii ("user.password or user.password_hash is required for a " ++
      "non-interactive install"))

def checkUser (config : SetupConfig) (interactive : Bool) :
    Except Bytes Unit :=
  if config.createUser then checkNewUser config interactive else .ok ()

/-- The values of the enumerations. -/
def checkEnums (config : SetupConfig) : Except Bytes Unit := do
  enumCheck "install.mode" config.mode ["erase", "alongside", "mounted"]
  enumCheck "install.filesystem" config.filesystem ["btrfs", "ext4"]
  enumCheck "install.swap" config.swap ["none", "file", "partition", "zram"]
  enumCheck "install.desktop" config.desktop ["auto", "keep", "none"]
  enumCheck "boot.firmware" config.firmware ["auto", "uefi", "bios", "both"]
  enumCheck "boot.shim" config.shim ["auto", "yes", "no"]
  enumCheck "network.mode" config.network ["dhcp", "wifi", "none"]

def checkSwapDevice (config : SetupConfig) : Except Bytes Unit := do
  refuseIf (config.mode = ascii "mounted" && config.swap = ascii "partition" &&
      config.swapDevice = [])
    (ascii ("install.swap_device is required for install.swap = " ++
      "\"partition\" with install.mode = \"mounted\""))
  refuseIf (config.swapDevice ≠ [] && (config.mode ≠ ascii "mounted" ||
      config.swap ≠ ascii "partition"))
    (ascii ("install.swap_device only applies to install.mode = " ++
      "\"mounted\" with install.swap = \"partition\""))

def checkHostname (config : SetupConfig) : Except Bytes Unit := do
  refuseIf (config.hostname = []) (ascii "system.hostname must not be empty")
  checkBytes "system.hostname" isHostnameByte config.hostname

def checkSizes (strtod : Strtod) (config : SetupConfig) :
    Except Bytes Unit := do
  refuseIf (config.swap ≠ ascii "none" && config.swapSize ≠ ascii "auto" &&
      !parseSizeMib strtod config.swapSize)
    (ascii "install.swap_size must be 'auto' or a size like 4G (got '" ++
      config.swapSize ++ ascii "')")
  refuseIf (config.rootSize ≠ [] && !parseSizeMib strtod config.rootSize)
    (ascii "install.root_size must be a size like 40G (got '" ++
      config.rootSize ++ ascii "')")
  refuseIf (config.rootSize ≠ [] && config.mode ≠ ascii "alongside")
    (ascii "install.root_size only applies to install.mode = \"alongside\"")

def validate (strtod : Strtod) (config : SetupConfig) (interactive : Bool) :
    Except Bytes Unit := do
  checkEnums config
  checkTarget config
  checkSwapDevice config
  refuseIf (!config.withSudo && config.rootPassword = [] &&
      config.rootPasswordHash = [])
    (ascii ("user.root_password (or user.root_password_hash) is required " ++
      "when user.sudo = false, otherwise no account can administer the " ++
      "system"))
  refuseIf (config.distro = [])
    (ascii "a primary [[stratum]] name is required")
  checkHostname config
  checkUser config interactive
  refuseIf (config.encrypt && config.mode ≠ ascii "mounted" && !interactive &&
      config.passphrase = [] && config.passphraseFile = [])
    (ascii ("install.passphrase or install.passphrase_file is required " ++
      "when install.encrypt = true"))
  checkSizes strtod config
  refuseIf (config.network = ascii "wifi" && config.wifiSsid = [])
    (ascii "network.wifi_ssid is required when network.mode = \"wifi\"")
  refuseIf (config.kernel = []) (ascii "kernel.source must not be empty")

end SaltOS.Setup
