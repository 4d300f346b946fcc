import SaltOS.Boot.Kernels
import SaltOS.Lib.Ends

/-!
# GRUB trial boots

The boot commands of `src/salt/cmd_deploy.cpp` for the GRUB loader on the
running root (`--root /`), and the script `write_grub_cfg` generates, as GRUB
runs it.  The environment block holds four keys; GRUB reads three of them and
writes one.  The parts of `grub.cfg` that no default entry can select (titles,
snapshot submenu, timeout) are left out.
-/

namespace SaltOS.Grub

open Boot Lib

inductive EnvKey where
  | saltosDefault
  | saltosTry
  | saltosTryEntry
  | saltosPending
  deriving DecidableEq, Repr

def EnvKey.text : EnvKey → Bytes
  | .saltosDefault => ascii "saltos_default"
  | .saltosTry => ascii "saltos_try"
  | .saltosTryEntry => ascii "saltos_try_entry"
  | .saltosPending => ascii "saltos_pending"

def envKeys : List EnvKey :=
  [.saltosDefault, .saltosPending, .saltosTry, .saltosTryEntry]

/-- The environment block. -/
abbrev Env := EnvKey → Option Bytes

/-- What the generated `grub.cfg` decides: the values its script starts from
and the menu entries, each an identifier and a kernel file. -/
structure GrubCfg where
  saltosDefault : Bytes
  saltosTryEntry : Bytes
  entries : List (Bytes × Bytes)

structure State where
  boot : BootDir
  env : Env
  cfg : Option GrubCfg
  running : Image

/-- A command ends with exit status 0, or with a message and status 1. -/
abbrev GrubIo := EStateM Bytes State

def entryId (kernel : Bytes) : Bytes :=
  ascii "k-" ++ kernel

def kernelFromEntry (id : Bytes) : Bytes :=
  if (ascii "k-").isPrefixOf id then id.drop 2 else []

structure BootState where
  defaultKernel : Bytes
  pendingKernel : Bytes
  tryArmed : Bool

/-- A name, unless the file is not in `/boot`. -/
def keepExisting (boot : BootDir) (kernel : Bytes) : Bytes :=
  if kernel ≠ [] ∧ ¬ existsIn boot kernel then [] else kernel

def grubState (s : State) : BootState where
  defaultKernel := keepExisting s.boot
    (kernelFromEntry ((s.env .saltosDefault).getD []))
  pendingKernel := keepExisting s.boot ((s.env .saltosPending).getD [])
  tryArmed := s.env .saltosTry == some (ascii "1")

/-- The bytes of the block before its padding. -/
def blockSize (kv : EnvKey → Bytes) : Nat :=
  (ascii "# GRUB Environment Block\n").length +
    (envKeys.map fun key => key.text.length + 1 + (kv key).length + 1).sum

def grubenvWrite (kv : EnvKey → Bytes) : GrubIo Unit :=
  if blockSize kv > 1024 then throw (ascii "salt: grubenv block is full\n")
  else modify fun s => { s with env := fun key => some (kv key) }

/-- The four keys the commands write together. -/
def envValues (st : BootState) : EnvKey → Bytes
  | .saltosDefault => entryId st.defaultKernel
  | .saltosTry => if st.tryArmed then ascii "1" else ascii "0"
  | .saltosTryEntry =>
      if st.pendingKernel = [] then [] else entryId st.pendingKernel
  | .saltosPending => st.pendingKernel

def writeGrubCfg (defaultKernel tryKernel : Bytes) : GrubIo Unit := do
  let kernels := listKernels (← get).boot
  if kernels = [] then throw (ascii "salt: no kernel found in /boot\n")
  else modify fun s =>
    { s with
      cfg := some
        { saltosDefault := entryId defaultKernel
          saltosTryEntry :=
            if tryKernel = [] then [] else entryId tryKernel
          entries := kernels.map fun kernel => (entryId kernel, kernel) } }

/-- The state `grub_update` decides to write. -/
def updateState (s : State) (newest : Bytes) (afterRollback rearm : Bool) :
    BootState :=
  let st := grubState s
  let running := runningKernel s.boot s.running.release
  let defaultKernel :=
    if afterRollback then newest
    else if st.defaultKernel = [] then
      if running = [] then newest else running
    else st.defaultKernel
  if afterRollback then ⟨defaultKernel, [], false⟩
  else if rearm then
    if newest ≠ defaultKernel then ⟨defaultKernel, newest, true⟩
    else ⟨defaultKernel, [], false⟩
  else ⟨defaultKernel, st.pendingKernel, st.tryArmed⟩

def grubUpdate (afterRollback rearm : Bool) : GrubIo Unit := do
  let s ← get
  match newestKernel s.boot with
  | none => throw (ascii "salt: no kernel found in /boot\n")
  | some newest =>
      let next := updateState s newest afterRollback rearm
      writeGrubCfg next.defaultKernel next.pendingKernel
      grubenvWrite (envValues next)

/-- Run a command whose status is not looked at. -/
def ignoreStatus (command : GrubIo Unit) : GrubIo Unit :=
  tryCatch command (fun _ => return ())

def grubConfirm : GrubIo Unit := do
  let s ← get
  let st := grubState s
  if st.pendingKernel = [] then return ()
  else
    let running := runningKernel s.boot s.running.release
    if running ≠ st.pendingKernel then
      if st.tryArmed then
        throw (ascii "salt: kernel " ++ kernelRelease st.pendingKernel ++
          ascii " is armed for the next boot; reboot before confirming\n")
      else do
        ignoreStatus (writeGrubCfg st.defaultKernel [])
        ignoreStatus (grubenvWrite (envValues ⟨st.defaultKernel, [], false⟩))
        throw (ascii "salt: trial boot of kernel " ++
          kernelRelease st.pendingKernel ++ ascii " fell back to " ++
          (if running = [] then ascii "(unknown)"
          else kernelRelease running) ++ ascii "; keeping " ++
          kernelRelease st.defaultKernel ++
          ascii " as default (re-arm with `salt boot try`)\n")
    else do
      writeGrubCfg running []
      grubenvWrite (envValues ⟨running, [], false⟩)

def grubTry : GrubIo Unit := do
  let s ← get
  let st := grubState s
  let newest := (newestKernel s.boot).getD []
  if newest = [] ∨ newest = st.defaultKernel then return ()
  else do
    let defaultKernel :=
      if st.defaultKernel = [] then newest else st.defaultKernel
    writeGrubCfg defaultKernel newest
    grubenvWrite (envValues ⟨defaultKernel, newest, true⟩)

/-! ## The generated script -/

/-- The variables of the script after `load_env`. -/
structure ScriptVars where
  saltosDefault : Bytes
  saltosTry : Bytes
  saltosTryEntry : Bytes

def loadEnv (cfg : GrubCfg) (env : Env) : ScriptVars where
  saltosDefault := (env .saltosDefault).getD cfg.saltosDefault
  saltosTry := (env .saltosTry).getD (ascii "0")
  saltosTryEntry := (env .saltosTryEntry).getD cfg.saltosTryEntry

/-- `[ "$saltos_try" = "1" -a -n "$saltos_try_entry" ]`. -/
def ScriptVars.armed (vars : ScriptVars) : Bool :=
  vars.saltosTry == ascii "1" && vars.saltosTryEntry != []

def saveEnv (env : Env) (key : EnvKey) (value : Bytes) : Env :=
  fun other => if other = key then some value else env other

/-- The kernel file of the entry `default` selects; GRUB takes the first
entry when none has the identifier. -/
def selectEntry (cfg : GrubCfg) (default : Bytes) : Option Bytes :=
  match cfg.entries.find? (fun entry => entry.1 == default) with
  | some entry => some entry.2
  | none => cfg.entries.head?.map Prod.snd

def runScript (cfg : GrubCfg) (env : Env) : Env × Option Bytes :=
  let vars := loadEnv cfg env
  if vars.armed then
    (saveEnv env .saltosTry (ascii "0"), selectEntry cfg vars.saltosTryEntry)
  else (env, selectEntry cfg vars.saltosDefault)

/-- An unattended boot.  Without a `grub.cfg`, or when the selected image is
gone, nothing boots. -/
def unattendedBoot (s : State) : State :=
  match s.cfg with
  | none => s
  | some cfg =>
      let (env, kernel) := runScript cfg s.env
      match kernel.bind fun file => s.boot.find? (·.file == file) with
      | none => { s with env := env }
      | some image => { s with env := env, running := image }

/-! ## The machine -/

inductive Op where
  | update (afterRollback rearm : Bool)
  | try
  | confirm
  | appear (image : Image)
  | vanish (file : Bytes)
  | boot

def perform (op : Op) (s : State) : State :=
  match op with
  | .update afterRollback rearm =>
      finalState (grubUpdate afterRollback rearm s)
  | .try => finalState (grubTry s)
  | .confirm => finalState (grubConfirm s)
  | .appear image => { s with boot := image :: s.boot }
  | .vanish file =>
      { s with boot := s.boot.filter (fun image => image.file != file) }
  | .boot => unattendedBoot s

/-- What the steps assume: releases in `/boot` stay distinct, an image the
block names stays in `/boot`, and a boot goes through a generated script. -/
def Enabled (s : State) : Op → Prop
  | .appear image => ∀ other ∈ s.boot,
      other.release ≠ image.release ∧ other.file ≠ image.file
  | .vanish file => s.env .saltosDefault ≠ some (entryId file) ∧
      s.env .saltosPending ≠ some file
  | .boot => s.cfg.isSome
  | _ => True

def Step (before : State) (op : Op) (after : State) : Prop :=
  Enabled before op ∧ after = perform op before

/-- `grub_try`, or `grub_update` with `rearm`. -/
def Op.arms : Op → Bool
  | .update _ rearm => rearm
  | .try => true
  | _ => false

/-- The kernel file `saltos_default` selects, once it is set. -/
def defaultKernel (s : State) : Option Bytes :=
  (s.env .saltosDefault).map kernelFromEntry

/-- The script would boot the trial entry. -/
def TrialArmed (s : State) : Prop :=
  ∃ cfg, s.cfg = some cfg ∧ (loadEnv cfg s.env).armed = true

/-- The pending kernel is the one that runs. -/
def RunsPending (s : State) : Prop :=
  ∃ image ∈ s.boot, s.env .saltosPending = some image.file ∧
    image.release = s.running.release ∧
    (s.running ∈ s.boot → image = s.running)

/-- Whether a step is a boot into another kernel than `saltos_default`. -/
def isOffDefaultBoot (s : State) (op : Op) : Bool :=
  match op with
  | .boot => defaultKernel (perform .boot s) !=
      some (perform .boot s).running.file
  | _ => false

def offDefaultBoots : State → List Op → Nat
  | _, [] => 0
  | s, op :: rest =>
      (isOffDefaultBoot s op).toNat + offDefaultBoots (perform op s) rest

end SaltOS.Grub
