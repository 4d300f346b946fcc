import SaltOS.Lib.Ends

/-!
# Raspberry Pi A/B roots and one-shot trial boots

The commands of `os/pi/ab-update.sh` and `run_ab_update` of
`os/ota/salt-ota.sh`, as programs over the firmware partition, the Btrfs
subvolumes and the running system.  Every file of the firmware partition and
every subvolume carries an identity that is new each time it is created or
overwritten, so that "not touched" is an equality of states.

What the roots' `/boot` directories hold (`newest_kernel`, `initrd_for`) and
what the package manager does in a staged root is outside the scripts; it
enters as an argument of the command that reads it.
-/

namespace SaltOS.Tryboot

/-- Root subvolumes: `@`, `@b`, or a name the scripts do not know. -/
inductive Subvol where
  | root
  | rootB
  | named (name : String)
  deriving DecidableEq, Repr

inductive Slot where
  | a
  | b
  deriving DecidableEq, Repr

/-- The suffix of a slot file: empty, or `.next`. -/
inductive Suffix where
  | plain
  | next
  deriving DecidableEq, Repr

def otherSubvol : Subvol → Subvol
  | .root => .rootB
  | .rootB => .root
  | .named _ => .rootB

/-- A file of the firmware partition: the release it belongs to, and an
identity that changes with every write. -/
structure FwFile where
  release : String
  inode : Nat
  deriving DecidableEq, Repr

/-- A kernel command line: its first `subvol=` value, and the other words. -/
structure Cmdline where
  subvol : Option Subvol
  words : List String
  deriving DecidableEq, Repr

/-- `cmdline.txt` or `cmdline_<slot>.txt`. -/
inductive CmdlineFile where
  | common
  | ofSlot (slot : Slot)
  deriving DecidableEq, Repr

/-- The lines of `config.txt` and `tryboot.txt` the scripts tell apart. -/
inductive CfgLine where
  | kernel (slot : Slot) (suffix : Suffix)
  | initramfs (slot : Slot) (suffix : Suffix)
  | cmdline (file : CmdlineFile)
  | text (line : String)
  deriving DecidableEq, Repr

abbrev BootCfg := List CfgLine

namespace CfgLine

def kernel? : CfgLine → Option (Slot × Suffix)
  | .kernel slot suffix => some (slot, suffix)
  | _ => none

def initramfs? : CfgLine → Option (Slot × Suffix)
  | .initramfs slot suffix => some (slot, suffix)
  | _ => none

def cmdline? : CfgLine → Option CmdlineFile
  | .cmdline file => some file
  | _ => none

def isText : CfgLine → Bool
  | .text _ => true
  | _ => false

end CfgLine

namespace BootCfg

/-- The firmware takes the last line of each kind. -/
def kernel? (cfg : BootCfg) : Option (Slot × Suffix) :=
  cfg.reverse.findSome? CfgLine.kernel?

def initramfs? (cfg : BootCfg) : Option (Slot × Suffix) :=
  cfg.reverse.findSome? CfgLine.initramfs?

def cmdline? (cfg : BootCfg) : Option CmdlineFile :=
  cfg.reverse.findSome? CfgLine.cmdline?

end BootCfg

/-- `saltos-pending`. -/
structure Pending where
  subvol : Subvol
  kernel : Slot × Suffix
  release : String
  deriving DecidableEq, Repr

/-- What `active_subvol` and `uname -r` report. -/
structure Running where
  subvol : Subvol
  release : String
  deriving DecidableEq, Repr

structure State where
  volume : Subvol → Option Nat
  vmlinuz : Slot → Suffix → Option FwFile
  initramfs : Slot → Suffix → Option FwFile
  release : Slot → Suffix → Option String
  cmdline : CmdlineFile → Option Cmdline
  config : Option BootCfg
  tryboot : Option BootCfg
  pending : Option Pending
  running : Running
  fresh : Nat

/-- The newest kernel of a root's `/boot`, and whether it has an initrd. -/
structure BootKernel where
  release : String
  hasInitrd : Bool
  deriving DecidableEq, Repr

/-- A script ends well or dies with a message. -/
abbrev Script := EStateM String State

def die (message : String) : Script α :=
  throw message

/-- Write one entry of a table that is indexed by slot and suffix. -/
def setEntry (table : Slot → Suffix → Option β) (slot : Slot) (suffix : Suffix)
    (value : Option β) : Slot → Suffix → Option β :=
  fun slot' suffix' =>
    if slot' = slot ∧ suffix' = suffix then value else table slot' suffix'

def activeSubvol : Script Subvol := do
  return (← get).running.subvol

def slotOf : Subvol → Script Slot
  | .root => return .a
  | .rootB => return .b
  | .named name => die ("unknown root subvolume " ++ name)

def runningRelease : Script String := do
  return (← get).running.release

/-- `rm -f tryboot.txt saltos-pending vmlinuz_*.next initramfs_*.next`. -/
def clearPending : Script Unit :=
  modify fun s =>
    { s with
      tryboot := none
      pending := none
      vmlinuz := fun slot suffix =>
        if suffix = .next then none else s.vmlinuz slot suffix
      initramfs := fun slot suffix =>
        if suffix = .next then none else s.initramfs slot suffix }

/-- Copy the newest kernel and its initrd into a slot; the copies are renamed
over the old files. -/
def copyKernel (newest : Option BootKernel) (slot : Slot) (suffix : Suffix) :
    Script String :=
  match newest with
  | none => die "no kernel found"
  | some kernel => do
      modify fun s =>
        { s with
          vmlinuz := setEntry s.vmlinuz slot suffix
            (some { release := kernel.release, inode := s.fresh })
          initramfs := setEntry s.initramfs slot suffix
            (if kernel.hasInitrd then
              some { release := kernel.release, inode := s.fresh + 1 }
            else none)
          release := setEntry s.release slot suffix (some kernel.release)
          fresh := s.fresh + 2 }
      return kernel.release

/-- The lines of a boot configuration for a slot: those of `config.txt` that
are not about the boot files, then the slot's own. -/
def bootCfgLines (s : State) (source : BootCfg) (slot : Slot)
    (suffix : Suffix) : BootCfg :=
  source.filter CfgLine.isText ++ [.kernel slot suffix] ++
    (if (s.initramfs slot suffix).isSome then [.initramfs slot suffix]
    else []) ++ [.cmdline (.ofSlot slot)]

/-- `write_boot_cfg`: under `set -e` the script ends when `grep -v` prints no
line at all. -/
def writeBootCfg (slot : Slot) (suffix : Suffix) : Script BootCfg := do
  let s ← get
  match s.config with
  | none => die "config.txt missing"
  | some source =>
      if source.filter CfgLine.isText = [] then die "grep: no line"
      else return bootCfgLines s source slot suffix

def pendingSet (subvol : Subvol) (slot : Slot) (suffix : Suffix)
    (release : String) : Script Unit :=
  modify fun s =>
    { s with
      pending := some
        { subvol := subvol, kernel := (slot, suffix), release := release } }

/-- Delete the standby subvolume and snapshot the active one into it. -/
def cmdPrepare : Script Unit := do
  let cur ← activeSubvol
  let tgt := otherSubvol cur
  modify fun s =>
    { s with
      volume := fun subvol =>
        if subvol = tgt then (s.volume cur).map (fun _ => s.fresh)
        else s.volume subvol
      fresh := s.fresh + 1 }

/-- `sed "s/subvol=[^ ,]*/subvol=$tgt/"`. -/
def Cmdline.withSubvol (tgt : Subvol) (line : Cmdline) : Cmdline :=
  { line with subvol := line.subvol.map (fun _ => tgt) }

def cmdFinalize (stage : Option BootKernel) : Script Unit := do
  let cur ← activeSubvol
  let tgt := otherSubvol cur
  let slot ← slotOf tgt
  let curSlot ← slotOf cur
  let rel ← copyKernel stage slot .plain
  let s ← get
  -- `cmdline_<slot of cur>.txt` when it exists, else `cmdline.txt`
  let source := (s.cmdline (.ofSlot curSlot)).orElse
    (fun _ => s.cmdline .common)
  match source with
  | none => die "sed: cmdline.txt missing"
  | some line =>
      modify fun s =>
        { s with
          cmdline := fun file =>
            if file = .ofSlot slot then some (line.withSubvol tgt)
            else s.cmdline file }
      let cfg ← writeBootCfg slot .plain
      modify fun s => { s with tryboot := some cfg }
      pendingSet tgt slot .plain rel

def cmdCommit : Script Unit := do
  let s ← get
  match s.tryboot with
  | none => die "no pending tryboot to commit"
  | some cfg =>
      let cur ← activeSubvol
      let want := (s.pending.map Pending.subvol).getD cur
      let rel := (s.pending.map Pending.release).getD ""
      let running ← runningRelease
      if cur ≠ want ∨ (rel ≠ "" ∧ running ≠ rel) then do
        clearPending
        die "trial boot fell back; pending tryboot discarded"
      let slot ← slotOf cur
      match s.vmlinuz slot .next with
      | some kernel => do
          modify fun s =>
            { s with
              vmlinuz := setEntry (setEntry s.vmlinuz slot .next none)
                slot .plain (some kernel)
              initramfs := setEntry (setEntry s.initramfs slot .next none)
                slot .plain (s.initramfs slot .next) }
          match s.release slot .next with
          | none => die "mv: no release file"
          | some rel => do
              modify fun s =>
                { s with
                  release := setEntry (setEntry s.release slot .next none)
                    slot .plain (some rel) }
              let cfg ← writeBootCfg slot .plain
              modify fun s => { s with config := some cfg }
      | none => modify fun s => { s with config := some cfg }
      clearPending

def cmdAbort : Script Unit :=
  clearPending

/-- `[ -f cmdline_<slot>.txt ] || cp cmdline.txt cmdline_<slot>.txt`. -/
def ensureCmdline (slot : Slot) : Script Unit := do
  let s ← get
  match s.cmdline (.ofSlot slot), s.cmdline .common with
  | some _, _ => return ()
  | none, none => die "cp: cmdline.txt missing"
  | none, some line =>
      modify fun s =>
        { s with
          cmdline := fun file =>
            if file = .ofSlot slot then some line else s.cmdline file }

def cmdKernelTry (newest : Option BootKernel) : Script Unit := do
  let cur ← activeSubvol
  let slot ← slotOf cur
  match newest with
  | none => die "no kernel found"
  | some kernel =>
      if ((← get).release slot .plain).getD "" = kernel.release then
        return ()
      else do
        ensureCmdline slot
        let rel ← copyKernel newest slot .next
        let cfg ← writeBootCfg slot .next
        modify fun s => { s with tryboot := some cfg }
        pendingSet cur slot .next rel

/-- `kernel-update` without `rollback`; `staged` says that `STAGE_ROOT` is not
the live root. -/
def cmdKernelUpdate (staged : Bool) (newest : Option BootKernel) :
    Script Unit := do
  let cur ← activeSubvol
  let slot ← slotOf cur
  match newest with
  | none => die "no kernel found"
  | some kernel =>
      if staged then return ()
      else if ((← get).release slot .plain).getD "" = kernel.release then
        clearPending
      else cmdKernelTry newest

/-- The boot a configuration describes, when its kernel, its command line and
the root subvolume are there. -/
def bootFrom (s : State) (cfg : BootCfg) : Option Running := do
  let kernel ← cfg.kernel?
  let image ← s.vmlinuz kernel.1 kernel.2
  let file ← cfg.cmdline?
  let line ← s.cmdline file
  let _volume ← s.volume (line.subvol.getD .root)
  return { subvol := line.subvol.getD .root, release := image.release }

/-- A normal reboot: the firmware reads `config.txt`. -/
def reboot (s : State) : State :=
  match s.config.bind (bootFrom s) with
  | some running => { s with running := running }
  | none => s

/-- `reboot "0 tryboot"`: the firmware reads `tryboot.txt` once. -/
def trybootReboot (s : State) : State :=
  match s.tryboot.bind (bootFrom s) with
  | some running => { s with running := running }
  | none => reboot s

/-- What `salt --root $stage` reports during an OTA run. -/
inductive StagedUpdate where
  | syncFailed
  | nothing
  | checkFailed
  | updateFailed
  | updated
  deriving DecidableEq, Repr

/-- Run a script, ignoring how it ends (`... || true`). -/
def orTrue (script : Script Unit) : Script Unit :=
  tryCatch script (fun _ => return ())

/-- `run_ab_update`; `kernel` is what the staged root's `/boot` holds and
`rebootNow` the reboot policy. -/
def runAbUpdate (result : StagedUpdate) (kernel : Option BootKernel)
    (rebootNow : Bool) : Script Unit := do
  cmdPrepare
  match result with
  | .syncFailed => orTrue cmdAbort
  | .nothing => orTrue cmdAbort
  | .checkFailed => orTrue cmdAbort
  | .updateFailed => orTrue cmdAbort
  | .updated =>
      let finalized ← tryCatch (do cmdFinalize kernel; return true)
        (fun _ => return false)
      if finalized then
        if rebootNow then modify trybootReboot
      else orTrue cmdAbort

/-- The steps of a Raspberry Pi system. -/
inductive Action where
  | prepare
  | finalize (stage : Option BootKernel)
  | commit
  | abort
  | kernelUpdate (staged : Bool) (newest : Option BootKernel)
  | kernelTry (newest : Option BootKernel)
  | ota (result : StagedUpdate) (kernel : Option BootKernel)
      (rebootNow : Bool)
  | reboot
  | trybootReboot
  deriving DecidableEq, Repr

/-- The state an action leaves, whether its script ends well or dies. -/
def perform (action : Action) (s : State) : State :=
  match action with
  | .prepare => Lib.finalState (cmdPrepare s)
  | .finalize stage => Lib.finalState (cmdFinalize stage s)
  | .commit => Lib.finalState (cmdCommit s)
  | .abort => Lib.finalState (cmdAbort s)
  | .kernelUpdate staged newest =>
      Lib.finalState (cmdKernelUpdate staged newest s)
  | .kernelTry newest => Lib.finalState (cmdKernelTry newest s)
  | .ota result kernel rebootNow =>
      Lib.finalState (runAbUpdate result kernel rebootNow s)
  | .reboot => Tryboot.reboot s
  | .trybootReboot => Tryboot.trybootReboot s

end SaltOS.Tryboot
