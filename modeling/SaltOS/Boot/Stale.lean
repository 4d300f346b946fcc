import SaltOS.Boot.Grub
import SaltOS.Lib.LinkedDir
import SaltOS.Txn.Db

/-!
# Dropping stale kernels

`drop_stale_kernels` of `src/salt/cmd_deploy.cpp`, which runs after a
transaction of the running root that changed `/boot`.  It works on two
directories, `/boot` and `/usr/lib/modules`; what lies below a directory of
modules goes and stays with it.
-/

namespace SaltOS.Boot

open Bytes Grub Lib

inductive FileKind where
  | regular
  | directory
  | special
  deriving DecidableEq

/-- A file of the directory itself, or a link that leads out of it, with what
it leads to. -/
inductive DirNode where
  | file (kind : FileKind)
  | outside (kind : Option FileKind)
  deriving DecidableEq

def DirNode.kind : DirNode → Option FileKind
  | .file kind => some kind
  | .outside kind => kind

abbrev DirEntries := LinkedDir Bytes DirNode

/-- A directory as the kernel keeps it. -/
structure Directory where
  entries : DirEntries
  distinct : (entries.map Prod.fst).Nodup
  short : ∀ entry ∈ entries, entry.1.length ≤ 255

namespace Directory

def remove (dir : Directory) (name : Bytes) : Directory where
  entries := dir.entries.remove name
  distinct := dir.distinct.sublist (List.filter_sublist.map Prod.fst)
  short := fun entry member => dir.short entry (List.mem_filter.mp member).1

/-- `stat`, which follows forty links. -/
def stat (dir : Directory) (name : Bytes) : Option FileKind :=
  (dir.entries.stat 41 name).bind DirNode.kind

def isRegular (dir : Directory) (name : Bytes) : Bool :=
  dir.stat name == some .regular

/-- `salt_path_exists` of a name in the directory. -/
def present (dir : Directory) (name : Bytes) : Bool :=
  (dir.stat name).isSome

def isOwnDirectory (dir : Directory) (name : Bytes) : Bool :=
  dir.entries.find name == some (.node (.file .directory))

/-- `unlink`, which does not take a directory. -/
def unlink (dir : Directory) (name : Bytes) : Directory :=
  if dir.isOwnDirectory name then dir else dir.remove name

end Directory

/-- `/boot` and, if it is there, `/usr/lib/modules`. -/
structure KernelFiles where
  boot : Directory
  modules : Option Directory

/-- What the function reads besides: the root, `uname -r`, the environment
block, the package database, and what `sh` makes of a command line that is no
plain `rm`. -/
structure Machine where
  root : Bytes
  uname : Option Bytes
  env : Env
  db : Db
  shell : Bytes → KernelFiles → KernelFiles

/-- `salt_boot_list_kernels`. -/
def bootKernels (boot : Directory) : List Bytes :=
  (((boot.entries.map Prod.fst).filter kernelNameOk).filter
    boot.isRegular).insertionSort
      (fun left right => kernelCmp left right ≤ 0)

/-- `running_kernel`. -/
def runningOf (boot : Directory) (uname : Option Bytes) : Bytes :=
  match uname with
  | none => []
  | some release =>
      ((bootKernels boot).find? (kernelRelease · == release)).getD []

/-- The names `initrd_for` tries, as far as its buffer holds them. -/
def initrdNames (release : Bytes) : List Bytes :=
  [ascii "initramfs-" ++ release ++ ascii ".img",
    ascii "initrd.img-" ++ release,
    ascii "initrd-" ++ release,
    ascii "initramfs-" ++ release].map (List.take 511)

/-- `initrd_for`. -/
def initrdFor (boot : Directory) (kernel : Bytes) : Bytes :=
  ((initrdNames (kernelRelease kernel)).find? boot.present).getD []

/-- A kernel of the environment block, unless its file is gone. -/
def keepPresent (boot : Directory) (kernel : Bytes) : Bytes :=
  if kernel ≠ [] ∧ boot.present kernel = false then [] else kernel

def defaultOf (machine : Machine) (boot : Directory) : Bytes :=
  keepPresent boot
    (kernelFromEntry ((machine.env .saltosDefault).getD []))

def pendingOf (machine : Machine) (boot : Directory) : Bytes :=
  keepPresent boot ((machine.env .saltosPending).getD [])

/-- Whether the database has an owner for a file of `/boot`; which of several
does not matter. -/
def isOwned (db : Db) (kernel : Bytes) : Bool :=
  (db.owner 0 (ascii "boot/" ++ kernel)).isSome

/-- The kernels the loop passes over. -/
def isRetained (machine : Machine) (boot : Directory) (kernel : Bytes) :
    Bool :=
  kernel == runningOf boot machine.uname ||
    kernel == ((bootKernels boot).head?).getD [] ||
    kernel == defaultOf machine boot ||
    kernel == pendingOf machine boot ||
    isOwned machine.db kernel

/-- The releases that name no entry of `usr/lib/modules`: the directory
itself, and the two names `rm` refuses. -/
def isDotName (release : Bytes) : Bool :=
  release == [46] || release == [46, 46]

/-- `salt_is_dir` of `usr/lib/modules/<release>`. -/
def modulesDir (modules : Option Directory) (release : Bytes) : Bool :=
  match modules with
  | none => false
  | some dir =>
      release == [] || isDotName release ||
        dir.stat release == some .directory

/-- `rm -rf` of `usr/lib/modules/<release>`. -/
def removeModules (modules : Option Directory) (release : Bytes) :
    Option Directory :=
  if release = [] then none
  else if isDotName release then modules
  else modules.map fun dir => dir.remove release

def removeCommand (release : Bytes) : Bytes :=
  ascii "rm -rf '/usr/lib/modules/" ++ release ++ ascii "'"

/-- The files of `/boot` that go with a kernel. -/
def dropImage (boot : Directory) (kernel : Bytes) : Directory :=
  let initrd := initrdFor boot kernel
  let boot := boot.unlink kernel
  if initrd = [] then boot else boot.unlink initrd

/-- One turn of the loop, for a kernel that it does not pass over. -/
def dropKernel (machine : Machine) (files : KernelFiles) (kernel : Bytes) :
    KernelFiles :=
  let release := kernelRelease kernel
  let dropped : KernelFiles := ⟨dropImage files.boot kernel, files.modules⟩
  if modulesDir files.modules release then
    if 39 ∈ release then machine.shell (removeCommand release) dropped
    else ⟨dropped.boot, removeModules files.modules release⟩
  else dropped

/-- The kernels the loop drops. -/
def staleKernels (machine : Machine) (boot : Directory) : List Bytes :=
  (bootKernels boot).filter fun kernel => !isRetained machine boot kernel

/-- `drop_stale_kernels`. -/
def dropStaleKernels (machine : Machine) (files : KernelFiles) :
    KernelFiles :=
  if machine.root ≠ [47] then files
  else (staleKernels machine files.boot).foldl (dropKernel machine) files

end SaltOS.Boot
