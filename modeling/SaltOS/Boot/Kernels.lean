import Mathlib.Data.List.Sort
import SaltOS.Repo.Vercmp

/-!
# Kernel images in `/boot`

The listing of `salt_boot_list_kernels` (`src/halite/src/deploy.c`) and the
release names the boot commands of `src/salt/cmd_deploy.cpp` read off it.
-/

namespace SaltOS.Boot

open Bytes

def kernelPrefixes : List Bytes :=
  [ascii "vmlinuz", ascii "vmlinux", ascii "bzImage", ascii "Image"]

def kernelNameOk (name : Bytes) : Bool :=
  !(4 < name.length && (ascii ".img").isSuffixOf name) &&
  !(4 < name.length && (ascii ".old").isSuffixOf name) &&
  !(name.tails.any fun tail => (ascii "initr").isPrefixOf tail) &&
  kernelPrefixes.any fun start =>
    start.isPrefixOf name &&
      ((name.drop start.length).isEmpty ||
        (name.drop start.length).head? == some 45)

def kernelVersion (name : Bytes) : Bytes :=
  afterDash name

def kernelRelease (file : Bytes) : Bytes :=
  afterDash file

/-- Newest first; equal versions by name, backwards. -/
def kernelCmp (left right : Bytes) : Int :=
  let order := Repo.vercmp (kernelVersion right) (kernelVersion left)
  if order ≠ 0 then order else strcmp right left

/-- A kernel image: the name of its file, and what `uname -r` prints while it
runs.  By convention the name carries the release, if it has a dash. -/
structure Image where
  file : Bytes
  release : Bytes
  file_length : file.length ≤ 255
  release_nonempty : release ≠ []
  named : kernelRelease file = release ∨ kernelRelease file = []

/-- `/boot`, in the order of `readdir`. -/
abbrev BootDir := List Image

def listKernels (boot : BootDir) : List Bytes :=
  ((boot.map Image.file).filter kernelNameOk).insertionSort
    (fun left right => kernelCmp left right ≤ 0)

def newestKernel (boot : BootDir) : Option Bytes :=
  (listKernels boot).head?

/-- The listed file whose release `uname -r` prints, or the empty name. -/
def runningKernel (boot : BootDir) (uname : Bytes) : Bytes :=
  ((listKernels boot).find? (fun file => kernelRelease file == uname)).getD []

/-- `salt_path_exists` of a name in `/boot`. -/
def existsIn (boot : BootDir) (file : Bytes) : Bool :=
  boot.any (fun image => image.file == file)

theorem mem_listKernels {boot : BootDir} {file : Bytes} :
    file ∈ listKernels boot ↔
      (∃ image ∈ boot, image.file = file) ∧ kernelNameOk file := by
  simp [listKernels, List.mem_insertionSort]

theorem newestKernel_mem {boot : BootDir} {file : Bytes}
    (newest : newestKernel boot = some file) : file ∈ listKernels boot :=
  List.mem_of_mem_head? newest

theorem kernelNameOk_nonempty {file : Bytes} (ok : kernelNameOk file) :
    file ≠ [] := by
  rintro rfl
  revert ok
  decide

/-- A running kernel that was found is an image of that release. -/
theorem runningKernel_release {boot : BootDir} {uname : Bytes}
    (unameNonempty : uname ≠ []) (found : runningKernel boot uname ≠ []) :
    ∃ image ∈ boot, image.file = runningKernel boot uname ∧
      image.release = uname := by
  unfold runningKernel at found ⊢
  cases search : (listKernels boot).find?
      (fun file => kernelRelease file == uname) with
  | none => simp [search] at found
  | some file =>
      obtain ⟨⟨image, member, isFile⟩, -⟩ :=
        mem_listKernels.mp (List.mem_of_find?_eq_some search)
      have isRelease : kernelRelease file = uname := by
        simpa using List.find?_some search
      refine ⟨image, member, by simpa using isFile, ?_⟩
      rcases image.named with same | empty
      · rw [← same, isFile, isRelease]
      · rw [isFile, isRelease] at empty
        exact absurd empty unameNonempty

end SaltOS.Boot
