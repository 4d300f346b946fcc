import SaltOS.Boot.Stale

/-!
# When dropping stale kernels spares the others

The names of an initial ramdisk and of a directory of modules come from the
release alone, and several images of `/boot` may carry one release, or none.
The loop only takes entries away, so that a kernel it retains is spared
exactly when no turn takes an entry on the way to its files.
-/

namespace SaltOS.Boot

open Bytes Lib

def retainedKernels (machine : Machine) (boot : Directory) : List Bytes :=
  (bootKernels boot).filter (isRetained machine boot)

/-- The image of a kernel, the initial ramdisk that was selected for it and
its directory of modules are what they were. -/
structure Spared (before after : KernelFiles) (kernel : Bytes) : Prop where
  image : after.boot.stat kernel = before.boot.stat kernel
  initrd : after.boot.stat (initrdFor before.boot kernel) =
    before.boot.stat (initrdFor before.boot kernel)
  modules : modulesDir after.modules (kernelRelease kernel) =
    modulesDir before.modules (kernelRelease kernel)

/-- The release of a stale kernel leads to nothing that a retained kernel
has. -/
structure Apart (files : KernelFiles) (kept stale : Bytes) : Prop where
  initrd : kernelRelease stale = kernelRelease kept →
    initrdFor files.boot kept = [] ∨
      files.boot.isOwnDirectory (initrdFor files.boot kept) = true
  modules : kernelRelease stale = kernelRelease kept →
    modulesDir files.modules (kernelRelease kept) = false ∨
      isDotName (kernelRelease kept) = true
  allModules : kernelRelease stale = [] →
    modulesDir files.modules (kernelRelease kept) = false

/-- No link on the way to a file of a retained kernel leads to a name that
the loop may remove. -/
structure Straight (machine : Machine) (files : KernelFiles) : Prop where
  boot : ∀ kept ∈ retainedKernels machine files.boot,
    ∀ stale ∈ staleKernels machine files.boot,
    ∀ name ∈ (files.boot.entries.trail 41 kept).tail ++
        (files.boot.entries.trail 41 (initrdFor files.boot kept)).tail,
      name ≠ stale ∧ name ∉ initrdNames (kernelRelease stale)
  modules : ∀ kept ∈ retainedKernels machine files.boot,
    ∀ stale ∈ staleKernels machine files.boot,
    ∀ dir, files.modules = some dir →
    ∀ name ∈ (dir.entries.trail 41 (kernelRelease kept)).tail,
      name ≠ kernelRelease stale

/-- No directory that the loop removes has a quote in its name. -/
def Unquoted (machine : Machine) (files : KernelFiles) : Prop :=
  ∀ stale ∈ staleKernels machine files.boot,
    modulesDir files.modules (kernelRelease stale) = true →
      39 ∉ kernelRelease stale

/-! ## The names -/

theorem mem_bootKernels {boot : Directory} {kernel : Bytes} :
    kernel ∈ bootKernels boot ↔
      ((∃ entry ∈ boot.entries, entry.1 = kernel) ∧
        kernelNameOk kernel = true) ∧ boot.isRegular kernel = true := by
  simp [bootKernels, List.mem_insertionSort]
  tauto

theorem kernelRelease_length_le (kernel : Bytes) :
    (kernelRelease kernel).length ≤ kernel.length := by
  unfold kernelRelease afterDash
  rw [List.length_drop]
  have shorter := (List.dropWhile_suffix (l := kernel) (· != 45)).length_le
  omega

theorem kernelRelease_suffix (kernel : Bytes) :
    kernelRelease kernel <:+ kernel :=
  (List.drop_suffix 1 _).trans (List.dropWhile_suffix _)

theorem short_release {boot : Directory} {kernel : Bytes}
    (listed : kernel ∈ bootKernels boot) :
    (kernelRelease kernel).length ≤ 255 := by
  obtain ⟨⟨⟨entry, member, rfl⟩, -⟩, -⟩ := mem_bootKernels.mp listed
  exact (kernelRelease_length_le entry.1).trans (boot.short entry member)

/-- The buffer of `initrd_for` holds every name. -/
theorem initrdNames_eq {release : Bytes} (short : release.length ≤ 255) :
    initrdNames release =
      [ascii "initramfs-" ++ release ++ ascii ".img",
        ascii "initrd.img-" ++ release, ascii "initrd-" ++ release,
        ascii "initramfs-" ++ release] := by
  have first : (ascii "initramfs-").length = 10 := rfl
  have second : (ascii "initrd.img-").length = 11 := rfl
  have third : (ascii "initrd-").length = 7 := rfl
  have ending : (ascii ".img").length = 4 := rfl
  simp only [initrdNames, List.map_cons, List.map_nil]
  rw [List.take_of_length_le, List.take_of_length_le,
    List.take_of_length_le, List.take_of_length_le]
  all_goals
    simp only [List.length_append]
    omega

/-- No kernel has the name of an initial ramdisk. -/
theorem not_kernelNameOk_initrd {release name : Bytes}
    (short : release.length ≤ 255) (member : name ∈ initrdNames release) :
    kernelNameOk name = false := by
  have start : ascii "initr" <+: name := by
    rw [initrdNames_eq short] at member
    simp only [List.mem_cons, List.not_mem_nil, or_false] at member
    rcases member with rfl | rfl | rfl | rfl
    · exact ⟨ascii "amfs-" ++ release ++ ascii ".img", rfl⟩
    · exact ⟨ascii "d.img-" ++ release, rfl⟩
    · exact ⟨ascii "d-" ++ release, rfl⟩
    · exact ⟨ascii "amfs-" ++ release, rfl⟩
  have contains : (name.tails.any fun tail =>
      (ascii "initr").isPrefixOf tail) = true := by
    rw [List.any_eq_true]
    refine ⟨name, ?_, List.isPrefixOf_iff_prefix.mpr start⟩
    exact (List.mem_tails name name).mpr (List.suffix_refl name)
  simp [kernelNameOk, contains]

theorem nil_not_mem_initrdNames {release : Bytes}
    (short : release.length ≤ 255) : [] ∉ initrdNames release := by
  rw [initrdNames_eq short]
  simp [ascii]

/-- A release of a kernel does not end as the name of an initial ramdisk
does. -/
theorem release_ne_img {kernel release : Bytes}
    (ok : kernelNameOk kernel = true) :
    kernelRelease kernel ≠ release ++ ascii ".img" := by
  intro same
  have ending : ascii ".img" <:+ kernel :=
    (same ▸ List.suffix_append release (ascii ".img")).trans
      (kernelRelease_suffix kernel)
  have isSuffix : (ascii ".img").isSuffixOf kernel = true :=
    List.isSuffixOf_iff_suffix.mpr ending
  have longer : 4 < kernel.length := by
    by_contra short
    have whole : kernel = ascii ".img" :=
      (ending.eq_of_length_le (by
        have four : (ascii ".img").length = 4 := rfl
        omega)).symm
    subst whole
    revert ok
    decide
  simp [kernelNameOk, isSuffix, longer] at ok

/-- An initial ramdisk goes with one release. -/
theorem initrdNames_disjoint {left right name : Bytes}
    (leftOk : kernelNameOk left = true) (rightOk : kernelNameOk right = true)
    (leftShort : (kernelRelease left).length ≤ 255)
    (rightShort : (kernelRelease right).length ≤ 255)
    (ofLeft : name ∈ initrdNames (kernelRelease left))
    (ofRight : name ∈ initrdNames (kernelRelease right)) :
    kernelRelease left = kernelRelease right := by
  have leftImg (release : Bytes) :
      kernelRelease left ≠ release ++ ascii ".img" := release_ne_img leftOk
  have rightImg (release : Bytes) :
      kernelRelease right ≠ release ++ ascii ".img" := release_ne_img rightOk
  rw [initrdNames_eq leftShort] at ofLeft
  rw [initrdNames_eq rightShort] at ofRight
  generalize kernelRelease left = l at *
  generalize kernelRelease right = r at *
  simp only [List.mem_cons, List.not_mem_nil, or_false] at ofLeft ofRight
  rcases ofLeft with rfl | rfl | rfl | rfl <;>
    rcases ofRight with same | same | same | same
  -- What is left has one form twice, or `initramfs-` with and without `.img`.
  all_goals
    simp [ascii] at same
  · exact same
  · exact absurd same.symm (rightImg l)
  · exact same
  · exact same
  · exact absurd same (leftImg r)
  · exact same

/-! ## The loop only takes entries away -/

def FewerModules : Option Directory → Option Directory → Prop
  | none, _ => True
  | some _, none => False
  | some smaller, some larger => smaller.entries.Within larger.entries

structure Fewer (smaller larger : KernelFiles) : Prop where
  boot : smaller.boot.entries.Within larger.boot.entries
  modules : FewerModules smaller.modules larger.modules

theorem FewerModules.refl (modules : Option Directory) :
    FewerModules modules modules := by
  cases modules with
  | none => trivial
  | some dir => exact LinkedDir.Within.refl

theorem FewerModules.trans {first second third : Option Directory}
    (left : FewerModules first second) (right : FewerModules second third) :
    FewerModules first third := by
  cases first with
  | none => trivial
  | some _ =>
      cases second with
      | none => exact left.elim
      | some _ =>
          cases third with
          | none => exact right.elim
          | some _ => exact LinkedDir.Within.trans left right

theorem Fewer.refl (files : KernelFiles) : Fewer files files :=
  ⟨LinkedDir.Within.refl, FewerModules.refl _⟩

theorem Fewer.trans {first second third : KernelFiles}
    (left : Fewer first second) (right : Fewer second third) :
    Fewer first third :=
  ⟨left.boot.trans right.boot, left.modules.trans right.modules⟩

section Directory

variable {smaller larger dir : Directory} {name other : Bytes}

theorem Directory.stat_none
    (within : smaller.entries.Within larger.entries)
    (absent : larger.stat name = none) : smaller.stat name = none := by
  unfold Directory.stat at absent ⊢
  cases found : smaller.entries.stat 41 name with
  | none => rfl
  | some node => rwa [within.stat found] at absent

theorem Directory.stat_some {kind : FileKind}
    (within : smaller.entries.Within larger.entries)
    (found : smaller.stat name = some kind) :
    larger.stat name = some kind := by
  unfold Directory.stat at found ⊢
  cases entry : smaller.entries.stat 41 name with
  | none =>
      rw [entry] at found
      cases found
  | some node => rwa [within.stat entry, ← entry]

theorem Directory.stat_of_find_none
    (absent : dir.entries.find name = none) : dir.stat name = none := by
  unfold Directory.stat
  rw [LinkedDir.stat_of_find_none absent]
  rfl

theorem Directory.stat_congr
    (agree : ∀ passed ∈ larger.entries.trail 41 name,
      smaller.entries.find passed = larger.entries.find passed) :
    smaller.stat name = larger.stat name := by
  unfold Directory.stat
  rw [LinkedDir.stat_congr agree]

theorem unlink_within : (dir.unlink name).entries.Within dir.entries := by
  unfold Directory.unlink
  split
  · exact LinkedDir.Within.refl
  · exact LinkedDir.remove_within

theorem find_unlink_self (notDirectory : dir.isOwnDirectory name = false) :
    (dir.unlink name).entries.find name = none := by
  unfold Directory.unlink
  rw [if_neg (by simp [notDirectory])]
  exact LinkedDir.find_remove_self

theorem find_unlink_ne (different : other ≠ name) :
    (dir.unlink name).entries.find other = dir.entries.find other := by
  unfold Directory.unlink
  split
  · rfl
  · exact LinkedDir.find_remove_ne different

theorem find_unlink_directory (isDirectory : dir.isOwnDirectory name = true) :
    (dir.unlink name).entries.find name = dir.entries.find name := by
  unfold Directory.unlink
  rw [if_pos isDirectory]

end Directory

theorem dropImage_within (boot : Directory) (kernel : Bytes) :
    (dropImage boot kernel).entries.Within boot.entries := by
  unfold dropImage
  dsimp only
  split
  · exact unlink_within
  · exact unlink_within.trans unlink_within

theorem removeModules_fewer (modules : Option Directory) (release : Bytes) :
    FewerModules (removeModules modules release) modules := by
  unfold removeModules
  split
  · trivial
  · split
    · exact FewerModules.refl modules
    · cases modules with
      | none => trivial
      | some dir => exact LinkedDir.remove_within

/-- Without a quote, `sh` runs the `rm` that was meant. -/
theorem dropKernel_eq {machine : Machine} {files : KernelFiles}
    {kernel : Bytes}
    (unquoted : modulesDir files.modules (kernelRelease kernel) = true →
      39 ∉ kernelRelease kernel) :
    dropKernel machine files kernel =
      ⟨dropImage files.boot kernel,
        if modulesDir files.modules (kernelRelease kernel) then
          removeModules files.modules (kernelRelease kernel)
        else files.modules⟩ := by
  unfold dropKernel
  dsimp only
  split
  · rename_i isDir
    rw [if_neg (unquoted isDir)]
  · rfl

theorem modulesDir_mono {smaller larger : Option Directory}
    {release : Bytes} (fewer : FewerModules smaller larger)
    (isDir : modulesDir smaller release = true) :
    modulesDir larger release = true := by
  cases smaller with
  | none => cases isDir
  | some few =>
      cases larger with
      | none => exact fewer.elim
      | some dir =>
          simp only [modulesDir, Bool.or_eq_true, beq_iff_eq] at isDir ⊢
          rcases isDir with special | found
          · exact Or.inl special
          · exact Or.inr (Directory.stat_some fewer found)

theorem dropKernel_fewer {machine : Machine} {files : KernelFiles}
    {kernel : Bytes}
    (unquoted : modulesDir files.modules (kernelRelease kernel) = true →
      39 ∉ kernelRelease kernel) :
    Fewer (dropKernel machine files kernel) files := by
  rw [dropKernel_eq unquoted]
  refine ⟨dropImage_within _ _, ?_⟩
  dsimp only
  split
  · exact removeModules_fewer _ _
  · exact FewerModules.refl _

/-- The turns of the loop, from files that are among the original ones. -/
theorem foldl_fewer (machine : Machine) {files : KernelFiles}
    {kernels : List Bytes}
    (unquoted : ∀ kernel ∈ kernels,
      modulesDir files.modules (kernelRelease kernel) = true →
        39 ∉ kernelRelease kernel) {now : KernelFiles}
    (fewer : Fewer now files) :
    Fewer (kernels.foldl (dropKernel machine) now) now := by
  induction kernels generalizing now with
  | nil => exact Fewer.refl now
  | cons kernel rest ih =>
      have step : Fewer (dropKernel machine now kernel) now :=
        dropKernel_fewer fun isDir => unquoted kernel List.mem_cons_self
          (modulesDir_mono fewer.modules isDir)
      have later := ih
        (fun other member => unquoted other (List.mem_cons_of_mem _ member))
        (step.trans fewer)
      exact later.trans step

/-! ## What a turn takes -/

theorem initrdFor_mem {boot : Directory} {kernel : Bytes}
    (found : initrdFor boot kernel ≠ []) :
    initrdFor boot kernel ∈ initrdNames (kernelRelease kernel) ∧
      boot.present (initrdFor boot kernel) = true := by
  unfold initrdFor at found ⊢
  cases search : (initrdNames (kernelRelease kernel)).find? boot.present with
  | none => simp [search] at found
  | some name =>
      exact ⟨List.mem_of_find?_eq_some search, List.find?_some search⟩

/-- The first of the names stays the first while it is there. -/
theorem initrdFor_of_within {now boot : Directory} {kept stale : Bytes}
    (within : now.entries.Within boot.entries)
    (same : kernelRelease stale = kernelRelease kept)
    (found : initrdFor boot kept ≠ [])
    (present : now.present (initrdFor boot kept) = true) :
    initrdFor now stale = initrdFor boot kept := by
  unfold initrdFor at found present ⊢
  rw [same]
  cases search : (initrdNames (kernelRelease kept)).find? boot.present with
  | none => simp [search] at found
  | some name =>
      rw [search, Option.getD_some] at present
      obtain ⟨-, before, after, split, absent⟩ :=
        List.find?_eq_some_iff_append.mp search
      have again : (initrdNames (kernelRelease kept)).find? now.present =
          some name := by
        apply List.find?_eq_some_iff_append.mpr
        refine ⟨present, before, after, split, fun other member => ?_⟩
        have gone := absent other member
        simp only [Directory.present, Bool.not_eq_true', Option.isSome_eq_false_iff,
          Option.isNone_iff_eq_none] at gone ⊢
        exact Directory.stat_none within gone
      rw [again]

/-- A turn takes the initial ramdisk of every kernel of its release. -/
theorem dropImage_takes {now boot : Directory} {kept stale : Bytes}
    (within : now.entries.Within boot.entries)
    (same : kernelRelease stale = kernelRelease kept)
    (found : initrdFor boot kept ≠ [])
    (notDirectory : boot.isOwnDirectory (initrdFor boot kept) = false) :
    (dropImage now stale).stat (initrdFor boot kept) = none := by
  cases present : now.present (initrdFor boot kept) with
  | false =>
      have absent : now.stat (initrdFor boot kept) = none := by
        simpa [Directory.present] using present
      exact Directory.stat_none (dropImage_within now stale) absent
  | true =>
      have selected := initrdFor_of_within within same found present
      have shrunk : ((now.unlink stale).entries).Within boot.entries :=
        unlink_within.trans within
      apply Directory.stat_of_find_none
      unfold dropImage
      rw [selected]
      dsimp only
      rw [if_neg found]
      apply find_unlink_self
      cases own : (now.unlink stale).isOwnDirectory (initrdFor boot kept) with
      | false => rfl
      | true =>
          have entry := shrunk _ _ (beq_iff_eq.mp own)
          rw [Directory.isOwnDirectory, entry] at notDirectory
          simp at notDirectory

/-- It takes the directory of modules, or all of them. -/
theorem removeModules_takes {modules : Option Directory}
    {release other : Bytes}
    (hit : release = [] ∨ (release = other ∧ isDotName other = false)) :
    modulesDir (removeModules modules release) other = false := by
  unfold removeModules
  by_cases all : release = []
  · rw [if_pos all]
    rfl
  · obtain ⟨rfl, notDot⟩ := hit.resolve_left all
    rw [if_neg all, notDot]
    cases modules with
    | none => rfl
    | some dir =>
        have gone : (dir.remove release).stat release = none :=
          Directory.stat_of_find_none LinkedDir.find_remove_self
        simp [modulesDir, notDot, gone, all]

/-! ## What a turn leaves -/

/-- A turn does not remove a name of `/boot`. -/
def Passes (boot : Directory) (kernel name : Bytes) : Prop :=
  name ≠ kernel ∧ (name ∉ initrdNames (kernelRelease kernel) ∨
    boot.isOwnDirectory name = true)

theorem dropImage_find {boot : Directory} {kernel name : Bytes}
    (passes : Passes boot kernel name) :
    (dropImage boot kernel).entries.find name = boot.entries.find name := by
  obtain ⟨notKernel, notInitrd⟩ := passes
  have image : (boot.unlink kernel).entries.find name =
      boot.entries.find name := find_unlink_ne notKernel
  unfold dropImage
  dsimp only
  split
  · exact image
  · rename_i found
    by_cases selected : name = initrdFor boot kernel
    · have own : boot.isOwnDirectory name = true :=
        notInitrd.resolve_left fun absent =>
          absent (selected ▸ (initrdFor_mem found).1)
      rw [← selected, find_unlink_directory, image]
      rwa [Directory.isOwnDirectory, image]
    · rw [find_unlink_ne selected, image]

theorem foldl_find (machine : Machine) {files : KernelFiles}
    {kernels : List Bytes} {name : Bytes}
    (unquoted : ∀ kernel ∈ kernels,
      modulesDir files.modules (kernelRelease kernel) = true →
        39 ∉ kernelRelease kernel)
    (passes : ∀ kernel ∈ kernels, Passes files.boot kernel name)
    {now : KernelFiles} (fewer : Fewer now files)
    (agrees : now.boot.entries.find name = files.boot.entries.find name) :
    (kernels.foldl (dropKernel machine) now).boot.entries.find name =
      files.boot.entries.find name := by
  induction kernels generalizing now with
  | nil => exact agrees
  | cons kernel rest ih =>
      have plain := fun isDir => unquoted kernel List.mem_cons_self
        (modulesDir_mono fewer.modules isDir)
      have passesNow : Passes now.boot kernel name := by
        have here := passes kernel List.mem_cons_self
        rwa [Passes, Directory.isOwnDirectory, agrees]
      apply ih
      · exact fun other member =>
          unquoted other (List.mem_cons_of_mem _ member)
      · exact fun other member => passes other (List.mem_cons_of_mem _ member)
      · exact (dropKernel_fewer plain).trans fewer
      · rw [dropKernel_eq plain, dropImage_find passesNow, agrees]

/-- The directory is there, and the names of a trail in it are as before. -/
def Kept (now before : Option Directory) (names : Directory → List Bytes) :
    Prop :=
  ∃ dir original, now = some dir ∧ before = some original ∧
    ∀ name ∈ names original,
      dir.entries.find name = original.entries.find name

theorem removeModules_kept {now before : Option Directory} {release : Bytes}
    {names : Directory → List Bytes} (kept : Kept now before names)
    (notAll : release ≠ [])
    (avoids : ∀ original, before = some original →
      ∀ name ∈ names original, name ≠ release ∨ isDotName release = true) :
    Kept (removeModules now release) before names := by
  obtain ⟨dir, original, rfl, isBefore, agree⟩ := kept
  unfold removeModules
  rw [if_neg notAll]
  split
  · exact ⟨dir, original, rfl, isBefore, agree⟩
  · rename_i notDot
    refine ⟨dir.remove release, original, rfl, isBefore, ?_⟩
    intro name member
    have different : name ≠ release :=
      (avoids original isBefore name member).resolve_right notDot
    exact (LinkedDir.find_remove_ne different).trans (agree name member)

theorem foldl_kept (machine : Machine) {files : KernelFiles}
    {kernels : List Bytes} (names : Directory → List Bytes)
    (unquoted : ∀ kernel ∈ kernels,
      modulesDir files.modules (kernelRelease kernel) = true →
        39 ∉ kernelRelease kernel)
    (notAll : ∀ kernel ∈ kernels, kernelRelease kernel ≠ [])
    (avoids : ∀ kernel ∈ kernels, ∀ original, files.modules = some original →
      ∀ name ∈ names original,
        name ≠ kernelRelease kernel ∨
          isDotName (kernelRelease kernel) = true)
    {now : KernelFiles} (fewer : Fewer now files)
    (kept : Kept now.modules files.modules names) :
    Kept (kernels.foldl (dropKernel machine) now).modules files.modules
      names := by
  induction kernels generalizing now with
  | nil => exact kept
  | cons kernel rest ih =>
      have plain := fun isDir => unquoted kernel List.mem_cons_self
        (modulesDir_mono fewer.modules isDir)
      apply ih
      · exact fun other member =>
          unquoted other (List.mem_cons_of_mem _ member)
      · exact fun other member => notAll other (List.mem_cons_of_mem _ member)
      · exact fun other member => avoids other (List.mem_cons_of_mem _ member)
      · exact (dropKernel_fewer plain).trans fewer
      · rw [dropKernel_eq plain]
        dsimp only
        split
        · exact removeModules_kept kept (notAll kernel List.mem_cons_self)
            (avoids kernel List.mem_cons_self)
        · exact kept

/-! ## Retained kernels -/

section Loop

variable {machine : Machine} {files : KernelFiles} {kept stale : Bytes}

theorem retained_listed
    (retained : kept ∈ retainedKernels machine files.boot) :
    kept ∈ bootKernels files.boot :=
  List.mem_of_mem_filter retained

theorem stale_listed (member : stale ∈ staleKernels machine files.boot) :
    stale ∈ bootKernels files.boot :=
  List.mem_of_mem_filter member

theorem retained_ne_stale
    (retained : kept ∈ retainedKernels machine files.boot)
    (member : stale ∈ staleKernels machine files.boot) : kept ≠ stale := by
  rintro rfl
  have isRetained := (List.mem_filter.mp retained).2
  have isStale := (List.mem_filter.mp member).2
  simp [isRetained] at isStale

theorem listed_ok {kernel : Bytes}
    (listed : kernel ∈ bootKernels files.boot) :
    kernelNameOk kernel = true :=
  (mem_bootKernels.mp listed).1.2

/-- The turn of a stale kernel, somewhere in the loop. -/
theorem turn_of_stale (unquoted : Unquoted machine files)
    (member : stale ∈ staleKernels machine files.boot) :
    ∃ now, Fewer now files ∧
      dropKernel machine now stale =
        ⟨dropImage now.boot stale,
          if modulesDir now.modules (kernelRelease stale) then
            removeModules now.modules (kernelRelease stale)
          else now.modules⟩ ∧
      Fewer ((staleKernels machine files.boot).foldl (dropKernel machine)
        files) (dropKernel machine now stale) := by
  obtain ⟨before, after, split⟩ := List.append_of_mem member
  have plain := unquoted
  unfold Unquoted at plain
  rw [split] at plain ⊢
  have earlier := foldl_fewer machine
    (fun kernel inBefore => plain kernel (List.mem_append_left _ inBefore))
    (Fewer.refl files)
  refine ⟨before.foldl (dropKernel machine) files, earlier, ?_, ?_⟩
  · exact dropKernel_eq fun isDir =>
      plain stale (by simp) (modulesDir_mono earlier.modules isDir)
  · rw [List.foldl_append, List.foldl_cons]
    have here : Fewer (dropKernel machine
        (before.foldl (dropKernel machine) files) stale) files :=
      (dropKernel_fewer fun isDir =>
        plain stale (by simp) (modulesDir_mono earlier.modules isDir)).trans
          earlier
    exact foldl_fewer machine
      (fun kernel inAfter => plain kernel (by simp [inAfter])) here

/-- A retained kernel that lost nothing shares nothing. -/
theorem apart_of_spared (unquoted : Unquoted machine files)
    (member : stale ∈ staleKernels machine files.boot)
    (spared : Spared files
      ((staleKernels machine files.boot).foldl (dropKernel machine) files)
      kept) :
    Apart files kept stale := by
  obtain ⟨now, earlier, turn, later⟩ := turn_of_stale unquoted member
  rw [turn] at later
  have noModules (hit : kernelRelease stale = [] ∨
      (kernelRelease stale = kernelRelease kept ∧
        isDotName (kernelRelease kept) = false)) :
      modulesDir files.modules (kernelRelease kept) = false := by
    rw [← spared.modules, ← Bool.not_eq_true]
    intro stays
    have afterTurn := modulesDir_mono later.modules stays
    dsimp only at afterTurn
    split at afterTurn
    · rw [removeModules_takes hit] at afterTurn
      cases afterTurn
    · rename_i noDir
      -- The turn found nothing, so there is nothing under that release.
      rcases hit with all | ⟨same, -⟩
      · cases modules : now.modules with
        | none => simp [modules, modulesDir] at afterTurn
        | some dir => simp [modules, modulesDir, all] at noDir
      · exact noDir (same ▸ afterTurn)
  constructor
  · intro same
    by_contra shared
    push Not at shared
    obtain ⟨found, notDirectory⟩ := shared
    have gone := dropImage_takes earlier.boot same found
      (Bool.eq_false_of_not_eq_true notDirectory)
    have absent := Directory.stat_none later.boot gone
    have present := (initrdFor_mem found).2
    rw [Directory.present, ← spared.initrd, absent] at present
    cases present
  · intro same
    cases dot : isDotName (kernelRelease kept) with
    | true => exact Or.inr rfl
    | false => exact Or.inl (noModules (Or.inr ⟨same, dot⟩))
  · exact fun all => noModules (Or.inl all)

/-- The names on the way to the image and to the initial ramdisk. -/
theorem passes_trail (straight : Straight machine files)
    (retained : kept ∈ retainedKernels machine files.boot)
    (member : stale ∈ staleKernels machine files.boot)
    (apart : Apart files kept stale) {name : Bytes}
    (onTrail : name ∈ files.boot.entries.trail 41 kept ++
      files.boot.entries.trail 41 (initrdFor files.boot kept)) :
    Passes files.boot stale name := by
  have keptListed := retained_listed retained
  have staleListed := stale_listed member
  have keptShort := short_release keptListed
  have staleShort := short_release staleListed
  have keptOk := listed_ok keptListed
  have staleOk := listed_ok staleListed
  have tail (inTail : name ∈ (files.boot.entries.trail 41 kept).tail ++
      (files.boot.entries.trail 41 (initrdFor files.boot kept)).tail) :
      Passes files.boot stale name := by
    obtain ⟨notStale, notInitrd⟩ :=
      straight.boot kept retained stale member name inTail
    exact ⟨notStale, Or.inl notInitrd⟩
  rcases List.mem_append.mp onTrail with image | initrd
  · rcases List.mem_cons.mp image with rfl | later
    · refine ⟨retained_ne_stale retained member, Or.inl fun isInitrd => ?_⟩
      rw [not_kernelNameOk_initrd staleShort isInitrd] at keptOk
      cases keptOk
    · exact tail (List.mem_append_left _ later)
  · rcases List.mem_cons.mp initrd with rfl | later
    · by_cases found : initrdFor files.boot kept = []
      · rw [found]
        exact ⟨(kernelNameOk_nonempty staleOk).symm,
          Or.inl (nil_not_mem_initrdNames staleShort)⟩
      · have ofKept := (initrdFor_mem found).1
        constructor
        · rintro isStale
          rw [isStale] at ofKept
          rw [not_kernelNameOk_initrd keptShort ofKept] at staleOk
          cases staleOk
        · by_cases ofStale : initrdFor files.boot kept ∈
              initrdNames (kernelRelease stale)
          · have same := initrdNames_disjoint staleOk keptOk staleShort
              keptShort ofStale ofKept
            exact Or.inr ((apart.initrd same).resolve_left found)
          · exact Or.inl ofStale
    · exact tail (List.mem_append_right _ later)

theorem stale_release_nonempty
    (isDir : modulesDir files.modules (kernelRelease kept) = true)
    (apart : Apart files kept stale) : kernelRelease stale ≠ [] := by
  intro all
  rw [apart.allModules all] at isDir
  cases isDir

/-- The names on the way to the directory of modules. -/
theorem avoids_stale (straight : Straight machine files)
    (retained : kept ∈ retainedKernels machine files.boot)
    (member : stale ∈ staleKernels machine files.boot)
    (isDir : modulesDir files.modules (kernelRelease kept) = true)
    (apart : Apart files kept stale) (original : Directory)
    (isOriginal : files.modules = some original) (name : Bytes)
    (onTrail : name ∈ original.entries.trail 41 (kernelRelease kept)) :
    name ≠ kernelRelease stale ∨ isDotName (kernelRelease stale) = true := by
  rcases List.mem_cons.mp onTrail with rfl | later
  · by_cases same : kernelRelease stale = kernelRelease kept
    · rcases apart.modules same with noDir | dot
      · rw [noDir] at isDir
        cases isDir
      · exact Or.inr (same ▸ dot)
    · exact Or.inl (Ne.symm same)
  · exact Or.inl
      (straight.modules kept retained stale member original isOriginal name
        later)

/-- A retained kernel that shares nothing loses nothing. -/
theorem spared_of_apart (unquoted : Unquoted machine files)
    (straight : Straight machine files)
    (retained : kept ∈ retainedKernels machine files.boot)
    (apart : ∀ stale ∈ staleKernels machine files.boot,
      Apart files kept stale) :
    Spared files
      ((staleKernels machine files.boot).foldl (dropKernel machine) files)
      kept := by
  have agree (name : Bytes)
      (onTrail : name ∈ files.boot.entries.trail 41 kept ++
        files.boot.entries.trail 41 (initrdFor files.boot kept)) :=
    foldl_find machine unquoted
      (fun stale member => passes_trail straight retained member
        (apart stale member) onTrail) (Fewer.refl files) rfl
  refine ⟨?_, ?_, ?_⟩
  · exact Directory.stat_congr fun name passed =>
      agree name (List.mem_append_left _ passed)
  · exact Directory.stat_congr fun name passed =>
      agree name (List.mem_append_right _ passed)
  · cases isDir : modulesDir files.modules (kernelRelease kept) with
    | false =>
        rw [← Bool.not_eq_true]
        intro stays
        have before := modulesDir_mono
          (foldl_fewer machine unquoted (Fewer.refl files)).modules stays
        rw [isDir] at before
        cases before
    | true =>
        cases modules : files.modules with
        | none => simp [modules, modulesDir] at isDir
        | some dir =>
            have stays := foldl_kept machine
              (fun original => original.entries.trail 41 (kernelRelease kept))
              unquoted
              (fun stale member => stale_release_nonempty isDir
                (apart stale member))
              (fun stale member => avoids_stale straight retained member isDir
                (apart stale member))
              (Fewer.refl files)
              ⟨dir, dir, modules, modules, fun _ _ => rfl⟩
            obtain ⟨after, original, isAfter, isOriginal, same⟩ := stays
            have found := Directory.stat_congr same
            rw [isOriginal, modulesDir] at isDir
            rw [isAfter, modulesDir, found]
            exact isDir

end Loop

/-! ## Two systems -/

def plainFile (name : String) : Bytes × LinkedEntry Bytes DirNode :=
  (ascii name, .node (.file .regular))

def plainDirectory (name : String) : Bytes × LinkedEntry Bytes DirNode :=
  (ascii name, .node (.file .directory))

/-- A system that runs 6.1.0, without an environment block and with an empty
package database. -/
def runsSixOne : Machine where
  root := [47]
  uname := some (ascii "6.1.0")
  env := fun _ => none
  db := ⟨Tables.empty, [], 0, []⟩
  shell := fun _ files => files

/-- A fallback kernel of another release. -/
def otherRelease : KernelFiles where
  boot := ⟨[plainFile "vmlinuz-6.0.0", plainFile "initramfs-6.0.0.img",
    plainFile "vmlinuz-6.1.0", plainFile "initramfs-6.1.0.img"],
    by decide, by decide⟩
  modules := some ⟨[plainDirectory "6.0.0", plainDirectory "6.1.0"],
    by decide, by decide⟩

/-- Two images of the kernel that runs. -/
def oneRelease : KernelFiles where
  boot := ⟨[plainFile "vmlinux-6.1.0", plainFile "vmlinuz-6.1.0",
    plainFile "initramfs-6.1.0.img"], by decide, by decide⟩
  modules := some ⟨[plainDirectory "6.1.0"], by decide, by decide⟩

end SaltOS.Boot
