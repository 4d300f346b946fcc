import SaltOS.Boot.Tryboot
import SaltOS.Lib.Run

/-!
# The committed boot of a Raspberry Pi

`config.txt` names a root subvolume, a slot kernel and an initramfs.  The
scripts derive the slot they may overwrite from the running system, so these
three survive every step but a commit exactly in the orders in which
`prepare`, `finalize` and an OTA run find the committed root running.
-/

namespace SaltOS.Tryboot

open Lib

def Slot.subvol : Slot → Subvol
  | .a => .root
  | .b => .rootB

/-- The root subvolume `config.txt` leads to. -/
def committedRoot (s : State) : Option Subvol := do
  let cfg ← s.config
  let file ← cfg.cmdline?
  let line ← s.cmdline file
  return line.subvol.getD .root

def committedVolume (s : State) : Option Nat :=
  (committedRoot s).bind s.volume

def committedKernel (s : State) : Option FwFile := do
  let cfg ← s.config
  let kernel ← cfg.kernel?
  s.vmlinuz kernel.1 kernel.2

def committedInitramfs (s : State) : Option FwFile := do
  let cfg ← s.config
  let file ← cfg.initramfs?
  s.initramfs file.1 file.2

/-- Nothing `config.txt` names was deleted, recreated or overwritten. -/
structure Untouched (before after : State) : Prop where
  config : after.config = before.config
  root : committedRoot after = committedRoot before
  volume : committedVolume after = committedVolume before
  kernel : committedKernel after = committedKernel before
  initramfs : committedInitramfs after = committedInitramfs before

theorem Untouched.refl (s : State) : Untouched s s :=
  ⟨rfl, rfl, rfl, rfl, rfl⟩

theorem Untouched.trans {first second third : State}
    (left : Untouched first second) (right : Untouched second third) :
    Untouched first third :=
  ⟨right.config.trans left.config, right.root.trans left.root,
    right.volume.trans left.volume, right.kernel.trans left.kernel,
    right.initramfs.trans left.initramfs⟩

/-- A boot configuration that stays inside one slot. -/
structure Boots (s : State) (cfg : BootCfg) (slot : Slot) (suffix : Suffix) :
    Prop where
  text : cfg.filter CfgLine.isText ≠ []
  kernel : cfg.kernel? = some (slot, suffix)
  initramfs : ∀ file, cfg.initramfs? = some file → file = (slot, suffix)
  cmdline : cfg.cmdline? = some (.ofSlot slot)
  image : (s.vmlinuz slot suffix).isSome
  line : (s.cmdline (.ofSlot slot)).isSome

/-- The shape the image builder sets up and the scripts keep: each command
line selects its own slot's root, `config.txt` boots one slot, and a pending
trial boots the slot of its root. -/
structure Consistent (s : State) : Prop where
  cmdlines : ∀ slot line, s.cmdline (.ofSlot slot) = some line →
    line.subvol = some slot.subvol
  committed : ∃ cfg slot, s.config = some cfg ∧ Boots s cfg slot .plain ∧
    (s.volume slot.subvol).isSome
  running : ∃ slot, s.running.subvol = slot.subvol ∧
    (s.cmdline (.ofSlot slot)).isSome ∧ (s.volume slot.subvol).isSome
  releases : ∀ slot, (s.vmlinuz slot .next).isSome →
    (s.release slot .next).isSome
  trial : ∀ cfg, s.tryboot = some cfg → ∃ slot suffix release,
    Boots s cfg slot suffix ∧
      s.pending = some ⟨slot.subvol, (slot, suffix), release⟩

/-- A step condition: what rewrites the standby slot runs on the committed
root. -/
def Ordered (s : State) : Action → Prop
  | .prepare => some s.running.subvol = committedRoot s
  | .finalize none => True
  | .finalize (some _) => some s.running.subvol = committedRoot s
  | .ota _ _ _ => some s.running.subvol = committedRoot s
  | _ => True

/-- One step of the system. -/
def Step (before : State) (action : Action) (after : State) : Prop :=
  after = perform action before

/-- The system `os/build/pi5.sh` writes to the card, running. -/
def builtImage (kver : String) (hasInitrd : Bool) : State where
  volume := fun subvol => if subvol = .root then some 0 else none
  vmlinuz := fun slot suffix =>
    if slot = .a ∧ suffix = .plain then some ⟨kver, 1⟩ else none
  initramfs := fun slot suffix =>
    if slot = .a ∧ suffix = .plain ∧ hasInitrd then some ⟨kver, 2⟩ else none
  release := fun slot suffix =>
    if slot = .a ∧ suffix = .plain then some kver else none
  cmdline := fun file =>
    if file = .ofSlot .b then none
    else some ⟨some .root, ["console=serial0,115200", "console=tty1",
      "root=LABEL=saltos-root", "rootfstype=btrfs", "rootwait",
      "fsck.repair=yes", "net.ifnames=0"]⟩
  config := some ([.text "[all]", .kernel .a .plain] ++
    (if hasInitrd then [.initramfs .a .plain] else [.text ""]) ++
    [.cmdline (.ofSlot .a), .text "arm_64bit=1", .text "arm_boost=1",
      .text "enable_uart=1", .text "disable_overscan=1",
      .text "dtoverlay=vc4-kms-v3d", .text "max_framebuffers=2",
      .text "auto_initramfs=1"])
  tryboot := none
  pending := none
  running := ⟨.root, kver⟩
  fresh := 3

/-! ## What a slot's files decide -/

theorem committedRoot_eq {s : State} {cfg : BootCfg} {slot : Slot}
    (consistent : Consistent s) (isConfig : s.config = some cfg)
    (boots : Boots s cfg slot .plain) :
    committedRoot s = some slot.subvol := by
  obtain ⟨line, lineEq⟩ := Option.isSome_iff_exists.mp boots.line
  simp [committedRoot, isConfig, boots.cmdline, lineEq,
    consistent.cmdlines slot line lineEq]

/-- The files of the committed slot are all that `Untouched` looks at. -/
theorem untouched_of_slot {before after : State} {cfg : BootCfg} {slot : Slot}
    (isConfig : before.config = some cfg)
    (boots : Boots before cfg slot .plain)
    (config : after.config = before.config)
    (kernel : after.vmlinuz slot .plain = before.vmlinuz slot .plain)
    (initramfs : after.initramfs slot .plain = before.initramfs slot .plain)
    (line : after.cmdline (.ofSlot slot) = before.cmdline (.ofSlot slot))
    (consistent : Consistent before)
    (volume : after.volume slot.subvol = before.volume slot.subvol) :
    Untouched before after := by
  have rootBefore := committedRoot_eq consistent isConfig boots
  have rootAfter : committedRoot after = committedRoot before := by
    simp [committedRoot, config, isConfig, boots.cmdline, line]
  refine ⟨config, rootAfter, ?_, ?_, ?_⟩
  · simp [committedVolume, rootAfter, rootBefore, volume]
  · simp [committedKernel, config, isConfig, boots.kernel, kernel]
  · cases named : cfg.initramfs? with
    | none => simp [committedInitramfs, config, isConfig, named]
    | some file =>
        have inSlot := boots.initramfs file named
        subst inSlot
        simp [committedInitramfs, config, isConfig, named, initramfs]

theorem Boots.transport {before after : State} {cfg : BootCfg} {slot : Slot}
    {suffix : Suffix} (boots : Boots before cfg slot suffix)
    (image : (after.vmlinuz slot suffix).isSome)
    (line : (after.cmdline (.ofSlot slot)).isSome) :
    Boots after cfg slot suffix :=
  { boots with image := image, line := line }

private theorem findSome_texts {β : Type} (select : CfgLine → Option β)
    (lines : BootCfg) (blind : ∀ text, select (.text text) = none) :
    (lines.filter CfgLine.isText).reverse.findSome? select = none := by
  rw [List.findSome?_eq_none_iff]
  intro line member
  have isText := (List.mem_filter.mp (List.mem_reverse.mp member)).2
  cases line with
  | text text => exact blind text
  | _ => simp [CfgLine.isText] at isText

/-- What `write_boot_cfg` writes boots the slot it was asked for. -/
theorem bootCfgLines_boots {s : State} {source : BootCfg} {slot : Slot}
    {suffix : Suffix} (text : source.filter CfgLine.isText ≠ [])
    (image : (s.vmlinuz slot suffix).isSome)
    (line : (s.cmdline (.ofSlot slot)).isSome) :
    Boots s (bootCfgLines s source slot suffix) slot suffix := by
  have noInitramfs := findSome_texts CfgLine.initramfs? source (fun _ => rfl)
  by_cases present : (s.initramfs slot suffix).isSome
  · refine ⟨?_, ?_, ?_, ?_, image, line⟩
    · simp [bootCfgLines, text]
    · simp [bootCfgLines, BootCfg.kernel?, present, List.findSome?,
        CfgLine.kernel?]
    · intro file named
      simp [bootCfgLines, BootCfg.initramfs?, present, List.findSome?,
        CfgLine.initramfs?] at named
      exact named.symm
    · simp [bootCfgLines, BootCfg.cmdline?, List.findSome?, CfgLine.cmdline?]
  · refine ⟨?_, ?_, ?_, ?_, image, line⟩
    · simp [bootCfgLines, text]
    · simp [bootCfgLines, BootCfg.kernel?, present, List.findSome?,
        CfgLine.kernel?]
    · intro file named
      simp [bootCfgLines, BootCfg.initramfs?, present, List.findSome?,
        CfgLine.initramfs?] at named
      rw [noInitramfs] at named
      simp at named
    · simp [bootCfgLines, BootCfg.cmdline?, List.findSome?, CfgLine.cmdline?]

theorem builtImage_consistent (kver : String) (hasInitrd : Bool) :
    Consistent (builtImage kver hasInitrd) := by
  refine ⟨?_, ⟨_, .a, rfl, ⟨?_, ?_, ?_, ?_, rfl, rfl⟩, rfl⟩,
    ⟨.a, rfl, rfl, rfl⟩, ?_, ?_⟩
  · intro slot line isLine
    cases slot with
    | a => cases isLine; rfl
    | b => cases isLine
  · cases hasInitrd <;> decide
  · cases hasInitrd <;> rfl
  · intro file named
    cases hasInitrd with
    | true => exact (Option.some.inj named).symm
    | false => cases named
  · cases hasInitrd <;> rfl
  · intro slot present
    simp [builtImage] at present
  · intro cfg isTrial
    cases isTrial

/-! ## What one script keeps -/

/-- A change that takes no file away and leaves both boot configurations. -/
structure Extends (before after : State) : Prop where
  config : after.config = before.config
  tryboot : after.tryboot = before.tryboot
  pending : after.pending = before.pending
  running : after.running = before.running
  images : ∀ slot suffix, (before.vmlinuz slot suffix).isSome →
    (after.vmlinuz slot suffix).isSome
  lines : ∀ slot, (before.cmdline (.ofSlot slot)).isSome →
    (after.cmdline (.ofSlot slot)).isSome
  volumes : ∀ subvol, (before.volume subvol).isSome →
    (after.volume subvol).isSome
  cmdlines : ∀ slot line, after.cmdline (.ofSlot slot) = some line →
    line.subvol = some slot.subvol
  releases : ∀ slot, (after.vmlinuz slot .next).isSome →
    (after.release slot .next).isSome

theorem Consistent.extend {before after : State}
    (consistent : Consistent before) (extends' : Extends before after) :
    Consistent after := by
  have boots : ∀ {cfg slot suffix}, Boots before cfg slot suffix →
      Boots after cfg slot suffix := fun old =>
    old.transport (extends'.images _ _ old.image) (extends'.lines _ old.line)
  obtain ⟨cfg, slot, isConfig, committed, volume⟩ := consistent.committed
  obtain ⟨runSlot, isRunning, runLine, runVolume⟩ := consistent.running
  refine ⟨extends'.cmdlines, ?_, ?_, extends'.releases, ?_⟩
  · exact ⟨cfg, slot, extends'.config.trans isConfig, boots committed,
      extends'.volumes _ volume⟩
  · exact ⟨runSlot, extends'.running ▸ isRunning, extends'.lines _ runLine,
      extends'.volumes _ runVolume⟩
  · intro trialCfg isTrial
    rw [extends'.tryboot] at isTrial
    obtain ⟨slot, suffix, release, trial, isPending⟩ :=
      consistent.trial trialCfg isTrial
    exact ⟨slot, suffix, release, boots trial, extends'.pending ▸ isPending⟩

/-- Arming a trial boot of a slot that can boot. -/
theorem Consistent.arm {s : State} {cfg : BootCfg} {slot : Slot}
    {suffix : Suffix} (consistent : Consistent s)
    (boots : Boots s cfg slot suffix) (release : String) :
    Consistent { s with
      tryboot := some cfg
      pending := some ⟨slot.subvol, (slot, suffix), release⟩ } := by
  obtain ⟨committedCfg, committedSlot, isConfig, committed, volume⟩ :=
    consistent.committed
  refine ⟨consistent.cmdlines, ?_, consistent.running, consistent.releases,
    ?_⟩
  · exact ⟨committedCfg, committedSlot, isConfig,
      committed.transport committed.image committed.line, volume⟩
  · intro trialCfg isTrial
    cases isTrial
    exact ⟨slot, suffix, release, boots.transport boots.image boots.line, rfl⟩

/-- The state `clear_pending` leaves. -/
theorem Consistent.clear {s final : State} (consistent : Consistent s)
    (ends : clearPending s = .ok () final) :
    Consistent final ∧ Untouched s final := by
  cases ends
  obtain ⟨cfg, slot, isConfig, committed, volume⟩ := consistent.committed
  refine ⟨⟨consistent.cmdlines, ?_, consistent.running, ?_, ?_⟩, ?_⟩
  · exact ⟨cfg, slot, isConfig,
      committed.transport (by simpa using committed.image) committed.line,
      volume⟩
  · intro slot present
    simp at present
  · intro trialCfg isTrial
    cases isTrial
  · exact untouched_of_slot isConfig committed rfl (by simp) (by simp) rfl
      consistent rfl

/-- The state `copy_kernel` leaves. -/
def withKernel (s : State) (kernel : BootKernel) (slot : Slot)
    (suffix : Suffix) : State :=
  { s with
    vmlinuz := setEntry s.vmlinuz slot suffix
      (some { release := kernel.release, inode := s.fresh })
    initramfs := setEntry s.initramfs slot suffix
      (if kernel.hasInitrd then
        some { release := kernel.release, inode := s.fresh + 1 }
      else none)
    release := setEntry s.release slot suffix (some kernel.release)
    fresh := s.fresh + 2 }

theorem copyKernel_ends {s : State} {kernel : BootKernel} {slot : Slot}
    {suffix : Suffix} :
    copyKernel (some kernel) slot suffix s =
      .ok kernel.release (withKernel s kernel slot suffix) := rfl

theorem withKernel_extends {s : State} (consistent : Consistent s)
    (kernel : BootKernel) (slot : Slot) (suffix : Suffix) :
    Extends s (withKernel s kernel slot suffix) := by
  refine ⟨rfl, rfl, rfl, rfl, ?_, fun _ present => present,
    fun _ present => present, consistent.cmdlines, ?_⟩
  · intro slot' suffix' present
    by_cases same : slot' = slot ∧ suffix' = suffix
    · simp [withKernel, setEntry, same]
    · simpa [withKernel, setEntry, same] using present
  · intro slot' present
    by_cases same : slot' = slot ∧ Suffix.next = suffix
    · simp [withKernel, setEntry, same]
    · simp only [withKernel, setEntry, same, if_false] at present ⊢
      exact consistent.releases slot' present

theorem withKernel_image {s : State} (kernel : BootKernel) (slot : Slot)
    (suffix : Suffix) :
    ((withKernel s kernel slot suffix).vmlinuz slot suffix).isSome := by
  simp [withKernel, setEntry]

/-- A kernel copied beside the committed one leaves it. -/
theorem withKernel_untouched {s : State} {cfg : BootCfg}
    {committedSlot : Slot} (consistent : Consistent s)
    (isConfig : s.config = some cfg)
    (boots : Boots s cfg committedSlot .plain) (kernel : BootKernel)
    {slot : Slot} {suffix : Suffix}
    (apart : ¬ (committedSlot = slot ∧ Suffix.plain = suffix)) :
    Untouched s (withKernel s kernel slot suffix) := by
  refine untouched_of_slot isConfig boots rfl ?_ ?_ rfl consistent rfl
  · simp [withKernel, setEntry, apart]
  · simp [withKernel, setEntry, apart]

theorem writeBootCfg_ends (s : State) {source : BootCfg} (slot : Slot)
    (suffix : Suffix) (isConfig : s.config = some source)
    (text : source.filter CfgLine.isText ≠ [])
    (image : (s.vmlinuz slot suffix).isSome)
    (line : (s.cmdline (.ofSlot slot)).isSome) :
    ∃ cfg, writeBootCfg slot suffix s = .ok cfg s ∧
      Boots s cfg slot suffix := by
  refine ⟨bootCfgLines s source slot suffix, ?_,
    bootCfgLines_boots text image line⟩
  simp [writeBootCfg, isConfig, text, bind, EStateM.bind, get_run, pure, EStateM.pure]

/-- The system is consistent and the committed boot is as it was. -/
def Keeps (before after : State) : Prop :=
  Consistent after ∧ Untouched before after

theorem Keeps.refl {s : State} (consistent : Consistent s) : Keeps s s :=
  ⟨consistent, Untouched.refl s⟩

theorem Keeps.trans {first second third : State}
    (left : Keeps first second) (right : Keeps second third) :
    Keeps first third :=
  ⟨right.1, left.2.trans right.2⟩

def Slot.other : Slot → Slot
  | .a => .b
  | .b => .a

@[simp] theorem otherSubvol_subvol (slot : Slot) :
    otherSubvol slot.subvol = slot.other.subvol := by
  cases slot <;> rfl

@[simp] theorem slotOf_subvol (slot : Slot) (s : State) :
    slotOf slot.subvol s = .ok slot s := by
  cases slot <;> rfl

@[simp] theorem Slot.other_ne (slot : Slot) : slot.other ≠ slot := by
  cases slot <;> decide

theorem activeSubvol_ends {s : State} {subvol : Subvol}
    (isRunning : s.running.subvol = subvol) :
    activeSubvol s = .ok subvol s := by
  rw [← isRunning]
  rfl

theorem Slot.subvol_injective {slot slot' : Slot}
    (same : slot.subvol = slot'.subvol) : slot = slot' := by
  cases slot <;> cases slot' <;> simp_all [Slot.subvol]

/-- Under the step condition the running root is the committed slot's. -/
theorem running_slot {s : State} (consistent : Consistent s)
    (onCommitted : some s.running.subvol = committedRoot s) :
    ∃ cfg slot, s.config = some cfg ∧ Boots s cfg slot .plain ∧
      s.running.subvol = slot.subvol ∧ (s.volume slot.subvol).isSome := by
  obtain ⟨cfg, slot, isConfig, boots, volume⟩ := consistent.committed
  refine ⟨cfg, slot, isConfig, boots, ?_, volume⟩
  rw [committedRoot_eq consistent isConfig boots] at onCommitted
  exact Option.some.inj onCommitted

theorem cmdPrepare_keeps {s : State} (consistent : Consistent s)
    (onCommitted : some s.running.subvol = committedRoot s) :
    EndsIn (cmdPrepare s) (Keeps s) := by
  obtain ⟨cfg, slot, isConfig, boots, isRunning, volume⟩ :=
    running_slot consistent onCommitted
  obtain ⟨number, isVolume⟩ := Option.isSome_iff_exists.mp volume
  have apart : slot.subvol ≠ slot.other.subvol := fun same =>
    Slot.other_ne slot (Slot.subvol_injective same).symm
  refine ⟨consistent.extend ⟨rfl, rfl, rfl, rfl, fun _ _ present => present,
    fun _ present => present, ?_, consistent.cmdlines, consistent.releases⟩,
    untouched_of_slot isConfig boots rfl rfl rfl rfl consistent ?_⟩
  · intro subvol present
    simp only [isRunning, otherSubvol_subvol]
    split
    · simp [isVolume]
    · exact present
  · simp [isRunning, apart]

/-- The state `sed ... > cmdline_<slot>.txt` leaves. -/
def withLine (s : State) (slot : Slot) (line : Cmdline) : State :=
  { s with
    cmdline := fun file =>
      if file = .ofSlot slot then some line else s.cmdline file }

theorem withLine_extends {s : State} (consistent : Consistent s)
    {slot : Slot} {line : Cmdline} (own : line.subvol = some slot.subvol) :
    Extends s (withLine s slot line) := by
  refine ⟨rfl, rfl, rfl, rfl, fun _ _ present => present, ?_,
    fun _ present => present, ?_, consistent.releases⟩
  · intro slot' present
    by_cases same : slot' = slot
    · simp [withLine, same]
    · simpa [withLine, same] using present
  · intro slot' line' isLine
    by_cases same : slot' = slot
    · simp only [withLine, same, if_true, Option.some.injEq] at isLine
      rw [← isLine, own, same]
    · simp only [withLine, CmdlineFile.ofSlot.injEq, same, if_false] at isLine
      exact consistent.cmdlines slot' line' isLine

/-- A trial of `slot` is armed from the state `s`. -/
theorem arm_keeps {s : State} {slot : Slot} {suffix : Suffix}
    (consistent : Consistent s) (image : (s.vmlinuz slot suffix).isSome)
    (line : (s.cmdline (.ofSlot slot)).isSome) (release : String) :
    EndsIn ((do
      let cfg ← writeBootCfg slot suffix
      modify fun s => { s with tryboot := some cfg }
      pendingSet slot.subvol slot suffix release : Script Unit) s)
      (Keeps s) := by
  obtain ⟨committedCfg, committedSlot, isConfig, committed, -⟩ :=
    consistent.committed
  obtain ⟨cfg, written, boots⟩ :=
    writeBootCfg_ends _ _ _ isConfig committed.text image line
  refine Ends.bindOk written ?_
  exact ⟨consistent.arm boots release,
    untouched_of_slot isConfig committed rfl rfl rfl rfl consistent rfl⟩

theorem cmdFinalize_none_keeps {s : State} (consistent : Consistent s) :
    EndsIn (cmdFinalize none s) (Keeps s) := by
  obtain ⟨slot, isRunning, -, -⟩ := consistent.running
  unfold EndsIn cmdFinalize
  refine Ends.bindOk (activeSubvol_ends isRunning) ?_
  simp only [otherSubvol_subvol]
  refine Ends.bindOk (slotOf_subvol slot.other s) ?_
  refine Ends.bindOk (slotOf_subvol slot s) ?_
  exact Keeps.refl consistent

theorem cmdFinalize_keeps {s : State} (consistent : Consistent s)
    (onCommitted : some s.running.subvol = committedRoot s)
    (stage : Option BootKernel) :
    EndsIn (cmdFinalize stage s) (Keeps s) := by
  obtain ⟨cfg, slot, isConfig, boots, isRunning, volume⟩ :=
    running_slot consistent onCommitted
  obtain ⟨line, isLine⟩ := Option.isSome_iff_exists.mp boots.line
  unfold EndsIn cmdFinalize
  refine Ends.bindOk (activeSubvol_ends isRunning) ?_
  simp only [otherSubvol_subvol]
  refine Ends.bindOk (slotOf_subvol slot.other s) ?_
  refine Ends.bindOk (slotOf_subvol slot s) ?_
  cases stage with
  | none => exact Keeps.refl consistent
  | some kernel =>
      have copied : Keeps s (withKernel s kernel slot.other .plain) :=
        ⟨consistent.extend (withKernel_extends consistent kernel _ _),
          withKernel_untouched consistent isConfig boots kernel
            (by simp [(Slot.other_ne slot).symm])⟩
      have own : (line.withSubvol slot.other.subvol).subvol =
          some slot.other.subvol := by
        simp [Cmdline.withSubvol, consistent.cmdlines slot line isLine]
      have lined : Keeps s (withLine (withKernel s kernel slot.other .plain)
          slot.other (line.withSubvol slot.other.subvol)) := by
        refine copied.trans ⟨copied.1.extend (withLine_extends copied.1 own),
          ?_⟩
        refine untouched_of_slot isConfig
          (boots.transport (by simpa [withKernel, setEntry,
            (Slot.other_ne slot).symm] using boots.image) boots.line)
          rfl rfl rfl ?_ copied.1 rfl
        simp [withLine, (Slot.other_ne slot).symm]
      refine Ends.bindOk copyKernel_ends ?_
      refine Ends.bindOk rfl ?_
      simp only [withKernel, isLine, Option.orElse]
      refine Ends.bindOk rfl ?_
      refine (arm_keeps lined.1 (withKernel_image kernel slot.other .plain)
        (by simp [withLine]) kernel.release).mono ?_ ?_
      · exact fun _ _ kept => lined.trans kept
      · exact fun _ _ kept => lined.trans kept

theorem cmdKernelTry_keeps {s : State} (consistent : Consistent s)
    (newest : Option BootKernel) :
    EndsIn (cmdKernelTry newest s) (Keeps s) := by
  obtain ⟨slot, isRunning, line, -⟩ := consistent.running
  obtain ⟨cfg, committedSlot, isConfig, committed, -⟩ := consistent.committed
  obtain ⟨text, isLine⟩ := Option.isSome_iff_exists.mp line
  unfold EndsIn cmdKernelTry
  refine Ends.bindOk (activeSubvol_ends isRunning) ?_
  refine Ends.bindOk (slotOf_subvol slot s) ?_
  cases newest with
  | none => exact Keeps.refl consistent
  | some kernel =>
      refine Ends.bindOk rfl ?_
      refine Ends.ite (fun _ => Keeps.refl consistent) (fun _ => ?_)
      have copied : Keeps s (withKernel s kernel slot .next) :=
        ⟨consistent.extend (withKernel_extends consistent kernel _ _),
          withKernel_untouched consistent isConfig committed kernel
            (by simp)⟩
      have present : ensureCmdline slot s = .ok () s := by
        simp [ensureCmdline, isLine, bind, EStateM.bind, get_run, pure, EStateM.pure]
      refine Ends.bindOk present ?_
      refine Ends.bindOk copyKernel_ends ?_
      refine (arm_keeps copied.1 (withKernel_image kernel slot .next)
        line kernel.release).mono ?_ ?_
      · exact fun _ _ kept => copied.trans kept
      · exact fun _ _ kept => copied.trans kept

theorem clearPending_keeps {s : State} (consistent : Consistent s) :
    EndsIn (clearPending s) (Keeps s) :=
  consistent.clear rfl

theorem cmdKernelUpdate_keeps {s : State} (consistent : Consistent s)
    (staged : Bool) (newest : Option BootKernel) :
    EndsIn (cmdKernelUpdate staged newest s) (Keeps s) := by
  obtain ⟨slot, isRunning, -, -⟩ := consistent.running
  unfold EndsIn cmdKernelUpdate
  refine Ends.bindOk (activeSubvol_ends isRunning) ?_
  refine Ends.bindOk (slotOf_subvol slot s) ?_
  cases newest with
  | none => exact Keeps.refl consistent
  | some kernel =>
      refine Ends.ite (fun _ => Keeps.refl consistent) (fun _ => ?_)
      refine Ends.bindOk rfl ?_
      exact Ends.ite (fun _ => clearPending_keeps consistent)
        (fun _ => cmdKernelTry_keeps consistent (some kernel))

/-- The state after `commit` moved the tried kernel over the slot's. -/
def withPromoted (s : State) (slot : Slot) (kernel : FwFile)
    (release : String) : State :=
  { s with
    vmlinuz := setEntry (setEntry s.vmlinuz slot .next none)
      slot .plain (some kernel)
    initramfs := setEntry (setEntry s.initramfs slot .next none)
      slot .plain (s.initramfs slot .next)
    release := setEntry (setEntry s.release slot .next none)
      slot .plain (some release) }

theorem commitClear_consistent {s : State} {cfg : BootCfg} {slot : Slot}
    (cmdlines : ∀ slot line, s.cmdline (.ofSlot slot) = some line →
      line.subvol = some slot.subvol)
    (running : ∃ slot, s.running.subvol = slot.subvol ∧
      (s.cmdline (.ofSlot slot)).isSome ∧ (s.volume slot.subvol).isSome)
    (isConfig : s.config = some cfg) (boots : Boots s cfg slot .plain)
    (volume : (s.volume slot.subvol).isSome) :
    EndsIn (clearPending s) Consistent := by
  refine ⟨cmdlines, ⟨cfg, slot, isConfig, ?_, volume⟩, running, ?_, ?_⟩
  · exact boots.transport (by simpa using boots.image) boots.line
  · intro slot present
    simp at present
  · intro trialCfg isTrial
    cases isTrial

theorem cmdCommit_consistent {s : State} (consistent : Consistent s) :
    EndsIn (cmdCommit s) Consistent := by
  obtain ⟨slot, isRunning, line, volume⟩ := consistent.running
  obtain ⟨oldCfg, oldSlot, isConfig, committed, -⟩ := consistent.committed
  unfold EndsIn cmdCommit
  refine Ends.bindOk rfl ?_
  cases isTrial : s.tryboot with
  | none => exact consistent
  | some cfg =>
      obtain ⟨trialSlot, suffix, release, boots, isPending⟩ :=
        consistent.trial cfg isTrial
      refine Ends.bindOk (activeSubvol_ends isRunning) ?_
      refine Ends.bindOk rfl ?_
      simp only [isPending, Option.map_some, Option.getD_some]
      refine Ends.ite (fun _ => ?_) (fun stays => ?_)
      · exact (consistent.clear rfl).1
      have same : slot = trialSlot := Slot.subvol_injective
        (by simpa using fun differ => stays (.inl differ))
      subst same
      refine Ends.bindOk (slotOf_subvol slot s) ?_
      cases next : s.vmlinuz slot .next with
      | none =>
          have isPlain : suffix = .plain := by
            cases suffix with
            | plain => rfl
            | next => simpa [next] using boots.image
          subst isPlain
          refine Ends.bindOk rfl ?_
          exact commitClear_consistent consistent.cmdlines
            consistent.running rfl
            (boots.transport boots.image boots.line) volume
      | some kernel =>
          obtain ⟨rel, isRelease⟩ := Option.isSome_iff_exists.mp
            (consistent.releases slot (by simp [next]))
          obtain ⟨newCfg, written, newBoots⟩ := writeBootCfg_ends
            (withPromoted s slot kernel rel) slot .plain isConfig
            committed.text
            (by simp [withPromoted, setEntry]) line
          refine Ends.bindOk rfl ?_
          simp only [isRelease]
          refine Ends.bindOk rfl ?_
          refine Ends.bindOk written ?_
          refine Ends.bindOk rfl ?_
          exact commitClear_consistent consistent.cmdlines
            consistent.running rfl
            (newBoots.transport newBoots.image newBoots.line) volume

/-! ## Reboots -/

/-- A slot whose files are there boots into its own root. -/
theorem bootFrom_boots {s : State} {cfg : BootCfg} {slot : Slot}
    {suffix : Suffix} (consistent : Consistent s)
    (boots : Boots s cfg slot suffix) :
    bootFrom s cfg = (s.volume slot.subvol).bind fun _ =>
      (s.vmlinuz slot suffix).map fun image =>
        { subvol := slot.subvol, release := image.release } := by
  obtain ⟨image, isImage⟩ := Option.isSome_iff_exists.mp boots.image
  obtain ⟨line, isLine⟩ := Option.isSome_iff_exists.mp boots.line
  simp [bootFrom, boots.kernel, boots.cmdline, isImage, isLine,
    consistent.cmdlines slot line isLine]

/-- A normal reboot runs the committed root and kernel. -/
theorem reboot_running {s : State} (consistent : Consistent s) :
    some (reboot s).running.subvol = committedRoot s ∧
      some (reboot s).running.release =
        (committedKernel s).map FwFile.release := by
  obtain ⟨cfg, slot, isConfig, boots, volume⟩ := consistent.committed
  obtain ⟨image, isImage⟩ := Option.isSome_iff_exists.mp boots.image
  obtain ⟨number, isVolume⟩ := Option.isSome_iff_exists.mp volume
  have booted : bootFrom s cfg =
      some { subvol := slot.subvol, release := image.release } := by
    simp [bootFrom_boots consistent boots, isVolume, isImage]
  simp [reboot, isConfig, booted, committedRoot_eq consistent isConfig boots,
    committedKernel, boots.kernel, isImage]

/-- Which system runs is no part of the committed boot. -/
theorem Consistent.boot {s : State} {slot : Slot} (consistent : Consistent s)
    (line : (s.cmdline (.ofSlot slot)).isSome)
    (volume : (s.volume slot.subvol).isSome) (release : String) :
    Keeps s { s with
      running := { subvol := slot.subvol, release := release } } := by
  obtain ⟨cfg, committedSlot, isConfig, committed, isVolume⟩ :=
    consistent.committed
  have lift : ∀ {cfg other suffix}, Boots s cfg other suffix →
      Boots { s with running := { subvol := slot.subvol, release := release } }
        cfg other suffix :=
    fun old => old.transport old.image old.line
  refine ⟨⟨consistent.cmdlines, ?_, ⟨slot, rfl, line, volume⟩,
    consistent.releases, ?_⟩, ?_⟩
  · exact ⟨cfg, committedSlot, isConfig, lift committed, isVolume⟩
  · intro trialCfg isTrial
    obtain ⟨trialSlot, suffix, pending, boots, isPending⟩ :=
      consistent.trial trialCfg isTrial
    exact ⟨trialSlot, suffix, pending, lift boots, isPending⟩
  · exact untouched_of_slot isConfig committed rfl rfl rfl rfl consistent rfl

theorem bootFrom_keeps {s : State} {cfg : BootCfg} {slot : Slot}
    {suffix : Suffix} {running : Running} (consistent : Consistent s)
    (boots : Boots s cfg slot suffix)
    (booted : bootFrom s cfg = some running) :
    Keeps s { s with running := running } := by
  rw [bootFrom_boots consistent boots] at booted
  cases isVolume : s.volume slot.subvol with
  | none => simp [isVolume] at booted
  | some number =>
      obtain ⟨image, isImage⟩ := Option.isSome_iff_exists.mp boots.image
      simp only [isVolume, isImage, Option.bind_some, Option.map_some,
        Option.some.injEq] at booted
      subst booted
      exact consistent.boot boots.line (by simp [isVolume]) image.release

theorem reboot_keeps {s : State} (consistent : Consistent s) :
    Keeps s (reboot s) := by
  obtain ⟨cfg, slot, isConfig, boots, -⟩ := consistent.committed
  unfold reboot
  cases booted : s.config.bind (bootFrom s) with
  | none => exact Keeps.refl consistent
  | some running =>
      simp only [isConfig, Option.bind_some] at booted
      exact bootFrom_keeps consistent boots booted

theorem trybootReboot_keeps {s : State} (consistent : Consistent s) :
    Keeps s (trybootReboot s) := by
  unfold trybootReboot
  cases booted : s.tryboot.bind (bootFrom s) with
  | none => exact reboot_keeps consistent
  | some running =>
      obtain ⟨cfg, isTrial, fromCfg⟩ := Option.bind_eq_some_iff.mp booted
      obtain ⟨slot, suffix, release, boots, -⟩ := consistent.trial cfg isTrial
      exact bootFrom_keeps consistent boots fromCfg

/-! ## Whole runs -/

theorem orTrue_keeps {s : State} {script : Script Unit}
    (keeps : EndsIn (script s) (Keeps s)) :
    EndsIn (orTrue script s) (Keeps s) := by
  unfold orTrue
  change EndsIn (EStateM.tryCatch script _ s) _
  unfold EStateM.tryCatch
  cases outcome : script s with
  | ok value final => rw [outcome] at keeps; exact keeps
  | error error final => rw [outcome] at keeps; exact keeps

/-- `run_ab_update` ends with an `abort` or with an armed trial. -/
theorem runAbUpdate_keeps {s : State} (consistent : Consistent s)
    (onCommitted : some s.running.subvol = committedRoot s)
    (result : StagedUpdate) (kernel : Option BootKernel) (rebootNow : Bool) :
    EndsIn (runAbUpdate result kernel rebootNow s) (Keeps s) := by
  have prepared := cmdPrepare_keeps consistent onCommitted
  unfold EndsIn runAbUpdate
  have ignored : orTrue cmdPrepare s = .ok () (finalState (cmdPrepare s)) :=
    rfl
  refine Ends.bindOk ignored ?_
  have kept : Keeps s (finalState (cmdPrepare s)) := endsIn_iff.mp prepared
  have stillCommitted : some (finalState (cmdPrepare s)).running.subvol =
      committedRoot (finalState (cmdPrepare s)) :=
    onCommitted.trans kept.2.root.symm
  generalize finalState (cmdPrepare s) = staged at kept stillCommitted ⊢
  have aborted : ∀ {t : State}, Keeps s t → EndsIn (orTrue cmdAbort t)
      (Keeps s) := fun reached =>
    (orTrue_keeps (clearPending_keeps reached.1)).mono
      (fun _ _ keeps => reached.trans keeps)
      (fun _ _ keeps => reached.trans keeps)
  cases result with
  | syncFailed => exact aborted kept
  | nothing => exact aborted kept
  | checkFailed => exact aborted kept
  | updateFailed => exact aborted kept
  | updated =>
      have finalized := cmdFinalize_keeps kept.1 stillCommitted kernel
      change Ends (EStateM.bind (EStateM.tryCatch _ _) _ staged) _ _
      unfold EStateM.bind EStateM.tryCatch
      simp only [bind, EStateM.bind]
      cases outcome : cmdFinalize kernel staged with
      | ok value final =>
          rw [outcome] at finalized
          have reached : Keeps s final := kept.trans finalized
          cases rebootNow with
          | true => exact reached.trans (trybootReboot_keeps reached.1)
          | false => exact reached
      | error error final =>
          rw [outcome] at finalized
          exact aborted (kept.trans finalized)

/-- What one step keeps. -/
theorem perform_keeps {s : State} {action : Action}
    (consistent : Consistent s) (ordered : Ordered s action)
    (noCommit : action ≠ .commit) : Keeps s (perform action s) := by
  cases action with
  | prepare => exact endsIn_iff.mp (cmdPrepare_keeps consistent ordered)
  | finalize stage =>
      cases stage with
      | none => exact endsIn_iff.mp (cmdFinalize_none_keeps consistent)
      | some kernel =>
          exact endsIn_iff.mp (cmdFinalize_keeps consistent ordered _)
  | commit => exact absurd rfl noCommit
  | abort => exact endsIn_iff.mp (clearPending_keeps consistent)
  | kernelUpdate staged newest =>
      exact endsIn_iff.mp (cmdKernelUpdate_keeps consistent staged newest)
  | kernelTry newest =>
      exact endsIn_iff.mp (cmdKernelTry_keeps consistent newest)
  | ota result kernel rebootNow =>
      exact endsIn_iff.mp
        (runAbUpdate_keeps consistent ordered result kernel rebootNow)
  | reboot => exact reboot_keeps consistent
  | trybootReboot => exact trybootReboot_keeps consistent

theorem step_consistent {before after : State} {action : Action}
    (consistent : Consistent before)
    (step : Guarded Ordered Step before action after) :
    Consistent after := by
  obtain ⟨ordered, rfl⟩ := step
  by_cases isCommit : action = .commit
  · subst isCommit
    exact endsIn_iff.mp (cmdCommit_consistent consistent)
  · exact (perform_keeps consistent ordered isCommit).1

theorem run_consistent {start final : State} {actions : List Action}
    (consistent : Consistent start)
    (run : Run (Guarded Ordered Step) start actions final) :
    Consistent final :=
  run.invariant consistent (fun _ _ _ => step_consistent)

/-- In an ordered run, no stretch without a commit touches what `config.txt`
names, and a normal reboot at its end runs the committed root and kernel. -/
theorem ordered_run_keeps_committed_boot {start committed final : State}
    {earlier later : List Action} (consistent : Consistent start)
    (reached : Run (Guarded Ordered Step) start earlier committed)
    (stretch : Run (Guarded Ordered Step) committed later final)
    (noCommit : Action.commit ∉ later) :
    Untouched committed final ∧
      some (reboot final).running.subvol = committedRoot committed ∧
      some (reboot final).running.release =
        (committedKernel committed).map FwFile.release := by
  have kept : Action.commit ∉ later → Keeps committed final := by
    induction stretch with
    | nil => exact fun _ => Keeps.refl (run_consistent consistent reached)
    | snoc _ last induction =>
        intro noCommit
        simp only [List.mem_append, List.mem_singleton, not_or] at noCommit
        obtain ⟨ordered, rfl⟩ := last
        have before := induction noCommit.1 noCommit.1
        exact before.trans
          (perform_keeps before.1 ordered (Ne.symm noCommit.2))
  obtain ⟨finalConsistent, untouched⟩ := kept noCommit
  obtain ⟨subvol, release⟩ := reboot_running finalConsistent
  exact ⟨untouched, subvol.trans untouched.root,
    release.trans (by rw [untouched.kernel])⟩

theorem ordered_run_keeps_committed_boot_prepared :
    ∃ final, Run (Guarded Ordered Step) (builtImage "6.1" true)
        [.prepare, .finalize (some ⟨"6.2", true⟩), .trybootReboot] final ∧
      Untouched (builtImage "6.1" true) final ∧
      some (reboot final).running.subvol = some .root := by
  have image := builtImage_consistent "6.1" true
  have run : Run (Guarded Ordered Step) (builtImage "6.1" true)
      ([] ++ [.prepare] ++ [.finalize (some ⟨"6.2", true⟩)] ++
        [.trybootReboot]) _ :=
    .snoc (.snoc (.snoc .nil ⟨rfl, rfl⟩) ⟨rfl, rfl⟩) ⟨trivial, rfl⟩
  obtain ⟨untouched, subvol, -⟩ :=
    ordered_run_keeps_committed_boot image .nil run (by decide)
  exact ⟨_, run, untouched, subvol⟩

/-- While the trial of an OTA update runs uncommitted, `prepare` recreates
the committed root. -/
theorem prepare_during_trial_recreates_committed_root :
    ¬ ∀ (start s : State) (actions : List Action) (action : Action),
      Consistent start → Run Step start actions s → action ≠ .commit →
      Untouched s (perform action s) := by
  intro safe
  have run : Run Step (builtImage "6.1" true)
      ([] ++ [.ota .updated (some ⟨"6.2", true⟩) true]) _ :=
    .snoc .nil rfl
  have untouched := safe _ _ _ .prepare (builtImage_consistent "6.1" true) run
    (by decide)
  exact absurd untouched.volume (by decide)

end SaltOS.Tryboot
