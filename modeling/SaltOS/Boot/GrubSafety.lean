import SaltOS.Boot.Grub
import SaltOS.Lib.Run

/-!
# Trial boots never become the default by themselves

The block, the script and `/boot` always agree on three things: the default
kernel, the pending kernel, and whether its one boot is still to come.  Each
command and each boot is one transition of this triple, and the safety of
trial boots follows from the transitions.
-/

namespace SaltOS.Grub

open Boot Lib

/-- A kernel file of `/boot`, as the listing accepts it. -/
def Listed (boot : BootDir) (file : Bytes) : Prop :=
  file ∈ listKernels boot

/-- The block and the script hold the triple. -/
structure Settled (s : State) (trial : BootState) : Prop where
  env : s.env = fun key =>
    some (envValues trial key)
  default : Listed s.boot trial.defaultKernel
  pending : trial.pendingKernel ≠ [] → Listed s.boot trial.pendingKernel
  armed : trial.tryArmed = true → trial.pendingKernel ≠ []
  script : ∃ cfg, s.cfg = some cfg ∧
    (∀ entry ∈ cfg.entries, entry.1 = entryId entry.2) ∧
    (entryId trial.defaultKernel, trial.defaultKernel) ∈ cfg.entries ∧
    (trial.pendingKernel ≠ [] →
      (entryId trial.pendingKernel, trial.pendingKernel) ∈ cfg.entries)

def DistinctReleases (boot : BootDir) : Prop :=
  (boot.map Image.release).Nodup

instance (boot : BootDir) : Decidable (DistinctReleases boot) :=
  inferInstanceAs (Decidable (boot.map Image.release).Nodup)

/-- No command has run yet. -/
structure Fresh (s : State) : Prop where
  env : ∀ key, s.env key = none
  cfg : s.cfg = none

/-- What an operation may do to the triple. -/
inductive Transition (s : State) : Op → BootState → BootState → Prop where
  | stay {op trial} (noTrial : op = .boot → trial.tryArmed = false) :
      Transition s op trial trial
  | rollback {rearm trial} (newest : Bytes) :
      Transition s (.update true rearm) trial ⟨newest, [], false⟩
  | arm {op trial} (arms : op.arms = true) (newest : Bytes) :
      Transition s op trial ⟨trial.defaultKernel, newest, true⟩
  | clear {op trial} (noBoot : op ≠ .boot) :
      Transition s op trial ⟨trial.defaultKernel, [], false⟩
  | promote {trial} (runs : RunsPending s) :
      Transition s .confirm trial ⟨trial.pendingKernel, [], false⟩
  | consume {trial} (armed : trial.tryArmed = true) :
      Transition s .boot trial ⟨trial.defaultKernel, trial.pendingKernel, false⟩

/-! ## Reading the state back -/

@[simp] theorem kernelFromEntry_entryId (kernel : Bytes) :
    kernelFromEntry (entryId kernel) = kernel := by
  simp [kernelFromEntry, entryId, ascii]

theorem entryId_injective {left right : Bytes}
    (same : entryId left = entryId right) : left = right := by
  simpa using congrArg kernelFromEntry same

theorem Listed.nonempty {boot : BootDir} {file : Bytes}
    (listed : Listed boot file) : file ≠ [] :=
  kernelNameOk_nonempty (mem_listKernels.mp listed).2

theorem Listed.length {boot : BootDir} {file : Bytes}
    (listed : Listed boot file) : file.length ≤ 255 := by
  obtain ⟨⟨image, -, rfl⟩, -⟩ := mem_listKernels.mp listed
  exact image.file_length

theorem Listed.keepExisting {boot : BootDir} {file : Bytes}
    (listed : Listed boot file) : keepExisting boot file = file := by
  obtain ⟨⟨image, member, isFile⟩, -⟩ := mem_listKernels.mp listed
  have present : existsIn boot file = true := by
    simpa [existsIn] using ⟨image, member, isFile⟩
  simp [Grub.keepExisting, present]

theorem Settled.defaultKernel {s : State} {trial : BootState}
    (settled : Settled s trial) :
    defaultKernel s = some trial.defaultKernel := by
  simp [Grub.defaultKernel, settled.env, envValues]

/-- `grub_state` reads the triple. -/
theorem Settled.grubState {s : State} {trial : BootState}
    (settled : Settled s trial) :
    grubState s = ⟨trial.defaultKernel, trial.pendingKernel, trial.tryArmed⟩ := by
  have isPending : keepExisting s.boot trial.pendingKernel =
    trial.pendingKernel := by
    by_cases empty : trial.pendingKernel = []
    · simp [keepExisting, empty]
    · exact (settled.pending empty).keepExisting
  have isArmed : (some (if trial.tryArmed then ascii "1" else ascii "0") ==
      some (ascii "1")) = trial.tryArmed := by
    cases trial.tryArmed <;> decide
  simp only [Grub.grubState, settled.env, envValues, Option.getD_some,
    kernelFromEntry_entryId, settled.default.keepExisting, isPending, isArmed]

theorem Fresh.grubState {s : State} (fresh : Fresh s) :
    grubState s = ⟨[], [], false⟩ := by
  simp only [Grub.grubState, fresh.env]
  rfl

/-! ## Writing the script and the block -/

/-- The state after `write_grub_cfg` and `grubenv_write`. -/
def written (s : State) (trial : BootState) : State :=
  { s with
    cfg := some
      { saltosDefault := entryId trial.defaultKernel
        saltosTryEntry :=
          if trial.pendingKernel = [] then [] else entryId trial.pendingKernel
        entries := (listKernels s.boot).map fun kernel =>
          (entryId kernel, kernel) }
    env := fun key =>
      some (envValues trial key) }

theorem written_settled {s : State} {trial : BootState}
    (default : Listed s.boot trial.defaultKernel)
    (pending : trial.pendingKernel ≠ [] → Listed s.boot trial.pendingKernel)
    (armed : trial.tryArmed = true → trial.pendingKernel ≠ []) :
    Settled (written s trial) trial := by
  refine ⟨rfl, default, pending, armed, _, rfl, ?_, ?_, ?_⟩
  · intro entry member
    obtain ⟨kernel, -, rfl⟩ := List.mem_map.mp member
    rfl
  · exact List.mem_map.mpr ⟨trial.defaultKernel, default, rfl⟩
  · intro nonempty
    exact List.mem_map.mpr ⟨trial.pendingKernel, pending nonempty, rfl⟩

/-- A file name has at most 255 bytes, so the block always has room. -/
theorem blockSize_le {trial : BootState}
    (shortDefault : trial.defaultKernel.length ≤ 255)
    (shortPending : trial.pendingKernel.length ≤ 255) :
    blockSize (envValues trial) ≤ 1024 := by
  have tryLength : (envValues trial .saltosTry).length = 1 := by
    cases armed : trial.tryArmed <;> simp [envValues, armed, ascii]
  have entryLength : (envValues trial .saltosTryEntry).length ≤ 257 := by
    by_cases empty : trial.pendingKernel = []
    · simp [envValues, empty]
    · simp [envValues, empty, entryId, ascii]
      omega
  have defaultLength : (envValues trial .saltosDefault).length ≤ 257 := by
    simp [envValues, entryId, ascii]
    omega
  have keyLengths : (ascii "# GRUB Environment Block\n").length = 25 ∧
      EnvKey.saltosDefault.text.length = 14 ∧
      EnvKey.saltosPending.text.length = 14 ∧
      EnvKey.saltosTry.text.length = 10 ∧
      EnvKey.saltosTryEntry.text.length = 16 := by decide
  simp only [blockSize, envKeys, List.map_cons, List.map_nil, List.sum_cons,
    List.sum_nil, tryLength, keyLengths]
  change 25 + (_ + (14 + 1 + trial.pendingKernel.length + 1 + _)) ≤ 1024
  omega

theorem writeGrubCfg_ends {s : State} (trial : BootState)
    (default : Listed s.boot trial.defaultKernel) :
    writeGrubCfg trial.defaultKernel trial.pendingKernel s =
      .ok () { written s trial with env := s.env } := by
  have kernels : listKernels s.boot ≠ [] := List.ne_nil_of_mem default
  simp [writeGrubCfg, kernels, bind, EStateM.bind, get_run, modify_run, written]

theorem grubenvWrite_ends (s : State) (trial : BootState)
    (shortDefault : trial.defaultKernel.length ≤ 255)
    (shortPending : trial.pendingKernel.length ≤ 255) :
    grubenvWrite (envValues trial) s =
      .ok () { s with env := (written s trial).env } := by
  have fits := blockSize_le shortDefault shortPending
  simp [grubenvWrite, Nat.not_lt.mpr fits, modify_run, written]

/-- Both writes succeed and leave the triple they were given. -/
theorem write_ends {s : State} {trial : BootState}
    (default : Listed s.boot trial.defaultKernel)
    (pending : trial.pendingKernel ≠ [] → Listed s.boot trial.pendingKernel) :
    (do writeGrubCfg trial.defaultKernel trial.pendingKernel
        grubenvWrite (envValues trial) : GrubIo Unit) s
      = .ok () (written s trial) := by
  have shortPending : trial.pendingKernel.length ≤ 255 := by
    by_cases empty : trial.pendingKernel = []
    · simp [empty]
    · exact (pending empty).length
  simp only [bind, EStateM.bind, writeGrubCfg_ends trial default]
  exact grubenvWrite_ends _ trial default.length shortPending

theorem ignoreStatus_ends {command : GrubIo Unit} {s final : State}
    (ends : command s = .ok () final) :
    ignoreStatus command s = .ok () final := by
  change EStateM.tryCatch command _ s = _
  simp [EStateM.tryCatch, ends]

/-! ## The commands as transitions -/

theorem Settled.newest {s : State} {trial : BootState}
    (settled : Settled s trial) :
    ∃ newest, newestKernel s.boot = some newest ∧ Listed s.boot newest := by
  cases search : newestKernel s.boot with
  | none =>
      have empty : listKernels s.boot = [] := List.head?_eq_none_iff.mp search
      exact absurd settled.default (by simp [Listed, empty])
  | some newest => exact ⟨newest, rfl, newestKernel_mem search⟩

theorem runningKernel_listed {boot : BootDir} {uname : Bytes}
    (found : runningKernel boot uname ≠ []) :
    Listed boot (runningKernel boot uname) := by
  unfold runningKernel at found ⊢
  cases search : (listKernels boot).find?
      (fun file => kernelRelease file == uname) with
  | none => simp [search] at found
  | some file => exact List.mem_of_find?_eq_some search

/-- A triple that the two writes accept. -/
structure Writable (boot : BootDir) (trial : BootState) : Prop where
  default : Listed boot trial.defaultKernel
  pending : trial.pendingKernel ≠ [] → Listed boot trial.pendingKernel
  armed : trial.tryArmed = true → trial.pendingKernel ≠ []

theorem Settled.writable {s : State} {trial : BootState}
    (settled : Settled s trial) : Writable s.boot trial :=
  ⟨settled.default, settled.pending, settled.armed⟩

/-- A default without a pending trial. -/
theorem Writable.idle {boot : BootDir} {kernel : Bytes}
    (listed : Listed boot kernel) : Writable boot ⟨kernel, [], false⟩ :=
  ⟨listed, fun nonempty => absurd rfl nonempty, fun armed => by cases armed⟩

theorem Writable.trial {boot : BootDir} {kernel newest : Bytes}
    (listed : Listed boot kernel) (newestListed : Listed boot newest) :
    Writable boot ⟨kernel, newest, true⟩ :=
  ⟨listed, fun _ => newestListed, fun _ => newestListed.nonempty⟩

theorem Writable.settled {s : State} {trial : BootState}
    (writable : Writable s.boot trial) : Settled (written s trial) trial :=
  written_settled writable.default writable.pending writable.armed

theorem grubUpdate_ends {s : State} {newest : Bytes}
    (isNewest : newestKernel s.boot = some newest)
    {afterRollback rearm : Bool}
    (writable : Writable s.boot
      (updateState s newest afterRollback rearm)) :
    grubUpdate afterRollback rearm s =
      .ok () (written s (updateState s newest afterRollback rearm)) := by
  have ends := write_ends writable.default writable.pending
  simp only [bind, EStateM.bind] at ends
  simp only [grubUpdate, bind, EStateM.bind, get_run, isNewest]
  exact ends

theorem grubUpdate_settled {s : State} {trial : BootState}
    (settled : Settled s trial) (afterRollback rearm : Bool) :
    ∃ next, Settled (finalState (grubUpdate afterRollback rearm s)) next ∧
      Transition s (.update afterRollback rearm) trial next := by
  obtain ⟨newest, isNewest, listed⟩ := settled.newest
  have nonempty := settled.default.nonempty
  have decide : Writable s.boot (updateState s newest afterRollback rearm) ∧
      Transition s (.update afterRollback rearm) trial
        (updateState s newest afterRollback rearm) := by
    cases afterRollback with
    | true => exact ⟨Writable.idle listed, .rollback newest⟩
    | false =>
        cases rearm with
        | false =>
            simp only [updateState, settled.grubState, nonempty, if_false,
              Bool.false_eq_true]
            exact ⟨settled.writable, .stay (fun isBoot => by cases isBoot)⟩
        | true =>
            simp only [updateState, settled.grubState, nonempty, if_false,
              Bool.false_eq_true, if_true]
            split
            · exact ⟨Writable.trial settled.default listed, .arm rfl newest⟩
            · exact ⟨Writable.idle settled.default, .clear (by simp)⟩
  refine ⟨_, ?_, decide.2⟩
  rw [grubUpdate_ends isNewest decide.1]
  exact decide.1.settled

/-- The first command sets a default. -/
theorem grubUpdate_fresh {s : State} (fresh : Fresh s)
    (afterRollback rearm : Bool) :
    Fresh (finalState (grubUpdate afterRollback rearm s)) ∨
      ∃ next, Settled (finalState (grubUpdate afterRollback rearm s)) next ∧
        (next.tryArmed = true → rearm = true) := by
  cases search : newestKernel s.boot with
  | none =>
      left
      simpa [grubUpdate, search, bind, EStateM.bind, get_run, throw_run, finalState] using fresh
  | some newest =>
      right
      have listed : Listed s.boot newest := newestKernel_mem search
      have running : runningKernel s.boot s.running.release ≠ [] → _ :=
        runningKernel_listed
      have decide : Writable s.boot
            (updateState s newest afterRollback rearm) ∧
          ((updateState s newest afterRollback rearm).tryArmed = true →
            rearm = true) := by
        cases afterRollback with
        | true => exact ⟨Writable.idle listed, fun armed => by cases armed⟩
        | false =>
            have chosen : Listed s.boot
                (if runningKernel s.boot s.running.release = [] then newest
                else runningKernel s.boot s.running.release) := by
              split
              · exact listed
              · exact running (by assumption)
            cases rearm with
            | false =>
                simp only [updateState, fresh.grubState, if_true, if_false,
                  Bool.false_eq_true]
                exact ⟨Writable.idle chosen, id⟩
            | true =>
                simp only [updateState, fresh.grubState, if_true, if_false,
                  Bool.false_eq_true, implies_true, and_true]
                generalize (if runningKernel s.boot s.running.release = []
                  then newest else _) = kernel at chosen ⊢
                split
                · exact Writable.trial chosen listed
                · exact Writable.idle chosen
      refine ⟨_, ?_, decide.2⟩
      rw [grubUpdate_ends search decide.1]
      exact decide.1.settled

theorem grubTry_settled {s : State} {trial : BootState}
    (settled : Settled s trial) :
    ∃ next, Settled (finalState (grubTry s)) next ∧
      Transition s .try trial next := by
  obtain ⟨newest, isNewest, listed⟩ := settled.newest
  have nonempty := settled.default.nonempty
  by_cases same : newest = trial.defaultKernel
  · refine ⟨trial, ?_, .stay (fun isBoot => by cases isBoot)⟩
    simpa [grubTry, isNewest, settled.grubState, same, bind, EStateM.bind,
      get_run, pure, EStateM.pure,
      finalState] using settled
  · have writable := Writable.trial settled.default listed
    refine ⟨_, ?_, .arm rfl newest⟩
    have ends := write_ends writable.default writable.pending
    simp only [bind, EStateM.bind] at ends
    simp only [grubTry, isNewest, settled.grubState, same, nonempty,
      listed.nonempty, bind, EStateM.bind, get_run, Option.getD_some, or_self, if_false, ends, finalState]
    exact writable.settled

theorem grubTry_fresh {s : State} (fresh : Fresh s) :
    Fresh (finalState (grubTry s)) ∨
      ∃ next, Settled (finalState (grubTry s)) next := by
  cases search : newestKernel s.boot with
  | none =>
      left
      simpa [grubTry, search, bind, EStateM.bind, get_run, pure, EStateM.pure, finalState]
        using fresh
  | some newest =>
      right
      have listed : Listed s.boot newest := newestKernel_mem search
      have writable := Writable.trial listed listed
      have ends := write_ends writable.default writable.pending
      simp only [bind, EStateM.bind] at ends
      refine ⟨⟨newest, newest, true⟩, ?_⟩
      simp only [grubTry, search, fresh.grubState, listed.nonempty, bind,
        EStateM.bind, get_run,
        Option.getD_some, or_self, if_false, if_true, ends, finalState]
      exact writable.settled

theorem grubConfirm_settled {s : State} {trial : BootState}
    (distinct : DistinctReleases s.boot)
    (settled : Settled s trial) :
    ∃ next, Settled (finalState (grubConfirm s)) next ∧
      Transition s .confirm trial next := by
  by_cases empty : trial.pendingKernel = []
  · refine ⟨trial, ?_, .stay (fun isBoot => by cases isBoot)⟩
    simpa [grubConfirm, settled.grubState, empty, bind, EStateM.bind,
      get_run, pure, EStateM.pure,
      finalState] using settled
  by_cases runs : runningKernel s.boot s.running.release =
      trial.pendingKernel
  · have listed := settled.pending empty
    have writable := Writable.idle listed
    have ends := write_ends writable.default writable.pending
    simp only [bind, EStateM.bind] at ends
    refine ⟨_, ?_, .promote ?_⟩
    · simp only [grubConfirm, settled.grubState, empty, runs, bind,
        EStateM.bind, get_run, ne_eq,
        not_true_eq_false, if_false, ends, finalState]
      exact writable.settled
    · obtain ⟨image, member, isFile, isRelease⟩ :=
        runningKernel_release s.running.release_nonempty (runs ▸ empty)
      refine ⟨image, member, ?_, isRelease, fun inBoot => ?_⟩
      · simp [settled.env, envValues, isFile, runs]
      · exact List.inj_on_of_nodup_map distinct member inBoot isRelease
  by_cases armed : trial.tryArmed = true
  · refine ⟨trial, ?_, .stay (fun isBoot => by cases isBoot)⟩
    simpa [grubConfirm, settled.grubState, empty, runs, armed, bind,
      EStateM.bind, get_run, throw_run, finalState] using settled
  · have writable := Writable.idle settled.default
    refine ⟨_, ?_, .clear (by simp)⟩
    have cfgEnds := ignoreStatus_ends
      (writeGrubCfg_ends ⟨trial.defaultKernel, [], false⟩ settled.default)
    have envEnds := fun state => ignoreStatus_ends
      (grubenvWrite_ends state ⟨trial.defaultKernel, [], false⟩
        settled.default.length (by simp))
    simp only [grubConfirm, settled.grubState, empty, runs, armed, bind,
      EStateM.bind, get_run, ne_eq,
      not_false_eq_true, if_true, if_false, Bool.false_eq_true, throw_run, cfgEnds, envEnds,
      finalState]
    exact writable.settled

theorem grubConfirm_fresh {s : State} (fresh : Fresh s) :
    finalState (grubConfirm s) = s := by
  simp [grubConfirm, fresh.grubState, bind, EStateM.bind, get_run, pure, EStateM.pure, finalState]

/-! ## Boots -/

theorem selectEntry_of_mem {cfg : GrubCfg} {kernel : Bytes}
    (ids : ∀ entry ∈ cfg.entries, entry.1 = entryId entry.2)
    (member : (entryId kernel, kernel) ∈ cfg.entries) :
    selectEntry cfg (entryId kernel) = some kernel := by
  unfold selectEntry
  cases search : cfg.entries.find? (fun entry => entry.1 == entryId kernel)
    with
  | none =>
      have absent := List.find?_eq_none.mp search _ member
      simp at absent
  | some entry =>
      have sameId : entry.1 = entryId kernel := by
        simpa using List.find?_some search
      have same := ids entry (List.mem_of_find?_eq_some search)
      rw [sameId] at same
      simp [entryId_injective same]

theorem Listed.find {boot : BootDir} {file : Bytes}
    (listed : Listed boot file) :
    ∃ image ∈ boot, boot.find? (·.file == file) = some image ∧
      image.file = file := by
  obtain ⟨⟨image, member, isFile⟩, -⟩ := mem_listKernels.mp listed
  cases search : boot.find? (·.file == file) with
  | none =>
      have absent := List.find?_eq_none.mp search _ member
      simp [isFile] at absent
  | some found =>
      exact ⟨found, List.mem_of_find?_eq_some search, rfl, by
        simpa using List.find?_some search⟩

theorem loadEnv_settled {s : State} {trial : BootState} (cfg : GrubCfg)
    (settled : Settled s trial) :
    loadEnv cfg s.env =
      ⟨entryId trial.defaultKernel,
        if trial.tryArmed then ascii "1" else ascii "0",
        if trial.pendingKernel = [] then []
        else entryId trial.pendingKernel⟩ := by
  simp [loadEnv, settled.env, envValues]

theorem trialArmed_iff {s : State} {trial : BootState}
    (settled : Settled s trial) :
    TrialArmed s ↔ trial.tryArmed = true := by
  obtain ⟨cfg, isCfg, -⟩ := settled.script
  have armedIff : (loadEnv cfg s.env).armed = trial.tryArmed := by
    rw [loadEnv_settled _ settled]
    cases armed : trial.tryArmed with
    | false => rfl
    | true =>
        simp [ScriptVars.armed, settled.armed armed, entryId, ascii]
  constructor
  · rintro ⟨other, isOther, armed⟩
    rw [isCfg] at isOther
    cases isOther
    exact armedIff ▸ armed
  · intro armed
    exact ⟨cfg, isCfg, armedIff.trans armed⟩

/-- A boot runs the trial while it is armed and the default otherwise. -/
theorem unattendedBoot_settled {s : State} {trial : BootState}
    (settled : Settled s trial) :
    ∃ next, Settled (unattendedBoot s) next ∧
      Transition s .boot trial next ∧
      next.defaultKernel = trial.defaultKernel ∧
      next.tryArmed = false ∧
      (unattendedBoot s).running ∈ s.boot ∧
      (unattendedBoot s).running.file =
        if trial.tryArmed then trial.pendingKernel
        else trial.defaultKernel := by
  obtain ⟨cfg, isCfg, ids, defaultEntry, pendingEntry⟩ := settled.script
  have vars := loadEnv_settled cfg settled
  cases armed : trial.tryArmed with
  | false =>
      obtain ⟨image, member, isImage, isFile⟩ := settled.default.find
      have booted : unattendedBoot s = { s with running := image } := by
        simp [unattendedBoot, isCfg, runScript, vars, ScriptVars.armed,
          armed, ascii, selectEntry_of_mem ids defaultEntry, isImage]
      rw [booted]
      refine ⟨trial, ⟨settled.env, settled.default, settled.pending,
        settled.armed, settled.script⟩, .stay (fun _ => armed), rfl, armed,
        member, by simpa using isFile⟩
  | true =>
      have nonempty := settled.armed armed
      obtain ⟨image, member, isImage, isFile⟩ :=
        (settled.pending nonempty).find
      have booted : unattendedBoot s =
          { s with
            env := saveEnv s.env .saltosTry (ascii "0")
            running := image } := by
        have isArmed : (loadEnv cfg s.env).armed = true := by
          simp [vars, ScriptVars.armed, armed, nonempty, entryId, ascii]
        simp only [unattendedBoot, isCfg, runScript, isArmed, if_true]
        simp [vars, nonempty,
          selectEntry_of_mem ids (pendingEntry nonempty), isImage]
      rw [booted]
      refine ⟨⟨trial.defaultKernel, trial.pendingKernel, false⟩,
        ⟨?_, settled.default, settled.pending, (fun off => by cases off),
          settled.script⟩, .consume armed, rfl, rfl, member,
        by simpa using isFile⟩
      funext key
      cases key <;> simp [saveEnv, settled.env, envValues]

/-! ## Whole runs -/

/-- Images come and go around the ones the block names. -/
theorem Settled.changeBoot {s : State} {trial : BootState} {boot : BootDir}
    (settled : Settled s trial)
    (keeps : ∀ file, file = trial.defaultKernel ∨
      (trial.pendingKernel ≠ [] ∧ file = trial.pendingKernel) →
      Listed s.boot file → Listed boot file) :
    Settled { s with boot := boot } trial :=
  ⟨settled.env, keeps _ (.inl rfl) settled.default,
    fun nonempty => keeps _ (.inr ⟨nonempty, rfl⟩) (settled.pending nonempty),
    settled.armed, settled.script⟩

theorem Listed.cons {boot : BootDir} {file : Bytes} {image : Image}
    (listed : Listed boot file) : Listed (image :: boot) file := by
  obtain ⟨⟨found, member, isFile⟩, ok⟩ := mem_listKernels.mp listed
  exact mem_listKernels.mpr
    ⟨⟨found, List.mem_cons_of_mem image member, isFile⟩, ok⟩

theorem Listed.filter {boot : BootDir} {file gone : Bytes}
    (listed : Listed boot file) (stays : file ≠ gone) :
    Listed (boot.filter (fun image => image.file != gone)) file := by
  obtain ⟨⟨found, member, isFile⟩, ok⟩ := mem_listKernels.mp listed
  refine mem_listKernels.mpr ⟨⟨found, ?_, isFile⟩, ok⟩
  simp [member, isFile, stays]

/-- Every enabled step of a settled state is a transition of its triple. -/
theorem step_settled {s after : State} {op : Op} {trial : BootState}
    (distinct : DistinctReleases s.boot) (settled : Settled s trial)
    (step : Step s op after) :
    ∃ next, Settled after next ∧ Transition s op trial next := by
  obtain ⟨enabled, rfl⟩ := step
  cases op with
  | update afterRollback rearm =>
      exact grubUpdate_settled settled afterRollback rearm
  | «try» => exact grubTry_settled settled
  | confirm => exact grubConfirm_settled distinct settled
  | appear image =>
      refine ⟨trial, settled.changeBoot (fun _ _ listed => listed.cons),
        .stay (fun isBoot => by cases isBoot)⟩
  | vanish file =>
      refine ⟨trial, settled.changeBoot (fun kernel named listed => ?_),
        .stay (fun isBoot => by cases isBoot)⟩
      refine listed.filter ?_
      rintro rfl
      obtain ⟨notDefault, notPending⟩ := enabled
      rcases named with rfl | ⟨-, rfl⟩
      · exact notDefault (by simp [settled.env, envValues])
      · exact notPending (by simp [settled.env, envValues])
  | boot =>
      obtain ⟨next, nextSettled, transition, -⟩ :=
        unattendedBoot_settled settled
      exact ⟨next, nextSettled, transition⟩

/-- No command changes `/boot`. -/
def KeepsBoot (command : GrubIo Unit) : Prop :=
  ∀ s, EndsIn (command s) (fun after => after.boot = s.boot)

theorem KeepsBoot.bind {first : GrubIo Unit} {next : GrubIo Unit}
    (firstKeeps : KeepsBoot first) (nextKeeps : KeepsBoot next) :
    KeepsBoot (do first; next) := by
  intro s
  refine Ends.bind (firstKeeps s) (fun _ between same => ?_)
  exact (nextKeeps between).mono (fun _ _ => (·.trans same))
    (fun _ _ => (·.trans same))

theorem KeepsBoot.ignoreStatus {command : GrubIo Unit}
    (keeps : KeepsBoot command) : KeepsBoot (ignoreStatus command) := by
  intro s
  have kept := keeps s
  change EndsIn (EStateM.tryCatch command _ s) _
  unfold EStateM.tryCatch
  cases outcome : command s with
  | ok value final => rw [outcome] at kept; exact kept
  | error error final => rw [outcome] at kept; exact kept

theorem writeGrubCfg_boot (kernel tryKernel : Bytes) :
    KeepsBoot (writeGrubCfg kernel tryKernel) := by
  intro s
  refine Ends.bindOk rfl ?_
  exact Ends.ite (fun _ => rfl) (fun _ => rfl)

theorem grubenvWrite_boot (kv : EnvKey → Bytes) :
    KeepsBoot (grubenvWrite kv) :=
  fun _ => Ends.ite (fun _ => rfl) (fun _ => rfl)

theorem write_boot (trial : BootState) (kernel tryKernel : Bytes) :
    KeepsBoot (do writeGrubCfg kernel tryKernel
                  grubenvWrite (envValues trial)) :=
  (writeGrubCfg_boot _ _).bind (grubenvWrite_boot _)

theorem grubUpdate_boot (afterRollback rearm : Bool) :
    KeepsBoot (grubUpdate afterRollback rearm) := by
  intro s
  refine Ends.bindOk rfl ?_
  cases newestKernel s.boot with
  | none => exact rfl
  | some newest => exact write_boot _ _ _ s

theorem grubTry_boot : KeepsBoot grubTry := by
  intro s
  refine Ends.bindOk rfl ?_
  exact Ends.ite (fun _ => rfl) (fun _ => write_boot _ _ _ s)

theorem grubConfirm_boot : KeepsBoot grubConfirm := by
  intro s
  refine Ends.bindOk rfl ?_
  refine Ends.ite (fun _ => rfl) (fun _ => ?_)
  refine Ends.ite (fun _ => ?_) (fun _ => write_boot _ _ _ s)
  refine Ends.ite (fun _ => rfl) (fun _ => ?_)
  refine ((writeGrubCfg_boot _ _).ignoreStatus.bind
    ((grubenvWrite_boot _).ignoreStatus.bind ?_)) s
  exact fun _ => rfl

theorem unattendedBoot_boot (s : State) :
    (unattendedBoot s).boot = s.boot := by
  unfold unattendedBoot
  cases s.cfg with
  | none => rfl
  | some cfg =>
      dsimp only
      cases (runScript cfg s.env).2.bind
        (fun file => s.boot.find? (·.file == file)) <;> rfl

theorem step_distinct {s after : State} {op : Op}
    (distinct : DistinctReleases s.boot) (step : Step s op after) :
    DistinctReleases after.boot := by
  obtain ⟨enabled, rfl⟩ := step
  cases op with
  | update afterRollback rearm =>
      have same := endsIn_iff.mp (grubUpdate_boot afterRollback rearm s)
      simpa only [perform, same] using distinct
  | «try» =>
      have same := endsIn_iff.mp (grubTry_boot s)
      simpa only [perform, same] using distinct
  | confirm =>
      have same := endsIn_iff.mp (grubConfirm_boot s)
      simpa only [perform, same] using distinct
  | appear image =>
      refine List.nodup_cons.mpr ⟨?_, distinct⟩
      intro member
      obtain ⟨other, isOther, sameRelease⟩ := List.mem_map.mp member
      exact (enabled other isOther).1 sameRelease
  | vanish file =>
      exact distinct.sublist (List.filter_sublist.map Image.release)
  | boot => simpa only [perform, unattendedBoot_boot] using distinct

/-- What an operation can do before any default is set. -/
theorem step_fresh {s after : State} {op : Op} (fresh : Fresh s)
    (step : Step s op after) :
    Fresh after ∨ (op ≠ .boot ∧ ∃ next, Settled after next ∧
      (next.tryArmed = true → op.arms = true)) := by
  obtain ⟨enabled, rfl⟩ := step
  cases op with
  | update afterRollback rearm =>
      rcases grubUpdate_fresh fresh afterRollback rearm with still | set
      · exact .inl still
      · exact .inr ⟨by simp, set⟩
  | «try» =>
      rcases grubTry_fresh fresh with still | ⟨next, settled⟩
      · exact .inl still
      · exact .inr ⟨by simp, next, settled, fun _ => rfl⟩
  | confirm =>
      left
      simpa only [perform, grubConfirm_fresh fresh] using fresh
  | appear image => exact .inl ⟨fresh.env, fresh.cfg⟩
  | vanish file => exact .inl ⟨fresh.env, fresh.cfg⟩
  | boot =>
      rw [Enabled, fresh.cfg] at enabled
      cases enabled

theorem offDefaultBoots_snoc {start s : State} {ops : List Op} {op : Op}
    (run : Run Step start ops s) :
    offDefaultBoots start (ops ++ [op]) =
      offDefaultBoots start ops + (isOffDefaultBoot s op).toNat := by
  have split : ∀ (ops : List Op) (start : State),
      offDefaultBoots start (ops ++ [op]) = offDefaultBoots start ops +
        (isOffDefaultBoot
          (ops.foldl (fun s op => perform op s) start) op).toNat := by
    intro ops
    induction ops with
    | nil => simp [offDefaultBoots]
    | cons first rest induction =>
        intro start
        simp [offDefaultBoots, induction, Nat.add_assoc]
  have reached : ops.foldl (fun s op => perform op s) start = s := by
    induction run with
    | nil => rfl
    | snoc _ last induction => simp [induction, last.2]
  rw [split, reached]

/-- A boot outside the default takes up the outstanding trial. -/
theorem isOffDefaultBoot_armed {s : State} (op : Op) {trial : BootState}
    (settled : Settled s trial) (off : isOffDefaultBoot s op = true) :
    op = .boot ∧ trial.tryArmed = true := by
  cases op with
  | boot =>
      obtain ⟨next, nextSettled, -, same, -, -, isFile⟩ :=
        unattendedBoot_settled settled
      refine ⟨rfl, ?_⟩
      by_contra unarmed
      simp only [unarmed, if_false] at isFile
      simp [isOffDefaultBoot, perform, nextSettled.defaultKernel, same,
        isFile] at off
  | _ => simp [isOffDefaultBoot] at off

/-- The boots outside the default, with the trial still to come, stay within
the arming operations. -/
def Accounted (start : State) (ops : List Op) (s : State) : Prop :=
  DistinctReleases s.boot ∧
    (Fresh s ∧ offDefaultBoots start ops = 0 ∨
      ∃ trial, Settled s trial ∧
        offDefaultBoots start ops + trial.tryArmed.toNat ≤
          ops.countP Op.arms)

theorem transition_accounted {s : State} {op : Op} {trial next : BootState}
    {boots arms : Nat} (settled : Settled s trial)
    (transition : Transition s op trial next)
    (accounted : boots + trial.tryArmed.toNat ≤ arms) :
    boots + (isOffDefaultBoot s op).toNat + next.tryArmed.toNat ≤
      arms + op.arms.toNat := by
  have boot := isOffDefaultBoot_armed op settled
  have onDefault : (op = .boot → trial.tryArmed = false) →
      isOffDefaultBoot s op = false := by
    intro noTrial
    by_contra isOff
    obtain ⟨isBoot, armed⟩ := boot (by simpa using isOff)
    simp [noTrial isBoot] at armed
  cases transition with
  | stay noTrial => simp only [onDefault noTrial, Bool.toNat_false]; omega
  | rollback newest =>
      simp only [onDefault (by simp), Bool.toNat_false]; omega
  | arm isArming newest =>
      have notBoot : op ≠ .boot := by
        rintro rfl
        cases isArming
      simp only [onDefault (fun isBoot => absurd isBoot notBoot), isArming,
        Bool.toNat_false, Bool.toNat_true]
      omega
  | clear noBoot =>
      simp only [onDefault (fun isBoot => absurd isBoot noBoot),
        Bool.toNat_false]
      omega
  | promote runs => simp only [onDefault (by simp), Bool.toNat_false]; omega
  | consume armed =>
      have atMostOne := Bool.toNat_le (isOffDefaultBoot s .boot)
      simp only [armed, Bool.toNat_true, Bool.toNat_false] at accounted ⊢
      omega

theorem run_accounted {start s : State} {ops : List Op} (fresh : Fresh start)
    (distinct : DistinctReleases start.boot) (run : Run Step start ops s) :
    Accounted start ops s := by
  refine run.invariantWith ⟨distinct, .inl ⟨fresh, rfl⟩⟩ ?_
  intro earlier before op after reached ⟨distinctBefore, cases⟩ step
  refine ⟨step_distinct distinctBefore step, ?_⟩
  have counted : (earlier ++ [op]).countP Op.arms =
      earlier.countP Op.arms + op.arms.toNat := by
    cases arms : op.arms <;> simp [arms]
  rw [offDefaultBoots_snoc reached, counted]
  rcases cases with ⟨stillFresh, none⟩ | ⟨trial, settled, accounted⟩
  · have noBoot : isOffDefaultBoot before op = false := by
      cases op with
      | boot =>
          have enabled := step.1
          rw [Enabled, stillFresh.cfg] at enabled
          cases enabled
      | _ => rfl
    rcases step_fresh stillFresh step with again | ⟨-, next, set, arms⟩
    · exact .inl ⟨again, by simp [none, noBoot]⟩
    · refine .inr ⟨next, set, ?_⟩
      cases armed : next.tryArmed with
      | false => simp [none, noBoot]
      | true => simp [none, noBoot, arms armed]
  · obtain ⟨next, nextSettled, transition⟩ :=
      step_settled distinctBefore settled step
    exact .inr ⟨next, nextSettled,
      transition_accounted settled transition accounted⟩

/-- The default changes only by a confirmed trial or after a rollback. -/
theorem transition_default {s : State} {op : Op} {trial next : BootState}
    (transition : Transition s op trial next) :
    next.defaultKernel = trial.defaultKernel ∨
      (op = .confirm ∧ RunsPending s) ∨ ∃ rearm, op = .update true rearm := by
  cases transition with
  | stay noTrial => exact .inl rfl
  | rollback newest => exact .inr (.inr ⟨_, rfl⟩)
  | arm isArming newest => exact .inl rfl
  | clear noBoot => exact .inl rfl
  | promote runs => exact .inr (.inl ⟨rfl, runs⟩)
  | consume armed => exact .inl rfl

/-- Trial boots are safe: once a default is set, only a confirmed trial or a
rollback moves it, the boots outside it are paid for by arming operations,
and every boot that consumes no trial runs it. -/
theorem trial_boots_safe {start s : State} {ops : List Op}
    (fresh : Fresh start) (distinct : DistinctReleases start.boot)
    (run : Run Step start ops s) (isSet : (defaultKernel s).isSome) :
    (∀ op after, Step s op after →
      defaultKernel after = defaultKernel s ∨
        (op = .confirm ∧ RunsPending s) ∨
        ∃ rearm, op = .update true rearm) ∧
    offDefaultBoots start ops ≤ ops.countP Op.arms ∧
    (∀ after, Step s .boot after → ¬ TrialArmed s →
      defaultKernel after = defaultKernel s ∧
        defaultKernel s = some after.running.file) := by
  obtain ⟨distinctNow, cases⟩ := run_accounted fresh distinct run
  rcases cases with ⟨stillFresh, -⟩ | ⟨trial, settled, accounted⟩
  · simp [defaultKernel, stillFresh.env] at isSet
  refine ⟨?_, Nat.le_trans (Nat.le_add_right _ _) accounted, ?_⟩
  · intro op after step
    obtain ⟨next, nextSettled, transition⟩ :=
      step_settled distinctNow settled step
    rw [nextSettled.defaultKernel, settled.defaultKernel,
      Option.some.injEq]
    exact transition_default transition
  · rintro after ⟨-, rfl⟩ unarmed
    rw [trialArmed_iff settled] at unarmed
    obtain ⟨next, nextSettled, -, same, -, -, isFile⟩ :=
      unattendedBoot_settled settled
    simp only [unarmed] at isFile
    simp [perform, nextSettled.defaultKernel, same, settled.defaultKernel,
      isFile]

theorem vmlinuz_length {release : Bytes} (short : release.length ≤ 247) :
    (ascii "vmlinuz-" ++ release).length ≤ 255 := by
  simp [ascii]
  omega

/-- An image under its conventional name. -/
def vmlinuz (release : Bytes) (nonempty : release ≠ [])
    (short : release.length ≤ 247) : Image where
  file := ascii "vmlinuz-" ++ release
  release := release
  file_length := vmlinuz_length short
  release_nonempty := nonempty
  named := .inl rfl

def twoKernels : State where
  boot := [vmlinuz (ascii "6.1") (by decide) (by decide),
    vmlinuz (ascii "6.12") (by decide) (by decide)]
  env := fun _ => none
  cfg := none
  running := vmlinuz (ascii "6.1") (by decide) (by decide)

theorem trial_boots_safe_two_kernels :
    offDefaultBoots twoKernels [.update false true, .boot, .boot] = 1 ∧
      offDefaultBoots twoKernels [.update false true, .boot, .boot] ≤
        [Op.update false true, .boot, .boot].countP Op.arms := by
  have run : Run Step twoKernels
      ([] ++ [.update false true] ++ [.boot] ++ [.boot]) _ :=
    .snoc (.snoc (.snoc .nil ⟨trivial, rfl⟩) ⟨rfl, rfl⟩) ⟨rfl, rfl⟩
  refine ⟨by decide, ?_⟩
  exact (trial_boots_safe ⟨fun _ => rfl, rfl⟩ (by decide) run
    (by decide)).2.1

end SaltOS.Grub
