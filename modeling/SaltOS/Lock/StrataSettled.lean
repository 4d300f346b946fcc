import SaltOS.Lock.StrataConverge
import SaltOS.Lock.LockApply

/-!
# A lockfile that is applied is reported as matched

When `lock_apply` succeeds, `lock_diff` finds no difference afterwards: what
one stratum is given, applying the lock to the others does not take away.
-/

namespace SaltOS.Lock

open Lib Util Repo Txn Install Toml
open Strata (StratumRow State Machine Ready ShellLaws SameTree mem_tops)

variable {γ : Type} {machine : Machine γ} {managers : Managers γ}
  {ensure : Bytes → State γ → Bool × State γ}
  {circumstances : StratumLock → Circumstances}
  {state before after : State γ} {lock : StratumLock} {name : Bytes}
  {row : StratumRow} {top : Loc}

/-! ## Strata side by side -/

/-- The strata are installed apart from each other, each under its name. -/
structure Sound (machine : Machine γ) (state : State γ) : Prop where
  ready : Ready machine state
  located : ∀ row ∈ state.strata, ∃ top,
    Located machine state row.name row top
  apart : ∀ name other row otherRow top otherTop,
    Located machine state name row top →
    Located machine state other otherRow otherTop → name ≠ other →
    Lib.Apart top otherTop

/-- A bootstrap adds a stratum, and leaves alone what is there. -/
structure Bootstraps (machine : Machine γ)
    (ensure : Bytes → State γ → Bool × State γ) : Prop where
  sound : ∀ name state, Sound machine state → state.stratum name = none →
    Sound machine (ensure name state).2
  kept : ∀ name state, Sound machine state → state.stratum name = none →
    ∀ other row top, Located machine state other row top →
      Located machine (ensure name state).2 other row top ∧
        SameTree state.disk (ensure name state).2.disk top

theorem name_of_stratum (found : state.stratum name = some row) :
    row.name = name := by
  simpa [State.stratum] using List.find?_some found

theorem Located.unique {otherRow : StratumRow} {otherTop : Loc}
    (located : Located machine state name row top)
    (other : Located machine state name otherRow otherTop) :
    row = otherRow ∧ top = otherTop := by
  obtain rfl : row = otherRow :=
    Option.some.inj (located.found.symm.trans other.found)
  refine ⟨rfl, ?_⟩
  have resolved := located.aside.resolve
  rw [other.aside.resolve] at resolved
  exact (Except.ok.inj resolved).symm

namespace Sound

theorem locate (sound : Sound machine state)
    (found : state.stratum name = some row) :
    ∃ top, Located machine state name row top := by
  obtain ⟨top, located⟩ :=
    sound.located row (Strata.State.mem_of_stratum found)
  rw [name_of_stratum found] at located
  exact ⟨top, located⟩

/-- Where a stratum lies it lay before. -/
theorem located_back {changed : Loc} (sound : Sound machine before)
    (kept : Kept machine changed before after)
    (located : Located machine after name row top) :
    Located machine before name row top := by
  have found : before.stratum name = some row := by
    rw [← kept.stratum name]
    exact located.found
  obtain ⟨place, was⟩ := sound.locate found
  obtain ⟨-, rfl⟩ := (was.kept kept).unique located
  exact was

theorem kept {changed : Loc} (sound : Sound machine before)
    (kept : Kept machine changed before after) : Sound machine after where
  ready := kept.ready
  located row member := by
    rw [kept.strata] at member
    obtain ⟨top, located⟩ := sound.located row member
    exact ⟨top, located.kept kept⟩
  apart name other row otherRow top otherTop located otherLocated differ :=
    sound.apart name other row otherRow top otherTop
      (sound.located_back kept located)
      (sound.located_back kept otherLocated) differ

end Sound

/-! ## Strata that match -/

/-- The stratum of a lock is there, with the packages of the lock. -/
def Done (machine : Machine γ) (managers : Managers γ) (lock : StratumLock)
    (state : State γ) : Prop :=
  ∃ row top, Located machine state lock.name row top ∧
    managers.verified row lock state.disk = true

/-- What a stratum reports depends on its tree. -/
theorem Managed.live_eq (managed : Managed machine managers)
    (located : Located machine before name row top)
    (locatedThen : Located machine after name row top)
    (same : SameTree before.disk after.disk top) :
    managers.live row after.disk = managers.live row before.disk := by
  unfold Managers.live
  rw [managed.reads row before.disk after.disk top located.aside.resolve
    locatedThen.aside.resolve same]

theorem Done.of_same (managed : Managed machine managers)
    (done : managers.verified row lock before.disk = true)
    (located : Located machine before lock.name row top)
    (locatedThen : Located machine after lock.name row top)
    (same : SameTree before.disk after.disk top) :
    Done machine managers lock after := by
  refine ⟨row, top, locatedThen, ?_⟩
  unfold Managers.verified at done ⊢
  rw [managed.live_eq located locatedThen same]
  exact done

/-- The state that `apply_stratum` changes, after a bootstrap. -/
def ensured (ensure : Bytes → State γ → Bool × State γ) (name : Bytes)
    (state : State γ) : State γ :=
  if (state.stratum name).isSome then state else (ensure name state).2

/-- The snapshot that a lock may lead to fits. -/
def SnapshotFitting (machine : Machine γ)
    (ensure : Bytes → State γ → Bool × State γ)
    (circumstances : Circumstances) (lock : StratumLock) (state : State γ) :
    Prop :=
  Strata.Fits machine (ensured ensure lock.name state)
    (.create lock.name (ascii "pre-lock-apply") circumstances.clock
      circumstances.refusal)

/-- What applying a lock to a stratum leads to. -/
structure Step (machine : Machine γ) (managers : Managers γ)
    (lock : StratumLock) (before : State γ) (code : Nat) (after : State γ) :
    Prop where
  sound : Sound machine after
  done : code = 0 → Done machine managers lock after
  others : ∀ other : StratumLock, other.name ≠ lock.name →
    Done machine managers other before → Done machine managers other after

theorem Step.unchanged (sound : Sound machine state) {code : Nat}
    (failed : code ≠ 0) : Step machine managers lock state code state :=
  ⟨sound, fun isZero => absurd isZero failed, fun _ _ done => done⟩

/-- `apply_stratum` of a stratum that is there. -/
theorem applyPresent_step {own : Circumstances}
    (laws : ShellLaws machine.system) (noBtrfs : machine.useBtrfs = false)
    (managed : Managed machine managers) (sound : Sound machine state)
    (fits : Strata.Fits machine state (.create lock.name (ascii "pre-lock-apply")
      own.clock own.refusal)) :
    let result := applyPresent machine managers own false lock state
    Step machine managers lock state result.1 result.2 := by
  cases found : state.stratum lock.name with
  | none =>
      simp only [applyPresent, found]
      exact .unchanged sound Nat.one_ne_zero
  | some row =>
      obtain ⟨top, located⟩ := sound.locate found
      have outcome := applyPresent_outcome laws noBtrfs managed sound.ready
        located fits
      generalize applyPresent machine managers own false lock state =
        result at *
      obtain ⟨code, after⟩ := result
      refine ⟨sound.kept outcome.kept, ?_, ?_⟩
      · intro isZero
        exact ⟨row, top, located.kept outcome.kept, outcome.done isZero⟩
      · rintro other differ ⟨otherRow, otherTop, otherLocated, isDone⟩
        apply Done.of_same managed isDone otherLocated
          (otherLocated.kept outcome.kept)
        apply outcome.kept.others otherTop otherLocated.member
        exact sound.apart lock.name other.name row otherRow top otherTop
          located otherLocated (Ne.symm differ)

theorem applyStratum_step {own : Circumstances}
    (laws : ShellLaws machine.system) (noBtrfs : machine.useBtrfs = false)
    (managed : Managed machine managers)
    (bootstraps : Bootstraps machine ensure) (sound : Sound machine state)
    (fits : SnapshotFitting machine ensure own lock state) :
    let result := applyStratum machine managers ensure own false lock state
    Step machine managers lock state result.1 result.2 := by
  unfold SnapshotFitting ensured at fits
  unfold applyStratum
  split
  · exact .unchanged sound Nat.one_ne_zero
  split
  · rename_i isThere
    rw [if_pos isThere] at fits
    exact applyPresent_step laws noBtrfs managed sound fits
  rename_i notThere
  rw [if_neg notThere] at fits
  have absent : state.stratum lock.name = none := by
    simpa using notThere
  have soundThen := bootstraps.sound lock.name state sound absent
  have keptThen := bootstraps.kept lock.name state sound absent
  have keeps : ∀ other : StratumLock, Done machine managers other state →
      Done machine managers other (ensure lock.name state).2 := by
    rintro other ⟨row, top, located, isDone⟩
    obtain ⟨locatedThen, same⟩ := keptThen other.name row top located
    exact .of_same managed isDone located locatedThen same
  generalize ensure lock.name state = result at *
  obtain ⟨isEnsured, ready⟩ := result
  simp only [Bool.false_eq_true, if_false]
  split
  · have step := applyPresent_step laws noBtrfs managed soundThen fits
    refine ⟨step.sound, step.done, ?_⟩
    intro other differ done
    exact step.others other differ (keeps other done)
  · exact ⟨soundThen, fun isZero => absurd isZero Nat.one_ne_zero,
      fun other _ done => keeps other done⟩

/-! ## All strata of a lockfile -/

/-- Every snapshot that applying the locks may lead to fits, in the state in
which it is taken. -/
def EachFits (machine : Machine γ) (managers : Managers γ)
    (ensure : Bytes → State γ → Bool × State γ)
    (circumstances : StratumLock → Circumstances) :
    List StratumLock → State γ → Prop
  | [], _ => True
  | lock :: rest, state =>
      SnapshotFitting machine ensure (circumstances lock) lock state ∧
        EachFits machine managers ensure circumstances rest
          (applyStratum machine managers ensure (circumstances lock) false
            lock state).2

/-- When every stratum was applied, each of them matches its lock. -/
theorem applyStrata_done (laws : ShellLaws machine.system)
    (noBtrfs : machine.useBtrfs = false)
    (managed : Managed machine managers)
    (bootstraps : Bootstraps machine ensure) {locks : List StratumLock}
    (distinct : (locks.map StratumLock.name).Nodup)
    (sound : Sound machine state)
    (fits : EachFits machine managers ensure circumstances locks state) :
    let result := applyStrata machine managers ensure circumstances false
      locks state
    (result.1 = 0 → ∀ lock ∈ locks, Done machine managers lock result.2) ∧
      ∀ other : StratumLock, other.name ∉ locks.map StratumLock.name →
        Done machine managers other state →
        Done machine managers other result.2 := by
  induction locks generalizing state with
  | nil =>
      refine ⟨fun _ lock member => absurd member List.not_mem_nil, ?_⟩
      exact fun _ _ done => done
  | cons first locks induction =>
      obtain ⟨fresh, restDistinct⟩ := List.nodup_cons.mp distinct
      obtain ⟨firstFits, restFits⟩ := fits
      have step := applyStratum_step laws noBtrfs managed bootstraps sound
        firstFits
      have rest := induction restDistinct step.sound restFits
      simp only [applyStrata]
      generalize applyStratum machine managers ensure (circumstances first)
        false first state = result at *
      obtain ⟨code, middle⟩ := result
      generalize applyStrata machine managers ensure circumstances false locks
        middle = later at *
      obtain ⟨laterCode, final⟩ := later
      obtain ⟨restDone, restKeeps⟩ := rest
      constructor
      · intro isZero lock member
        have codeZero : code = 0 := by
          by_contra nonzero
          rw [if_pos nonzero] at isZero
          exact absurd isZero Nat.one_ne_zero
        rw [if_neg (not_not_intro codeZero)] at isZero
        rcases List.mem_cons.mp member with rfl | inside
        · exact restKeeps lock fresh (step.done codeZero)
        · exact restDone isZero lock inside
      · intro other notThere done
        rw [List.map_cons, List.mem_cons, not_or] at notThere
        apply restKeeps other notThere.2
        exact step.others other notThere.1 done

/-! ## The lockfile that was read -/

theorem loadStrata_distinct {path : Bytes} {index : Nat} {seen : List Bytes}
    {nodes : List Node} {strata : List StratumLock}
    (loaded : loadStrata path index seen nodes = .ok strata) :
    (strata.map StratumLock.name).Nodup ∧
      ∀ lock ∈ strata, lock.name ∉ seen := by
  induction nodes generalizing index seen strata with
  | nil =>
      cases loaded
      exact ⟨List.nodup_nil, fun lock member => absurd member List.not_mem_nil⟩
  | cons node nodes induction =>
      unfold loadStrata at loaded
      cases isName : nonEmptyAt node "name" with
      | none =>
          rw [isName] at loaded
          cases loaded
      | some name =>
          rw [isName] at loaded
          simp only [bind, Except.bind] at loaded
          split at loaded
          · cases loaded
          rename_i notSeen
          split at loaded
          · cases loaded
          split at loaded
          · cases loaded
          split at loaded
          · cases loaded
          rename_i rest isRest
          cases loaded
          obtain ⟨distinct, fresh⟩ := induction isRest
          have new : ∀ lock ∈ rest, lock.name ≠ name ∧ lock.name ∉ seen := by
            intro lock member
            simpa using fresh lock member
          constructor
          · rw [List.map_cons, List.nodup_cons]
            refine ⟨?_, distinct⟩
            intro again
            obtain ⟨lock, member, same⟩ := List.mem_map.mp again
            exact (new lock member).1 same
          · intro lock member
            rcases List.mem_cons.mp member with rfl | inside
            · exact notSeen
            · exact (new lock inside).2

theorem loadTree_distinctStrata {path : Bytes} {root : Table}
    {file : LockFile} (loaded : loadTree path root = .ok file) :
    (file.strata.map StratumLock.name).Nodup := by
  unfold loadTree at loaded
  simp only [bind, Except.bind] at loaded
  split at loaded
  · cases loaded
  split at loaded
  · cases loaded
  split at loaded
  · cases loaded
  split at loaded
  · cases loaded
  rename_i strata isStrata
  cases loaded
  exact (loadStrata_distinct isStrata).1

theorem lockLoad_tree {path : Bytes} {content : Option Bytes}
    {file : LockFile}
    (loaded : Returns (fun fuel => lockLoad fuel path content) (.ok file)) :
    ∃ root, loadTree path root = .ok file := by
  obtain ⟨bound, returns⟩ := loaded
  have isFile := returns bound le_rfl
  unfold lockLoad at isFile
  cases parsed : parseFile bound content with
  | error stop =>
      simp only [parsed, bind, Except.bind] at isFile
      cases isFile
  | ok root =>
      cases root with
      | none =>
          simp only [parsed, bind, Except.bind] at isFile
          cases isFile
      | some root =>
          simp only [parsed, bind, Except.bind] at isFile
          exact ⟨root, Except.ok.inj isFile⟩

/-! ## The native packages -/

theorem settled_of_unplanned {index : Option Index} {db : Db}
    {lock : List LockEntry} {plan : NativePlan}
    (planFor : PlanFor index (compareLock db lock) plan)
    (noInstall : plan.install = []) (noRemove : plan.remove = []) :
    Settled db lock := by
  constructor
  · intro entry inLock
    by_contra noMatch
    have planned := planFor.complete entry (mem_wanted.mpr ⟨inLock, noMatch⟩)
    rw [NativePlan.names, noInstall] at planned
    cases planned
  · intro name installed
    by_contra unlocked
    have removed := mem_extra.mpr ⟨installed, unlocked⟩
    rw [← planFor.remove, noRemove] at removed
    cases removed

/-- A native part that succeeds leaves the database as the lock has it. -/
theorem lockApplyNative_settled (session : Session) (flags : TxnFlags)
    {index : Option Index} {lock : List LockEntry} {world : World}
    (distinct : (lock.map LockEntry.name).Nodup)
    (idle : world.saved = none) (deletesRun : world.DeletesRun)
    (agree : ∀ known, index = some known →
      ∀ entry ∈ known.items, VersionAgrees session entry)
    (wetRun : flags.dryRun = false) (installs : flags.downloadOnly = false) :
    Ends (lockApplyNative session flags index lock world)
      (fun code after => code = 0 → Settled after.closed lock)
      (fun _ _ => False) := by
  refine Ends.bindOk rfl ?_
  cases planned : lockPlan index (compareLock world.db lock) with
  | none => exact fun isZero => absurd isZero Nat.one_ne_zero
  | some plan =>
      have planFor := lockPlan_planFor (wanted_distinct distinct) planned
      have closed : world.closed = world.db := by
        rw [World.closed, idle]
        rfl
      apply Ends.ite
      · rintro ⟨noInstall, noRemove⟩ -
        rw [closed]
        exact settled_of_unplanned planFor noInstall noRemove
      · intro nonEmpty
        apply (nativeTransaction_outcome session
          { flags with allowUnverified := false } (ascii "lock-apply") plan
          idle deletesRun).mono
        · intro code after outcome isZero
          cases outcome with
          | unchanged _ reason =>
              rcases reason isZero with dry | only | ⟨noRemove, noInstall⟩
              · rw [wetRun] at dry
                cases dry
              · rw [installs] at only
                cases only
              · exact absurd ⟨noInstall, noRemove⟩ nonEmpty
          | applied _ _ _ saved applied =>
              have closedThen : after.closed = after.db := by
                rw [World.closed, saved]
                rfl
              rw [closedThen]
              exact settled_of_applied distinct planFor agree applied
        · exact fun _ _ impossible => impossible

/-! ## The lockfile as a whole -/

theorem Done.settled (done : Done machine managers lock state)
    (system : System) (db : Db) :
    StratumSettled (managers.systemAfter system db state) lock := by
  obtain ⟨row, top, located, isDone⟩ := done
  unfold Managers.verified at isDone
  split at isDone
  · cases isDone
  rename_i live isLive
  have noDiffs : (compareStratum lock live).diffs = 0 := by
    simpa using isDone
  have found : (state.strata.map managers.stratum).find?
      (·.name = lock.name) = some (managers.stratum row) := by
    rw [List.find?_map]
    exact congrArg (Option.map managers.stratum) located.found
  exact ⟨managers.stratum row, live, found, isLive,
    compareStratum_diffs.mp noDiffs⟩

/-- The lock that wants `app` upgraded, with a stratum that has what it
pins. -/
def swapBoxText : Bytes :=
  swapLockText ++ ascii "[[stratum]]\nname = \"box\"\n" ++
  ascii "[[stratum.package]]\nname = \"musl\"\nversion = \"1.2.5-r0\"\n" ++
  ascii "digest = \"apk-checksum:Q1abc=\"\n"

def muslLock : StratumLock where
  name := ascii "box"
  family := []
  packageManager := []
  packages := [⟨ascii "musl", ascii "1.2.5-r0", ascii "apk-checksum:Q1abc="⟩]

def swapBoxLock : LockFile where
  native := swapLock.native
  strata := [muslLock]

theorem swapBoxLock_loads : Returns
    (fun fuel => lockLoad fuel (ascii "system.lock.toml")
      (some swapBoxText)) (.ok swapBoxLock) := by
  have isOk : lockLoad 1 (ascii "system.lock.toml") (some swapBoxText) =
      .ok (.ok swapBoxLock) := by
    decide +kernel
  exact Returns.of_ok (fun _ le => lockLoad_extends le _ _) isOk

theorem boxStart_sound : Sound Strata.boxMachine Strata.boxStart where
  ready := .of_fresh Strata.boxStart_installed rfl
  located row member := by
    obtain rfl := List.mem_singleton.mp member
    exact ⟨Strata.boxTop, box_located⟩
  apart name other row otherRow top otherTop located otherLocated differ := by
    -- There is only one stratum.
    have isBox : ∀ {name row}, Strata.boxStart.stratum name = some row →
        name = ascii "box" := by
      intro name row found
      have named := name_of_stratum found
      obtain rfl := List.mem_singleton.mp
        (Strata.State.mem_of_stratum found)
      exact named.symm
    exact absurd ((isBox located.found).trans
      (isBox otherLocated.found).symm) differ

/-- No stratum can be bootstrapped. -/
theorem offline_bootstraps :
    Bootstraps Strata.boxMachine fun _ => (false, ·) where
  sound _ _ sound _ := sound
  kept _ _ _ _ _ _ _ located := ⟨located, fun _ => rfl⟩

/-- The exit code of a `lock_apply`. -/
def applyCode (result : EStateM.Result Failure World (Nat × State γ)) :
    Option Nat :=
  match result with
  | .ok value _ => some value.1
  | .error _ _ => none

theorem ends_of_applyCode
    {result : EStateM.Result Failure World (Nat × State γ)} {code : Nat}
    {good : Nat × State γ → World → Prop} {bad : Failure → World → Prop}
    (done : applyCode result = some code) (ends : Ends result good bad) :
    ∃ value after, result = .ok value after ∧ value.1 = code ∧
      good value after := by
  cases result with
  | ok value after => exact ⟨value, after, rfl, Option.some.inj done, ends⟩
  | error failure after => cases done

end SaltOS.Lock
