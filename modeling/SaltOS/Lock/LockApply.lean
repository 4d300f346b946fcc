import SaltOS.Lock.Lock
import SaltOS.Toml.Fuel

/-!
# Applying a lockfile converges

After the native part of `lock_apply` has succeeded, the database has every
package of the lock in the pinned version, with the pinned digest, and no
other package.
-/

namespace SaltOS.Lock

open Lib Repo Toml Install Txn

/-! ## What is loaded -/

theorem loadDistinct_nodup {α : Type} {name : α → Bytes}
    {twice : Bytes → Bytes} {load : Nat → Node → Except Bytes α}
    {index : Nat} {seen : List Bytes} {nodes : List Node} {items : List α}
    (loaded : loadDistinct name twice load index seen nodes = .ok items) :
    (items.map name).Nodup ∧ ∀ item ∈ items, name item ∉ seen := by
  induction nodes generalizing index seen items with
  | nil =>
      cases loaded
      simp
  | cons node nodes induction =>
      unfold loadDistinct at loaded
      cases one : load index node with
      | error message =>
          rw [one] at loaded
          cases loaded
      | ok item =>
          rw [one] at loaded
          by_cases isSeen : name item ∈ seen
          · simp only [bind, Except.bind, if_pos isSeen] at loaded
            cases loaded
          simp only [bind, Except.bind, if_neg isSeen] at loaded
          cases others : loadDistinct name twice load (index + 1)
              (name item :: seen) nodes with
          | error message =>
              rw [others] at loaded
              cases loaded
          | ok rest =>
              rw [others] at loaded
              cases loaded
              obtain ⟨distinct, fresh⟩ := induction others
              have new : ∀ other ∈ rest, name other ≠ name item ∧
                  name other ∉ seen := by
                intro other member
                simpa using fresh other member
              constructor
              · rw [List.map_cons, List.nodup_cons]
                refine ⟨?_, distinct⟩
                intro again
                obtain ⟨other, member, same⟩ := List.mem_map.mp again
                exact (new other member).1 same
              · intro other member
                rcases List.mem_cons.mp member with rfl | inside
                · exact isSeen
                · exact (new other inside).2

theorem loadTree_distinct {path : Bytes} {root : Table} {file : LockFile}
    (loaded : loadTree path root = .ok file) :
    (file.native.map LockEntry.name).Nodup := by
  unfold loadTree at loaded
  simp only [bind, Except.bind] at loaded
  split at loaded
  · cases loaded
  split at loaded
  · cases loaded
  rename_i native isNative
  split at loaded
  · cases loaded
  split at loaded
  · cases loaded
  cases loaded
  exact (loadDistinct_nodup isNative).1

theorem lockLoad_extends {fuel more : Nat} (le : fuel ≤ more)
    (path : Bytes) (content : Option Bytes) :
    Extends (lockLoad fuel path content) (lockLoad more path content) :=
  .bind (parseFile_extends le content) fun _ => .refl _

/-- No name is pinned twice in a lockfile that `lock_load` accepts. -/
theorem lockLoad_distinct {path : Bytes} {content : Option Bytes}
    {file : LockFile}
    (loaded : Returns (fun fuel => lockLoad fuel path content) (.ok file)) :
    (file.native.map LockEntry.name).Nodup := by
  obtain ⟨bound, returns⟩ := loaded
  have isFile := returns bound le_rfl
  unfold lockLoad at isFile
  cases parsed : parseFile bound content with
  | error stop =>
      simp only [parsed, bind, Except.bind] at isFile
      cases isFile
  | ok root =>
      cases root with
      | none =>
          simp only [parsed, bind, Except.bind] at isFile
          cases isFile
      | some root =>
          simp only [parsed, bind, Except.bind] at isFile
          exact loadTree_distinct (Except.ok.inj isFile)

/-! ## What is compared -/

/-- An installed package is the one that the entry pins. -/
def Matches (db : Db) (entry : LockEntry) : Prop :=
  ∃ row, db.getPkg entry.name = some row ∧
    sameVersion entry row = true ∧ sameSha entry row = true

/-- The entries that `lock_apply` installs. -/
def LockCompare.wanted (compare : LockCompare) : List LockEntry :=
  compare.missing ++ compare.changed.map Prod.fst

/-- A round leaves a matching entry out and adds any other one to what is
wanted. -/
theorem compareRound_wanted (db : Db) (compare : LockCompare)
    (entry : LockEntry) :
    Matches db entry ∧ (compareRound db compare entry).wanted =
        compare.wanted ∨
      ¬ Matches db entry ∧ (compareRound db compare entry).wanted.Perm
        (entry :: compare.wanted) := by
  unfold compareRound
  cases found : db.getPkg entry.name with
  | none =>
      right
      refine ⟨?_, ?_⟩
      · rintro ⟨row, isRow, -⟩
        rw [found] at isRow
        cases isRow
      · simp [LockCompare.wanted]
  | some row =>
      dsimp only
      by_cases same : sameVersion entry row = true ∧ sameSha entry row = true
      · rw [if_pos same]
        exact .inl ⟨⟨row, found, same⟩, rfl⟩
      · rw [if_neg same]
        right
        refine ⟨?_, ?_⟩
        · rintro ⟨other, isRow, both⟩
          rw [found] at isRow
          cases isRow
          exact same both
        · rw [LockCompare.wanted, LockCompare.wanted, List.map_append,
            ← List.append_assoc]
          exact List.perm_append_singleton entry _

open Classical in
theorem compareLock_wanted (db : Db) (lock : List LockEntry) :
    (compareLock db lock).wanted.Perm
      (lock.filter fun entry => ¬ Matches db entry) := by
  have rounds : ∀ (lock : List LockEntry) (compare : LockCompare),
      (lock.foldl (compareRound db) compare).wanted.Perm
        ((lock.filter fun entry => ¬ Matches db entry) ++
          compare.wanted) := by
    intro lock
    induction lock with
    | nil => exact fun _ => .rfl
    | cons entry lock induction =>
        intro compare
        rw [List.foldl_cons]
        refine (induction _).trans ?_
        rcases compareRound_wanted db compare entry with
          ⟨isMatch, same⟩ | ⟨noMatch, more⟩
        · rw [List.filter_cons_of_neg (by simpa using isMatch), same]
        · rw [List.filter_cons_of_pos (by simpa using noMatch)]
          exact (more.append_left _).trans List.perm_middle
  simpa [LockCompare.wanted, compareLock] using rounds lock ⟨[], [], [], 0⟩

theorem mem_wanted {db : Db} {lock : List LockEntry} {entry : LockEntry} :
    entry ∈ (compareLock db lock).wanted ↔
      entry ∈ lock ∧ ¬ Matches db entry := by
  classical
  rw [(compareLock_wanted db lock).mem_iff, List.mem_filter,
    decide_eq_true_iff]

theorem wanted_distinct {db : Db} {lock : List LockEntry}
    (distinct : (lock.map LockEntry.name).Nodup) :
    ((compareLock db lock).wanted.map LockEntry.name).Nodup := by
  classical
  rw [((compareLock_wanted db lock).map LockEntry.name).nodup_iff]
  exact distinct.sublist (List.filter_sublist.map LockEntry.name)

theorem mem_extra {db : Db} {lock : List LockEntry} {name : Bytes} :
    name ∈ (compareLock db lock).extra ↔
      Installed db.tables name ∧ name ∉ lock.map LockEntry.name := by
  have sorted : ∀ name, name ∈ db.listInstalled.map PackageRow.name ↔
      Installed db.tables name := by
    intro name
    exact ((List.perm_insertionSort _ db.tables.packages).map
      PackageRow.name).mem_iff
  rw [compareLock, List.mem_filter, sorted, decide_eq_true_iff]

/-- The database is what the lock says. -/
def Settled (db : Db) (lock : List LockEntry) : Prop :=
  (∀ entry ∈ lock, Matches db entry) ∧
    ∀ name, Installed db.tables name → name ∈ lock.map LockEntry.name

/-- The comparison reports nothing. -/
def LockCompare.Clean (compare : LockCompare) : Prop :=
  compare.missing = [] ∧ compare.changed = [] ∧ compare.extra = []

theorem clean_iff_settled {db : Db} {lock : List LockEntry} :
    (compareLock db lock).Clean ↔ Settled db lock := by
  have wanted : (compareLock db lock).wanted = [] ↔
      ∀ entry ∈ lock, Matches db entry := by
    simp only [List.eq_nil_iff_forall_not_mem, mem_wanted, not_and,
      not_not]
  have extra : (compareLock db lock).extra = [] ↔
      ∀ name, Installed db.tables name → name ∈ lock.map LockEntry.name := by
    simp only [List.eq_nil_iff_forall_not_mem, mem_extra, not_and, not_not]
  rw [Settled, ← wanted, ← extra, LockCompare.Clean, LockCompare.wanted,
    List.append_eq_nil_iff, List.map_eq_nil_iff, and_assoc]

/-- Nothing is planned where nothing is reported. -/
theorem lockPlan_of_clean (index : Option Index) {compare : LockCompare}
    (clean : compare.Clean) : lockPlan index compare = some ⟨[], []⟩ := by
  obtain ⟨noMissing, noChanged, noExtra⟩ := clean
  cases index with
  | none => simp [lockPlan, noMissing, noChanged, noExtra]
  | some index =>
      simp [lockPlan, noMissing, noChanged, noExtra, orderByDeps]

/-! ## What is planned -/

theorem pinned_some {index : Index} {entry : LockEntry} {found : Entry}
    (isPinned : pinned index entry = some found) :
    found ∈ index.items ∧ found.name = entry.name ∧
      found.version = entry.version ∧ found.release = entry.release ∧
      found.hashOk = true ∧ found.sha256 = entry.sha256 := by
  obtain ⟨isExact, checked⟩ := Option.filter_eq_some_iff.mp isPinned
  have member := List.mem_of_find?_eq_some isExact
  have fields := List.find?_some isExact
  simp only [decide_eq_true_eq] at fields
  simp only [Bool.and_eq_true, decide_eq_true_eq] at checked
  exact ⟨member, fields.1, fields.2.1, fields.2.2, checked.1,
    checked.2.symm⟩

/-- The entries that are installed are those that the wanted ones pin. -/
structure Pins (index : Index) (wanted : List LockEntry)
    (entries : List Entry) : Prop where
  names : entries.map Entry.name = wanted.map LockEntry.name
  sound : ∀ found ∈ entries, ∃ entry ∈ wanted,
    pinned index entry = some found
  complete : ∀ entry ∈ wanted, ∃ found ∈ entries,
    pinned index entry = some found

theorem pins_of_mapM {index : Index} {wanted : List LockEntry}
    {entries : List Entry}
    (found : wanted.mapM (pinned index) = some entries) :
    Pins index wanted entries := by
  induction wanted generalizing entries with
  | nil =>
      cases found
      exact ⟨rfl, by simp, by simp⟩
  | cons entry wanted induction =>
      rw [List.mapM_cons] at found
      cases one : pinned index entry with
      | none => simp [one] at found
      | some first =>
          cases others : wanted.mapM (pinned index) with
          | none => simp [one, others] at found
          | some rest =>
              obtain rfl : first :: rest = entries := by
                simpa [one, others] using found
              obtain ⟨names, sound, complete⟩ := induction others
              refine ⟨?_, ?_, ?_⟩
              · rw [List.map_cons, List.map_cons, names,
                  (pinned_some one).2.1]
              · intro other member
                rcases List.mem_cons.mp member with rfl | inside
                · exact ⟨entry, List.mem_cons_self, one⟩
                · obtain ⟨pin, isWanted, isPinned⟩ := sound other inside
                  exact ⟨pin, List.mem_cons_of_mem entry isWanted, isPinned⟩
              · intro pin member
                rcases List.mem_cons.mp member with rfl | inside
                · exact ⟨first, List.mem_cons_self, one⟩
                · obtain ⟨other, isFound, isPinned⟩ := complete pin inside
                  exact ⟨other, List.mem_cons_of_mem first isFound, isPinned⟩

/-- The plan that a comparison leads to. -/
structure PlanFor (index : Option Index) (compare : LockCompare)
    (plan : NativePlan) : Prop where
  remove : plan.remove = compare.extra
  distinct : plan.names.Nodup
  sound : ∀ found ∈ plan.install, ∃ known entry, index = some known ∧
    entry ∈ compare.wanted ∧ pinned known entry = some found
  complete : ∀ entry ∈ compare.wanted, entry.name ∈ plan.names

theorem lockPlan_planFor {index : Option Index} {compare : LockCompare}
    {plan : NativePlan}
    (distinct : (compare.wanted.map LockEntry.name).Nodup)
    (planned : lockPlan index compare = some plan) :
    PlanFor index compare plan := by
  cases index with
  | none =>
      simp only [lockPlan] at planned
      split at planned
      · rename_i noneWanted
        cases planned
        refine ⟨rfl, List.nodup_nil, by simp, ?_⟩
        intro entry member
        rw [LockCompare.wanted, noneWanted] at member
        cases member
      · cases planned
  | some known =>
      simp only [lockPlan, Option.map_eq_some_iff] at planned
      obtain ⟨entries, found, rfl⟩ := planned
      have pins : Pins known compare.wanted entries := pins_of_mapM found
      have entriesDistinct : (entries.map Entry.name).Nodup := by
        rw [pins.names]
        exact distinct
      have perm := orderByDeps_perm entriesDistinct
      have mem_names : ∀ name, name ∈ (orderByDeps entries).map Entry.name ↔
          name ∈ entries.map Entry.name :=
        fun name => (perm.map Entry.name).mem_iff
      refine ⟨rfl, (perm.map Entry.name).nodup_iff.mpr entriesDistinct,
        ?_, ?_⟩
      · intro one member
        obtain ⟨entry, isWanted, isPinned⟩ :=
          pins.sound one (perm.mem_iff.mp member)
        exact ⟨known, entry, rfl, isWanted, isPinned⟩
      · intro entry isWanted
        apply (mem_names entry.name).mpr
        rw [pins.names]
        exact List.mem_map_of_mem isWanted

/-! ## What is left -/

/-- The version of an entry is the one of its archive. -/
def VersionAgrees (session : Session) (entry : Entry) : Prop :=
  ∀ archive, (session.artifact entry).opened = some archive →
    archive.pkg.version = entry.version ∧
      archive.pkg.release = entry.release

section

variable {session : Session} {flags : TxnFlags} {index : Option Index}
  {db after : Db} {lock : List LockEntry} {plan : NativePlan}

/-- A wanted entry matches the row that its artifact brings. -/
theorem matches_new {known : Index} {entry : LockEntry} {found : Entry}
    {archive : Archive} {id : Nat}
    (isPinned : pinned known entry = some found)
    (agrees : VersionAgrees session found)
    (brought : Brought session flags found archive) :
    let row := (plannedFor session flags found).row archive id
    sameVersion entry row = true ∧ sameSha entry row = true := by
  obtain ⟨-, -, version, release, hashOk, sha256⟩ := pinned_some isPinned
  obtain ⟨archiveVersion, archiveRelease⟩ := agrees archive brought.opened
  have hash := fetchAndVerify_hash brought.verified hashOk
  have valid : sha256HexValid entry.sha256 = true := sha256 ▸ hashOk
  constructor
  · simp [sameVersion, Planned.row, Db.packageRow, archiveVersion,
      archiveRelease, version, release]
  · simp [sameSha, Planned.row, plannedFor, plannedOf, hash, sha256,
      Option.filter_some_pos valid]

theorem settled_of_applied (distinct : (lock.map LockEntry.name).Nodup)
    (planFor : PlanFor index (compareLock db lock) plan)
    (agree : ∀ known, index = some known →
      ∀ entry ∈ known.items, VersionAgrees session entry)
    (applied : Applied session flags plan db.tables after.tables) :
    Settled after lock := by
  have lockName : ∀ name ∈ plan.names, name ∈ lock.map LockEntry.name := by
    intro name planned
    obtain ⟨found, inPlan, rfl⟩ := List.mem_map.mp planned
    obtain ⟨known, entry, -, isWanted, isPinned⟩ := planFor.sound found inPlan
    rw [(pinned_some isPinned).2.1]
    exact List.mem_map_of_mem (mem_wanted.mp isWanted).1
  constructor
  · intro entry inLock
    by_cases isMatch : Matches db entry
    · -- The entry matched before, so nothing of its name was touched.
      have notRemoved : entry.name ∉ plan.remove := by
        rw [planFor.remove]
        intro isExtra
        exact (mem_extra.mp isExtra).2 (List.mem_map_of_mem inLock)
      have notPlanned : entry.name ∉ plan.names := by
        intro planned
        obtain ⟨found, inPlan, sameName⟩ := List.mem_map.mp planned
        obtain ⟨known, other, -, isWanted, isPinned⟩ :=
          planFor.sound found inPlan
        obtain ⟨otherInLock, noMatch⟩ := mem_wanted.mp isWanted
        have same : other = entry :=
          List.inj_on_of_nodup_map distinct otherInLock inLock
            ((pinned_some isPinned).2.1.symm.trans sameName)
        exact noMatch (same ▸ isMatch)
      obtain ⟨row, isRow, same⟩ := isMatch
      refine ⟨row, ?_, same⟩
      rw [applied.getPkg_untouched notRemoved notPlanned]
      exact isRow
    · -- The entry was installed; every row of its name comes from there.
      have isWanted : entry ∈ (compareLock db lock).wanted :=
        mem_wanted.mpr ⟨inLock, isMatch⟩
      obtain ⟨found, inPlan, sameName⟩ := List.mem_map.mp
        (planFor.complete entry isWanted)
      obtain ⟨known, other, isIndex, otherWanted, isPinned⟩ :=
        planFor.sound found inPlan
      obtain rfl : other = entry := List.inj_on_of_nodup_map distinct
        (mem_wanted.mp otherWanted).1 inLock
        ((pinned_some isPinned).2.1.symm.trans sameName)
      obtain ⟨archive, id, brought, isRow⟩ :=
        applied.getPkg_planned planFor.distinct inPlan
      refine ⟨_, sameName ▸ isRow, ?_⟩
      exact matches_new isPinned
        (agree known isIndex found (pinned_some isPinned).1) brought
  · intro name installed
    rcases (applied.installed_iff planFor.distinct).mp installed with
      planned | ⟨before, notRemoved⟩
    · exact lockName name planned
    · by_contra unlocked
      rw [planFor.remove] at notRemoved
      exact notRemoved (mem_extra.mpr ⟨before, unlocked⟩)

end

/-- When the native part of `lock_apply` succeeds, comparing the database with
the lock reports nothing, and whatever the index, a second `lock_apply` plans
no native change. -/
theorem lockApplyNative_converges (session : Session) (flags : TxnFlags)
    {index : Option Index} {path : Bytes} {content : Option Bytes}
    {file : LockFile} {world : World}
    (loaded : Returns (fun fuel => lockLoad fuel path content) (.ok file))
    (idle : world.saved = none) (deletesRun : world.DeletesRun)
    (agree : ∀ known, index = some known →
      ∀ entry ∈ known.items, VersionAgrees session entry)
    (wetRun : flags.dryRun = false) (installs : flags.downloadOnly = false) :
    Ends (lockApplyNative session flags index file.native world)
      (fun code after => code = 0 →
        (compareLock after.closed file.native).Clean ∧
          ∀ later, lockPlan later (compareLock after.closed file.native) =
            some ⟨[], []⟩)
      (fun _ _ => False) := by
  have distinct := lockLoad_distinct loaded
  have converged : ∀ after : World, Settled after.closed file.native →
      (compareLock after.closed file.native).Clean ∧
        ∀ later, lockPlan later (compareLock after.closed file.native) =
          some ⟨[], []⟩ := by
    intro after settled
    have clean := clean_iff_settled.mpr settled
    exact ⟨clean, fun later => lockPlan_of_clean later clean⟩
  refine Ends.bindOk rfl ?_
  cases planned : lockPlan index (compareLock world.db file.native) with
  | none =>
      intro isZero
      cases isZero
  | some plan =>
      have planFor := lockPlan_planFor (wanted_distinct distinct) planned
      refine Ends.ite ?_ ?_
      · rintro ⟨noInstall, noRemove⟩ -
        apply converged
        have closed : world.closed = world.db := by
          rw [World.closed, idle]
          rfl
        rw [closed]
        constructor
        · intro entry inLock
          by_contra noMatch
          have planned := planFor.complete entry
            (mem_wanted.mpr ⟨inLock, noMatch⟩)
          rw [NativePlan.names, noInstall] at planned
          cases planned
        · intro name installed
          by_contra unlocked
          have removed := mem_extra.mpr ⟨installed, unlocked⟩
          rw [← planFor.remove, noRemove] at removed
          cases removed
      · intro nonEmpty
        apply (nativeTransaction_outcome session
          { flags with allowUnverified := false } (ascii "lock-apply") plan
          idle deletesRun).mono
        · intro code after outcome isZero
          apply converged
          cases outcome with
          | unchanged _ reason =>
              rcases reason isZero with dry | only | ⟨noRemove, noInstall⟩
              · rw [wetRun] at dry
                cases dry
              · rw [installs] at only
                cases only
              · exact absurd ⟨noInstall, noRemove⟩ nonEmpty
          | applied _ _ _ saved applied =>
              have closed : after.closed = after.db := by
                rw [World.closed, saved]
                rfl
              rw [closed]
              exact settled_of_applied distinct planFor agree applied
        · exact fun _ _ impossible => impossible

/-- A lock that wants `app` upgraded, `core` installed and `lib` gone. -/
def swapLockText : Bytes :=
  ascii "[[native]]\nname = \"app\"\nversion = \"2\"\n" ++
  ascii "grain_sha256 = \"sha256:" ++ smallHash ++ ascii "\"\n" ++
  ascii "[[native]]\nname = \"core\"\nversion = \"1\"\nrelease = 1\n" ++
  ascii "grain_sha256 = \"sha256:" ++ smallHash ++ ascii "\"\n"

def swapLock : LockFile where
  native := [
    ⟨ascii "app", ascii "2", 1, [], smallHash, ascii "current", []⟩,
    ⟨ascii "core", ascii "1", 1, [], smallHash, ascii "current", []⟩]
  strata := []

def swapIndex : Index where
  repoName := some (ascii "current")
  arch := some (ascii "x86_64")
  items := swapPlan.install

theorem swapLock_loads : Returns
    (fun fuel => lockLoad fuel (ascii "system.lock.toml")
      (some swapLockText)) (.ok swapLock) := by
  have isOk : lockLoad 1 (ascii "system.lock.toml") (some swapLockText) =
      .ok (.ok swapLock) := by
    decide +kernel
  exact Returns.of_ok (fun _ le => lockLoad_extends le _ _) isOk

theorem swapLock_done :
    exitCode (lockApplyNative smallSession plainFlags (some swapIndex)
      swapLock.native smallWorld) = some 0 := by
  decide +kernel

theorem swapLock_converges : ∃ after,
    lockApplyNative smallSession plainFlags (some swapIndex)
      swapLock.native smallWorld = .ok 0 after ∧ (0 = 0 →
        (compareLock after.closed swapLock.native).Clean ∧
          ∀ later, lockPlan later (compareLock after.closed
            swapLock.native) = some ⟨[], []⟩) := by
  have idle := smallWorld_idle
  have deletesRun := smallWorld_deletesRun
  have done := swapLock_done
  have agree : ∀ known, some swapIndex = some known →
      ∀ entry ∈ known.items, VersionAgrees smallSession entry := by
    rintro known - entry - archive opened
    cases opened
    exact ⟨rfl, rfl⟩
  generalize smallWorld = world at *
  have ends := lockApplyNative_converges smallSession plainFlags
    swapLock_loads idle deletesRun agree rfl rfl
  exact ends_of_exitCode done ends

end SaltOS.Lock
