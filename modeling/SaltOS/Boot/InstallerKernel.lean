import SaltOS.Boot.Kernels
import SaltOS.Repo.VercmpOrder

/-!
# The kernel of the installer

`highest_kver` of `src/setup/main.cpp` takes the last release name in byte
order, while the boot commands order releases by `salt_vercmp`.
-/

namespace SaltOS.Boot

open Bytes Lib Repo

/-- The names in `/lib/modules` that do not begin with a dot. -/
def moduleReleases (entries : List Bytes) : List Bytes :=
  entries.filter fun name => name.head? ≠ some 46

/-- `highest_kver`, of the entries in the order of `readdir`, unless the
directory cannot be opened. -/
def highestKver (entries : Option (List Bytes)) : Bytes :=
  match entries with
  | none => []
  | some entries =>
      ((moduleReleases entries).insertionSort fun left right =>
        strcmp left right ≤ 0).getLast?.getD []

/-- A release that `salt_vercmp` puts no other one above. -/
structure NewestRelease (names : List Bytes) (name : Bytes) : Prop where
  member : name ∈ names
  highest : ∀ other ∈ names, vercmp other name ≤ 0

/-- An older release comes behind the newer one in byte order. -/
structure Outranks (older newer : Bytes) : Prop where
  behind : 0 < strcmp older newer
  older : vercmp older newer < 0

/-! ## Sorting by a comparator -/

section

variable {κ : Type} [LinearOrder κ] {compare : Bytes → Bytes → Int}
  {key : Bytes → κ}

theorem pairwise_sorted (compares : ComparesBy compare key)
    (names : List Bytes) :
    (names.insertionSort fun left right => compare left right ≤ 0).Pairwise
      fun left right => compare left right ≤ 0 := by
  have preorder := compares.totalPreorder
  have total : Std.Total fun left right => compare left right ≤ 0 :=
    ⟨preorder.total⟩
  have trans : IsTrans Bytes fun left right => compare left right ≤ 0 :=
    ⟨preorder.trans⟩
  exact List.pairwise_insertionSort _ names

/-- The last name is above all. -/
theorem getLast_sorted (compares : ComparesBy compare key)
    {names : List Bytes} {last : Bytes}
    (isLast : (names.insertionSort fun left right =>
      compare left right ≤ 0).getLast? = some last) :
    last ∈ names ∧ ∀ other ∈ names, compare other last ≤ 0 := by
  obtain ⟨front, isSorted⟩ := List.getLast?_eq_some_iff.mp isLast
  have perm := List.perm_insertionSort
    (fun left right => compare left right ≤ 0) names
  have sorted := pairwise_sorted compares names
  rw [isSorted] at perm sorted
  refine ⟨perm.mem_iff.mp (by simp), fun other member => ?_⟩
  rcases List.mem_append.mp (perm.mem_iff.mpr member) with inFront | isOther
  · exact (List.pairwise_append.mp sorted).2.2 other inFront last (by simp)
  · rw [List.mem_singleton.mp isOther, compares.le_zero_iff]

end

/-! ## The last name in byte order -/

theorem eq_of_strcmp {first second : Bytes} (same : strcmp first second = 0) :
    first = second := by
  have keys := (strcmp_comparesBy.eq_zero_iff first second).mp same
  exact List.map_injective_iff.mpr (fun _ _ => UInt8.toNat_inj.mp) keys

/-- No release is above the newest ones, and what is not older is one. -/
theorem NewestRelease.of_not_older {names : List Bytes} {newest name : Bytes}
    (isNewest : NewestRelease names newest) (member : name ∈ names)
    (notOlder : 0 ≤ vercmp name newest) : NewestRelease names name := by
  refine ⟨member, fun other isOther => ?_⟩
  apply vercmp_comparesBy.totalPreorder.trans _ newest _
  · exact isNewest.highest other isOther
  · rw [← not_lt, ← vercmp_comparesBy.totalPreorder.swap]
    exact not_lt.mpr notOlder

/-- The last name in byte order is a newest release exactly when a newest
release is outranked by no other. -/
theorem last_newest_iff {names : List Bytes} {name : Bytes}
    (member : name ∈ names) (last : ∀ other ∈ names, strcmp other name ≤ 0) :
    NewestRelease names name ↔ ∃ newest, NewestRelease names newest ∧
      ∀ other ∈ names, ¬Outranks other newest := by
  constructor
  · intro isNewest
    refine ⟨_, isNewest, fun other isOther outranks => ?_⟩
    exact absurd outranks.behind (not_lt.mpr (last other isOther))
  · rintro ⟨newest, isNewest, notOutranked⟩
    -- In byte order the last name is not in front of the newest one.
    rcases (last newest isNewest.member).lt_or_eq with ahead | same
    · apply isNewest.of_not_older member
      by_contra older
      apply notOutranked _ member
      constructor
      · exact (strcmp_comparesBy.totalPreorder.swap _ _).mp ahead
      · exact not_le.mp older
    · rw [← eq_of_strcmp same]
      exact isNewest

theorem highestKver_last {entries : List Bytes}
    (nonempty : moduleReleases entries ≠ []) :
    highestKver (some entries) ∈ moduleReleases entries ∧
      ∀ other ∈ moduleReleases entries,
        strcmp other (highestKver (some entries)) ≤ 0 := by
  apply getLast_sorted strcmp_comparesBy
  have sortedNonempty : (moduleReleases entries).insertionSort
      (fun left right => strcmp left right ≤ 0) ≠ [] := by
    rw [← List.length_pos_iff, List.length_insertionSort]
    exact List.length_pos_iff.mpr nonempty
  rw [highestKver, List.getLast?_eq_some_getLast sortedNonempty]
  rfl

/-- The installer takes a newest release exactly when one of them is outranked
by no other release. -/
theorem highestKver_newest_iff {entries : List Bytes}
    (nonempty : moduleReleases entries ≠ []) :
    NewestRelease (moduleReleases entries) (highestKver (some entries)) ↔
      ∃ newest, NewestRelease (moduleReleases entries) newest ∧
        ∀ other ∈ moduleReleases entries, ¬Outranks other newest := by
  obtain ⟨member, last⟩ := highestKver_last nonempty
  exact last_newest_iff member last

/-- A point release and the one before it. -/
theorem highestKver_newest_point :
    NewestRelease (moduleReleases (["..", "6.12.9", ".", "6.12.4"].map ascii))
      (highestKver (some (["..", "6.12.9", ".", "6.12.4"].map ascii))) := by
  apply (highestKver_newest_iff (by decide)).mpr
  refine ⟨ascii "6.12.9", ⟨by decide, by decide⟩, ?_⟩
  intro other member outranks
  have notBehind : ∀ other ∈ moduleReleases
      (["..", "6.12.9", ".", "6.12.4"].map ascii),
        ¬0 < strcmp other (ascii "6.12.9") := by decide
  exact notBehind other member outranks.behind

/-- Of `6.9.0` and `6.10.0` the installer takes the older one. -/
theorem highestKver_takes_older :
    moduleReleases (["6.9.0", "6.10.0"].map ascii) ≠ [] ∧
      ¬NewestRelease (moduleReleases (["6.9.0", "6.10.0"].map ascii))
        (highestKver (some (["6.9.0", "6.10.0"].map ascii))) := by
  refine ⟨by decide, fun isNewest => ?_⟩
  have older := isNewest.highest (ascii "6.10.0") (by decide)
  revert older
  decide

/-! ## The kernel that is booted -/

/-- `kernel_cmp` turns the order of the versions and of the names around. -/
theorem kernelCmp_comparesBy : ComparesBy kernelCmp fun file =>
    toLex (OrderDual.toDual (versionKey (kernelVersion file)),
      OrderDual.toDual (file.map UInt8.toNat)) := by
  constructor
  · intro first second
    rw [Prod.Lex.toLex_lt_toLex, OrderDual.toDual_lt_toDual,
      OrderDual.toDual_lt_toDual, OrderDual.toDual_inj,
      ← vercmp_comparesBy.below, ← strcmp_comparesBy.below,
      @eq_comm _ (versionKey (kernelVersion first)),
      ← vercmp_comparesBy.eq_zero_iff]
    unfold kernelCmp
    dsimp only
    split <;> omega
  · intro first second
    rw [Prod.Lex.toLex_lt_toLex, OrderDual.toDual_lt_toDual,
      OrderDual.toDual_lt_toDual, OrderDual.toDual_inj,
      ← vercmp_comparesBy.above, ← strcmp_comparesBy.above,
      ← vercmp_comparesBy.eq_zero_iff]
    unfold kernelCmp
    dsimp only
    split <;> omega

/-- The kernel that the boot commands choose has a newest release. -/
theorem newestKernel_newest {boot : BootDir} {file : Bytes}
    (newest : newestKernel boot = some file) :
    NewestRelease ((listKernels boot).map kernelVersion)
      (kernelVersion file) := by
  have sorted := pairwise_sorted kernelCmp_comparesBy
    ((boot.map Image.file).filter kernelNameOk)
  have listed := newestKernel_mem newest
  refine ⟨List.mem_map_of_mem listed, fun other isOther => ?_⟩
  obtain ⟨otherFile, member, rfl⟩ := List.mem_map.mp isOther
  have ordered : kernelCmp file otherFile ≤ 0 := by
    obtain ⟨others, isList⟩ := List.head?_eq_some_iff.mp newest
    unfold listKernels at isList member
    rw [isList] at sorted member
    rcases List.mem_cons.mp member with rfl | later
    · rw [kernelCmp_comparesBy.le_zero_iff]
    · exact List.rel_of_pairwise_cons sorted later
  unfold kernelCmp at ordered
  dsimp only at ordered
  split at ordered <;> omega

/-- Two newest releases have one version. -/
theorem NewestRelease.same_version {names : List Bytes} {first second : Bytes}
    (one : NewestRelease names first) (other : NewestRelease names second) :
    vercmp first second = 0 := by
  have below := one.highest second other.member
  have above := other.highest first one.member
  rw [vercmp_comparesBy.le_zero_iff] at below above
  rw [vercmp_comparesBy.eq_zero_iff]
  exact le_antisymm above below

/-- The installer builds for a release of the version that is booted exactly
when a newest release is outranked by none. -/
theorem highestKver_boots_iff {entries : List Bytes} {boot : BootDir}
    {file : Bytes} (newest : newestKernel boot = some file)
    (same : ∀ name, name ∈ moduleReleases entries ↔
      name ∈ (listKernels boot).map kernelVersion) :
    vercmp (highestKver (some entries)) (kernelVersion file) = 0 ↔
      ∃ newest, NewestRelease (moduleReleases entries) newest ∧
        ∀ other ∈ moduleReleases entries, ¬Outranks other newest := by
  have booted := newestKernel_newest newest
  have isNewest : NewestRelease (moduleReleases entries)
      (kernelVersion file) :=
    ⟨(same _).mpr booted.member,
      fun other member => booted.highest other ((same other).mp member)⟩
  obtain ⟨member, last⟩ :=
    highestKver_last (List.ne_nil_of_mem isNewest.member)
  rw [← last_newest_iff member last]
  constructor
  · intro equal
    exact isNewest.of_not_older member equal.ge
  · exact fun highest => highest.same_version isNewest

end SaltOS.Boot
