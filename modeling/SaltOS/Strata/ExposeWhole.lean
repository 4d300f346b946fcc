import SaltOS.Strata.Shims

/-!
# Exposing whole strata

Whichever strata are exposed as a whole, one after the other: no row and no
shim that was there is touched, nothing that the host has is shadowed, and
whatever could be exposed is exposed, so that exposing a stratum once more
does nothing.
-/

namespace SaltOS.Strata

open Lib Util

variable {env : Environment} {root : Bytes} {world before middle after : World}

/-! ## Paths of commands -/

/-- The directories in which a command is looked for. -/
theorem binDir_front {dir : String}
    (member : dir ∈ hostBinDirs ++ stratumBinDirs) (base : Bytes) :
    joinPath base (ascii dir) = front base ++ ascii dir := by
  have starts : ∀ dir ∈ hostBinDirs ++ stratumBinDirs,
      ∃ byte rest, ascii dir = byte :: rest ∧ byte ≠ 47 := by
    intro dir member
    have ⟨nonempty, differs⟩ := (by decide : ∀ dir ∈ hostBinDirs ++
      stratumBinDirs, ascii dir ≠ [] ∧ (ascii dir).head? ≠ some 47) dir member
    obtain ⟨byte, rest, isDir⟩ := List.exists_cons_of_ne_nil nonempty
    rw [isDir] at differs
    exact ⟨byte, rest, isDir, fun same => differs (congrArg some same)⟩
  obtain ⟨byte, rest, isDir, differs⟩ := starts dir member
  rw [isDir]
  exact joinPath_front base differs

theorem joinPath_prefix (dir name : Bytes) : dir <+: joinPath dir name := by
  unfold joinPath
  split
  · rename_i isEmpty
    rw [isEmpty]
    exact List.nil_prefix
  split
  · exact List.prefix_rfl
  · rw [List.append_assoc]
    exact List.prefix_append _ _

/-- The shims are no commands of the host. -/
theorem hostPath_ne_shimPath {dir : String} (member : dir ∈ hostBinDirs)
    (command : Bytes) {name : Bytes} (plain : Plain name) :
    joinPath (joinPath root (ascii dir)) command ≠ shimPath root name := by
  intro same
  have start := joinPath_prefix (joinPath root (ascii dir)) command
  rw [same, shimPath_eq root plain, shimDir,
    binDir_front (List.mem_append_left _ member), List.append_assoc,
    List.prefix_append_right_inj] at start
  have shorter := List.prefix_of_prefix_length_le start
    (List.prefix_append (ascii "usr/local/salt/shims") (47 :: name))
    ((by decide : ∀ dir ∈ hostBinDirs, (ascii dir).length ≤
      (ascii "usr/local/salt/shims").length) dir member)
  exact (by decide : ∀ dir ∈ hostBinDirs,
    ¬ ascii dir <+: ascii "usr/local/salt/shims") dir member shorter

theorem append_slash_cancel {first second name other : Bytes}
    (plain : Plain name) (otherPlain : Plain other)
    (same : first ++ 47 :: name = second ++ 47 :: other) : first = second := by
  obtain ⟨rest, isSecond, isName⟩ | ⟨rest, isFirst, isOther⟩ :=
    List.append_eq_append_iff.mp same
  · cases rest with
    | nil => rw [isSecond, List.append_nil]
    | cons byte rest =>
        have member : (47 : UInt8) ∈ name := by
          rw [(List.cons.inj isName).2]
          simp
        exact absurd member plain.2
  · cases rest with
    | nil => rw [isFirst, List.append_nil]
    | cons byte rest =>
        have member : (47 : UInt8) ∈ other := by
          rw [(List.cons.inj isOther).2]
          simp
        exact absurd member otherPlain.2

/-- The commands of a stratum are no shims, wherever the stratum is. -/
theorem foundPath_ne_shimPath {entries : Bytes → Option (List Bytes)}
    {base : Bytes} {found : Bytes × Bytes}
    (member : found ∈ foundNames entries base) (plain : Plain found.2)
    {name : Bytes} (namePlain : Plain name) :
    joinPath found.1 found.2 ≠ shimPath root name := by
  obtain ⟨dir, isDir, inDir⟩ := List.mem_flatMap.mp member
  obtain ⟨command, -, rfl⟩ := List.mem_map.mp inDir
  have isFront := binDir_front (List.mem_append_right hostBinDirs isDir) base
  have last : (ascii dir).getLast? = some 110 :=
    (by decide : ∀ dir ∈ stratumBinDirs, (ascii dir).getLast? = some 110)
      dir isDir
  have frontLast : (joinPath base (ascii dir)).getLast? = some 110 := by
    rw [isFront, List.getLast?_append, last]
    rfl
  have shimLast : (shimDir root).getLast? = some 115 := by
    have isLast : (ascii "usr/local/salt/shims").getLast? = some 115 := by
      decide
    rw [shimDir, List.getLast?_append, isLast]
    rfl
  have nonempty : joinPath base (ascii dir) ≠ [] := by
    intro isEmpty
    rw [isEmpty] at frontLast
    cases frontLast
  rw [joinPath_name nonempty (by rw [frontLast]; decide) plain,
    shimPath_eq root namePlain]
  intro same
  have sameDir := append_slash_cancel plain namePlain same
  rw [sameDir, shimLast] at frontLast
  exact absurd frontLast (by decide)

/-! ## What exposing a stratum leaves as it is -/

/-- A name that the host does not have and that is not exposed. -/
structure Unclaimed (root : Bytes) (world : World) (name : Bytes) : Prop where
  plain : Plain name
  notHost : hostHasCommand root name world = false
  notExposed : world.exposed.get name = none

/-- Rows that were there are kept, and what is new is the command of its name,
in a stratum, where there was none. -/
structure Widened (root : Bytes) (before after : World) : Prop where
  strata : after.strata = before.strata
  kept : ∀ name row, before.exposed.get name = some row →
    after.exposed.get name = some row
  added : ∀ name row, before.exposed.get name = none →
    after.exposed.get name = some row →
    Unclaimed root before name ∧ (before.stratum row.stratum).isSome ∧
      row = ⟨name, row.stratum, name, .cli, shimPath root name⟩
  files : ∀ path, after.files path ≠ before.files path →
    ∃ name, path = shimPath root name ∧ Unclaimed root before name

namespace Widened

theorem refl (world : World) : Widened root world world where
  strata := rfl
  kept _ _ found := found
  added name row notFound found := by
    rw [notFound] at found
    cases found
  files _ differs := absurd rfl differs

theorem files_eq (widened : Widened root before after) {path : Bytes}
    (noShim : ∀ name, Plain name → path ≠ shimPath root name) :
    after.files path = before.files path := by
  by_contra differs
  obtain ⟨name, isShim, isUnclaimed⟩ := widened.files path differs
  exact noShim name isUnclaimed.plain isShim

theorem hostHasCommand_eq (widened : Widened root before after)
    (name : Bytes) :
    hostHasCommand root name after = hostHasCommand root name before := by
  have samePath : ∀ dir ∈ hostBinDirs,
      after.pathExists (joinPath (joinPath root (ascii dir)) name) =
        before.pathExists (joinPath (joinPath root (ascii dir)) name) := by
    intro dir member
    unfold World.pathExists
    rw [widened.files_eq fun other plain =>
      hostPath_ne_shimPath member name plain]
  rw [Bool.eq_iff_iff, hostHasCommand, hostHasCommand, List.any_eq_true,
    List.any_eq_true]
  constructor
  · intro ⟨dir, member, there⟩
    exact ⟨dir, member, samePath dir member ▸ there⟩
  · intro ⟨dir, member, there⟩
    exact ⟨dir, member, (samePath dir member).symm ▸ there⟩

theorem unclaimed (widened : Widened root before after) {name : Bytes}
    (isUnclaimed : Unclaimed root after name) : Unclaimed root before name where
  plain := isUnclaimed.plain
  notHost := by
    rw [← widened.hostHasCommand_eq]
    exact isUnclaimed.notHost
  notExposed := by
    cases found : before.exposed.get name with
    | none => rfl
    | some row =>
        have kept := widened.kept name row found
        rw [isUnclaimed.notExposed] at kept
        cases kept

theorem trans (first : Widened root before middle)
    (second : Widened root middle after) : Widened root before after where
  strata := second.strata.trans first.strata
  kept name row found := second.kept name row (first.kept name row found)
  added name row notFound found := by
    cases foundThen : middle.exposed.get name with
    | none =>
        obtain ⟨isUnclaimed, known, isRow⟩ :=
          second.added name row foundThen found
        refine ⟨first.unclaimed isUnclaimed, ?_, isRow⟩
        rw [World.stratum, first.strata] at known
        exact known
    | some other =>
        have same := second.kept name other foundThen
        rw [found] at same
        rw [Option.some.inj same]
        exact first.added name other notFound foundThen
  files path differs := by
    by_cases same : middle.files path = before.files path
    · rw [← same] at differs
      obtain ⟨name, isShim, isUnclaimed⟩ := second.files path differs
      exact ⟨name, isShim, first.unclaimed isUnclaimed⟩
    · exact first.files path same

end Widened

/-! ## One stratum -/

/-- Only the shim of the name is written. -/
theorem Unclaimed.write_files {name : Bytes}
    (isUnclaimed : Unclaimed root world name)
    (text : Bytes) (mode : Nat) {path : Bytes}
    (differs : (world.write (shimPath root name) text mode).files path ≠
      world.files path) :
    ∃ name, path = shimPath root name ∧ Unclaimed root world name := by
  refine ⟨name, ?_, isUnclaimed⟩
  by_contra other
  exact differs (Function.update_of_ne other _ _)

/-- A shim whose row is not recorded. -/
theorem Unclaimed.written {name : Bytes}
    (isUnclaimed : Unclaimed root world name)
    (text : Bytes) (mode : Nat) :
    Widened root world (world.write (shimPath root name) text mode) where
  strata := rfl
  kept _ _ found := found
  added _ _ notFound found := by
    have absent := notFound.symm.trans found
    cases absent
  files _ differs := isUnclaimed.write_files text mode differs

theorem Unclaimed.recorded {name stratum : Bytes}
    (isUnclaimed : Unclaimed root world name)
    (known : (world.stratum stratum).isSome) (text : Bytes) (mode : Nat) :
    Widened root world { world.write (shimPath root name) text mode with
      exposed := world.exposed.put
        ⟨name, stratum, name, .cli, shimPath root name⟩ } where
  strata := rfl
  kept other row found := by
    rw [KeyedTable.get_put, if_neg]
    · exact found
    · intro (same : name = other)
      rw [← same, isUnclaimed.notExposed] at found
      cases found
  added other row notFound found := by
    rw [KeyedTable.get_put] at found
    split at found
    · rename_i same
      obtain rfl : name = other := same
      obtain rfl := Option.some.inj found
      exact ⟨isUnclaimed, known, rfl⟩
    · rw [notFound] at found
      cases found
  files _ differs := isUnclaimed.write_files text mode differs

theorem exposeAdd_widened {stratum name : Bytes}
    (isUnclaimed : Unclaimed root world name) :
    Widened root world (exposeAdd env root stratum name name .cli world).2 := by
  unfold exposeAdd
  extract_lets path planted
  split
  · exact Widened.refl world
  rename_i known
  split
  · exact Widened.refl world
  split
  · exact isUnclaimed.written _ _
  · have isKnown : (world.stratum stratum).isSome := by
      simpa [Option.isSome_iff_ne_none] using known
    exact isUnclaimed.recorded isKnown _ _

/-- Nothing is to be done about an entry of a directory. -/
def Served (root : Bytes) (world : World) (found : Bytes × Bytes) : Prop :=
  found.2.head? = some 46 ∨
    runnable world (joinPath found.1 found.2) = false ∨
    hostHasCommand root found.2 world = true ∨
    (world.exposed.get found.2).isSome = true

theorem exposeFound_cases (env : Environment) (root : Bytes) (row : StratumRow)
    (found : Bytes × Bytes) (progress : Nat × World) :
    (Served root progress.2 found ∧
      exposeFound env root row found.1 progress found.2 = progress) ∨
    (¬ Served root progress.2 found ∧
      (exposeFound env root row found.1 progress found.2).2 =
        (exposeAdd env root row.name found.2 found.2 .cli progress.2).2) := by
  obtain ⟨count, world⟩ := progress
  unfold exposeFound
  dsimp only
  split
  · rename_i hidden
    exact .inl ⟨.inl hidden, rfl⟩
  rename_i shown
  split
  · rename_i noCommand
    exact .inl ⟨.inr (.inl (Bool.not_eq_true _ ▸ noCommand)), rfl⟩
  rename_i isCommand
  split
  · rename_i ofHost
    exact .inl ⟨.inr (.inr (.inl ofHost)), rfl⟩
  rename_i notHost
  split
  · rename_i exposed
    exact .inl ⟨.inr (.inr (.inr exposed)), rfl⟩
  · rename_i notExposed
    refine .inr ⟨?_, rfl⟩
    rintro (hidden | noCommand | ofHost | exposed)
    · exact shown hidden
    · apply isCommand
      rw [noCommand]
      exact Bool.false_ne_true
    · exact notHost ofHost
    · exact notExposed exposed

theorem exposeFound_widened {row : StratumRow} {found : Bytes × Bytes}
    (plain : Plain found.2) (progress : Nat × World) :
    Widened root progress.2
      (exposeFound env root row found.1 progress found.2).2 := by
  obtain ⟨-, isSame⟩ | ⟨notServed, isAdded⟩ :=
    exposeFound_cases env root row found progress
  · rw [isSame]
    exact Widened.refl _
  · rw [isAdded]
    apply exposeAdd_widened
    constructor
    · exact plain
    · apply Bool.eq_false_of_not_eq_true
      exact fun ofHost => notServed (.inr (.inr (.inl ofHost)))
    · apply Option.not_isSome_iff_eq_none.mp
      exact fun exposed => notServed (.inr (.inr (.inr exposed)))

theorem Served.widened {found : Bytes × Bytes}
    (served : Served root before found)
    (noShim : ∀ name, Plain name →
      joinPath found.1 found.2 ≠ shimPath root name)
    (widened : Widened root before after) : Served root after found := by
  obtain hidden | noCommand | ofHost | exposed := served
  · exact .inl hidden
  · apply Or.inr
    apply Or.inl
    unfold runnable at noCommand ⊢
    rw [widened.files_eq noShim]
    exact noCommand
  · apply Or.inr
    apply Or.inr
    apply Or.inl
    rw [widened.hostHasCommand_eq]
    exact ofHost
  · obtain ⟨row, isRow⟩ := Option.isSome_iff_exists.mp exposed
    apply Or.inr
    apply Or.inr
    apply Or.inr
    rw [widened.kept _ row isRow]
    rfl

/-- Shims can be written and rows recorded. -/
structure Environment.Works (env : Environment) : Prop where
  writes : ∀ path, env.writes path = true
  records : ∀ name, env.records name = true

theorem Environment.Works.exposes (works : env.Works) {stratum : Bytes}
    (known : (world.stratum stratum).isSome) (command name : Bytes)
    (kind : Kind) :
    ((exposeAdd env root stratum command name kind world).2.exposed.get
      name).isSome := by
  have isThere : ¬ (world.stratum stratum).isNone = true := by
    simpa [Option.isSome_iff_ne_none] using known
  unfold exposeAdd
  extract_lets path planted
  rw [if_neg isThere, if_neg (by rw [works.writes]; simp),
    if_neg (by rw [works.records]; simp)]
  dsimp only
  rw [KeyedTable.get_put, if_pos rfl]
  rfl

theorem served_exposeFound (works : env.Works) {row : StratumRow}
    {progress : Nat × World} (known : (progress.2.stratum row.name).isSome)
    (found : Bytes × Bytes) :
    Served root (exposeFound env root row found.1 progress found.2).2
      found := by
  obtain ⟨served, isSame⟩ | ⟨-, isAdded⟩ :=
    exposeFound_cases env root row found progress
  · rw [isSame]
    exact served
  · rw [isAdded]
    exact .inr (.inr (.inr (works.exposes known _ _ _)))

theorem Served.exposeFound {row : StratumRow} {found : Bytes × Bytes}
    {progress : Nat × World} (served : Served root progress.2 found) :
    exposeFound env root row found.1 progress found.2 = progress := by
  obtain ⟨-, isSame⟩ | ⟨notServed, -⟩ :=
    exposeFound_cases env root row found progress
  · exact isSame
  · exact absurd served notServed

/-! ## Whole strata -/

theorem exposeLoop_widened {row : StratumRow} {all : List (Bytes × Bytes)}
    (plain : ∀ found ∈ all, Plain found.2) (progress : Nat × World) :
    Widened root progress.2 (all.foldl (fun progress found =>
      exposeFound env root row found.1 progress found.2) progress).2 := by
  induction all generalizing progress with
  | nil => exact Widened.refl _
  | cons found all induction =>
      obtain ⟨first, rest⟩ := List.forall_mem_cons.mp plain
      exact (exposeFound_widened first progress).trans (induction rest _)

theorem served_exposeLoop (works : env.Works) {row : StratumRow}
    {all : List (Bytes × Bytes)} (plain : ∀ found ∈ all, Plain found.2)
    (noShim : ∀ found ∈ all, ∀ name, Plain name →
      joinPath found.1 found.2 ≠ shimPath root name)
    (progress : Nat × World)
    (known : (progress.2.stratum row.name).isSome) :
    ∀ found ∈ all, Served root (all.foldl (fun progress found =>
      exposeFound env root row found.1 progress found.2) progress).2
      found := by
  induction all generalizing progress with
  | nil =>
      intro found member
      cases member
  | cons first all induction =>
      obtain ⟨firstPlain, restPlain⟩ := List.forall_mem_cons.mp plain
      obtain ⟨firstAside, restAside⟩ := List.forall_mem_cons.mp noShim
      have widened : Widened root progress.2
          (exposeFound env root row first.1 progress first.2).2 :=
        exposeFound_widened firstPlain progress
      intro found member
      obtain rfl | later := List.mem_cons.mp member
      · apply Served.widened _ firstAside (exposeLoop_widened restPlain _)
        exact served_exposeFound works known found
      · apply induction restPlain restAside _ _ found later
        rw [World.stratum, widened.strata]
        exact known

theorem exposeLoop_served {row : StratumRow} {all : List (Bytes × Bytes)}
    {progress : Nat × World}
    (served : ∀ found ∈ all, Served root progress.2 found) :
    all.foldl (fun progress found =>
      exposeFound env root row found.1 progress found.2) progress =
        progress := by
  induction all with
  | nil => rfl
  | cons found all induction =>
      obtain ⟨first, rest⟩ := List.forall_mem_cons.mp served
      rw [List.foldl_cons, first.exposeFound]
      exact induction rest

variable {row : StratumRow} {entries : Bytes → Option (List Bytes)}

theorem exposeAll_widened (plain : PlainEntries entries) (world : World) :
    Widened root world (exposeAll env entries root row world).2 := by
  unfold exposeAll
  split
  · exact Widened.refl world
  · exact exposeLoop_widened (fun found member => plain_of_found plain member)
      (0, world)

theorem served_exposeAll (works : env.Works) (plain : PlainEntries entries)
    (known : (world.stratum row.name).isSome) :
    ∀ found ∈ foundNames entries (stratumBase root row),
      Served root (exposeAll env entries root row world).2 found := by
  have isThere : ¬ (world.stratum row.name).isNone = true := by
    simpa [Option.isSome_iff_ne_none] using known
  unfold exposeAll
  rw [if_neg isThere]
  apply served_exposeLoop works
  · exact fun found member => plain_of_found plain member
  · intro found member name namePlain
    exact foundPath_ne_shimPath member (plain_of_found plain member) namePlain
  · exact known

/-- Exposing a stratum again does nothing when all of it is served. -/
theorem exposeAll_again (known : (world.stratum row.name).isSome)
    (served : ∀ found ∈ foundNames entries (stratumBase root row),
      Served root world found) :
    exposeAll env entries root row world = (some 0, world) := by
  have isThere : ¬ (world.stratum row.name).isNone = true := by
    simpa [Option.isSome_iff_ne_none] using known
  unfold exposeAll
  rw [if_neg isThere, exposeLoop_served served]

/-- A stratum that is exposed, with the environment that is met and what its
directories hold. -/
structure Exposing where
  env : Environment
  row : StratumRow
  entries : Bytes → Option (List Bytes)

def Exposing.Step (root : Bytes) (before : World) (exposing : Exposing)
    (after : World) : Prop :=
  PlainEntries exposing.entries ∧
    after = (exposeAll exposing.env exposing.entries root exposing.row
      before).2

/-- What holds of the strata exposed so far. -/
structure Exposed (root : Bytes) (start : World) (exposings : List Exposing)
    (final : World) : Prop where
  widened : Widened root start final
  plain : ∀ exposing ∈ exposings, PlainEntries exposing.entries
  served : ∀ exposing ∈ exposings, exposing.env.Works →
    (start.stratum exposing.row.name).isSome →
    ∀ found ∈ foundNames exposing.entries (stratumBase root exposing.row),
      Served root final found

theorem Exposed.step {start : World} {exposings : List Exposing}
    {exposing : Exposing} (exposed : Exposed root start exposings before)
    (step : exposing.Step root before after) :
    Exposed root start (exposings ++ [exposing]) after := by
  obtain ⟨plain, rfl⟩ := step
  have widened : Widened root before (exposeAll exposing.env exposing.entries
      root exposing.row before).2 :=
    exposeAll_widened plain before
  constructor
  · exact exposed.widened.trans widened
  · rw [List.forall_mem_append, List.forall_mem_singleton]
    exact ⟨exposed.plain, plain⟩
  · rw [List.forall_mem_append, List.forall_mem_singleton]
    constructor
    · intro earlier member works known found isFound
      have foundPlain := plain_of_found (exposed.plain earlier member) isFound
      apply (exposed.served earlier member works known found isFound).widened
        _ widened
      exact fun name namePlain =>
        foundPath_ne_shimPath isFound foundPlain namePlain
    · intro works known
      apply served_exposeAll works plain
      rw [World.stratum, exposed.widened.strata]
      exact known

def voidExposing : Exposing where
  env := sureEnvironment
  row := voidRow
  entries := voidEntries

def voidManaged : World :=
  (exposePm sureEnvironment (ascii "/") (ascii "void")
    (ascii "xbps-install") voidWorld).2

end SaltOS.Strata
