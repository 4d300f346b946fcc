import SaltOS.Strata.Expose

/-!
# The loops of `apply_expose`

What one entry and one stale row leave, what both loops leave together, and
which entry decides about the row of an alias.
-/

namespace SaltOS.Strata

open Lib Config

variable {env : Environment} {root : Bytes}

/-! ## One entry -/

/-- The row that `apply_expose` is about. -/
def configRow (root : Bytes) (entry : ExposeConfig) : ExposedRow :=
  ⟨entry.aliasName, entry.stratum, entry.command, .config,
    shimPath root entry.aliasName⟩

/-- The row that a desktop entry brings along. -/
def cliRow (root : Bytes) (entry : ExposeConfig) : ExposedRow :=
  ⟨entry.command, entry.stratum, entry.command, .cli,
    shimPath root entry.command⟩

/-- Carrying the entry out records its command as an alias. -/
def Plants (env : Environment) (root : Bytes) (entry : ExposeConfig) :
    Prop :=
  entry.desktop = true ∧ env.writes (shimPath root entry.command) = true ∧
    env.records entry.command = true

instance (entry : ExposeConfig) : Decidable (Plants env root entry) :=
  inferInstanceAs (Decidable (_ ∧ _ ∧ _))

/-- What carrying an entry out does to the table. -/
def carry (env : Environment) (root : Bytes)
    (table : KeyedTable ExposedRow.aliasName) (entry : ExposeConfig) :
    KeyedTable ExposedRow.aliasName :=
  (if Plants env root entry then table.put (cliRow root entry)
    else table).put (configRow root entry)

/-- The paths at which carrying an entry out writes. -/
def written (env : Environment) (root : Bytes) (entry : ExposeConfig) :
    List Bytes :=
  (if entry.desktop then [desktopPath root entry.stratum entry.command]
    else []) ++
  (if entry.desktop ∧ env.writes (shimPath root entry.command) then
    [shimPath root entry.command] else []) ++
  [shimPath root entry.aliasName]

theorem pathExists_write (world : World) (path text : Bytes) (mode : Nat)
    (other : Bytes) :
    (world.write path text mode).pathExists other = true ↔
      other = path ∨ world.pathExists other = true := by
  unfold World.pathExists World.write
  by_cases same : other = path
  · simp [same]
  · simp [same]

theorem pathExists_remove (world : World) (path other : Bytes) :
    (world.remove env path).pathExists other = true ↔
      world.pathExists other = true ∧
        ¬ (env.removes path = true ∧ other = path) := by
  unfold World.pathExists World.remove
  by_cases removes : env.removes path = true
  · rw [if_pos removes]
    by_cases same : other = path
    · simp [same, removes]
    · simp [same]
  · rw [if_neg removes]
    simp [removes]

theorem exposed_remove (world : World) (path : Bytes) :
    (world.remove env path).exposed = world.exposed := by
  unfold World.remove
  split <;> rfl

/-- A step leaves the strata alone, a table of aliases, and files at some
paths more. -/
structure Leaves (before after : World)
    (table : KeyedTable ExposedRow.aliasName) (paths : List Bytes) :
    Prop where
  strata : after.strata = before.strata
  exposed : after.exposed = table
  files : ∀ path, after.pathExists path = true ↔
    path ∈ paths ∨ before.pathExists path = true

theorem Leaves.trans {before middle after : World}
    {first second : KeyedTable ExposedRow.aliasName}
    {some more : List Bytes} (one : Leaves before middle first some)
    (other : Leaves middle after second more) :
    Leaves before after second (some ++ more) where
  strata := other.strata.trans one.strata
  exposed := other.exposed
  files := by
    intro path
    rw [other.files, one.files, List.mem_append]
    tauto

theorem write_leaves (world : World) (path text : Bytes) (mode : Nat) :
    Leaves world (world.write path text mode) world.exposed [path] where
  strata := rfl
  exposed := rfl
  files := by
    intro other
    rw [pathExists_write, List.mem_singleton]

/-- `salt_expose_add` for a stratum that is known. -/
theorem exposeAdd_leaves (env : Environment)
    (root command aliasName : Bytes) (kind : Kind) {stratum : Bytes}
    {world : World} (known : (world.stratum stratum).isSome = true) :
    let result := exposeAdd env root stratum command aliasName kind world
    let path := shimPath root aliasName
    (result.1 = true ↔
      env.writes path = true ∧ env.records aliasName = true) ∧
    Leaves world result.2
      (if env.writes path = true ∧ env.records aliasName = true then
        world.exposed.put ⟨aliasName, stratum, command, kind, path⟩
      else world.exposed)
      (if env.writes path = true then [path] else []) := by
  intro result path
  have unfolded : result =
      exposeAdd env root stratum command aliasName kind world := rfl
  unfold exposeAdd at unfolded
  have notNone : ¬ (world.stratum stratum).isNone = true := by
    simpa [Option.isSome_iff_ne_none] using known
  rw [if_neg notNone] at unfolded
  by_cases writes : env.writes path = true
  · have leaves := write_leaves world path (shimText stratum command) 493
    rw [if_neg (by simpa using writes)] at unfolded
    by_cases records : env.records aliasName = true
    · rw [if_neg (by simpa using records)] at unfolded
      rw [unfolded, if_pos ⟨writes, records⟩, if_pos writes]
      exact ⟨by simp [writes, records], rfl, rfl, leaves.files⟩
    · rw [if_pos (by simpa using records)] at unfolded
      rw [unfolded, if_neg fun both => records both.2, if_pos writes]
      exact ⟨by simp [records], leaves⟩
  · rw [if_pos (by simpa using writes)] at unfolded
    rw [unfolded, if_neg fun both => writes both.1, if_neg writes]
    exact ⟨by simp [writes], rfl, rfl, by simp⟩

/-- `salt_expose_desktop` for a stratum that is known. -/
theorem exposeDesktop_leaves {entry : ExposeConfig} {row : StratumRow}
    {world : World} (isStratum : world.stratum entry.stratum = some row)
    (isDesktop : entry.desktop = true)
    (done : (exposeDesktop env root row entry.command world).1 = true) :
    Leaves world (exposeDesktop env root row entry.command world).2
      (if Plants env root entry then world.exposed.put (cliRow root entry)
        else world.exposed)
      (desktopPath root entry.stratum entry.command ::
        if env.writes (shimPath root entry.command) then
          [shimPath root entry.command] else []) := by
  have rowName : row.name = entry.stratum := by
    simpa using List.find?_some isStratum
  unfold exposeDesktop at done ⊢
  split at done
  · cases done
  · rename_i text isText
    rw [rowName] at done ⊢
    dsimp only at done ⊢
    by_cases writes : env.writes
        (desktopPath root entry.stratum entry.command) = true
    · simp only [writes, not_true_eq_false, if_false]
      have first := write_leaves world
        (desktopPath root entry.stratum entry.command)
        ((textLines text).flatMap (desktopLine entry.stratum)) 420
      generalize world.write _ _ 420 = middle at first
      have known : (middle.stratum entry.stratum).isSome = true := by
        rw [World.stratum, first.strata]
        exact Option.isSome_of_eq_some isStratum
      have second :=
        (exposeAdd_leaves env root entry.command entry.command .cli known).2
      rw [first.exposed] at second
      simpa [Plants, isDesktop, cliRow] using first.trans second
    · simp [writes] at done

theorem exposeEntry_leaves {entry : ExposeConfig} {world : World}
    (done : (exposeEntry env root entry world).1 = true) :
    env.writes (shimPath root entry.aliasName) = true ∧
      Leaves world (exposeEntry env root entry world).2
        (carry env root world.exposed entry) (written env root entry) := by
  unfold exposeEntry at done ⊢
  cases isStratum : world.stratum entry.stratum with
  | none =>
      rw [isStratum] at done
      cases done
  | some row =>
      simp only [isStratum] at done ⊢
      -- The alias itself is recorded last, whatever came before.
      have last : ∀ {middle : World} {table paths},
          Leaves world middle table paths →
          (exposeAdd env root entry.stratum entry.command entry.aliasName
            .config middle).1 = true →
          env.writes (shimPath root entry.aliasName) = true ∧
          Leaves world (exposeAdd env root entry.stratum entry.command
            entry.aliasName .config middle).2
            (table.put (configRow root entry))
            (paths ++ [shimPath root entry.aliasName]) := by
        intro middle table paths before added
        have known : (middle.stratum entry.stratum).isSome = true := by
          rw [World.stratum, before.strata]
          exact Option.isSome_of_eq_some isStratum
        have spec := exposeAdd_leaves env root entry.command
          entry.aliasName .config known
        have both := spec.1.mp added
        have leaves := spec.2
        rw [if_pos both, if_pos both.1, before.exposed] at leaves
        exact ⟨both.1, before.trans leaves⟩
      by_cases isDesktop : entry.desktop = true
      · simp only [isDesktop, if_true] at done ⊢
        by_cases ready :
            (exposeDesktop env root row entry.command world).1 = true
        · simp only [ready, not_true_eq_false, if_false] at done ⊢
          have leaves := last
            (exposeDesktop_leaves isStratum isDesktop ready) done
          simpa [carry, written, isDesktop] using leaves
        · simp [ready] at done
      · simp only [isDesktop, Bool.false_eq_true, if_false,
          not_true_eq_false] at done ⊢
        have nothing : Leaves world world world.exposed [] :=
          ⟨rfl, rfl, by simp⟩
        have leaves := last nothing done
        simpa [carry, written, isDesktop, Plants] using leaves

/-! ## The loop over the entries -/

/-- A world with files at some paths more. -/
def World.having (world : World) (paths : List Bytes) : World :=
  { world with files := fun path =>
      if path ∈ paths then some ⟨none, 0⟩ else world.files path }

/-- The same paths lead to files. -/
def SamePaths (first second : World) : Prop :=
  ∀ path, first.pathExists path = true ↔ second.pathExists path = true

theorem pathExists_having (world : World) (paths : List Bytes)
    (path : Bytes) : (world.having paths).pathExists path = true ↔
      path ∈ paths ∨ world.pathExists path = true := by
  unfold World.pathExists World.having
  by_cases member : path ∈ paths <;> simp [member]

theorem inPlace_iff {known : KeyedTable ExposedRow.aliasName}
    {world : World} {entry : ExposeConfig} :
    inPlace root known world entry = true ↔ ∃ row,
      known.get entry.aliasName = some row ∧
        (row.stratum = entry.stratum ∧ row.command = entry.command ∧
          row.kind = .config) ∧
        world.pathExists row.shimPath = true ∧
        (entry.desktop = true → world.pathExists
          (desktopPath root entry.stratum entry.command) = true) := by
  unfold inPlace
  cases known.get entry.aliasName with
  | none => simp
  | some row =>
      rw [decide_eq_true_iff]
      constructor
      · rintro ⟨stratum, command, kind, shim, desktop⟩
        exact ⟨row, rfl, ⟨stratum.symm, command.symm, kind⟩, shim, desktop⟩
      · rintro ⟨_, ⟨⟩, ⟨stratum, command, kind⟩, shim, desktop⟩
        exact ⟨stratum.symm, command.symm, kind, shim, desktop⟩

theorem inPlace_congr {known : KeyedTable ExposedRow.aliasName}
    {first second : World} (same : SamePaths first second)
    (entry : ExposeConfig) :
    inPlace root known first entry = inPlace root known second entry := by
  unfold inPlace
  cases known.get entry.aliasName with
  | none => rfl
  | some row => simp only [same _]

/-- The entries that are carried out: those that are not in place when their
turn comes, where the files that were written by then count. -/
def carriedOut (env : Environment) (root : Bytes) (before : World) :
    List Bytes → List ExposeConfig → List ExposeConfig
  | _, [] => []
  | made, entry :: rest =>
      if inPlace root before.exposed (before.having made) entry then
        carriedOut env root before made rest
      else
        entry :: carriedOut env root before
          (made ++ written env root entry) rest

theorem exposeRound_ok {dryRun : Bool}
    {known : KeyedTable ExposedRow.aliasName} {progress : Progress}
    {entry : ExposeConfig}
    (ok : (exposeRound env root dryRun known progress entry).ok = true) :
    progress.ok = true := by
  unfold exposeRound at ok
  split_ifs at ok
  · exact ok
  · exact ok
  · exact (Bool.and_eq_true_iff.mp ok).1

theorem exposeLoop_ok {dryRun : Bool}
    {known : KeyedTable ExposedRow.aliasName} {entries : List ExposeConfig}
    {progress : Progress}
    (ok : (entries.foldl (exposeRound env root dryRun known) progress).ok =
      true) : progress.ok = true := by
  induction entries generalizing progress with
  | nil => exact ok
  | cons entry entries induction => exact exposeRound_ok (induction ok)

/-- A loop that succeeds has carried entries out one after the other. -/
theorem exposeLoop_leaves {before : World} {made : List Bytes}
    {entries : List ExposeConfig} {progress : Progress}
    (same : SamePaths progress.world (before.having made))
    (ok : (entries.foldl (exposeRound env root false before.exposed)
      progress).ok = true) :
    let after := (entries.foldl (exposeRound env root false before.exposed)
      progress).world
    let done := carriedOut env root before made entries
    after.exposed = done.foldl (carry env root) progress.world.exposed ∧
      SamePaths after
        (before.having (made ++ done.flatMap (written env root))) := by
  induction entries generalizing made progress with
  | nil => exact ⟨rfl, by simpa [carriedOut] using same⟩
  | cons entry entries induction =>
      rw [List.foldl_cons] at ok ⊢
      have first := exposeLoop_ok ok
      rw [carriedOut, ← inPlace_congr same]
      by_cases ready : inPlace root before.exposed progress.world entry = true
      · rw [if_pos ready]
        have round : exposeRound env root false before.exposed progress
            entry = { progress with matched := progress.matched + 1 } := by
          rw [exposeRound, if_pos ready]
        rw [round] at ok ⊢
        exact induction same ok
      · rw [if_neg ready]
        have round : exposeRound env root false before.exposed progress
            entry = { progress with
              ok := progress.ok &&
                (exposeEntry env root entry progress.world).1
              world := (exposeEntry env root entry progress.world).2 } := by
          rw [exposeRound, if_neg ready]
          rfl
        rw [round] at ok first ⊢
        obtain ⟨-, leaves⟩ := exposeEntry_leaves
          (Bool.and_eq_true_iff.mp first).2
        generalize (exposeEntry env root entry progress.world).2 = world
          at ok leaves ⊢
        have next : SamePaths world
            (before.having (made ++ written env root entry)) := by
          intro path
          rw [leaves.files, same, pathExists_having, pathExists_having,
            List.mem_append]
          tauto
        have rest := @induction _ { progress with
          ok := progress.ok &&
            (exposeEntry env root entry progress.world).1
          world := world } next ok
        dsimp only at rest ⊢
        rw [List.foldl_cons, List.flatMap_cons, ← List.append_assoc,
          ← leaves.exposed]
        exact rest

/-! ## The loop over the rows that are no longer declared -/

/-- The paths that are removed with a row: its shim, as the table has it by
then, and its desktop entry. -/
def removedPaths (env : Environment) (root shim : Bytes)
    (row : ExposedRow) : List Bytes :=
  ([shim].filter (· ≠ []) ++ [desktopPath root row.stratum row.command]).filter
    env.removes

/-- What removing a row leaves. -/
structure Removed (env : Environment) (root : Bytes) (row : ExposedRow)
    (before after : World) : Prop where
  exposed : ∀ name, after.exposed.get name =
    if name = row.aliasName ∧ env.deletes name = true then none
    else before.exposed.get name
  files : ∃ known, before.exposed.get row.aliasName = some known ∧
    ∀ path, after.pathExists path = true ↔
      before.pathExists path = true ∧
        path ∉ removedPaths env root known.shimPath row

theorem exposeRemove_spec (env : Environment) {row : ExposedRow} {world : World}
    {known : ExposedRow}
    (isKnown : world.exposed.get row.aliasName = some known) :
    let result := exposeRemove env row.aliasName world
    result.1 = true ∧
    result.2.exposed = (if env.deletes row.aliasName = true then
      world.exposed.drop row.aliasName else world.exposed) ∧
    ∀ path, result.2.pathExists path = true ↔
      world.pathExists path = true ∧
        ¬ (env.removes path = true ∧ path ∈ [known.shimPath].filter
          (· ≠ [])) := by
  intro result
  have unfolded : result = exposeRemove env row.aliasName world := rfl
  unfold exposeRemove at unfolded
  simp only [isKnown] at unfolded
  -- The shim goes first, whatever becomes of the row.
  have gone : ∀ path, (if known.shimPath ≠ [] then
      world.remove env known.shimPath else world).pathExists path = true ↔
      world.pathExists path = true ∧ ¬ (env.removes path = true ∧
        path ∈ [known.shimPath].filter (· ≠ [])) := by
    intro path
    by_cases named : known.shimPath = []
    · simp [named]
    · rw [if_pos named, pathExists_remove]
      simp only [ne_eq, named, not_false_eq_true, decide_true,
        List.filter_cons_of_pos, List.filter_nil, List.mem_singleton]
      grind
  have exposed : (if known.shimPath ≠ [] then
      world.remove env known.shimPath else world).exposed =
      world.exposed := by
    split
    · exact exposed_remove world _
    · rfl
  generalize (if known.shimPath ≠ [] then
    world.remove env known.shimPath else world) = middle at *
  rw [unfolded]
  refine ⟨rfl, ?_, ?_⟩
  · rw [← exposed]
    split <;> rfl
  · intro path
    rw [← gone path]
    split <;> rfl

theorem unexposeRound_removed {progress : Progress} {row : ExposedRow}
    (ok : (unexposeRound env root false progress row).ok = true) :
    progress.ok = true ∧ Removed env root row progress.world
      (unexposeRound env root false progress row).world := by
  unfold unexposeRound at ok ⊢
  simp only [Bool.false_eq_true, if_false] at ok ⊢
  cases isKnown : progress.world.exposed.get row.aliasName with
  | none => simp [exposeRemove, isKnown] at ok
  | some known =>
      obtain ⟨removed, exposed, files⟩ := exposeRemove_spec env isKnown
      simp only [removed, not_true_eq_false, if_false] at ok ⊢
      generalize (exposeRemove env row.aliasName progress.world).2 = middle
        at exposed files ⊢
      refine ⟨ok, ?_, known, isKnown, ?_⟩
      · intro name
        have table : (if middle.pathExists
            (desktopPath root row.stratum row.command) = true then
            middle.remove env (desktopPath root row.stratum row.command)
            else middle).exposed = middle.exposed := by
          split
          · exact exposed_remove middle _
          · rfl
        rw [table, exposed]
        by_cases deletes : env.deletes row.aliasName = true
        · rw [if_pos deletes, KeyedTable.get_drop]
          by_cases same : name = row.aliasName
          · rw [if_pos same, if_pos ⟨same, same ▸ deletes⟩]
          · rw [if_neg same, if_neg fun both => same both.1]
        · rw [if_neg deletes, if_neg]
          rintro ⟨rfl, isDeleted⟩
          exact deletes isDeleted
      · intro path
        have desktop : (if middle.pathExists
            (desktopPath root row.stratum row.command) = true then
            middle.remove env (desktopPath root row.stratum row.command)
            else middle).pathExists path = true ↔
            middle.pathExists path = true ∧
              ¬ (env.removes (desktopPath root row.stratum row.command) =
                true ∧ path = desktopPath root row.stratum row.command) := by
          split
          · exact pathExists_remove middle _ path
          · rename_i absent
            refine ⟨fun isThere => ⟨isThere, ?_⟩, And.left⟩
            rintro ⟨-, rfl⟩
            exact absent isThere
        rw [desktop, files]
        simp only [removedPaths, List.mem_filter, List.mem_append,
          List.mem_singleton]
        grind

theorem unexposeLoop_ok {rows : List ExposedRow} {progress : Progress}
    (ok : (rows.foldl (unexposeRound env root false) progress).ok = true) :
    progress.ok = true := by
  induction rows generalizing progress with
  | nil => exact ok
  | cons row rows induction => exact (unexposeRound_removed (induction ok)).1

/-- A loop that succeeds has removed the rows, each once. -/
theorem unexposeLoop_removed {rows : List ExposedRow}
    (distinct : (rows.map ExposedRow.aliasName).Nodup) {progress : Progress}
    (ok : (rows.foldl (unexposeRound env root false) progress).ok = true) :
    let before := progress.world
    let after := (rows.foldl (unexposeRound env root false) progress).world
    (∀ name, after.exposed.get name =
      if name ∈ rows.map ExposedRow.aliasName ∧ env.deletes name = true then
        none
      else before.exposed.get name) ∧
    ∀ path, after.pathExists path = true ↔ before.pathExists path = true ∧
      ∀ row ∈ rows, ∃ known, before.exposed.get row.aliasName = some known ∧
        path ∉ removedPaths env root known.shimPath row := by
  induction rows generalizing progress with
  | nil => exact ⟨by simp, by simp⟩
  | cons row rows induction =>
      obtain ⟨fresh, others⟩ := List.nodup_cons.mp distinct
      rw [List.foldl_cons] at ok ⊢
      have first := (unexposeRound_removed (unexposeLoop_ok ok)).2
      obtain ⟨exposed, files⟩ := induction others ok
      generalize unexposeRound env root false progress row = middle
        at first ok exposed files ⊢
      have kept : ∀ other ∈ rows, middle.world.exposed.get other.aliasName =
          progress.world.exposed.get other.aliasName := by
        intro other member
        rw [first.exposed, if_neg]
        rintro ⟨same, -⟩
        exact fresh (same ▸ List.mem_map_of_mem member)
      obtain ⟨known, isKnown, firstFiles⟩ := first.files
      constructor
      · intro name
        rw [exposed, first.exposed, List.map_cons]
        simp only [List.mem_cons]
        grind
      · intro path
        rw [files, firstFiles, List.forall_mem_cons, isKnown]
        have same : (∀ other ∈ rows, ∃ known,
            middle.world.exposed.get other.aliasName = some known ∧
              path ∉ removedPaths env root known.shimPath other) ↔
            ∀ other ∈ rows, ∃ known,
              progress.world.exposed.get other.aliasName = some known ∧
                path ∉ removedPaths env root known.shimPath other :=
          forall₂_congr fun other member => by rw [kept other member]
        rw [same]
        simp only [Option.some.injEq, exists_eq_left', and_assoc]

/-! ## Both loops -/

theorem mem_staleRows {entries : List ExposeConfig}
    {known : KeyedTable ExposedRow.aliasName} {row : ExposedRow} :
    row ∈ staleRows entries known ↔
      known.get row.aliasName = some row ∧ row.kind = .config ∧
        row.aliasName ∉ entries.map ExposeConfig.aliasName := by
  rw [staleRows, List.mem_filter,
    (List.perm_insertionSort _ known.rows).mem_iff, decide_eq_true_iff,
    KeyedTable.get_eq_some, and_iff_left rfl]

theorem staleRows_distinct (entries : List ExposeConfig)
    (known : KeyedTable ExposedRow.aliasName) :
    ((staleRows entries known).map ExposedRow.aliasName).Nodup := by
  refine List.Nodup.sublist (List.filter_sublist.map _) ?_
  exact ((List.perm_insertionSort _ known.rows).map _).nodup_iff.mpr
    known.keyed

/-- The table when all entries have been carried out. -/
def carriedTable (env : Environment) (root : Bytes)
    (entries : List ExposeConfig) (before : World) :
    KeyedTable ExposedRow.aliasName :=
  (carriedOut env root before [] entries).foldl (carry env root)
    before.exposed

/-- What a call that succeeds leaves. -/
structure Applied (env : Environment) (root : Bytes)
    (entries : List ExposeConfig) (before after : World) : Prop where
  exposed : ∀ name, after.exposed.get name =
    if name ∈ (staleRows entries before.exposed).map ExposedRow.aliasName ∧
        env.deletes name = true then none
    else (carriedTable env root entries before).get name
  files : ∀ path, after.pathExists path = true ↔
    (path ∈ (carriedOut env root before [] entries).flatMap
        (written env root) ∨ before.pathExists path = true) ∧
      ∀ row ∈ staleRows entries before.exposed, ∃ known,
        (carriedTable env root entries before).get row.aliasName =
            some known ∧
          path ∉ removedPaths env root known.shimPath row

theorem applyExpose_applied {entries : List ExposeConfig} {before : World}
    (ok : (applyExpose env root false entries before).1 = true) :
    Applied env root entries before
      (applyExpose env root false entries before).2 := by
  unfold applyExpose at ok ⊢
  by_cases opens : env.opens = true
  · simp only [opens, not_true_eq_false, if_false] at ok ⊢
    have start : SamePaths (Progress.mk true 0 before).world
        (before.having []) := by
      intro path
      simp [pathExists_having]
    obtain ⟨table, files⟩ := exposeLoop_leaves start (unexposeLoop_ok ok)
    obtain ⟨exposed, removed⟩ := unexposeLoop_removed
      (staleRows_distinct entries before.exposed) ok
    constructor
    · intro name
      rw [exposed, table]
      rfl
    · intro path
      rw [removed, files, pathExists_having, table, List.nil_append]
      rfl
  · simp [opens] at ok

/-! ## Who writes a row last -/

theorem last_with {α : Type} (property : α → Prop) (items : List α) :
    (∀ item ∈ items, ¬ property item) ∨
      ∃ first item later, items = first ++ item :: later ∧ property item ∧
        ∀ other ∈ later, ¬ property other := by
  induction items using List.reverseRecOn with
  | nil => exact .inl (by simp)
  | append_singleton items item induction =>
      by_cases has : property item
      · exact .inr ⟨items, item, [], rfl, has, by simp⟩
      · rcases induction with none | ⟨first, other, later, rfl, isLast⟩
        · left
          intro other member
          rcases List.mem_append.mp member with inside | isItem
          · exact none other inside
          · exact List.mem_singleton.mp isItem ▸ has
        · refine .inr ⟨first, other, later ++ [item], by simp, isLast.1, ?_⟩
          intro another member
          rcases List.mem_append.mp member with inside | isItem
          · exact isLast.2 another inside
          · exact List.mem_singleton.mp isItem ▸ has

/-- Carrying the entry out writes the row of the name. -/
def Touches (env : Environment) (root name : Bytes) (entry : ExposeConfig) :
    Prop :=
  entry.aliasName = name ∨ Plants env root entry ∧ entry.command = name

theorem get_carry (table : KeyedTable ExposedRow.aliasName)
    (entry : ExposeConfig) (name : Bytes) :
    (carry env root table entry).get name =
      if entry.aliasName = name then some (configRow root entry)
      else if Plants env root entry ∧ entry.command = name then
        some (cliRow root entry)
      else table.get name := by
  rw [carry, KeyedTable.get_put]
  change (if entry.aliasName = name then _ else _) = _
  split
  · rfl
  · by_cases plants : Plants env root entry
    · rw [if_pos plants, KeyedTable.get_put]
      change (if entry.command = name then _ else _) = _
      simp [plants]
    · rw [if_neg plants, if_neg fun both => plants both.1]

theorem get_carryAll_untouched {done : List ExposeConfig} {name : Bytes}
    (untouched : ∀ entry ∈ done, ¬ Touches env root name entry)
    (table : KeyedTable ExposedRow.aliasName) :
    (done.foldl (carry env root) table).get name = table.get name := by
  induction done generalizing table with
  | nil => rfl
  | cons entry done induction =>
      have notThis := untouched entry List.mem_cons_self
      rw [Touches, not_or] at notThis
      rw [List.foldl_cons, induction fun other member =>
        untouched other (List.mem_cons_of_mem entry member),
        get_carry, if_neg notThis.1, if_neg notThis.2]

/-- Of the entries that write a row, the last one decides. -/
theorem get_carryAll (env : Environment) (root : Bytes)
    (done : List ExposeConfig) (name : Bytes)
    (table : KeyedTable ExposedRow.aliasName) :
    ((∀ entry ∈ done, ¬ Touches env root name entry) ∧
      (done.foldl (carry env root) table).get name = table.get name) ∨
    ∃ first entry later, done = first ++ entry :: later ∧
      (∀ other ∈ later, ¬ Touches env root name other) ∧
      (entry.aliasName = name ∧
          (done.foldl (carry env root) table).get name =
            some (configRow root entry) ∨
        entry.aliasName ≠ name ∧ Plants env root entry ∧
          entry.command = name ∧
          (done.foldl (carry env root) table).get name =
            some (cliRow root entry)) := by
  rcases last_with (Touches env root name) done with
    none | ⟨first, entry, later, rfl, touches, none⟩
  · exact .inl ⟨none, get_carryAll_untouched none table⟩
  · refine .inr ⟨first, entry, later, rfl, none, ?_⟩
    have decided : ((first ++ entry :: later).foldl (carry env root)
        table).get name = (carry env root (first.foldl (carry env root)
          table) entry).get name := by
      rw [List.foldl_append, List.foldl_cons, get_carryAll_untouched none]
    rw [decided, get_carry]
    by_cases own : entry.aliasName = name
    · exact .inl ⟨own, if_pos own⟩
    · have plants := touches.resolve_left own
      refine .inr ⟨own, plants.1, plants.2, ?_⟩
      rw [if_neg own, if_pos plants]

end SaltOS.Strata
