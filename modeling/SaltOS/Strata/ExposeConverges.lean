import SaltOS.Strata.ExposeSteps

/-!
# What applying the exposed commands leaves

An entry with a desktop entry also records its command as an alias of kind
`cli`, and removing an alias that is no longer declared removes a desktop
entry that another one may share.  Otherwise the table of aliases converges to
what is declared.
-/

namespace SaltOS.Strata

open Lib Config

variable {env : Environment} {root : Bytes}

/-! ## Convergence -/

/-- What applying the entries is to achieve. -/
structure Converged (root : Bytes) (entries : List ExposeConfig)
    (before after : World) : Prop where
  declared : ∀ entry ∈ entries, ∃ row,
    after.exposed.get entry.aliasName = some row ∧
      row.stratum = entry.stratum ∧ row.command = entry.command ∧
      row.kind = .config
  noStale : ∀ name row, after.exposed.get name = some row →
    row.kind = .config → name ∈ entries.map ExposeConfig.aliasName
  others : ∀ name row, name ∉ entries.map ExposeConfig.aliasName →
    row.kind ≠ .config →
      (after.exposed.get name = some row ↔
        before.exposed.get name = some row)
  again : ∀ env : Environment, env.opens = true →
    applyExpose env root false entries after = (true, after)

/-- The shim of an entry, after the loop. -/
def shimOf (env : Environment) (root : Bytes) (entries : List ExposeConfig)
    (before : World) (entry : ExposeConfig) : Bytes :=
  if entry ∈ carriedOut env root before [] entries then
    shimPath root entry.aliasName
  else
    ((before.exposed.get entry.aliasName).map ExposedRow.shimPath).getD []

/-- The shim of a row that is removed, after the loop. -/
def staleShim (env : Environment) (root : Bytes)
    (entries : List ExposeConfig) (before : World) (row : ExposedRow) :
    Bytes :=
  if ∃ entry ∈ carriedOut env root before [] entries,
      Plants env root entry ∧ entry.command = row.aliasName then
    shimPath root row.aliasName
  else row.shimPath

/-- What keeps the entries from getting into each other's way, and into that
of the rows that stay. -/
structure Apart (env : Environment) (root : Bytes)
    (entries : List ExposeConfig) (before : World) : Prop where
  kept : ∀ first other later, carriedOut env root before [] entries =
      first ++ other :: later → Plants env root other →
    ∀ entry ∈ entries, entry.aliasName = other.command →
      entry ∈ other :: later
  planted : ∀ first other later, carriedOut env root before [] entries =
      first ++ other :: later → Plants env root other →
    other.command ∉ entries.map ExposeConfig.aliasName →
    (∀ next ∈ later, Plants env root next → next.command ≠ other.command) →
      before.exposed.get other.command = some (cliRow root other) ∨
      ∃ row ∈ staleRows entries before.exposed,
        row.aliasName = other.command
  deleted : ∀ row ∈ staleRows entries before.exposed,
    env.deletes row.aliasName = true
  files : ∀ row ∈ staleRows entries before.exposed, ∀ entry ∈ entries,
    shimOf env root entries before entry ∉ removedPaths env root
        (staleShim env root entries before row) row ∧
      (entry.desktop = true →
        desktopPath root entry.stratum entry.command ∉ removedPaths env root
          (staleShim env root entries before row) row)

section

variable {entries : List ExposeConfig} {before after : World}

theorem carriedOut_subset {made : List Bytes} :
    carriedOut env root before made entries ⊆ entries := by
  induction entries generalizing made with
  | nil => exact List.Subset.refl _
  | cons entry entries induction =>
      rw [carriedOut]
      split
      · exact fun other member => List.mem_cons_of_mem _ (induction member)
      · intro other member
        rcases List.mem_cons.mp member with rfl | inside
        · exact List.mem_cons_self
        · exact List.mem_cons_of_mem _ (induction inside)

/-- An entry that is not carried out was in place at its turn. -/
theorem inPlace_of_not_carriedOut {made : List Bytes} {entry : ExposeConfig}
    (member : entry ∈ entries)
    (notDone : entry ∉ carriedOut env root before made entries) :
    inPlace root before.exposed (before.having (made ++
      (carriedOut env root before made entries).flatMap (written env root)))
      entry = true := by
  induction entries generalizing made with
  | nil => cases member
  | cons first entries induction =>
      rw [carriedOut] at notDone ⊢
      by_cases ready :
          inPlace root before.exposed (before.having made) first = true
      · rw [if_pos ready] at notDone ⊢
        rcases List.mem_cons.mp member with rfl | inside
        · obtain ⟨row, isRow, same, shim, desktop⟩ := inPlace_iff.mp ready
          have more : ∀ {path}, (before.having made).pathExists path = true →
              (before.having (made ++ (carriedOut env root before made
                entries).flatMap (written env root))).pathExists path =
                true := by
            intro path isThere
            rw [pathExists_having] at isThere ⊢
            exact isThere.imp_left (List.mem_append_left _)
          exact inPlace_iff.mpr ⟨row, isRow, same, more shim,
            fun isDesktop => more (desktop isDesktop)⟩
        · exact induction inside notDone
      · rw [if_neg ready] at notDone ⊢
        rw [List.mem_cons, not_or] at notDone
        rw [List.flatMap_cons, ← List.append_assoc]
        exact induction ((List.mem_cons.mp member).resolve_left notDone.1)
          notDone.2

theorem same_of_alias
    (distinct : (entries.map ExposeConfig.aliasName).Nodup)
    {entry other : ExposeConfig} (member : entry ∈ entries)
    (done : other ∈ carriedOut env root before [] entries)
    (same : other.aliasName = entry.aliasName) : other = entry :=
  List.inj_on_of_nodup_map distinct (carriedOut_subset done) member same

/-- A declared alias has its row when all entries have been carried out. -/
theorem declared_of_kept
    (distinct : (entries.map ExposeConfig.aliasName).Nodup)
    (kept : ∀ first other later, carriedOut env root before [] entries =
        first ++ other :: later → Plants env root other →
      ∀ entry ∈ entries, entry.aliasName = other.command →
        entry ∈ other :: later) {entry : ExposeConfig}
    (member : entry ∈ entries) : ∃ row,
    (carriedTable env root entries before).get entry.aliasName = some row ∧
      (row.stratum = entry.stratum ∧ row.command = entry.command ∧
        row.kind = .config) ∧
      row.shimPath = shimOf env root entries before entry := by
  rcases get_carryAll env root (carriedOut env root before [] entries)
      entry.aliasName before.exposed
    with ⟨untouched, isOld⟩ | ⟨first, other, later, isDone, untouched,
      ⟨own, isNew⟩ | ⟨notOwn, plants, isCommand, -⟩⟩
  · have notDone : entry ∉ carriedOut env root before [] entries :=
      fun done => untouched entry done (.inl rfl)
    obtain ⟨row, isRow, same, -⟩ := inPlace_iff.mp
      (inPlace_of_not_carriedOut member notDone)
    refine ⟨row, isOld.trans isRow, same, ?_⟩
    rw [shimOf, if_neg notDone, isRow]
    rfl
  · have done : other ∈ carriedOut env root before [] entries := by
      rw [isDone]
      simp
    obtain rfl := same_of_alias distinct member done own
    refine ⟨configRow root other, isNew, ⟨rfl, rfl, rfl⟩, ?_⟩
    rw [shimOf, if_pos done]
    rfl
  · have isLater := kept first other later isDone plants entry member
      isCommand.symm
    rcases List.mem_cons.mp isLater with rfl | inside
    · exact absurd rfl notOwn
    · exact absurd (.inl rfl) (untouched entry inside)

/-- The row of a stale alias, when all entries have been carried out. -/
theorem get_carried_stale {row : ExposedRow}
    (stale : row ∈ staleRows entries before.exposed) : ∃ known,
    (carriedTable env root entries before).get row.aliasName = some known ∧
      known.shimPath = staleShim env root entries before row := by
  obtain ⟨isOld, -, undeclared⟩ := mem_staleRows.mp stale
  rcases get_carryAll env root (carriedOut env root before [] entries)
      row.aliasName before.exposed
    with ⟨untouched, isSame⟩ | ⟨first, other, later, isDone, -,
      ⟨own, -⟩ | ⟨-, plants, isCommand, isNew⟩⟩
  · refine ⟨row, isSame.trans isOld, ?_⟩
    rw [staleShim, if_neg]
    rintro ⟨entry, done, both⟩
    exact untouched entry done (.inr both)
  · have done : other ∈ carriedOut env root before [] entries := by
      rw [isDone]
      simp
    exact absurd (own ▸ List.mem_map_of_mem (carriedOut_subset done))
      undeclared
  · have done : other ∈ carriedOut env root before [] entries := by
      rw [isDone]
      simp
    refine ⟨cliRow root other, isNew, ?_⟩
    rw [staleShim, if_pos ⟨other, done, plants, isCommand⟩, ← isCommand]
    rfl

/-! ### The table -/

/-- A row that is written by the command of an entry, where no entry has the
alias. -/
theorem get_carried_planted {name : Bytes} {first later : List ExposeConfig}
    {other : ExposeConfig} (isDone : carriedOut env root before [] entries =
      first ++ other :: later) (plants : Plants env root other)
    (isCommand : other.command = name)
    (noAlias : ∀ entry ∈ other :: later, entry.aliasName ≠ name) :
    ∃ last, (carriedTable env root entries before).get name =
      some (cliRow root last) := by
  rw [carriedTable, isDone, List.foldl_append]
  rcases get_carryAll env root (other :: later) name
      (first.foldl (carry env root) before.exposed) with
    ⟨untouched, -⟩ | ⟨_, last, rest, parts, -, ⟨own, -⟩ | ⟨-, -, -, isNew⟩⟩
  · exact absurd (.inr ⟨plants, isCommand⟩)
      (untouched other List.mem_cons_self)
  · refine absurd own (noAlias last ?_)
    rw [parts]
    simp
  · exact ⟨last, isNew⟩

theorem get_carried_undeclared {name : Bytes}
    (undeclared : name ∉ entries.map ExposeConfig.aliasName) :
    (carriedTable env root entries before).get name =
        before.exposed.get name ∨
      ∃ first other later, carriedOut env root before [] entries =
          first ++ other :: later ∧ Plants env root other ∧
        other.command = name ∧
        (∀ next ∈ later, Plants env root next → next.command ≠ name) ∧
        (carriedTable env root entries before).get name =
          some (cliRow root other) := by
  rcases get_carryAll env root (carriedOut env root before [] entries)
      name before.exposed with
    ⟨-, isSame⟩ | ⟨first, other, later, isDone, untouched,
      ⟨own, -⟩ | ⟨-, plants, isCommand, isNew⟩⟩
  · exact .inl isSame
  · have done : other ∈ carriedOut env root before [] entries := by
      rw [isDone]
      simp
    exact absurd (own ▸ List.mem_map_of_mem (carriedOut_subset done))
      undeclared
  · refine .inr ⟨first, other, later, isDone, plants, isCommand, ?_, isNew⟩
    exact fun next member plantsNext sameCommand =>
      untouched next member (.inr ⟨plantsNext, sameCommand⟩)

theorem Applied.get_declared
    (applied : Applied env root entries before after) {name : Bytes}
    (declared : name ∈ entries.map ExposeConfig.aliasName) :
    after.exposed.get name =
      (carriedTable env root entries before).get name := by
  rw [applied.exposed, if_neg]
  rintro ⟨isStale, -⟩
  obtain ⟨row, stale, rfl⟩ := List.mem_map.mp isStale
  exact (mem_staleRows.mp stale).2.2 declared

theorem Applied.get_fresh
    (applied : Applied env root entries before after) {name : Bytes}
    (fresh : name ∉ (staleRows entries before.exposed).map
      ExposedRow.aliasName) :
    after.exposed.get name =
      (carriedTable env root entries before).get name := by
  rw [applied.exposed, if_neg fun both => fresh both.1]

/-- The entries are in place unless their files went with a stale row. -/
theorem Applied.inPlace_iff_files
    (applied : Applied env root entries before after)
    (declared : ∀ entry ∈ entries, ∃ row,
      (carriedTable env root entries before).get entry.aliasName = some row ∧
        (row.stratum = entry.stratum ∧ row.command = entry.command ∧
          row.kind = .config) ∧
        row.shimPath = shimOf env root entries before entry)
    {entry : ExposeConfig} (member : entry ∈ entries) :
    inPlace root after.exposed after entry = true ↔
      ∀ row ∈ staleRows entries before.exposed,
        shimOf env root entries before entry ∉ removedPaths env root
            (staleShim env root entries before row) row ∧
          (entry.desktop = true →
            desktopPath root entry.stratum entry.command ∉
              removedPaths env root
                (staleShim env root entries before row) row) := by
  obtain ⟨row, isRow, same, isShim⟩ := declared entry member
  have isFinal := (applied.get_declared
    (List.mem_map_of_mem member)).trans isRow
  -- The files of the entry are there when the first loop ends.
  have files : ∀ path, (path ∈ (carriedOut env root before []
        entries).flatMap (written env root) ∨
        before.pathExists path = true) →
      (after.pathExists path = true ↔
        ∀ stale ∈ staleRows entries before.exposed, path ∉ removedPaths env
          root (staleShim env root entries before stale) stale) := by
    intro path isThere
    rw [applied.files, and_iff_right isThere]
    refine forall₂_congr fun stale isStale => ?_
    obtain ⟨known, isKnown, shim⟩ :=
      @get_carried_stale env root entries before stale isStale
    simp only [isKnown, Option.some.injEq, exists_eq_left', shim]
  have there : (shimOf env root entries before entry ∈ (carriedOut env root
        before [] entries).flatMap (written env root) ∨
        before.pathExists (shimOf env root entries before entry) = true) ∧
      (entry.desktop = true →
        desktopPath root entry.stratum entry.command ∈ (carriedOut env root
          before [] entries).flatMap (written env root) ∨
        before.pathExists (desktopPath root entry.stratum
          entry.command) = true) := by
    by_cases done : entry ∈ carriedOut env root before [] entries
    · rw [shimOf, if_pos done]
      refine ⟨.inl (List.mem_flatMap.mpr ⟨entry, done, ?_⟩),
        fun isDesktop => .inl (List.mem_flatMap.mpr ⟨entry, done, ?_⟩)⟩
      · simp [written]
      · simp [written, isDesktop]
    · obtain ⟨old, isOld, -, shim, desktop⟩ := inPlace_iff.mp
        (inPlace_of_not_carriedOut member done)
      simp only [pathExists_having, List.nil_append] at shim desktop
      rw [shimOf, if_neg done, isOld]
      exact ⟨shim, desktop⟩
  rw [inPlace_iff]
  simp only [isFinal, Option.some.injEq, exists_eq_left', same, isShim,
    true_and]
  rw [files _ there.1]
  constructor
  · rintro ⟨shim, desktop⟩ stale isStale
    refine ⟨shim stale isStale, fun isDesktop => ?_⟩
    exact (files _ (there.2 isDesktop)).mp (desktop isDesktop) stale isStale
  · intro both
    refine ⟨fun stale isStale => (both stale isStale).1, ?_⟩
    intro isDesktop
    rw [files _ (there.2 isDesktop)]
    exact fun stale isStale => (both stale isStale).2 isDesktop

/-! ### A second run -/

theorem applyExpose_matched (env : Environment) (opens : env.opens = true)
    {world : World}
    (ready : ∀ entry ∈ entries,
      inPlace root world.exposed world entry = true)
    (noStale : staleRows entries world.exposed = []) :
    applyExpose env root false entries world = (true, world) := by
  have loop : ∀ (rest : List ExposeConfig) (matched : Nat),
      (∀ entry ∈ rest, inPlace root world.exposed world entry = true) →
      ∃ count, rest.foldl (exposeRound env root false world.exposed)
        ⟨true, matched, world⟩ = ⟨true, count, world⟩ := by
    intro rest
    induction rest with
    | nil => exact fun matched _ => ⟨matched, rfl⟩
    | cons entry rest induction =>
        intro matched all
        rw [List.foldl_cons, exposeRound,
          if_pos (all entry List.mem_cons_self)]
        exact induction (matched + 1) fun other member =>
          all other (List.mem_cons_of_mem entry member)
  obtain ⟨count, ended⟩ := loop entries 0 ready
  simp [applyExpose, opens, ended, noStale]

/-- Where nothing can be written, only entries in place succeed. -/
theorem exposeLoop_inPlace (refuses : ∀ path, env.writes path = false)
    {known : KeyedTable ExposedRow.aliasName} {progress : Progress}
    (ok : (entries.foldl (exposeRound env root false known) progress).ok =
      true) :
    ∀ entry ∈ entries, inPlace root known progress.world entry = true := by
  induction entries generalizing progress with
  | nil => simp
  | cons entry entries induction =>
      rw [List.foldl_cons] at ok
      have first := exposeLoop_ok ok
      by_cases ready : inPlace root known progress.world entry = true
      · have round : exposeRound env root false known progress entry =
            { progress with matched := progress.matched + 1 } := by
          rw [exposeRound, if_pos ready]
        rw [round] at ok
        intro other member
        rcases List.mem_cons.mp member with rfl | inside
        · exact ready
        · exact induction ok other inside
      · rw [exposeRound, if_neg ready] at first
        have written := (exposeEntry_leaves
          (Bool.and_eq_true_iff.mp first).2).1
        rw [refuses] at written
        cases written

theorem inPlace_of_again {world : World}
    (again : ∀ env : Environment, env.opens = true →
      applyExpose env root false entries world = (true, world)) :
    ∀ entry ∈ entries, inPlace root world.exposed world entry = true := by
  let refusing : Environment :=
    ⟨true, fun _ => false, fun _ => false, fun _ => false, fun _ => false⟩
  have same := again refusing rfl
  have ok : (applyExpose refusing root false entries world).1 = true := by
    rw [same]
  unfold applyExpose at ok
  rw [if_neg (by simp [refusing])] at ok
  exact exposeLoop_inPlace (fun _ => rfl) (unexposeLoop_ok ok)

/-! ### The equivalence -/

theorem Applied.converged
    (distinct : (entries.map ExposeConfig.aliasName).Nodup)
    (applied : Applied env root entries before after)
    (apart : Apart env root entries before) :
    Converged root entries before after := by
  have declared : ∀ entry ∈ entries, _ :=
    fun _ member => declared_of_kept distinct apart.kept member
  have removed : ∀ name, name ∈ (staleRows entries before.exposed).map
      ExposedRow.aliasName → after.exposed.get name = none := by
    intro name isStale
    rw [applied.exposed, if_pos]
    obtain ⟨row, stale, rfl⟩ := List.mem_map.mp isStale
    exact ⟨isStale, apart.deleted row stale⟩
  have noStale : ∀ name row, after.exposed.get name = some row →
      row.kind = .config →
      name ∈ entries.map ExposeConfig.aliasName := by
    intro name row isRow isConfig
    by_contra undeclared
    have fresh : name ∉ (staleRows entries before.exposed).map
        ExposedRow.aliasName := by
      intro isStale
      rw [removed name isStale] at isRow
      cases isRow
    rw [applied.get_fresh fresh] at isRow
    rcases get_carried_undeclared undeclared with
      isSame | ⟨first, other, later, -, -, -, -, isNew⟩
    · rw [isSame] at isRow
      have rowName := (KeyedTable.get_eq_some.mp isRow).2
      subst rowName
      exact fresh (List.mem_map_of_mem
        (mem_staleRows.mpr ⟨isRow, isConfig, undeclared⟩))
    · rw [isNew] at isRow
      cases isRow
      cases isConfig
  refine ⟨?_, noStale, ?_, ?_⟩
  · intro entry member
    obtain ⟨row, isRow, same, -⟩ := declared entry member
    exact ⟨row, (applied.get_declared
      (List.mem_map_of_mem member)).trans isRow, same⟩
  · intro name row undeclared notConfig
    by_cases isStale : name ∈ (staleRows entries before.exposed).map
        ExposedRow.aliasName
    · rw [removed name isStale]
      obtain ⟨old, stale, rfl⟩ := List.mem_map.mp isStale
      obtain ⟨isOld, isConfig, -⟩ := mem_staleRows.mp stale
      rw [isOld]
      constructor
      · intro impossible
        cases impossible
      · intro same
        cases same
        exact absurd isConfig notConfig
    · rw [applied.get_fresh isStale]
      rcases get_carried_undeclared undeclared with
        isSame | ⟨first, other, later, isDone, plants, isCommand, noneLater,
          isNew⟩
      · rw [isSame]
      · subst isCommand
        rcases apart.planted first other later isDone plants undeclared
          noneLater with isOld | ⟨old, stale, sameName⟩
        · rw [isNew, isOld]
        · exact absurd (sameName ▸ List.mem_map_of_mem stale) isStale
  · intro again opens
    apply applyExpose_matched again opens
    · intro entry member
      rw [applied.inPlace_iff_files declared member]
      exact fun row stale => apart.files row stale entry member
    · rw [List.eq_nil_iff_forall_not_mem]
      intro row stale
      obtain ⟨isRow, isConfig, undeclared⟩ := mem_staleRows.mp stale
      exact undeclared (noStale row.aliasName row isRow isConfig)

theorem Applied.apart
    (distinct : (entries.map ExposeConfig.aliasName).Nodup)
    (applied : Applied env root entries before after)
    (converged : Converged root entries before after) :
    Apart env root entries before := by
  have fromDone : ∀ {first other later},
      carriedOut env root before [] entries = first ++ other :: later →
      ∀ entry ∈ other :: later, entry ∈ carriedOut env root before []
        entries := by
    intro first other later isDone entry member
    rw [isDone]
    exact List.mem_append_right _ member
  have kept : ∀ first other later, carriedOut env root before [] entries =
      first ++ other :: later → Plants env root other →
      ∀ entry ∈ entries, entry.aliasName = other.command →
        entry ∈ other :: later := by
    intro first other later isDone plants entry member isCommand
    by_contra notLater
    -- Nothing from there on writes the row back.
    have noAlias : ∀ next ∈ other :: later,
        next.aliasName ≠ entry.aliasName := by
      intro next inside same
      exact notLater (same_of_alias distinct member
        (fromDone isDone next inside) same ▸ inside)
    obtain ⟨last, isNew⟩ := get_carried_planted isDone plants
      isCommand.symm noAlias
    obtain ⟨row, isRow, -, -, isConfig⟩ := converged.declared entry member
    rw [applied.get_declared (List.mem_map_of_mem member), isNew] at isRow
    cases isRow
    cases isConfig
  have planted : ∀ first other later, carriedOut env root before []
      entries = first ++ other :: later → Plants env root other →
      other.command ∉ entries.map ExposeConfig.aliasName →
      (∀ next ∈ later, Plants env root next →
        next.command ≠ other.command) →
      before.exposed.get other.command = some (cliRow root other) ∨
        ∃ row ∈ staleRows entries before.exposed,
          row.aliasName = other.command := by
    intro first other later isDone plants undeclared noneLater
    by_cases isStale : other.command ∈ (staleRows entries
        before.exposed).map ExposedRow.aliasName
    · exact .inr (List.mem_map.mp isStale)
    · left
      have notAlias : ∀ next ∈ other :: later,
          next.aliasName ≠ other.command := by
        intro next inside same
        exact undeclared (same ▸ List.mem_map_of_mem
          (carriedOut_subset (fromDone isDone next inside)))
      have untouched : ∀ next ∈ later,
          ¬ Touches env root other.command next := by
        rintro next inside (own | ⟨plantsNext, sameCommand⟩)
        · exact notAlias next (List.mem_cons_of_mem other inside) own
        · exact noneLater next inside plantsNext sameCommand
      have isNew : (carriedTable env root entries before).get other.command =
          some (cliRow root other) := by
        rw [carriedTable, isDone, List.foldl_append, List.foldl_cons,
          get_carryAll_untouched untouched, get_carry,
          if_neg (notAlias other List.mem_cons_self), if_pos ⟨plants, rfl⟩]
      have isCli : (cliRow root other).kind ≠ .config := by
        simp [cliRow]
      exact (converged.others other.command _ undeclared isCli).mp
        ((applied.get_fresh isStale).trans isNew)
  have deleted : ∀ row ∈ staleRows entries before.exposed,
      env.deletes row.aliasName = true := by
    intro row stale
    by_contra keeps
    obtain ⟨isOld, isConfig, undeclared⟩ := mem_staleRows.mp stale
    have isLeft : after.exposed.get row.aliasName =
        (carriedTable env root entries before).get row.aliasName := by
      rw [applied.exposed, if_neg fun both => keeps both.2]
    rcases get_carried_undeclared undeclared with
      isSame | ⟨first, other, later, -, -, -, -, isNew⟩
    · exact undeclared (converged.noStale row.aliasName row
        (isLeft.trans (isSame.trans isOld)) isConfig)
    · have isCli : (cliRow root other).kind ≠ .config := by
        simp [cliRow]
      have wasCli := (converged.others row.aliasName _ undeclared isCli).mp
        (isLeft.trans isNew)
      rw [isOld] at wasCli
      cases wasCli
      exact isCli isConfig
  refine ⟨kept, planted, deleted, ?_⟩
  have declared : ∀ entry ∈ entries, ∃ row,
      (carriedTable env root entries before).get entry.aliasName = some row ∧
        (row.stratum = entry.stratum ∧ row.command = entry.command ∧
          row.kind = .config) ∧
        row.shimPath = shimOf env root entries before entry := by
    intro entry member
    exact declared_of_kept distinct kept member
  intro row stale entry member
  exact (applied.inPlace_iff_files declared member).mp
    (inPlace_of_again converged.again entry member) row stale

end

def freeEnvironment : Environment :=
  ⟨true, fun _ => true, fun _ => true, fun _ => true, fun _ => true⟩

/-- `alpine` has a desktop entry of its own for both applications. -/
def alpineWorld (rows : List ExposedRow)
    (keyed : (rows.map ExposedRow.aliasName).Nodup) : World where
  strata := [⟨ascii "alpine", ascii "/strata/alpine"⟩]
  exposed := ⟨rows, keyed⟩
  files := fun path =>
    if (ascii "/strata/alpine/usr/share/applications/").isPrefixOf path then
      some ⟨some (ascii "Name=App\nExec=app %U\n"), 420⟩
    else none

def exposeTable (key : String) (node : Toml.Node) : Toml.Table :=
  [(ascii "expose", .tab [(ascii key, node)])]

def firefoxTable : Toml.Table :=
  exposeTable "alpine/firefox" (.tab [(ascii "desktop", .bool true)])

def firefoxConfig : SystemConfig :=
  { SystemConfig.empty with
    haveExpose := true
    expose := [⟨ascii "alpine", ascii "firefox", ascii "firefox", true⟩] }

def bareWorld : World := alpineWorld [] (by decide)

theorem firefox_loads : configLoad firefoxTable = .ok firefoxConfig := by
  decide +kernel

theorem firefox_ok : (applyExpose freeEnvironment (ascii "/") false
    firefoxConfig.expose bareWorld).1 = true := by
  decide +kernel

theorem firefox_carriedOut : carriedOut freeEnvironment (ascii "/")
    bareWorld [] firefoxConfig.expose = firefoxConfig.expose := by
  decide +kernel

theorem firefox_apart : Apart freeEnvironment (ascii "/")
    firefoxConfig.expose bareWorld := by
  have noStale : staleRows firefoxConfig.expose bareWorld.exposed = [] := by
    decide +kernel
  have single : ∀ first other later, carriedOut freeEnvironment (ascii "/")
      bareWorld [] firefoxConfig.expose = first ++ other :: later →
      other ∈ firefoxConfig.expose ∧
        firefoxConfig.expose = [other] := by
    intro first other later isDone
    rw [firefox_carriedOut] at isDone
    cases first with
    | nil =>
        cases isDone
        exact ⟨List.mem_cons_self, rfl⟩
    | cons => simp [firefoxConfig] at isDone
  constructor
  · intro first other later isDone _ entry member _
    rw [(single first other later isDone).2] at member
    exact List.mem_singleton.mp member ▸ List.mem_cons_self
  · intro first other later isDone _ undeclared
    obtain ⟨member, -⟩ := single first other later isDone
    refine absurd ?_ undeclared
    obtain rfl := List.mem_singleton.mp member
    decide
  · rw [noStale]
    simp
  · rw [noStale]
    simp

def webTable : Toml.Table :=
  exposeTable "alpine/firefox" (.tab [(ascii "alias", .str (ascii "web")),
    (ascii "desktop", .bool true)])

def webConfig : SystemConfig :=
  { SystemConfig.empty with
    haveExpose := true
    expose := [⟨ascii "alpine", ascii "firefox", ascii "web", true⟩] }

/-- `firefox` was exposed by hand, from another stratum. -/
def handRow : ExposedRow :=
  ⟨ascii "firefox", ascii "debian", ascii "firefox", .cli,
    ascii "/usr/local/salt/shims/firefox"⟩

def handWorld : World := alpineWorld [handRow] (by decide)

end SaltOS.Strata
