import SaltOS.Base.Util
import SaltOS.Lib.KeyedLog
import SaltOS.Lib.Run

/-!
# Providers of components

`salt_provider_set` and `salt_provider_rollback` of `src/halite/src/stratum.c`.
A rollback is another set: it adds to the history, which is shared by all
components.  Which statements SQLite carries out is up to the environment.
The time columns, which nothing reads, are left out.
-/

namespace SaltOS.Strata

open Lib Util

/-! ## Tables -/

/-- What is chosen for a component. -/
structure Selection where
  provider : Bytes
  source : Bytes
  trust : Bytes
  deriving DecidableEq, Repr

/-- A row of `provider_history`. -/
structure HistoryRow where
  id : Nat
  component : Bytes
  selection : Selection
  deriving DecidableEq, Repr

/-- A row of `providers`. -/
structure ProviderRow where
  component : Bytes
  selection : Selection
  rollbackTarget : Nat
  deriving DecidableEq, Repr

/-- The two tables; the history is in the order of its ids, and `lastId` is
its `AUTOINCREMENT` counter. -/
structure ProviderDb where
  history : List HistoryRow
  lastId : Nat
  providers : KeyedTable ProviderRow.component

def ProviderDb.empty : ProviderDb := ⟨[], 0, ⟨[], List.nodup_nil⟩⟩

abbrev ProviderIo := EStateM Failure ProviderDb

/-- What SQLite does with the statements of a call: whether a query returns
its row, and the message where an insertion fails. -/
structure Statements where
  prior : Bool
  history : Option Bytes
  row : Option Bytes
  target : Bool
  entry : Bool
  deriving DecidableEq, Repr

/-! ## Calls -/

namespace ProviderDb

/-- `SELECT id FROM provider_history WHERE component=? ORDER BY id DESC`. -/
def newestId (db : ProviderDb) (component : Bytes) : Nat :=
  ((newestOf HistoryRow.component db.history component).map
    HistoryRow.id).getD 0

/-- `INSERT INTO provider_history`. -/
def withHistory (db : ProviderDb) (component : Bytes)
    (selection : Selection) : ProviderDb :=
  { db with
    history := db.history ++ [⟨db.lastId + 1, component, selection⟩]
    lastId := db.lastId + 1 }

/-- `INSERT OR REPLACE INTO providers`. -/
def withRow (db : ProviderDb) (row : ProviderRow) : ProviderDb :=
  { db with providers := db.providers.put row }

end ProviderDb

/-- A statement that SQLite carries out, or fails with a message. -/
def insertion (what : String) (fails : Option Bytes)
    (change : ProviderDb → ProviderDb) : ProviderIo Unit := fun db =>
  match fails with
  | none => .ok () (change db)
  | some message => .error ⟨.err, some (ascii what ++ message)⟩ db

/-- `salt_provider_set`. -/
def providerSet (statements : Statements) (component provider : Bytes)
    (source trust : Option Bytes) : ProviderIo Unit := do
  let selection : Selection := ⟨provider, source.getD [], trust.getD []⟩
  let db ← get
  let prior := if statements.prior then db.newestId component else 0
  insertion "provider history insert: " statements.history
    (·.withHistory component selection)
  insertion "provider set: " statements.row
    (·.withRow ⟨component, selection, prior⟩)

/-- `salt_provider_rollback`. -/
def providerRollback (statements : Statements) (component : Bytes) :
    ProviderIo Unit := do
  let db ← get
  let target :=
    if statements.target then
      ((db.providers.get component).map ProviderRow.rollbackTarget).getD 0
    else 0
  if target = 0 then
    throw ⟨.err, some (ascii "no previous provider for " ++ component)⟩
  else
    let found :=
      if statements.entry then db.history.find? (·.id = target) else none
    match found with
    | none => throw ⟨.notFound, some (ascii "provider rollback: history " ++
        printBase 10 target ++ ascii " missing")⟩
    | some row =>
        providerSet statements row.component row.selection.provider
          (some row.selection.source) (some row.selection.trust)

inductive ProviderCall where
  | set (statements : Statements) (component provider : Bytes)
      (source trust : Option Bytes)
  | rollback (statements : Statements) (component : Bytes)

namespace ProviderCall

def run : ProviderCall → ProviderIo Unit
  | .set statements component provider source trust =>
      providerSet statements component provider source trust
  | .rollback statements component => providerRollback statements component

def component : ProviderCall → Bytes
  | .set _ component _ _ _ => component
  | .rollback _ component => component

def statements : ProviderCall → Statements
  | .set statements _ _ _ _ => statements
  | .rollback statements _ => statements

/-- A call leaves the database behind. -/
def Step (before : ProviderDb) (call : ProviderCall) (after : ProviderDb) :
    Prop :=
  finalState (call.run before) = after

end ProviderCall

/-! ## What a call does -/

/-- The queries return their rows, and the second insertion of a set is
carried out where the first one is. -/
structure Statements.Whole (statements : Statements) : Prop where
  prior : statements.prior = true
  both : statements.history = none → statements.row = none

/-- All statements are carried out. -/
def Statements.all : Statements := ⟨true, none, none, true, true⟩

theorem Statements.all_whole : Statements.all.Whole := ⟨rfl, fun _ => rfl⟩

namespace ProviderDb

/-- Both tables after a set. -/
def choose (db : ProviderDb) (component : Bytes) (selection : Selection) :
    ProviderDb :=
  (db.withHistory component selection).withRow
    ⟨component, selection, db.newestId component⟩

def newest (db : ProviderDb) (component : Bytes) : Option HistoryRow :=
  newestOf HistoryRow.component db.history component

def previous (db : ProviderDb) (component : Bytes) : Option HistoryRow :=
  previousOf HistoryRow.component db.history component

/-- What is chosen for a component. -/
def selection (db : ProviderDb) (component : Bytes) : Option Selection :=
  (db.providers.get component).map ProviderRow.selection

/-- The history of a component. -/
def historyOf (db : ProviderDb) (component : Bytes) : List HistoryRow :=
  db.history.filter (·.component = component)

/-- The row of a component is its newest entry of the history, and points at
the entry in front of it. -/
structure Tracks (db : ProviderDb) : Prop where
  ids : (db.history.map HistoryRow.id).Nodup
  positive : ∀ row ∈ db.history, 0 < row.id
  bounded : ∀ row ∈ db.history, row.id ≤ db.lastId
  rows : ∀ component, db.providers.get component =
    (db.newest component).map fun row => ⟨component, row.selection,
      ((db.previous component).map HistoryRow.id).getD 0⟩

theorem empty_tracks : empty.Tracks where
  ids := List.nodup_nil
  positive := by simp [empty]
  bounded := by simp [empty]
  rows := by
    intro component
    rfl

section

variable {db : ProviderDb} {component : Bytes} {chosen : Selection}

theorem newest_choose :
    (db.choose component chosen).newest component =
      some ⟨db.lastId + 1, component, chosen⟩ :=
  newestOf_append_same rfl

theorem previous_choose :
    (db.choose component chosen).previous component = db.newest component :=
  previousOf_append_same rfl

theorem get_choose :
    (db.choose component chosen).providers.get component =
      some ⟨component, chosen, db.newestId component⟩ := by
  apply KeyedTable.get_put.trans
  exact if_pos rfl

theorem selection_choose :
    (db.choose component chosen).selection component = some chosen := by
  rw [selection, get_choose]
  rfl

/-- A set leaves the other components alone. -/
theorem choose_other {other : Bytes} (differ : other ≠ component) :
    (db.choose component chosen).providers.get other =
        db.providers.get other ∧
      (db.choose component chosen).historyOf other = db.historyOf other := by
  constructor
  · apply KeyedTable.get_put.trans
    exact if_neg differ.symm
  · apply filter_append_other
    exact differ.symm

theorem Tracks.choose (tracks : db.Tracks) :
    (db.choose component chosen).Tracks where
  ids := by
    have fresh : db.lastId + 1 ∉ db.history.map HistoryRow.id := by
      intro member
      obtain ⟨row, inHistory, isId⟩ := List.mem_map.mp member
      have bound := tracks.bounded row inHistory
      omega
    change ((db.history ++ [_]).map HistoryRow.id).Nodup
    rw [List.map_append, List.nodup_append']
    exact ⟨tracks.ids, List.nodup_singleton _, by simpa using fresh⟩
  positive := by
    intro row member
    rcases List.mem_append.mp member with old | new
    · exact tracks.positive row old
    · rw [List.mem_singleton.mp new]
      exact Nat.succ_pos _
  bounded := by
    intro row member
    rcases List.mem_append.mp member with old | new
    · exact Nat.le_succ_of_le (tracks.bounded row old)
    · rw [List.mem_singleton.mp new]
      exact Nat.le_refl _
  rows := by
    intro other
    by_cases same : other = component
    · subst other
      rw [get_choose, newest_choose, previous_choose]
      rfl
    · have newest : (db.choose component chosen).newest other =
          db.newest other :=
        newestOf_append_other (Ne.symm same)
      have previous : (db.choose component chosen).previous other =
          db.previous other :=
        previousOf_append_other (Ne.symm same)
      rw [(choose_other same).1, newest, previous]
      exact tracks.rows other

/-- What is chosen is the newest entry. -/
theorem Tracks.selection_eq (tracks : db.Tracks) :
    db.selection component =
      (db.newest component).map HistoryRow.selection := by
  rw [selection, tracks.rows component, Option.map_map]
  rfl

end

end ProviderDb

/-! ## Calls on tables that track -/

open ProviderDb

section

variable {db : ProviderDb} {statements : Statements} {component : Bytes}

theorem providerSet_ends (db : ProviderDb) (component : Bytes)
    (whole : statements.Whole) (provider : Bytes) (source trust : Option Bytes) :
    Ends (providerSet statements component provider source trust db)
      (fun _ after => after =
        db.choose component ⟨provider, source.getD [], trust.getD []⟩)
      (fun _ after => after = db) := by
  obtain ⟨prior, history, row, target, entry⟩ := statements
  obtain ⟨rfl, both⟩ := whole
  cases history with
  | some message => exact rfl
  | none =>
      obtain rfl : row = none := both rfl
      exact rfl

theorem providerSet_all (provider : Bytes) (source trust : Option Bytes) :
    providerSet .all component provider source trust db = .ok ()
      (db.choose component ⟨provider, source.getD [], trust.getD []⟩) :=
  rfl

/-- The target of a component is its previous entry. -/
theorem ProviderDb.Tracks.target_eq (tracks : db.Tracks) :
    ((db.providers.get component).map ProviderRow.rollbackTarget).getD 0 =
      ((db.previous component).map HistoryRow.id).getD 0 := by
  rw [tracks.rows component]
  cases newest : db.newest component with
  | some row => rfl
  | none =>
      cases previous : db.previous component with
      | none => rfl
      | some row =>
          obtain ⟨newer, isNewest⟩ := exists_newestOf previous
          cases newest.symm.trans isNewest

/-- The entry that a rollback finds for its target. -/
theorem ProviderDb.Tracks.find_previous (tracks : db.Tracks)
    {row : HistoryRow} (previous : db.previous component = some row) :
    db.history.find? (·.id = row.id) = some row ∧ 0 < row.id ∧
      row.component = component := by
  obtain ⟨member, isComponent⟩ := mem_of_previousOf previous
  exact ⟨find?_of_distinct tracks.ids member, tracks.positive row member,
    isComponent⟩

/-- A rollback, by the target that it reads. -/
theorem providerRollback_eq {target : Nat}
    (isTarget : (if statements.target then ((db.providers.get
      component).map ProviderRow.rollbackTarget).getD 0 else 0) = target) :
    providerRollback statements component db =
      if target = 0 then
        .error ⟨.err, some (ascii "no previous provider for " ++
          component)⟩ db
      else
        match (if statements.entry then db.history.find? (·.id = target)
          else none) with
        | none => .error ⟨.notFound, some (ascii
            "provider rollback: history " ++ printBase 10 target ++
            ascii " missing")⟩ db
        | some row =>
            providerSet statements row.component row.selection.provider
              (some row.selection.source) (some row.selection.trust) db := by
  change (if (if statements.target then _ else _) = 0 then _ else _ :
    ProviderIo Unit) db = _
  rw [isTarget]
  by_cases zero : target = 0
  · rw [if_pos zero, if_pos zero]
    rfl
  · rw [if_neg zero, if_neg zero]
    cases (if statements.entry then db.history.find? (·.id = target)
      else none) with
    | none => rfl
    | some row => rfl

/-- Without a previous entry there is nothing to go back to. -/
theorem providerRollback_none (tracks : db.Tracks)
    (first : db.previous component = none) :
    providerRollback statements component db = .error
      ⟨.err, some (ascii "no previous provider for " ++ component)⟩ db := by
  have noTarget : (if statements.target then
      ((db.providers.get component).map ProviderRow.rollbackTarget).getD 0
      else 0) = 0 := by
    rw [tracks.target_eq, first]
    exact ite_self _
  rw [providerRollback_eq noTarget, if_pos rfl]

/-- A rollback sets the previous entry. -/
theorem providerRollback_some (tracks : db.Tracks) {row : HistoryRow}
    (previous : db.previous component = some row)
    (target : statements.target = true) :
    providerRollback statements component db =
      if statements.entry then
        providerSet statements component row.selection.provider
          (some row.selection.source) (some row.selection.trust) db
      else .error ⟨.notFound, some (ascii "provider rollback: history " ++
        printBase 10 row.id ++ ascii " missing")⟩ db := by
  obtain ⟨found, positive, isComponent⟩ := tracks.find_previous previous
  have isTarget : (if statements.target then
      ((db.providers.get component).map ProviderRow.rollbackTarget).getD 0
      else 0) = row.id := by
    rw [tracks.target_eq, previous, target]
    rfl
  rw [providerRollback_eq isTarget, if_neg positive.ne']
  cases statements.entry with
  | true =>
      rw [if_pos rfl, found, if_pos rfl, ← isComponent]
  | false => rfl

theorem providerRollback_all (tracks : db.Tracks) {row : HistoryRow}
    (previous : db.previous component = some row) :
    providerRollback .all component db =
      .ok () (db.choose component row.selection) := by
  rw [providerRollback_some tracks previous rfl]
  exact providerSet_all _ _ _

theorem providerRollback_ends (component : Bytes) (tracks : db.Tracks)
    (whole : statements.Whole) :
    Ends (providerRollback statements component db)
      (fun _ after => ∃ row, db.previous component = some row ∧
        after = db.choose component row.selection)
      (fun _ after => after = db) := by
  cases previous : db.previous component with
  | none =>
      rw [providerRollback_none tracks previous]
      exact rfl
  | some row =>
      cases target : statements.target with
      | false =>
          have noTarget : (if statements.target then ((db.providers.get
              component).map ProviderRow.rollbackTarget).getD 0
              else 0) = 0 := by
            rw [target]
            rfl
          rw [providerRollback_eq noTarget]
          exact rfl
      | true =>
          rw [providerRollback_some tracks previous target]
          split
          · apply (providerSet_ends _ _ whole _ _ _).mono
            · intro _ after isAfter
              exact ⟨row, rfl, isAfter⟩
            · exact fun _ _ same => same
          · exact rfl

/-- A call sets something for its component, or changes nothing. -/
theorem ProviderCall.run_ends (tracks : db.Tracks) {call : ProviderCall}
    (whole : call.statements.Whole) :
    Ends (call.run db)
      (fun _ after => ∃ chosen, after = db.choose call.component chosen)
      (fun _ after => after = db) := by
  cases call with
  | set statements component provider source trust =>
      apply (providerSet_ends _ _ whole provider source trust).mono
      · intro _ after isAfter
        exact ⟨_, isAfter⟩
      · exact fun _ _ same => same
  | rollback statements component =>
      apply (providerRollback_ends _ tracks whole).mono
      · rintro _ after ⟨row, -, isAfter⟩
        exact ⟨row.selection, isAfter⟩
      · exact fun _ _ same => same

theorem ProviderCall.step_cases (tracks : db.Tracks) {call : ProviderCall}
    (whole : call.statements.Whole) {after : ProviderDb}
    (step : call.Step db after) :
    after = db ∨ ∃ chosen, after = db.choose call.component chosen := by
  have ends := ProviderCall.run_ends tracks whole
  unfold ProviderCall.Step at step
  cases result : call.run db with
  | ok value final =>
      rw [result] at ends step
      cases step
      exact .inr ends
  | error failure final =>
      rw [result] at ends step
      cases step
      exact .inl ends

end

/-! ## Runs -/

/-- What holds of the tables whatever happened before: every row is the newest
entry of its component and points at the one in front of it, a rollback takes
a set back, a second one takes the first one back, and a call leaves the other
components alone. -/
structure Reversible (db : ProviderDb) : Prop where
  rows : ∀ component, db.providers.get component =
    (db.newest component).map fun row => ⟨component, row.selection,
      ((db.previous component).map HistoryRow.id).getD 0⟩
  setBack : ∀ component chosen, db.selection component = some chosen →
    ∀ statements provider source trust after,
      providerSet statements component provider source trust db =
        .ok () after → statements.Whole →
      ∃ final, providerRollback .all component after = .ok () final ∧
        final.selection component = some chosen
  firstSet : ∀ component, db.selection component = none →
    ∀ statements provider source trust after,
      providerSet statements component provider source trust db =
        .ok () after → statements.Whole →
      ∀ other : Statements, ∃ failure,
        providerRollback other component after = .error failure after
  rollsBack : ∀ component, (db.previous component).isSome →
    ∃ after, providerRollback .all component db = .ok () after
  twice : ∀ component statements after, statements.Whole →
    providerRollback statements component db = .ok () after →
      ∃ final, providerRollback .all component after = .ok () final ∧
        final.selection component = db.selection component
  others : ∀ (call : ProviderCall) after, call.statements.Whole →
    call.Step db after → ∀ other, other ≠ call.component →
      after.providers.get other = db.providers.get other ∧
        after.historyOf other = db.historyOf other

theorem ProviderDb.Tracks.reversible {db : ProviderDb}
    (tracks : db.Tracks) : Reversible db where
  rows := tracks.rows
  setBack := by
    intro component chosen isChosen statements provider source trust after
      set whole
    have isAfter := providerSet_ends db component whole provider source trust
    rw [set] at isAfter
    change after = _ at isAfter
    subst after
    rw [tracks.selection_eq] at isChosen
    obtain ⟨row, newest, rfl⟩ := Option.map_eq_some_iff.mp isChosen
    exact ⟨_, providerRollback_all tracks.choose
      (previous_choose.trans newest), selection_choose⟩
  firstSet := by
    intro component isNone statements provider source trust after set whole
      other
    have isAfter := providerSet_ends db component whole provider source trust
    rw [set] at isAfter
    change after = _ at isAfter
    subst after
    rw [tracks.selection_eq, Option.map_eq_none_iff] at isNone
    exact ⟨_, providerRollback_none tracks.choose
      (previous_choose.trans isNone)⟩
  rollsBack := by
    intro component isSome
    obtain ⟨row, previous⟩ := Option.isSome_iff_exists.mp isSome
    exact ⟨_, providerRollback_all tracks previous⟩
  twice := by
    intro component statements after whole rolledBack
    have isAfter := providerRollback_ends component tracks whole
    rw [rolledBack] at isAfter
    obtain ⟨row, previous, rfl⟩ := isAfter
    obtain ⟨newest, isNewest⟩ := exists_newestOf previous
    refine ⟨_, providerRollback_all tracks.choose
      (previous_choose.trans isNewest), ?_⟩
    rw [selection_choose, tracks.selection_eq]
    exact (congrArg (Option.map HistoryRow.selection) isNewest).symm
  others := by
    intro call after whole step other differ
    rcases ProviderCall.step_cases tracks whole step with rfl | ⟨_, rfl⟩
    · exact ⟨rfl, rfl⟩
    · exact choose_other differ

theorem run_tracks {calls : List ProviderCall} {db : ProviderDb}
    (run : Run (Guarded (fun _ call => call.statements.Whole)
      fun before call after => call.Step before after) .empty calls db) :
    db.Tracks := by
  apply run.invariant ProviderDb.empty_tracks
  intro before call after tracks step
  obtain ⟨whole, step⟩ := step
  rcases ProviderCall.step_cases tracks whole step with rfl | ⟨_, rfl⟩
  · exact tracks
  · exact tracks.choose

/-- Calls that are made one after the other. -/
theorem run_of_calls {calls : List ProviderCall}
    (whole : ∀ call ∈ calls, call.statements.Whole) :
    Run (Guarded (fun _ call => call.statements.Whole)
      fun before call after => call.Step before after) .empty calls
        (calls.foldl (fun db call => finalState (call.run db)) .empty) := by
  induction calls using List.reverseRecOn with
  | nil => exact .nil
  | append_singleton calls call induction =>
      rw [List.foldl_append]
      apply Run.snoc
      · apply induction
        intro other member
        exact whole other (List.mem_append_left [call] member)
      · exact ⟨whole call (List.mem_append_right calls
          List.mem_cons_self), rfl⟩

/-- Two components, one of which is changed and rolled back. -/
def shellCalls : List ProviderCall :=
  [.set .all (ascii "shell") (ascii "native") (some (ascii "native")) none,
    .set .all (ascii "kernel") (ascii "arch") none (some (ascii "foreign")),
    .set .all (ascii "shell") (ascii "arch") (some (ascii "arch/zsh")) none,
    .rollback .all (ascii "shell")]

theorem shellCalls_whole : ∀ call ∈ shellCalls, call.statements.Whole := by
  intro call member
  simp only [shellCalls, List.mem_cons, List.not_mem_nil, or_false] at member
  rcases member with rfl | rfl | rfl | rfl <;> exact Statements.all_whole

end SaltOS.Strata
