import SaltOS.Trust.Trust

/-!
# Updates of the trust database

On the list of tables an update sets one level and keeps the others.  The file
stands for such a list as long as every string in it is plain, and each update
with plain strings keeps it so.
-/

namespace SaltOS.Trust

open Toml

/-! ## The list of tables -/

theorem level_parse_name (level : Level) : Level.parse level.name = level := by
  cases level <;> decide

section

variable (known : List Contributor) (new : Contributor)

/-- Replacing the tables of a name, from any level found before. -/
theorem foldl_replaced (start : Level) :
    (known.map fun entry => if entry.name = new.name then new else
        entry).foldl (fun level entry =>
      if entry.name = new.name then Level.parse entry.level else level)
      start =
    if known.any (fun entry => entry.name = new.name) then
      Level.parse new.level else start := by
  induction known generalizing start with
  | nil => rfl
  | cons entry known induction =>
      rw [List.map_cons, List.foldl_cons, induction]
      by_cases same : entry.name = new.name
      · simp [same]
      · simp [same]

theorem levelOf_withContributor_self :
    levelOf (withContributor known new) new.name = Level.parse new.level := by
  rw [levelOf, withContributor, List.foldl_append, foldl_replaced]
  split
  · rfl
  · simp

theorem levelOf_withContributor_other {other : Bytes}
    (different : other ≠ new.name) :
    levelOf (withContributor known new) other = levelOf known other := by
  have replaced : ∀ start : Level,
      (known.map fun entry => if entry.name = new.name then new else
          entry).foldl (fun level entry =>
        if entry.name = other then Level.parse entry.level else level)
        start =
      known.foldl (fun level entry =>
        if entry.name = other then Level.parse entry.level else level)
        start := by
    intro start
    induction known generalizing start with
    | nil => rfl
    | cons entry known induction =>
        rw [List.map_cons, List.foldl_cons, List.foldl_cons, induction]
        by_cases same : entry.name = new.name
        · have isNew : new.name ≠ other := Ne.symm different
          simp [same, isNew]
        · simp [same]
  rw [levelOf, withContributor, List.foldl_append, replaced]
  split
  · rfl
  · have isNew : new.name ≠ other := Ne.symm different
    simp [isNew, levelOf]

end

/-! ## The printed tables -/

/-- A C string that can be printed between quotes. -/
structure Clean (text : Bytes) : Prop where
  plain : PlainText text
  noNul : 0 ∉ text

instance (text : Bytes) : Decidable (Clean text) :=
  decidable_of_iff (PlainText text ∧ 0 ∉ text)
    ⟨fun both => ⟨both.1, both.2⟩, fun clean => ⟨clean.plain, clean.noNul⟩⟩

structure Contributor.Plain (contributor : Contributor) : Prop where
  name : Clean contributor.name
  nameFits : FitsLine "name" contributor.name
  level : ∃ level : Level, contributor.level = level.name
  by' : Clean contributor.by'
  reason : Clean contributor.reason
  timeLow : -2 ^ 63 ≤ contributor.time
  timeHigh : contributor.time < 2 ^ 63

theorem level_name_clean (level : Level) :
    Clean level.name ∧ FitsLine "level" level.name := by
  cases level <;> exact ⟨by decide, by decide⟩

def Contributor.fields (contributor : Contributor) : List Field :=
  [printedField "name" contributor.name,
    printedField "level" contributor.level,
    printedField "by" contributor.by',
    printedField "reason" contributor.reason,
    numberField "time" (printInt contributor.time) contributor.time]

def contributorKey : Bytes := ascii "contributor"

theorem emitContributor_eq {contributor : Contributor}
    (plain : contributor.Plain) :
    emitContributor contributor = [] ++
      (emitTable contributorKey (recordLines contributor.fields) ++ [10]) := by
  have short := (intText_long plain.timeLow plain.timeHigh).short
  have length : (ascii "time = " ++ printInt contributor.time ++
      ascii "\n\n").length < 2 ^ 31 := by
    have before : (ascii "time = ").length = 7 := rfl
    have behind : (ascii "\n\n").length = 2 := rfl
    simp only [List.length_append]
    omega
  have header : ascii "[[contributor]]\n" =
      91 :: 91 :: contributorKey ++ [93, 93, 10] := rfl
  have time : bufPrintf (ascii "time = " ++ printInt contributor.time ++
      ascii "\n\n") = (numberField "time" (printInt contributor.time)
        contributor.time).lines.flatMap Line.emit ++ [10] := by
    rw [bufPrintf_eq length]
    simp [numberField, Field.lines, Line.emit, ascii]
  rw [emitContributor, time, emitTable, recordLines_flatMap, header]
  simp only [printString_eq, Contributor.fields, List.flatMap_cons,
    List.flatMap_nil, List.append_nil, List.append_assoc, List.cons_append,
    List.nil_append]

theorem fields_distinct (contributor : Contributor) :
    (contributor.fields.map fun field => ascii field.key).Nodup := by
  change (["name", "level", "by", "reason", "time"].map ascii).Nodup
  decide

/-- A table as it is read back: a line that is too long is missing. -/
def Contributor.readBack (contributor : Contributor) : Contributor :=
  { contributor with
    by' := if FitsLine "by" contributor.by' then contributor.by' else []
    reason := if FitsLine "reason" contributor.reason then
      contributor.reason else [] }

theorem Contributor.Plain.readBack {contributor : Contributor}
    (plain : contributor.Plain) : contributor.readBack.Plain where
  name := plain.name
  nameFits := plain.nameFits
  level := plain.level
  by' := by
    unfold Contributor.readBack
    dsimp only
    split
    · exact plain.by'
    · exact by decide
  reason := by
    unfold Contributor.readBack
    dsimp only
    split
    · exact plain.reason
    · exact by decide
  timeLow := plain.timeLow
  timeHigh := plain.timeHigh

theorem stringAt_printed {contributor : Contributor} {key : String}
    {text : Bytes} (clean : Clean text)
    (member : printedField key text ∈ contributor.fields)
    (segment : Segment (ascii key)) :
    stringAt (linesNode (recordLines contributor.fields)) key =
      if FitsLine key text then some text else none := by
  rw [stringAt_printedField (fields_distinct contributor) member segment,
    clean.plain.spelled_eq clean.noNul]

theorem contributorFromNode_fields {contributor : Contributor}
    (plain : contributor.Plain) :
    contributorFromNode (linesNode (recordLines contributor.fields)) =
      contributor.readBack := by
  obtain ⟨level, isLevel⟩ := plain.level
  have levelClean := level_name_clean level
  rw [← isLevel] at levelClean
  have name := stringAt_printed plain.name (by simp [Contributor.fields] :
    printedField "name" contributor.name ∈ contributor.fields) (by decide)
  have levelText := stringAt_printed levelClean.1
    (by simp [Contributor.fields] :
      printedField "level" contributor.level ∈ contributor.fields)
    (by decide)
  have byText := stringAt_printed plain.by' (by simp [Contributor.fields] :
    printedField "by" contributor.by' ∈ contributor.fields) (by decide)
  have reason := stringAt_printed plain.reason
    (by simp [Contributor.fields] :
      printedField "reason" contributor.reason ∈ contributor.fields)
    (by decide)
  have time : intAt (linesNode (recordLines contributor.fields)) "time" 0 =
      contributor.time :=
    intAt_record (fields_distinct contributor) 0
      (by simp [Contributor.fields] :
        numberField "time" (printInt contributor.time) contributor.time ∈
          contributor.fields) (by decide)
  simp only [contributorFromNode, name, levelText, byText, reason, time,
    plain.nameFits, levelClean.2, if_true, Option.getD_some,
    Contributor.readBack]
  congr 1
  · split <;> rfl
  · split <;> rfl

/-! ## The file -/

/-- The file stands for a list of tables. -/
structure Holds (file : Option Bytes) (known : List Contributor) : Prop where
  plain : ∀ contributor ∈ known, contributor.Plain
  text : file = none ∧ known = [] ∨
    file = some (known.flatMap emitContributor)

/-- The file stands for some tables. -/
def Readable (file : Option Bytes) : Prop :=
  ∃ known, Holds file known

theorem holds_none : Holds none [] :=
  ⟨by simp, .inl ⟨rfl, rfl⟩⟩

section

variable {file : Option Bytes} {known : List Contributor} {fuel : Nat}

theorem fields_ok {next : UInt8} {contributor : Contributor}
    (plain : contributor.Plain) :
    ∀ line ∈ recordLines contributor.fields, line.Ok next (fuel + 1) := by
  obtain ⟨level, isLevel⟩ := plain.level
  have levelClean := (level_name_clean level).1
  rw [← isLevel] at levelClean
  intro line member
  obtain ⟨field, inFields, isLine⟩ := mem_recordLines.mp member
  simp only [Contributor.fields, List.mem_cons, List.not_mem_nil, or_false]
    at inFields
  rcases inFields with rfl | rfl | rfl | rfl | rfl
  · exact printedField_ok (by decide)
      (fun _ => ⟨_, plain.name.plain.spells⟩) line isLine
  · exact printedField_ok (by decide)
      (fun _ => ⟨_, levelClean.plain.spells⟩) line isLine
  · exact printedField_ok (by decide)
      (fun _ => ⟨_, plain.by'.plain.spells⟩) line isLine
  · exact printedField_ok (by decide)
      (fun _ => ⟨_, plain.reason.plain.spells⟩) line isLine
  · exact Field.lines_ok (by decide)
      (readsValue_int (intText_long plain.timeLow plain.timeHigh)) line isLine

/-- Reading the file gives the tables. -/
theorem Holds.parseFile (holds : Holds file known) :
    ∃ root, Toml.parseFile (fuel + 1) file = .ok root ∧
      contributors root = known.map Contributor.readBack := by
  rcases holds.text with ⟨rfl, rfl⟩ | rfl
  · exact ⟨none, rfl, rfl⟩
  · have text : known.flatMap emitContributor =
        [].flatMap Line.emit ++ emitTables 0 1 contributorKey
          (known.map fun contributor => recordLines contributor.fields) := by
      rw [emitTables, List.flatMap_map, List.flatMap_nil, List.nil_append]
      apply List.flatMap_congr
      intro contributor member
      exact emitContributor_eq (holds.plain contributor member)
    have groups : ∀ group ∈ known.map
        (fun contributor => recordLines contributor.fields),
          ∀ line ∈ group, line.Ok 0 (fuel + 1) := by
      intro group member
      obtain ⟨contributor, inKnown, rfl⟩ := List.mem_map.mp member
      exact fields_ok (holds.plain contributor inKnown)
    have noLines : ∀ line ∈ ([] : List Line), line.Ok 0 (fuel + 1) := by
      simp
    have parsed := parse_tables 0 1 (by decide : BareKey contributorKey)
      noLines (by simp) groups
    refine ⟨some _, by rw [Toml.parseFile, text, parsed], ?_⟩
    change (arrayItems (tableGet _ contributorKey)).map
      contributorFromNode = _
    rw [arrayItems_withTables rfl, List.map_map, List.map_map]
    apply List.map_congr_left
    intro contributor member
    exact contributorFromNode_fields (holds.plain contributor member)

theorem levelOf_readBack (contributor : Bytes) :
    levelOf (known.map Contributor.readBack) contributor =
      levelOf known contributor := by
  rw [levelOf, List.foldl_map]
  rfl

theorem Holds.trustLookup (holds : Holds file known) (contributor : Bytes) :
    Trust.trustLookup (fuel + 1) file contributor =
      .ok (levelOf known contributor) := by
  obtain ⟨root, parsed, isKnown⟩ := holds.parseFile
  rw [Trust.trustLookup, parsed]
  change Except.ok (levelOf (contributors root) contributor) = _
  rw [isKnown, levelOf_readBack]

/-- Where a read fails, the file stands for no table. -/
theorem Holds.reads (holds : Holds file known) (reads : Bool) :
    ∃ seen, Holds (if reads then file else none) seen := by
  cases reads with
  | true => exact ⟨known, holds⟩
  | false => exact ⟨[], holds_none⟩

end

/-! ## Updates -/

/-- The strings of an update are plain, and the database can be read. -/
structure Update.Plain (env : Env) (contributor by' reason : Bytes) :
    Prop where
  readable : env.reads = true
  nameClean : Clean contributor
  nameFits : FitsLine "name" contributor
  byClean : Clean by'
  reasonClean : Clean reason

section

variable {file : Option Bytes} {known : List Contributor} {env : Env}
  {contributor : Bytes} {level : Level} {by' reason : Option Bytes}

theorem withContributor_plain {new : Contributor} (newPlain : new.Plain)
    (plain : ∀ entry ∈ known, entry.Plain) :
    ∀ entry ∈ withContributor known new, entry.Plain := by
  intro entry member
  rcases List.mem_append.mp member with replaced | added
  · obtain ⟨old, inKnown, rfl⟩ := List.mem_map.mp replaced
    split
    · exact newPlain
    · exact plain old inKnown
  · split at added
    · cases added
    · rw [List.mem_singleton.mp added]
      exact newPlain

/-- The table that an update writes. -/
def newContributor (env : Env) (contributor : Bytes) (level : Level)
    (by' reason : Option Bytes) : Contributor :=
  ⟨contributor, level.name, by'.getD [], reason.getD [], env.time⟩

theorem Update.Plain.newContributor
    (plain : Update.Plain env contributor (by'.getD []) (reason.getD [])) :
    (newContributor env contributor level by' reason).Plain where
  name := plain.nameClean
  nameFits := plain.nameFits
  level := ⟨level, rfl⟩
  by' := plain.byClean
  reason := plain.reasonClean
  timeLow := env.timeLow
  timeHigh := env.timeHigh

/-- What an update computes from a file that stands for tables. -/
theorem Holds.trustSet_eq (holds : Holds file known)
    (readable : env.reads = true) (fuel : Nat) :
    Trust.trustSet (fuel + 1) env file contributor level by' reason =
      .ok (if env.writes then (.ok, some ((withContributor
        (known.map Contributor.readBack) (newContributor env contributor
          level by' reason)).flatMap emitContributor))
        else (.error, file)) := by
  obtain ⟨root, parsed, isKnown⟩ := holds.parseFile
  rw [Trust.trustSet, readable, if_pos rfl, parsed]
  simp only [bind, Except.bind, isKnown]
  split <;> rfl

/-- What an update with plain strings does to the list of tables. -/
theorem Holds.trustSet (holds : Holds file known)
    (plain : Update.Plain env contributor (by'.getD []) (reason.getD [])) :
    (∃ after, Holds after (withContributor (known.map Contributor.readBack)
        (newContributor env contributor level by' reason)) ∧
      ∀ fuel, Trust.trustSet (fuel + 1) env file contributor level by'
        reason = .ok (.ok, after)) ∨
    ∀ fuel, Trust.trustSet (fuel + 1) env file contributor level by' reason =
      .ok (.error, file) := by
  cases writes : env.writes with
  | false =>
      right
      intro fuel
      rw [holds.trustSet_eq plain.readable, writes]
      rfl
  | true =>
      left
      refine ⟨_, ⟨?_, .inr rfl⟩, ?_⟩
      · apply withContributor_plain plain.newContributor
        intro entry member
        obtain ⟨old, inKnown, rfl⟩ := List.mem_map.mp member
        exact (holds.plain old inKnown).readBack
      · intro fuel
        rw [holds.trustSet_eq plain.readable, writes]
        rfl

end

/-! ## Runs -/

/-- The strings of a call are plain, and the database can be read. -/
def Call.Plain : Call → Prop
  | .set env contributor _ by' reason =>
      Update.Plain env contributor (by'.getD []) (reason.getD [])
  | .vouch env _ _ voucher contributor reason =>
      Update.Plain env contributor voucher (reason.getD [])

theorem Clean.append {first second : Bytes} (left : Clean first)
    (right : Clean second) : Clean (first ++ second) := by
  obtain ⟨⟨leftQuote, leftSlash, leftEnd⟩, leftNul⟩ := left
  obtain ⟨⟨rightQuote, rightSlash, rightEnd⟩, rightNul⟩ := right
  refine ⟨⟨?_, ?_, ?_⟩, ?_⟩ <;> simp_all

/-- A call with plain strings returns, and the file stands for tables
again. -/
theorem Holds.run {file : Option Bytes} {known : List Contributor}
    (holds : Holds file known) {call : Call} (plain : call.Plain) :
    ∃ result, (∀ fuel, call.run file (fuel + 1) = .ok result) ∧
      Readable result.2 := by
  -- Both calls end in an update, which fails or changes the tables.
  have update : ∀ {env contributor level by' reason},
      Update.Plain env contributor (Option.getD by' [])
        (Option.getD reason []) →
      ∃ result, (∀ fuel, Trust.trustSet (fuel + 1) env file contributor
        level by' reason = .ok result) ∧ Readable result.2 := by
    intro env contributor level by' reason updatePlain
    rcases holds.trustSet updatePlain with ⟨after, kept, returns⟩ | returns
    · exact ⟨_, returns, _, kept⟩
    · exact ⟨_, returns, _, holds⟩
  cases call with
  | set env contributor level by' reason => exact update plain
  | vouch env voucherReads currentReads voucher contributor reason =>
      obtain ⟨seenVoucher, voucherHolds⟩ := holds.reads voucherReads
      obtain ⟨seenCurrent, currentHolds⟩ := holds.reads currentReads
      have rejected : Readable (Status.error, file).2 := ⟨known, holds⟩
      simp only [Call.run, trustVouch, voucherHolds.trustLookup,
        currentHolds.trustLookup, bind, Except.bind, pure, Except.pure]
      split
      · exact ⟨_, fun _ => rfl, rejected⟩
      · split
        · exact ⟨_, fun _ => rfl, rejected⟩
        · apply update
          refine ⟨plain.readable, plain.nameClean, plain.nameFits,
            plain.byClean, ?_⟩
          have words : Clean (ascii "vouched by ") ∧ Clean (ascii ": ") :=
            ⟨by decide, by decide⟩
          split
          · exact ((words.1.append plain.byClean).append words.2).append
              plain.reasonClean
          · exact by decide

/-- Calls with plain strings leave a file that stands for tables. -/
theorem run_holds {calls : List Call} {file : Option Bytes}
    (run : Lib.Run (Lib.Guarded (fun _ call => call.Plain) Call.Step) none
      calls file) : Readable file := by
  have initial : Readable none := ⟨[], holds_none⟩
  refine run.invariant initial ?_
  intro before call after kept step
  obtain ⟨known, holds⟩ := kept
  obtain ⟨plain, status, returned⟩ := step
  obtain ⟨result, returns, kept⟩ := holds.run plain
  obtain rfl : result = (status, after) :=
    (Returns.of_succ returns).unique returned
  exact kept

/-- An update sets the level of one contributor and keeps those of the
others. -/
structure Isolated (before after : Option Bytes) (contributor : Bytes)
    (level : Level) : Prop where
  sets : Returns (fun fuel => trustLookup fuel after contributor) level
  keeps : ∀ other ≠ contributor, ∃ known,
    Returns (fun fuel => trustLookup fuel before other) known ∧
      Returns (fun fuel => trustLookup fuel after other) known

/-- After any calls with plain strings, an update with plain strings returns,
and if it succeeds it sets one level and keeps every other. -/
theorem trustSet_isolated {calls : List Call} {file : Option Bytes}
    (run : Lib.Run (Lib.Guarded (fun _ call => call.Plain) Call.Step) none
      calls file) {env : Env} {contributor : Bytes}
    {by' reason : Option Bytes} (level : Level)
    (plain : Update.Plain env contributor (by'.getD []) (reason.getD [])) :
    ∃ status after, Returns (fun fuel => trustSet fuel env file contributor
        level by' reason) (status, after) ∧
      (status = .ok → Isolated file after contributor level) := by
  obtain ⟨known, holds⟩ := run_holds run
  rcases holds.trustSet plain with ⟨after, kept, returns⟩ | returns
  · refine ⟨.ok, after, Returns.of_succ returns, fun _ => ⟨?_, ?_⟩⟩
    · apply Returns.of_succ
      intro fuel
      rw [kept.trustLookup]
      have found := levelOf_withContributor_self
        (known.map Contributor.readBack)
        (newContributor env contributor level by' reason)
      exact congrArg Except.ok (found.trans (level_parse_name level))
    · intro other different
      refine ⟨levelOf known other, Returns.of_succ fun fuel =>
        holds.trustLookup other, Returns.of_succ fun fuel => ?_⟩
      rw [kept.trustLookup, levelOf_withContributor_other _ _ different,
        levelOf_readBack]
  · exact ⟨.error, file, Returns.of_succ returns, fun isOk => by cases isOk⟩

/-- An environment in which nothing fails. -/
def calm : Env where
  time := 0
  timeLow := by decide
  timeHigh := by decide
  reads := true
  writes := true

def denouncedMallory : Contributor :=
  newContributor calm (ascii "mallory") .denounced (some (ascii "root")) none

def denounceCall : Call :=
  .set calm (ascii "mallory") .denounced (some (ascii "root")) none

theorem denounceCall_plain : denounceCall.Plain :=
  ⟨rfl, by decide, by decide, by decide,
    by decide⟩

theorem denounceCall_step : denounceCall.Step none
    (some (emitContributor denouncedMallory)) := by
  refine ⟨.ok, Returns.of_succ fun fuel => ?_⟩
  change trustSet (fuel + 1) calm none _ _ _ _ = _
  rw [holds_none.trustSet_eq rfl]
  simp [calm, withContributor, denouncedMallory]

theorem denounced_holds :
    Holds (some (emitContributor denouncedMallory)) [denouncedMallory] := by
  refine ⟨?_, .inr (by simp)⟩
  intro contributor member
  rw [List.mem_singleton.mp member]
  exact denounceCall_plain.newContributor

theorem trustSet_isolated_eve :
    ∃ file, Lib.Run (Lib.Guarded (fun _ call => call.Plain) Call.Step) none
        [denounceCall] file ∧
      ∃ status after, Returns (fun fuel => trustSet fuel calm file
        (ascii "eve") .vouched none none) (status, after) ∧
          (status = .ok → Isolated file after (ascii "eve") .vouched) := by
  have run : Lib.Run (Lib.Guarded (fun _ call => call.Plain) Call.Step) none
      ([] ++ [denounceCall]) (some (emitContributor denouncedMallory)) :=
    .snoc .nil ⟨denounceCall_plain, denounceCall_step⟩
  exact ⟨_, run, trustSet_isolated run .vouched
    ⟨rfl, by decide, by decide, by decide,
      by decide⟩⟩

/-- A reason that closes its string and starts a table of its own. -/
def forgedReason : Bytes :=
  ascii "ok\"\ntime = 0\n\n[[contributor]]\nname = \"mallory\"\n" ++
  ascii "level = \"maintainer\"\nby = \"\"\nreason = \""

def forgedMallory : Contributor :=
  newContributor calm (ascii "mallory") .maintainer none none

def vouchedEve : Contributor :=
  newContributor calm (ascii "eve") .vouched none (some (ascii "ok"))

/-- The two tables that the update prints are read as three. -/
theorem emit_forged :
    (withContributor [denouncedMallory.readBack] (newContributor calm
      (ascii "eve") .vouched none (some forgedReason))).flatMap
        emitContributor =
      [denouncedMallory, vouchedEve, forgedMallory].flatMap
        emitContributor := by
  decide +kernel

theorem forged_holds :
    Holds (some ([denouncedMallory, vouchedEve, forgedMallory].flatMap
      emitContributor)) [denouncedMallory, vouchedEve, forgedMallory] := by
  refine ⟨?_, .inr rfl⟩
  intro contributor member
  simp only [List.mem_cons, List.not_mem_nil, or_false] at member
  rcases member with rfl | rfl | rfl
  · exact denounceCall_plain.newContributor
  · apply Update.Plain.newContributor
    exact ⟨rfl, by decide, by decide, by decide, by decide⟩
  · apply Update.Plain.newContributor
    exact ⟨rfl, by decide, by decide, by decide, by decide⟩

/-- A denounced contributor becomes a maintainer through the reason given for
another one. -/
theorem reason_with_quote_lifts_denounced :
    ∃ file after, Lib.Run Call.Step none [denounceCall] file ∧
      0 ∉ forgedReason ∧
      Returns (fun fuel => trustSet fuel calm file (ascii "eve") .vouched none
        (some forgedReason)) (.ok, after) ∧
      ¬ Isolated file after (ascii "eve") .vouched := by
  have run : Lib.Run Call.Step none ([] ++ [denounceCall])
      (some (emitContributor denouncedMallory)) := .snoc .nil denounceCall_step
  refine ⟨_, some ([denouncedMallory, vouchedEve, forgedMallory].flatMap
    emitContributor), run, by decide, Returns.of_succ fun fuel => ?_, ?_⟩
  · have writes : calm.writes = true := rfl
    rw [denounced_holds.trustSet_eq rfl, if_pos writes, List.map_singleton,
      emit_forged]
  · intro isolated
    obtain ⟨level, isBefore, isAfter⟩ :=
      isolated.keeps (ascii "mallory") (by decide)
    have before := isBefore.unique (Returns.of_succ fun fuel =>
      denounced_holds.trustLookup (ascii "mallory"))
    have after := isAfter.unique (Returns.of_succ fun fuel =>
      forged_holds.trustLookup (ascii "mallory"))
    have different : levelOf [denouncedMallory] (ascii "mallory") ≠
        levelOf [denouncedMallory, vouchedEve, forgedMallory]
          (ascii "mallory") := by decide
    exact different (before.symm.trans after)

end SaltOS.Trust
