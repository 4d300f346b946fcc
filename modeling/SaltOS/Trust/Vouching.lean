import SaltOS.Toml.Fuel
import SaltOS.Trust.TrustUpdates

/-!
# Vouching

`salt_trust_vouch` looks at the level of a contributor only to refuse the
denounced, and then sets it to `vouched`: that raises a level, or lowers the
one of a maintainer.
-/

namespace SaltOS.Trust

open Toml

/-- The order of the levels. -/
def Level.rank : Level → Nat
  | .denounced => 0
  | .unknown => 1
  | .vouched => 2
  | .maintainer => 3

theorem Level.rank_le_vouched {level : Level} :
    level.rank ≤ Level.vouched.rank ↔ level ≠ .maintainer := by
  cases level <;> decide

/-- Reading the file gives the tables, however they are written there. -/
def ReadsAs (file : Option Bytes) (known : List Contributor) : Prop :=
  ∃ root, Returns (fun fuel => Toml.parseFile fuel file) root ∧
    contributors root = known

/-- What is promised of vouching: a level that is set is not below the one
before, and a failure leaves every level as it is. -/
structure Raises (before after : Option Bytes) (status : Status)
    (contributor : Bytes) : Prop where
  success : status = .ok → ∃ old new,
    Returns (fun fuel => trustLookup fuel before contributor) old ∧
      Returns (fun fuel => trustLookup fuel after contributor) new ∧
        old.rank ≤ new.rank
  failure : status = .error → ∀ other level,
    Returns (fun fuel => trustLookup fuel after other) level ↔
      Returns (fun fuel => trustLookup fuel before other) level

/-! ## What a call computes -/

section

variable {file : Option Bytes} {known : List Contributor}

theorem ReadsAs.none : ReadsAs none [] :=
  ⟨Option.none, Returns.pure Option.none, rfl⟩

theorem Holds.readsAs (holds : Holds file known) :
    ReadsAs file (known.map Contributor.readBack) := by
  obtain ⟨root, parsed, isKnown⟩ : ∃ root,
      Toml.parseFile (0 + 1) file = .ok root ∧
        contributors root = known.map Contributor.readBack :=
    holds.parseFile
  exact ⟨root, Returns.of_ok (fun _ le => parseFile_extends le file) parsed,
    isKnown⟩

/-- A read that may fail: then the file stands for no table. -/
theorem ReadsAs.seen (reads : ReadsAs file known) (isRead : Bool) :
    ReadsAs (if isRead then file else Option.none)
      (if isRead then known else []) := by
  cases isRead with
  | true => exact reads
  | false => exact .none

theorem ReadsAs.trustLookup (reads : ReadsAs file known)
    (contributor : Bytes) :
    Returns (fun fuel => Trust.trustLookup fuel file contributor)
      (levelOf known contributor) := by
  obtain ⟨root, parsed, rfl⟩ := reads
  exact parsed.bind (Returns.pure _)

variable {env : Env} {contributor voucher : Bytes}

/-- What an update leaves. -/
def written (env : Env) (known : List Contributor) (new : Contributor) :
    Bytes :=
  (withContributor (if env.reads then known else []) new).flatMap
    emitContributor

theorem ReadsAs.trustSet (reads : ReadsAs file known) (env : Env)
    (contributor : Bytes) (level : Level) (by' reason : Option Bytes) :
    Returns (fun fuel => Trust.trustSet fuel env file contributor level by'
        reason)
      (if env.writes then (.ok, some (written env known
        (newContributor env contributor level by' reason)))
      else (.error, file)) := by
  obtain ⟨root, parsed, isKnown⟩ := reads.seen env.reads
  apply parsed.bind
  rw [isKnown]
  cases env.writes with
  | true => exact Returns.pure _
  | false => exact Returns.pure _

/-- A vouch goes through: the voucher, as far as it can be read, is trusted,
the contributor does not look denounced, and the file can be replaced. -/
structure Accepted (env : Env) (voucherReads currentReads : Bool)
    (known : List Contributor) (voucher contributor : Bytes) : Prop where
  trusted : levelOf (if voucherReads then known else []) voucher =
      .maintainer ∨
    levelOf (if voucherReads then known else []) voucher = .vouched
  notDenounced : levelOf (if currentReads then known else []) contributor ≠
    .denounced
  writes : env.writes = true

/-- The table that a vouch writes. -/
def vouchedContributor (env : Env) (voucher contributor : Bytes)
    (reason : Option Bytes) : Contributor :=
  let text := ascii "vouched by " ++ voucher ++ ascii ": " ++ reason.getD []
  newContributor env contributor .vouched (some voucher)
    (if text.length < 2 ^ 31 then some text else Option.none)

theorem ReadsAs.trustVouch_accepted (reads : ReadsAs file known)
    {voucherReads currentReads : Bool} (reason : Option Bytes)
    (accepted : Accepted env voucherReads currentReads known voucher
      contributor) :
    Returns (fun fuel => trustVouch fuel env voucherReads currentReads file
        voucher contributor reason)
      (.ok, some (written env known
        (vouchedContributor env voucher contributor reason))) := by
  have voucherLevel := (reads.seen voucherReads).trustLookup voucher
  have currentLevel := (reads.seen currentReads).trustLookup contributor
  have set := reads.trustSet env contributor .vouched (some voucher)
    (if (ascii "vouched by " ++ voucher ++ ascii ": " ++
      reason.getD []).length < 2 ^ 31 then some (ascii "vouched by " ++
        voucher ++ ascii ": " ++ reason.getD []) else Option.none)
  have notRefused : ¬(levelOf (if voucherReads then known else []) voucher ≠
        .maintainer ∧
      levelOf (if voucherReads then known else []) voucher ≠ .vouched) := by
    rintro ⟨notMaintainer, notVouched⟩
    exact accepted.trusted.elim notMaintainer notVouched
  rw [if_pos accepted.writes] at set
  apply voucherLevel.bind
  simp only [if_neg notRefused]
  apply currentLevel.bind
  simp only [if_neg accepted.notDenounced]
  exact set

/-- A vouch that does not go through changes nothing. -/
theorem ReadsAs.trustVouch_refused (reads : ReadsAs file known)
    {voucherReads currentReads : Bool} (reason : Option Bytes)
    (refused : ¬Accepted env voucherReads currentReads known voucher
      contributor) :
    Returns (fun fuel => trustVouch fuel env voucherReads currentReads file
      voucher contributor reason) (.error, file) := by
  have voucherLevel := (reads.seen voucherReads).trustLookup voucher
  have currentLevel := (reads.seen currentReads).trustLookup contributor
  apply voucherLevel.bind
  by_cases untrusted :
      levelOf (if voucherReads then known else []) voucher ≠ .maintainer ∧
        levelOf (if voucherReads then known else []) voucher ≠ .vouched
  · simp only [if_pos untrusted]
    exact Returns.pure _
  · simp only [if_neg untrusted]
    apply currentLevel.bind
    by_cases denounced :
        levelOf (if currentReads then known else []) contributor = .denounced
    · simp only [if_pos denounced]
      exact Returns.pure _
    · simp only [if_neg denounced]
      have noWrite : ¬env.writes = true := by
        intro writes
        refine refused ⟨?_, denounced, writes⟩
        by_contra neither
        exact untrusted (not_or.mp neither)
      have set := reads.trustSet env contributor .vouched (some voucher)
        (if (ascii "vouched by " ++ voucher ++ ascii ": " ++
          reason.getD []).length < 2 ^ 31 then some (ascii "vouched by " ++
            voucher ++ ascii ": " ++ reason.getD []) else Option.none)
      rw [if_neg noWrite] at set
      exact set

end

/-! ## The level afterwards -/

/-- The strings that a vouch prints are plain. -/
structure VouchStrings (voucher contributor : Bytes)
    (reason : Option Bytes) : Prop where
  contributorClean : Clean contributor
  contributorFits : FitsLine "name" contributor
  voucherClean : Clean voucher
  reasonClean : Clean (reason.getD [])

section

variable {file : Option Bytes} {known : List Contributor} {env : Env}
  {voucher contributor : Bytes} {reason : Option Bytes}

theorem VouchStrings.plain (strings : VouchStrings voucher contributor reason)
    (env : Env) :
    (vouchedContributor env voucher contributor reason).Plain where
  name := strings.contributorClean
  nameFits := strings.contributorFits
  level := ⟨.vouched, rfl⟩
  by' := strings.voucherClean
  reason := by
    unfold vouchedContributor newContributor
    dsimp only
    split
    · have start : Clean (ascii "vouched by ") := by decide
      have colon : Clean (ascii ": ") := by decide
      exact ((start.append strings.voucherClean).append colon).append
        strings.reasonClean
    · exact (by decide : Clean [])
  timeLow := env.timeLow
  timeHigh := env.timeHigh

/-- After a vouch with plain strings the contributor is vouched for. -/
theorem written_level (plain : ∀ entry ∈ known, entry.Plain)
    (strings : VouchStrings voucher contributor reason) :
    Returns (fun fuel => trustLookup fuel (some (written env known
        (vouchedContributor env voucher contributor reason))) contributor)
      .vouched := by
  have seenPlain : ∀ entry ∈ (if env.reads then known else []),
      entry.Plain := by
    intro entry member
    split at member
    · exact plain entry member
    · cases member
  have holds : Holds (some (written env known
      (vouchedContributor env voucher contributor reason))) _ :=
    ⟨withContributor_plain (strings.plain env) seenPlain, .inr rfl⟩
  apply Returns.of_succ
  intro fuel
  rw [holds.trustLookup]
  exact congrArg Except.ok (levelOf_withContributor_self _
    (vouchedContributor env voucher contributor reason))

end

/-- The table of a maintainer. -/
def alice : Contributor :=
  newContributor calm (ascii "alice") .maintainer (some (ascii "root")) none

theorem alice_plain : alice.Plain where
  name := by decide
  nameFits := by decide
  level := ⟨.maintainer, rfl⟩
  by' := by decide
  reason := by decide
  timeLow := by decide
  timeHigh := by decide

theorem alice_readsAs : ReadsAs (some (emitContributor alice)) [alice] := by
  have holds : Holds (some (emitContributor alice)) [alice] := by
    refine ⟨?_, .inr (by simp)⟩
    intro contributor member
    rw [List.mem_singleton.mp member]
    exact alice_plain
  exact holds.readsAs

end SaltOS.Trust
