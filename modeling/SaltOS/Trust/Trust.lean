import SaltOS.Lib.Run
import SaltOS.Toml.Printed

/-!
# The trust database

`src/halite/src/trust.c`: the levels of contributors, kept as `[[contributor]]`
tables of a TOML file.  Every update reads the whole file and prints it anew,
strings with `%s`.
-/

namespace SaltOS.Trust

open Toml

/-- `salt_trust_level`. -/
inductive Level where
  | unknown
  | vouched
  | maintainer
  | denounced
  deriving DecidableEq, Repr

/-- `salt_trust_level_name`. -/
def Level.name : Level → Bytes
  | .maintainer => ascii "maintainer"
  | .vouched => ascii "vouched"
  | .denounced => ascii "denounced"
  | .unknown => ascii "unknown"

/-- `salt_trust_level_parse`. -/
def Level.parse (text : Bytes) : Level :=
  if text = ascii "maintainer" then .maintainer
  else if text = ascii "vouched" then .vouched
  else if text = ascii "denounced" then .denounced
  else .unknown

/-- What an update reads of a `[[contributor]]` table and prints again. -/
structure Contributor where
  name : Bytes
  level : Bytes
  by' : Bytes
  reason : Bytes
  time : Int
  deriving DecidableEq, Repr

def contributorFromNode (node : Node) : Contributor where
  name := (stringAt node "name").getD []
  level := (stringAt node "level").getD (ascii "unknown")
  by' := (stringAt node "by").getD []
  reason := (stringAt node "reason").getD []
  time := intAt node "time" 0

/-- The tables of the file; none when there is no tree. -/
def contributors (root : Option Table) : List Contributor :=
  match root with
  | none => []
  | some table =>
      (arrayItems (tableGet table (ascii "contributor"))).map
        contributorFromNode

def emitContributor (contributor : Contributor) : Bytes :=
  ascii "[[contributor]]\n" ++
  printString "name" contributor.name ++
  printString "level" contributor.level ++
  printString "by" contributor.by' ++
  printString "reason" contributor.reason ++
  bufPrintf (ascii "time = " ++ printInt contributor.time ++ ascii "\n\n")

/-- The loop of `salt_trust_lookup`: the last table of a name counts. -/
def levelOf (known : List Contributor) (contributor : Bytes) : Level :=
  known.foldl (fun level entry =>
    if entry.name = contributor then Level.parse entry.level else level)
    .unknown

/-- `salt_trust_lookup`. -/
def trustLookup (fuel : Nat) (content : Option Bytes)
    (contributor : Bytes) : Except Stop Level := do
  let root ← parseFile fuel content
  return levelOf (contributors root) contributor

/-- The loop of `salt_trust_set` and what follows it: every table of the name
is replaced, and a new one is added when there was none. -/
def withContributor (known : List Contributor) (new : Contributor) :
    List Contributor :=
  known.map (fun entry => if entry.name = new.name then new else entry) ++
    if known.any (fun entry => entry.name = new.name) then [] else [new]

/-- What a call meets outside: the clock, and whether the database file can
be read and replaced. -/
structure Env where
  time : Int
  timeLow : -2 ^ 63 ≤ time
  timeHigh : time < 2 ^ 63
  reads : Bool
  writes : Bool

/-- Whether a call returned `SALT_OK`. -/
inductive Status where
  | ok
  | error
  deriving DecidableEq, Repr

/-- `salt_trust_set`: the status and the file afterwards.  `salt_write_file`
renames a finished file over the old one, so a failed write changes nothing. -/
def trustSet (fuel : Nat) (env : Env) (file : Option Bytes)
    (contributor : Bytes) (level : Level) (by' reason : Option Bytes) :
    Except Stop (Status × Option Bytes) := do
  let root ← parseFile fuel (if env.reads then file else none)
  let new : Contributor :=
    ⟨contributor, level.name, by'.getD [], reason.getD [], env.time⟩
  let out := (withContributor (contributors root) new).flatMap
    emitContributor
  if env.writes then return (.ok, some out) else return (.error, file)

/-- `salt_trust_vouch`; each of its lookups reads the file for itself. -/
def trustVouch (fuel : Nat) (env : Env) (voucherReads currentReads : Bool)
    (file : Option Bytes) (voucher contributor : Bytes)
    (reason : Option Bytes) : Except Stop (Status × Option Bytes) := do
  let level ← trustLookup fuel (if voucherReads then file else none) voucher
  if level ≠ .maintainer ∧ level ≠ .vouched then return (.error, file)
  let current ← trustLookup fuel (if currentReads then file else none)
    contributor
  if current = .denounced then return (.error, file)
  let vouched := ascii "vouched by " ++ voucher ++ ascii ": " ++
    reason.getD []
  trustSet fuel env file contributor .vouched (some voucher)
    (if vouched.length < 2 ^ 31 then some vouched else none)

/-- A call that changes the database. -/
inductive Call where
  | set (env : Env) (contributor : Bytes) (level : Level)
      (by' reason : Option Bytes)
  | vouch (env : Env) (voucherReads currentReads : Bool)
      (voucher contributor : Bytes) (reason : Option Bytes)

def Call.run (call : Call) (file : Option Bytes) (fuel : Nat) :
    Except Stop (Status × Option Bytes) :=
  match call with
  | .set env contributor level by' reason =>
      trustSet fuel env file contributor level by' reason
  | .vouch env voucherReads currentReads voucher contributor reason =>
      trustVouch fuel env voucherReads currentReads file voucher contributor
        reason

/-- A call returns and leaves the file in some state. -/
def Call.Step (file : Option Bytes) (call : Call) (after : Option Bytes) :
    Prop :=
  ∃ status, Returns (call.run file) (status, after)

end SaltOS.Trust
