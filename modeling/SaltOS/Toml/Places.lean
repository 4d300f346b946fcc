import SaltOS.Toml.Progress
import Mathlib.Logic.Relation

/-!
# Where a parse comes to

The places that a parse comes to: the start of a value, and the rounds of the
loops for arrays, inline tables, dotted paths and statements.  Every round
takes a byte, except one of the loop for arrays that finds a closing brace.
-/

namespace SaltOS.Toml

open Relation

inductive Place where
  | value (cursor : Cursor)
  | item (cursor : Cursor)
  | field (cursor : Cursor)
  | key (cursor : Cursor)
  | statement (document : Document)

/-- The number of bytes in front of the parser. -/
def Place.left : Place → Nat
  | .value cursor => cursor.rest.length
  | .item cursor => cursor.rest.length
  | .field cursor => cursor.rest.length
  | .key cursor => cursor.rest.length
  | .statement document => document.cursor.rest.length

/-- The start of the path of a table header. -/
def headerStart (cursor : Cursor) : Cursor :=
  if cursor.rest.head? == some 91 then cursor.to (cursor.rest.drop 1)
  else cursor

/-- Where the loop for arrays goes on behind an item, unless it ends. -/
def nextItem (cursor : Cursor) : Option Cursor :=
  let cursor := skipWsAndComments cursor
  match cursor.rest with
  | 44 :: rest => some (cursor.to rest)
  | 93 :: _ => none
  | _ => some cursor

/-- The bytes that a round of the loop for arrays takes for an item. -/
structure StartsItem (cursor : Cursor) : Prop where
  nonEmpty : (skipWsAndComments cursor).rest ≠ []
  notClosed : (skipWsAndComments cursor).rest.head? ≠ some 93

/-- The bytes that the loop for statements takes for an assignment. -/
structure StartsAssignment (document : Document) : Prop where
  nonEmpty : (skipWsAndComments document.cursor).rest ≠ []
  noHeader : (skipWsAndComments document.cursor).rest.head? ≠ some 91

/-- From a place into the value or the loop that starts there. -/
inductive Calls : Place → Place → Prop where
  | array {cursor : Cursor} {rest : Bytes} :
      (skipWsInline cursor).rest = 91 :: rest →
      Calls (.value cursor) (.item ((skipWsInline cursor).to rest))
  | inlineTable {cursor : Cursor} {rest : Bytes} :
      (skipWsInline cursor).rest = 123 :: rest →
      (skipWsInline ((skipWsInline cursor).to rest)).rest.head? ≠
        some 125 →
      Calls (.value cursor)
        (.field (skipWsInline ((skipWsInline cursor).to rest)))
  | itemValue {cursor : Cursor} :
      StartsItem cursor →
      Calls (.item cursor) (.value (skipWsAndComments cursor))
  | fieldValue {cursor left : Cursor} {key rest : Bytes} :
      parseKeyToken (skipWsInline cursor) = .ok (key, left) →
      (skipWsInline left).rest = 61 :: rest →
      Calls (.field cursor)
        (.value (skipWsInline ((skipWsInline left).to rest)))
  | headerKeys {document : Document} {rest : Bytes} :
      (skipWsAndComments document.cursor).rest = 91 :: rest →
      Calls (.statement document) (.key (headerStart
        ((skipWsAndComments document.cursor).to rest)))
  | assignmentKeys {document : Document} :
      StartsAssignment document →
      Calls (.statement document)
        (.key (skipWsAndComments document.cursor))
  | assignmentValue {document : Document} {keys : List Bytes}
      {left : Cursor} {rest : Bytes} :
      StartsAssignment document →
      parseDottedPath (skipWsAndComments document.cursor) =
        .ok (keys, left) →
      (skipWsInline left).rest = 61 :: rest →
      Calls (.statement document) (.value ((skipWsInline left).to rest))

/-- From a round of a loop to the next one. -/
inductive Rounds (next : UInt8) : Place → Place → Prop where
  | item {cursor left after : Cursor} {fuel : Nat} {value : Node} :
      StartsItem cursor →
      parseValue next fuel (skipWsAndComments cursor) = .ok (value, left) →
      nextItem left = some after →
      Rounds next (.item cursor) (.item after)
  | field {cursor left behind : Cursor} {fuel : Nat} {key rest more : Bytes}
      {value : Node} :
      parseKeyToken (skipWsInline cursor) = .ok (key, left) →
      (skipWsInline left).rest = 61 :: rest →
      parseValue next fuel (skipWsInline ((skipWsInline left).to rest)) =
        .ok (value, behind) →
      (skipWsInline behind).rest = 44 :: more →
      Rounds next (.field cursor) (.field ((skipWsInline behind).to more))
  | key {cursor left : Cursor} {key rest : Bytes} :
      parseKeyToken cursor = .ok (key, left) →
      (skipWsInline left).rest = 46 :: rest →
      Rounds next (.key cursor) (.key ((skipWsInline left).to rest))
  | statement {document after : Document} {fuel : Nat} :
      parseStatement next fuel document = .ok (some after) →
      Rounds next (.statement document) (.statement after)

def Leads (next : UInt8) (place after : Place) : Prop :=
  Calls place after ∨ Rounds next place after

/-- The parse of a text comes to a place. -/
def Comes (next : UInt8) (text : Bytes) (place : Place) : Prop :=
  ReflTransGen (Leads next)
    (.statement { root := [], current := [], cursor := ⟨text, 0, 1⟩ }) place

/-- The next byte, behind blanks and comments, closes a brace. -/
def AtBrace (cursor : Cursor) : Prop :=
  (skipWsAndComments cursor).rest.head? = some 125

/-! ## Results with some fuel -/

theorem outOfFuel_or_ok {α : Type} {run : Nat → Except Stop α} {result : α}
    {fuel : Nat}
    (extends' : ∀ less more, less ≤ more → Extends (run less) (run more))
    (isOk : run fuel = .ok result) (other : Nat) :
    run other = .error .outOfFuel ∨ run other = .ok result := by
  rcases Nat.le_total fuel other with le | le
  · rcases extends' fuel other le with empty | same
    · rw [isOk] at empty
      cases empty
    · exact .inr (same.trans isOk)
  · rcases extends' other fuel le with empty | same
    · exact .inl empty
    · exact .inr (same.symm.trans isOk)

theorem parseValue_outOfFuel_or {next : UInt8} {fuel : Nat}
    {cursor left : Cursor} {value : Node}
    (isOk : parseValue next fuel cursor = .ok (value, left)) (other : Nat) :
    parseValue next other cursor = .error .outOfFuel ∨
      parseValue next other cursor = .ok (value, left) :=
  @outOfFuel_or_ok _ (fun fuel => parseValue next fuel cursor) _ fuel
    (fun _ _ le => parseValue_extends next le cursor) isOk other

theorem parseStatement_outOfFuel_or {next : UInt8} {fuel : Nat}
    {document : Document} {after : Option Document}
    (isOk : parseStatement next fuel document = .ok after) (other : Nat) :
    parseStatement next other document = .error .outOfFuel ∨
      parseStatement next other document = .ok after :=
  @outOfFuel_or_ok _ (fun fuel => parseStatement next fuel document) _ fuel
    (fun _ _ le => parseStatement_extends next le document) isOk other

/-! ## Rounds -/

theorem nextItem_comma {cursor : Cursor} {rest : Bytes}
    (isRest : (skipWsAndComments cursor).rest = 44 :: rest) :
    nextItem cursor = some ((skipWsAndComments cursor).to rest) := by
  simp [nextItem, isRest]

theorem nextItem_close {cursor : Cursor} {rest : Bytes}
    (isRest : (skipWsAndComments cursor).rest = 93 :: rest) :
    nextItem cursor = none := by
  simp [nextItem, isRest]

theorem nextItem_other {cursor : Cursor}
    (noComma : ∀ rest, (skipWsAndComments cursor).rest = 44 :: rest → False)
    (noClose : ∀ rest, (skipWsAndComments cursor).rest = 93 :: rest →
      False) :
    nextItem cursor = some (skipWsAndComments cursor) := by
  unfold nextItem
  dsimp only
  split
  · rename_i rest isRest
    exact (noComma rest isRest).elim
  · rename_i rest isRest
    exact (noClose rest isRest).elim
  · rfl

section

variable {next : UInt8}

theorem ok_bind {α β : Type} (value : α) (rest : α → Except Stop β) :
    (Except.ok value >>= rest) = rest value :=
  rfl

theorem parseArray_starts {cursor : Cursor} (starts : StartsItem cursor)
    (fuel : Nat) (items : List Node) :
    parseArray next (fuel + 1) items cursor =
      parseValue next fuel (skipWsAndComments cursor) >>= fun read =>
        match nextItem read.2 with
        | some after => parseArray next fuel (items ++ [read.1]) after
        | none => .ok (.arr (items ++ [read.1]),
            skipClosing (skipWsAndComments read.2)) := by
  rw [parseArray]
  dsimp only
  split
  · rename_i isEmpty
    exact absurd isEmpty starts.nonEmpty
  · rename_i rest isRest
    exact absurd (by rw [isRest]; rfl) starts.notClosed
  · congr 1
    funext read
    obtain ⟨value, left⟩ := read
    dsimp only
    split
    · rename_i rest isRest
      rw [nextItem_comma isRest]
    · rename_i rest isRest
      rw [nextItem_close isRest]
      simp only [skipClosing, isRest]
    · rename_i noComma noClose
      rw [nextItem_other noComma noClose]

theorem parseArray_ended {cursor : Cursor} (ended : ¬ StartsItem cursor)
    (fuel : Nat) (items : List Node) :
    parseArray next (fuel + 1) items cursor ≠ .error .outOfFuel := by
  rw [parseArray]
  dsimp only
  split
  · simp [fail]
  · simp
  · rename_i nonEmpty notClosed
    refine absurd ⟨nonEmpty, ?_⟩ ended
    intro isClosed
    obtain ⟨rest, isRest⟩ := List.head?_eq_some_iff.mp isClosed
    exact notClosed rest isRest

/-- A round of the loop for inline tables, up to its value. -/
theorem parseInlineTable_cases (next : UInt8) (cursor : Cursor) :
    (∃ key left rest,
      parseKeyToken (skipWsInline cursor) = .ok (key, left) ∧
      (skipWsInline left).rest = 61 :: rest ∧ ∀ fuel table,
        parseInlineTable next (fuel + 1) table cursor =
          parseValue next fuel (skipWsInline ((skipWsInline left).to rest))
            >>= fun read =>
          match (skipWsInline read.2).rest with
          | 44 :: more => parseInlineTable next fuel
              (tableSet table key read.1) ((skipWsInline read.2).to more)
          | 125 :: more => .ok (.tab (tableSet table key read.1),
              (skipWsInline read.2).to more)
          | _ => failAt (ascii "toml: malformed inline table")
              (skipWsInline read.2)) ∨
      ∀ fuel table, parseInlineTable next (fuel + 1) table cursor ≠
        .error .outOfFuel := by
  cases isKey : parseKeyToken (skipWsInline cursor) with
  | error stop =>
      right
      intro fuel table
      rw [parseInlineTable, isKey]
      intro isEmpty
      cases isEmpty
      exact (parseKeyToken_stops _).fueled isKey
  | ok read =>
      obtain ⟨key, left⟩ := read
      by_cases assigns : ∃ rest, (skipWsInline left).rest = 61 :: rest
      · left
        obtain ⟨rest, isRest⟩ := assigns
        refine ⟨key, left, rest, rfl, isRest, fun fuel table => ?_⟩
        rw [parseInlineTable, isKey, ok_bind]
        dsimp only
        rw [isRest]
        rfl
      · right
        intro fuel table
        rw [parseInlineTable, isKey, ok_bind]
        dsimp only
        split
        · rename_i rest isRest
          exact absurd ⟨rest, isRest⟩ assigns
        · simp [failAt]

theorem parseHeader_fueled (document : Document) (cursor : Cursor) :
    parseHeader document cursor ≠ .error .outOfFuel := by
  unfold parseHeader
  dsimp only
  cases isPath : parseDottedPath (if cursor.rest.head? == some 91 then
      cursor.to (cursor.rest.drop 1) else cursor) with
  | error stop =>
      intro isEmpty
      cases isEmpty
      exact (parseDottedPath_stops _).fueled isPath
  | ok read =>
      obtain ⟨keys, left⟩ := read
      simp only [bind, Except.bind]
      split
      · simp [failAt]
      · simp

/-- What an assignment does with its value. -/
def assignKeys (document : Document) (keys : List Bytes)
    (read : Node × Cursor) : Except Stop (Option Document) :=
  match descend (fun table => some (tableSet table
      (keys.getLast?.getD []) read.1)) (document.current ++ keys.dropLast)
      document.root with
  | none => failAt (ascii "toml: key path conflict") read.2
  | some root =>
      let cursor := skipWsInline read.2
      let cursor :=
        match cursor.rest with
        | 35 :: rest => cursor.to (rest.dropWhile (· != 10))
        | _ => cursor
      .ok (some { document with root := root, cursor := cursor })

theorem assignKeys_fueled (document : Document) (keys : List Bytes)
    (read : Node × Cursor) :
    assignKeys document keys read ≠ .error .outOfFuel := by
  unfold assignKeys
  split
  · simp [failAt]
  · simp

theorem parseStatement_starts {document : Document}
    (starts : StartsAssignment document) (fuel : Nat) :
    parseStatement next fuel document =
      (parseAssignment next fuel document
        (skipWsAndComments document.cursor)).map some := by
  unfold parseStatement
  dsimp only
  split
  · rename_i isEmpty
    exact absurd isEmpty starts.nonEmpty
  · rename_i rest isRest
    exact absurd (by rw [isRest]; rfl) starts.noHeader
  · rfl

/-- An assignment from its value on. -/
theorem parseStatement_assignment {document : Document}
    {keys : List Bytes} {left : Cursor} {rest : Bytes}
    (starts : StartsAssignment document)
    (isPath : parseDottedPath (skipWsAndComments document.cursor) =
      .ok (keys, left))
    (isRest : (skipWsInline left).rest = 61 :: rest) (fuel : Nat) :
    parseStatement next fuel document =
      parseValue next fuel ((skipWsInline left).to rest) >>=
        assignKeys document keys := by
  rw [parseStatement_starts starts, parseAssignment, isPath, ok_bind]
  dsimp only
  rw [isRest]
  change Except.map some (parseValue next fuel
    ((skipWsInline left).to rest) >>= _) = _
  cases parseValue next fuel ((skipWsInline left).to rest) with
  | error stop => rfl
  | ok read =>
      obtain ⟨value, behind⟩ := read
      simp only [bind, Except.bind, assignKeys]
      cases descend (fun table => some (tableSet table
        (keys.getLast?.getD []) value))
        (document.current ++ keys.dropLast) document.root with
      | none => rfl
      | some root => rfl

/-- An assignment without a sign fails. -/
theorem parseStatement_malformed {document : Document}
    {keys : List Bytes} {left : Cursor} (starts : StartsAssignment document)
    (isPath : parseDottedPath (skipWsAndComments document.cursor) =
      .ok (keys, left))
    (malformed : ∀ rest, (skipWsInline left).rest ≠ 61 :: rest)
    (fuel : Nat) :
    parseStatement next fuel document =
      failAt (ascii "toml: expected =") (skipWsInline left) := by
  rw [parseStatement_starts starts, parseAssignment, isPath, ok_bind]
  dsimp only
  split
  · rename_i rest isRest
    exact absurd isRest (malformed rest)
  · rfl

/-- A statement has a value, or it needs no fuel. -/
theorem parseStatement_cases (next : UInt8) (document : Document) :
    (∃ keys left rest, StartsAssignment document ∧
      parseDottedPath (skipWsAndComments document.cursor) =
        .ok (keys, left) ∧ (skipWsInline left).rest = 61 :: rest) ∨
      ∀ fuel, parseStatement next fuel document ≠ .error .outOfFuel := by
  by_cases starts : StartsAssignment document
  · cases isPath : parseDottedPath (skipWsAndComments document.cursor) with
    | error stop =>
        right
        intro fuel
        rw [parseStatement_starts starts, parseAssignment, isPath]
        intro isEmpty
        cases isEmpty
        exact (parseDottedPath_stops _).fueled isPath
    | ok read =>
        obtain ⟨keys, left⟩ := read
        by_cases assigns : ∃ rest, (skipWsInline left).rest = 61 :: rest
        · left
          obtain ⟨rest, isRest⟩ := assigns
          exact ⟨keys, left, rest, starts, rfl, isRest⟩
        · right
          intro fuel
          rw [parseStatement_malformed starts isPath
            (fun rest isRest => assigns ⟨rest, isRest⟩)]
          simp [failAt]
  · right
    intro fuel
    unfold parseStatement
    dsimp only
    split
    · simp
    · rename_i rest isRest
      have fueled := parseHeader_fueled document
        ((skipWsAndComments document.cursor).to rest)
      cases header : parseHeader document
          ((skipWsAndComments document.cursor).to rest) with
      | error stop =>
          rw [header] at fueled
          simpa [Except.map] using fueled
      | ok after => simp [Except.map]
    · rename_i nonEmpty noHeader
      refine absurd ⟨nonEmpty, ?_⟩ starts
      intro isHeader
      obtain ⟨rest, isRest⟩ := List.head?_eq_some_iff.mp isHeader
      exact noHeader rest isRest

/-! ## Rounds take bytes -/

theorem length_lt_of_tail {left right : Bytes} (suffix : left <:+ right.tail)
    (nonEmpty : right ≠ []) : left.length < right.length := by
  have shorter := suffix.length_le
  rw [List.length_tail] at shorter
  have positive := List.length_pos_iff.mpr nonEmpty
  omega

theorem nextItem_suffix {cursor after : Cursor}
    (isNext : nextItem cursor = some after) : after.rest <:+ cursor.rest := by
  refine List.IsSuffix.trans ?_ (skipWsAndComments_suffix cursor)
  unfold nextItem at isNext
  dsimp only at isNext
  split at isNext
  · rename_i rest isRest
    cases isNext
    rw [isRest]
    exact List.suffix_cons 44 rest
  · cases isNext
  · cases isNext
    exact List.suffix_refl _

/-- A round of the loop for arrays takes a byte, except at a brace. -/
theorem item_advances {cursor left after : Cursor} {fuel : Nat}
    {value : Node} (starts : StartsItem cursor) (noBrace : ¬ AtBrace cursor)
    (isValue : parseValue next fuel (skipWsAndComments cursor) =
      .ok (value, left)) (isNext : nextItem left = some after) :
    after.rest.length < cursor.rest.length := by
  have skipped := (skipWsAndComments_suffix cursor).length_le
  obtain ⟨byte, rest, isRest⟩ := List.exists_cons_of_ne_nil starts.nonEmpty
  have plain := skipWsAndComments_starts isRest
  have still := skipWsInline_self isRest plain.notBlank
  rcases parseValue_advances next isValue with shorter | ⟨rfl, empty⟩
  · rw [still] at shorter
    have taken := length_lt_of_tail shorter starts.nonEmpty
    have behind := (nextItem_suffix isNext).length_le
    omega
  · -- An empty token: what ends it here can only be a comma.
    rw [still] at isNext empty
    obtain ⟨_, isHead, isEnd⟩ := empty
    rw [isRest] at isHead
    cases isHead
    have notClosed : byte ≠ 93 := by
      rintro rfl
      exact starts.notClosed (by rw [isRest]; rfl)
    have notBrace : byte ≠ 125 := by
      rintro rfl
      exact noBrace (by rw [AtBrace, isRest]; rfl)
    have isComma : byte = 44 := by
      have notBlank := plain.notBlank
      simp only [isInlineBlank, Bool.or_eq_false_iff, beq_eq_false_iff_ne]
        at notBlank
      simp only [isScalarEnd, Bool.or_eq_true, beq_iff_eq, notClosed,
        notBrace, plain.notEnd, plain.notComment, notBlank,
        plain.notReturn, or_false] at isEnd
      exact isEnd
    subst isComma
    have again := skipWsAndComments_self isRest plain
    rw [nextItem_comma (by rw [again]; exact isRest), again] at isNext
    cases isNext
    rw [isRest, List.length_cons] at skipped
    exact skipped

theorem field_advances {cursor left behind : Cursor} {fuel : Nat}
    {key rest more : Bytes} {value : Node}
    (isKey : parseKeyToken (skipWsInline cursor) = .ok (key, left))
    (isRest : (skipWsInline left).rest = 61 :: rest)
    (isValue : parseValue next fuel
      (skipWsInline ((skipWsInline left).to rest)) = .ok (value, behind))
    (isMore : (skipWsInline behind).rest = 44 :: more) :
    more.length < cursor.rest.length := by
  have keyTaken := ((parseKeyToken_stops _).leaves _ _ isKey).length_le
  have valueTaken := ((parse_leaves next fuel).1 _ _ _ isValue).length_le
  have first := (skipWsInline_suffix cursor).length_le
  have second := (skipWsInline_suffix left).length_le
  have third := (skipWsInline_suffix ((skipWsInline left).to rest)).length_le
  have fourth := (skipWsInline_suffix behind).length_le
  rw [isRest, List.length_cons] at second
  rw [isMore, List.length_cons] at fourth
  rw [List.length_tail] at keyTaken
  simp only [Cursor.to] at third
  simp only [Cursor.to] at valueTaken
  omega

theorem key_advances {cursor left : Cursor} {key rest : Bytes}
    (isKey : parseKeyToken cursor = .ok (key, left))
    (isRest : (skipWsInline left).rest = 46 :: rest) :
    rest.length < cursor.rest.length := by
  have taken := ((parseKeyToken_stops _).leaves _ _ isKey).length_le
  have skipped := (skipWsInline_suffix left).length_le
  rw [isRest, List.length_cons] at skipped
  rw [List.length_tail] at taken
  omega

theorem skipClosing_suffix (cursor : Cursor) :
    (skipClosing cursor).rest <:+ cursor.rest := by
  unfold skipClosing
  split
  · rename_i rest isRest
    rw [isRest]
    exact List.suffix_cons 93 rest
  · exact List.suffix_refl _

theorem parseHeader_suffix {document after : Document} {cursor : Cursor}
    (read : parseHeader document cursor = .ok after) :
    after.cursor.rest <:+ cursor.rest := by
  have start : (if cursor.rest.head? == some 91 then
      cursor.to (cursor.rest.drop 1) else cursor).rest <:+ cursor.rest := by
    split
    · exact List.drop_suffix _ _
    · exact List.suffix_refl _
  unfold parseHeader at read
  dsimp only at read
  cases isPath : parseDottedPath (if cursor.rest.head? == some 91 then
      cursor.to (cursor.rest.drop 1) else cursor) with
  | error stop =>
      rw [isPath] at read
      cases read
  | ok path =>
      obtain ⟨keys, left⟩ := path
      have taken := (parseDottedPath_stops _).leaves _ _ isPath
      have skipped := (skipWsInline_suffix left).trans
        (taken.trans ((List.tail_suffix _).trans start))
      have once := (skipClosing_suffix (skipWsInline left)).trans skipped
      have twice := (skipClosing_suffix (skipClosing
        (skipWsInline left))).trans once
      rw [isPath] at read
      simp only [bind, Except.bind] at read
      split at read
      · cases read
      · cases read
        dsimp only
        split
        · exact twice
        · exact once

theorem assignKeys_suffix {document after : Document} {keys : List Bytes}
    {read : Node × Cursor}
    (assigned : assignKeys document keys read = .ok (some after)) :
    after.cursor.rest <:+ read.2.rest := by
  unfold assignKeys at assigned
  split at assigned
  · cases assigned
  · cases assigned
    dsimp only
    refine List.IsSuffix.trans ?_ (skipWsInline_suffix read.2)
    split
    · rename_i rest isRest
      rw [isRest]
      exact (List.dropWhile_suffix _).trans (List.suffix_cons 35 rest)
    · exact List.suffix_refl _

theorem statement_advances {document after : Document} {fuel : Nat}
    (read : parseStatement next fuel document = .ok (some after)) :
    after.cursor.rest.length < document.cursor.rest.length := by
  have skipped := (skipWsAndComments_suffix document.cursor).length_le
  by_cases starts : StartsAssignment document
  · cases isPath : parseDottedPath (skipWsAndComments document.cursor) with
    | error stop =>
        rw [parseStatement_starts starts, parseAssignment, isPath] at read
        cases read
    | ok path =>
        obtain ⟨keys, left⟩ := path
        have taken := ((parseDottedPath_stops _).leaves _ _ isPath).length_le
        have blank := (skipWsInline_suffix left).length_le
        rw [List.length_tail] at taken
        by_cases assigns : ∃ rest, (skipWsInline left).rest = 61 :: rest
        · obtain ⟨rest, isRest⟩ := assigns
          rw [parseStatement_assignment starts isPath isRest] at read
          cases isValue : parseValue next fuel
              ((skipWsInline left).to rest) with
          | error stop =>
              rw [isValue] at read
              cases read
          | ok value =>
              rw [isValue] at read
              have valueTaken := ((parse_leaves next fuel).1 _ _ _
                isValue).length_le
              have behind := (assignKeys_suffix read).length_le
              rw [isRest, List.length_cons] at blank
              simp only [Cursor.to] at valueTaken
              omega
        · rw [parseStatement_malformed starts isPath
            (fun rest isRest => assigns ⟨rest, isRest⟩)] at read
          cases read
  · unfold parseStatement at read
    dsimp only at read
    split at read
    · cases read
    · rename_i rest isRest
      cases header : parseHeader document
          ((skipWsAndComments document.cursor).to rest) with
      | error stop =>
          rw [header] at read
          cases read
      | ok result =>
          rw [header] at read
          cases read
          have taken := (parseHeader_suffix header).length_le
          rw [isRest, List.length_cons] at skipped
          simp only [Cursor.to] at taken
          omega
    · rename_i nonEmpty noHeader
      refine absurd ⟨nonEmpty, ?_⟩ starts
      intro isHeader
      obtain ⟨rest, isRest⟩ := List.head?_eq_some_iff.mp isHeader
      exact (noHeader rest isRest).elim

end

end SaltOS.Toml
