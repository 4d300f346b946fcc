import SaltOS.Toml.Places

/-!
# Bytes behind the text

The loops for multi-line strings test for closing quotes at `p[0]`, `p[1]` and
`p[2]`, once under `p + 2 < end` and once more under `p + 2 == end`.  With
exactly two quotes left the second test reads the byte behind the end, and
steps over it when it is a quote too.  Nothing else in the parser looks behind
the end of the text.
-/

namespace SaltOS.Toml

open Relation

/-- The two kinds of multi-line strings. -/
inductive Kind where
  | basic
  | literal
  deriving DecidableEq, Repr

def Kind.quote : Kind → UInt8
  | .basic => 34
  | .literal => 39

/-- Whether a fourth quote keeps three from closing. -/
def Kind.guarded : Kind → Bool
  | .basic => true
  | .literal => false

/-- The offsets that the tests for closing quotes read, from the position of a
round on. -/
def Kind.looksAt (kind : Kind) (rest : Bytes) : List Nat :=
  match rest with
  | a :: b :: c :: more =>
      if a ≠ kind.quote then [0]
      else if b ≠ kind.quote then [0, 1]
      else if c ≠ kind.quote then [0, 1, 2]
      else if kind.guarded ∧ more ≠ [] then [0, 1, 2, 3]
      else [0, 1, 2]
  | [a, b] =>
      if a ≠ kind.quote then [0]
      else if b ≠ kind.quote then [0, 1]
      else [0, 1, 2]
  | _ => []

/-- A line end behind the opening quotes is skipped. -/
def Kind.start (kind : Kind) (cursor : Cursor) : Cursor :=
  match kind with
  | .basic =>
      match cursor.rest with
      | 10 :: rest => { cursor with rest := rest, line := cursor.line + 1 }
      | 13 :: 10 :: rest =>
          { cursor with rest := rest, line := cursor.line + 1 }
      | _ => cursor
  | .literal =>
      match cursor.rest with
      | 10 :: rest => { cursor with rest := rest, line := cursor.line + 1 }
      | _ => cursor

/-- The value at a cursor is a multi-line string. -/
def Opens (kind : Kind) (cursor start : Cursor) : Prop :=
  ∃ rest, (skipWsInline cursor).rest =
    kind.quote :: kind.quote :: kind.quote :: rest ∧
    start = kind.start ((skipWsInline cursor).to rest)

def stepOver (cursor : Cursor) (byte : UInt8) (rest : Bytes) : Cursor :=
  { cursor with
    rest := rest
    line := if byte == 10 then cursor.line + 1 else cursor.line }

/-- From a round of the loop for a multi-line string to the next one. -/
inductive TextRounds (next : UInt8) : Kind → Cursor → Cursor → Prop where
  | continuation {cursor continued : Cursor} {rest : Bytes} :
      cursor.rest = 92 :: rest →
      closesMultiline next 34 true cursor = none →
      skipContinuation (cursor.to rest) = some continued →
      TextRounds next .basic cursor continued
  | escape {cursor left : Cursor} {rest bytes : Bytes} :
      cursor.rest = 92 :: rest →
      closesMultiline next 34 true cursor = none →
      skipContinuation (cursor.to rest) = none →
      parseEscape (cursor.to rest) = .ok (bytes, left) →
      TextRounds next .basic cursor left
  | byte {kind : Kind} {cursor : Cursor} {byte : UInt8} {rest : Bytes} :
      cursor.rest = byte :: rest →
      closesMultiline next kind.quote kind.guarded cursor = none →
      (kind = .basic → byte ≠ 92) →
      TextRounds next kind cursor (stepOver cursor byte rest)

/-- From a place the parse comes to a round of a multi-line string. -/
def ComesToRound (next : UInt8) (place : Place) (kind : Kind)
    (cursor : Cursor) : Prop :=
  ∃ value start, ReflTransGen (Leads next) place (.value value) ∧
    Opens kind value start ∧
    ReflTransGen (TextRounds next kind) start cursor

/-- How far the position is behind the end of the text. -/
def Place.past : Place → Nat
  | .value cursor => cursor.past
  | .item cursor => cursor.past
  | .field cursor => cursor.past
  | .key cursor => cursor.past
  | .statement document => document.cursor.past

/-- The start of a parse. -/
def Place.start (text : Bytes) : Place :=
  .statement { root := [], current := [], cursor := ⟨text, 0, 1⟩ }

/-- Whatever byte is stored behind a text, the parser does not read it, does
not step behind the end, and gives the same result. -/
structure Confined (text : Bytes) : Prop where
  reads : ∀ next kind cursor,
    ComesToRound next (Place.start text) kind cursor →
    ∀ offset ∈ kind.looksAt cursor.rest, offset < cursor.rest.length
  position : ∀ next place, Comes next text place → place.past = 0
  values : ∀ next fuel cursor value left, Comes next text (.value cursor) →
    parseValue next fuel cursor = .ok (value, left) → left.past = 0
  same : ∀ next other fuel, parse next fuel text = parse other fuel text

/-- No round of a multi-line string has just two of its quotes left. -/
def QuotesClosed (next : UInt8) (place : Place) : Prop :=
  ∀ kind cursor, ComesToRound next place kind cursor →
    cursor.rest ≠ [kind.quote, kind.quote]

/-! ## What a round reads -/

/-- Only with two quotes left a round reads behind the end. -/
theorem looksAt_within {kind : Kind} {rest : Bytes} :
    (∀ offset ∈ kind.looksAt rest, offset < rest.length) ↔
      rest ≠ [kind.quote, kind.quote] := by
  match rest with
  | [] => simp [Kind.looksAt]
  | [a] => simp [Kind.looksAt]
  | [a, b] =>
      by_cases isFirst : a = kind.quote
      · by_cases isSecond : b = kind.quote
        · simp [Kind.looksAt, isFirst, isSecond]
        · simp [Kind.looksAt, isFirst, isSecond]
      · simp [Kind.looksAt, isFirst]
  | a :: b :: c :: more =>
      refine ⟨fun _ => by simp, fun _ offset member => ?_⟩
      unfold Kind.looksAt at member
      dsimp only at member
      split_ifs at member with _ _ _ four
      · simp only [List.mem_singleton] at member
        simp [member]
      · simp only [List.mem_cons, List.not_mem_nil, or_false] at member
        simp only [List.length_cons]
        omega
      · simp only [List.mem_cons, List.not_mem_nil, or_false] at member
        simp only [List.length_cons]
        omega
      · simp only [List.mem_cons, List.not_mem_nil, or_false] at member
        have positive := List.length_pos_iff.mpr four.2
        simp only [List.length_cons]
        omega
      · simp only [List.mem_cons, List.not_mem_nil, or_false] at member
        simp only [List.length_cons]
        omega

/-! ## Results that stay in front of the end -/

variable {α β : Type}

/-- The position does not get any further behind the end. -/
def Steady (past : Nat) (result : Except Stop (α × Cursor)) : Prop :=
  ∀ value cursor, result = .ok (value, cursor) → cursor.past = past

namespace Steady

variable {past : Nat}

theorem ok {value : α} {cursor : Cursor} (same : cursor.past = past) :
    Steady past (.ok (value, cursor)) := by
  intro _ _ isOk
  cases isOk
  exact same

theorem error (stop : Stop) :
    Steady past (.error stop : Except Stop (α × Cursor)) := by
  intro _ _ isOk
  cases isOk

theorem bind {first : Except Stop (α × Cursor)}
    {next : α × Cursor → Except Stop (β × Cursor)}
    (steady : Steady past first)
    (others : ∀ value cursor, cursor.past = past →
      Steady past (next (value, cursor))) :
    Steady past (first >>= next) := by
  cases first with
  | error stop => exact error stop
  | ok read =>
      obtain ⟨value, cursor⟩ := read
      exact others value cursor (steady value cursor rfl)

end Steady

theorem parseEscape_steady (cursor : Cursor) :
    Steady cursor.past (parseEscape cursor) := by
  unfold parseEscape
  split
  · exact .error _
  · split
    · exact .ok rfl
    split
    · split
      · exact .ok rfl
      · exact .error _
    · exact .error _

theorem basicLoop_steady (fuel : Nat) (text : Bytes) (cursor : Cursor) :
    Steady cursor.past (basicLoop fuel text cursor) := by
  induction fuel generalizing text cursor with
  | zero => exact .error _
  | succ fuel induction =>
      unfold basicLoop
      split
      · exact .error _
      · split
        · exact .ok rfl
        split
        · refine .bind (parseEscape_steady _) ?_
          intro bytes left same
          rw [← same]
          exact induction _ left
        split
        · exact .error _
        · exact induction _ _

theorem parseLiteralString_steady (cursor : Cursor) :
    Steady cursor.past (parseLiteralString cursor) := by
  unfold parseLiteralString
  dsimp only
  split
  · exact .error _
  · split
    · exact .ok rfl
    · exact .error _

theorem parseKeyToken_steady (cursor : Cursor) :
    Steady cursor.past (parseKeyToken cursor) := by
  unfold parseKeyToken
  dsimp only
  split
  · exact .error _
  · exact basicLoop_steady _ _ _
  · exact parseLiteralString_steady _
  · split
    · exact .error _
    · exact .ok rfl

theorem dottedLoop_steady (fuel : Nat) (keys : List Bytes)
    (cursor : Cursor) :
    Steady cursor.past (dottedLoop fuel keys cursor) := by
  induction fuel generalizing keys cursor with
  | zero => exact .error _
  | succ fuel induction =>
      unfold dottedLoop
      refine .bind (parseKeyToken_steady cursor) ?_
      intro key left same
      dsimp only
      split
      · rw [← same]
        exact induction _ _
      · exact .ok same

theorem parseDottedPath_steady (cursor : Cursor) :
    Steady cursor.past (parseDottedPath cursor) :=
  dottedLoop_steady _ _ cursor

/-! ## Multi-line strings -/

/-- From a round on no round has just two quotes left. -/
def RoundsSafe (next : UInt8) (kind : Kind) (start : Cursor) : Prop :=
  ∀ cursor, ReflTransGen (TextRounds next kind) start cursor →
    cursor.rest ≠ [kind.quote, kind.quote]

theorem RoundsSafe.later {next : UInt8} {kind : Kind}
    {cursor after : Cursor} (safe : RoundsSafe next kind cursor)
    (round : TextRounds next kind cursor after) :
    RoundsSafe next kind after :=
  fun final later => safe final (.head round later)

section

variable (next other : UInt8)

theorem closesMultiline_same {kind : Kind} {cursor : Cursor}
    (notPair : cursor.rest ≠ [kind.quote, kind.quote]) :
    closesMultiline next kind.quote kind.guarded cursor =
      closesMultiline other kind.quote kind.guarded cursor ∧
    ∀ closed, closesMultiline next kind.quote kind.guarded cursor =
      some closed → closed.past = cursor.past := by
  unfold closesMultiline
  split
  · refine ⟨rfl, fun closed isClosed => ?_⟩
    split at isClosed
    · cases isClosed
      rfl
    · cases isClosed
  · rename_i a b isRest
    have notBoth : (a == kind.quote && b == kind.quote) = false := by
      by_contra both
      simp only [Bool.not_eq_false, Bool.and_eq_true, beq_iff_eq] at both
      exact notPair (by rw [isRest, both.1, both.2])
    simp [notBoth]
  · exact ⟨rfl, fun closed isClosed => by cases isClosed⟩

theorem multilineBasicLoop_same (fuel : Nat) (text : Bytes)
    {cursor : Cursor} (safe : RoundsSafe next .basic cursor) :
    multilineBasicLoop next fuel text cursor =
      multilineBasicLoop other fuel text cursor ∧
    Steady cursor.past (multilineBasicLoop next fuel text cursor) := by
  induction fuel generalizing text cursor with
  | zero => exact ⟨rfl, .error _⟩
  | succ fuel induction =>
      obtain ⟨closes, closedPast⟩ :=
        closesMultiline_same next other (safe cursor .refl)
      change closesMultiline next 34 true cursor =
        closesMultiline other 34 true cursor at closes
      change ∀ closed, closesMultiline next 34 true cursor = some closed →
        closed.past = cursor.past at closedPast
      unfold multilineBasicLoop
      rw [← closes]
      cases isRest : cursor.rest with
      | nil => exact ⟨rfl, .error _⟩
      | cons byte rest =>
          dsimp only
          cases isClosed : closesMultiline next 34 true cursor with
          | some closed => exact ⟨rfl, .ok (closedPast closed isClosed)⟩
          | none =>
              dsimp only
              by_cases isSlash : byte = 92
              · subst isSlash
                rw [if_pos (by simp), if_pos (by simp)]
                cases skipped : skipContinuation (cursor.to rest) with
                | some continued =>
                    have past : continued.past = cursor.past := by
                      unfold skipContinuation at skipped
                      split at skipped
                      · cases skipped
                        rfl
                      · cases skipped
                    rw [← past]
                    exact induction text (safe.later
                      (.continuation isRest isClosed skipped))
                | none =>
                    dsimp only
                    cases escaped : parseEscape (cursor.to rest) with
                    | error stop => exact ⟨rfl, .error _⟩
                    | ok read =>
                        obtain ⟨bytes, left⟩ := read
                        have past : left.past = cursor.past :=
                          parseEscape_steady (cursor.to rest) _ _ escaped
                        rw [← past]
                        exact induction (text ++ bytes) (safe.later
                          (.escape isRest isClosed skipped escaped))
              · have notSlash : ¬ (byte == 92) = true := by
                  simpa using isSlash
                rw [if_neg notSlash, if_neg notSlash]
                exact induction (text ++ [byte]) (safe.later
                  (.byte isRest isClosed fun _ => isSlash))

theorem multilineLiteralLoop_same (fuel : Nat) (text : Bytes)
    {cursor : Cursor} (safe : RoundsSafe next .literal cursor) :
    multilineLiteralLoop next fuel text cursor =
      multilineLiteralLoop other fuel text cursor ∧
    Steady cursor.past (multilineLiteralLoop next fuel text cursor) := by
  induction fuel generalizing text cursor with
  | zero => exact ⟨rfl, .error _⟩
  | succ fuel induction =>
      obtain ⟨closes, closedPast⟩ :=
        closesMultiline_same next other (safe cursor .refl)
      change closesMultiline next 39 false cursor =
        closesMultiline other 39 false cursor at closes
      change ∀ closed, closesMultiline next 39 false cursor = some closed →
        closed.past = cursor.past at closedPast
      unfold multilineLiteralLoop
      rw [← closes]
      cases isRest : cursor.rest with
      | nil => exact ⟨rfl, .error _⟩
      | cons byte rest =>
          dsimp only
          cases isClosed : closesMultiline next 39 false cursor with
          | some closed => exact ⟨rfl, .ok (closedPast closed isClosed)⟩
          | none => exact induction (text ++ [byte]) (safe.later
              (.byte isRest isClosed (by simp)))

/-! ## Values -/

theorem QuotesClosed.leads {next : UInt8} {place after : Place}
    (closed : QuotesClosed next place) (leads : Leads next place after) :
    QuotesClosed next after := by
  rintro kind cursor ⟨value, start, comes, opens, rounds⟩
  exact closed kind cursor ⟨value, start, .head leads comes, opens, rounds⟩

theorem QuotesClosed.comes {next : UInt8} {place after : Place}
    (closed : QuotesClosed next place)
    (comes : ReflTransGen (Leads next) place after) :
    QuotesClosed next after := by
  rintro kind cursor ⟨value, start, later, opens, rounds⟩
  exact closed kind cursor ⟨value, start, comes.trans later, opens, rounds⟩

theorem QuotesClosed.rounds {next : UInt8} {value : Cursor} (kind : Kind)
    {rest : Bytes} (closed : QuotesClosed next (.value value))
    (isRest : (skipWsInline value).rest =
      kind.quote :: kind.quote :: kind.quote :: rest) :
    RoundsSafe next kind (kind.start ((skipWsInline value).to rest)) :=
  fun cursor rounds => closed kind cursor
    ⟨value, _, .refl, ⟨rest, isRest, rfl⟩, rounds⟩

theorem Kind.start_past (kind : Kind) (cursor : Cursor) :
    (kind.start cursor).past = cursor.past := by
  unfold Kind.start
  split
  · split <;> rfl
  · split <;> rfl

/-- Two results are the same, and the position stays in front of the end. -/
structure Agree (past : Nat) (result other : Except Stop (α × Cursor)) :
    Prop where
  same : result = other
  steady : Steady past result

theorem Agree.refl {past : Nat} {result : Except Stop (α × Cursor)}
    (steady : Steady past result) : Agree past result result :=
  ⟨rfl, steady⟩

theorem Agree.bind {past : Nat} {first first' : Except Stop (α × Cursor)}
    {then' then'' : α × Cursor → Except Stop (β × Cursor)}
    (agree : Agree past first first')
    (others : ∀ value cursor, first = .ok (value, cursor) →
      cursor.past = past →
      Agree past (then' (value, cursor)) (then'' (value, cursor))) :
    Agree past (first >>= then') (first' >>= then'') := by
  obtain ⟨rfl, steady⟩ := agree
  cases first with
  | error stop => exact ⟨rfl, .error _⟩
  | ok read =>
      obtain ⟨value, cursor⟩ := read
      exact others value cursor rfl (steady value cursor rfl)

theorem Agree.str {past : Nat} {first first' : Except Stop (Bytes × Cursor)}
    (agree : Agree past first first') :
    Agree past
      (first >>= fun read =>
        (.ok (Node.str read.1, read.2) : Except Stop (Node × Cursor)))
      (first' >>= fun read => .ok (Node.str read.1, read.2)) :=
  agree.bind fun _ _ _ same => .refl (.ok same)

theorem parseValue_agree {fuel : Nat}
    (array : ∀ items cursor, QuotesClosed next (.item cursor) →
      Agree cursor.past (parseArray next fuel items cursor)
        (parseArray other fuel items cursor))
    (inline : ∀ table cursor, QuotesClosed next (.field cursor) →
      Agree cursor.past (parseInlineTable next fuel table cursor)
        (parseInlineTable other fuel table cursor))
    {cursor : Cursor} (closed : QuotesClosed next (.value cursor)) :
    Agree cursor.past (parseValue next (fuel + 1) cursor)
      (parseValue other (fuel + 1) cursor) := by
  rw [parseValue, parseValue]
  dsimp only
  split
  · exact .refl (.error _)
  · rename_i rest isRest
    have safe := closed.rounds .basic isRest
    obtain ⟨same, steady⟩ := multilineBasicLoop_same next other _ [] safe
    rw [Kind.start_past] at steady
    exact Agree.str ⟨same, steady⟩
  · exact Agree.str (.refl (basicLoop_steady _ _ _))
  · rename_i rest isRest
    have safe := closed.rounds .literal isRest
    obtain ⟨same, steady⟩ := multilineLiteralLoop_same next other _ [] safe
    rw [Kind.start_past] at steady
    exact Agree.str ⟨same, steady⟩
  · exact Agree.str (.refl (parseLiteralString_steady _))
  · rename_i rest isRest
    exact array [] _ (closed.leads (.inl (.array isRest)))
  · rename_i rest isRest
    split
    · exact .refl (.ok rfl)
    · rename_i notEmpty
      refine inline [] _ (closed.leads (.inl (.inlineTable isRest ?_)))
      intro isHead
      obtain ⟨more, isMore⟩ := List.head?_eq_some_iff.mp isHead
      exact notEmpty more isMore
  · exact .refl (.ok rfl)

theorem skipClosing_past (cursor : Cursor) :
    (skipClosing cursor).past = cursor.past := by
  unfold skipClosing
  split <;> rfl

theorem nextItem_past {cursor after : Cursor}
    (isNext : nextItem cursor = some after) : after.past = cursor.past := by
  unfold nextItem at isNext
  dsimp only at isNext
  split at isNext
  · cases isNext
    rfl
  · cases isNext
  · cases isNext
    rfl

theorem parseArray_agree {fuel : Nat}
    (value : ∀ cursor, QuotesClosed next (.value cursor) →
      Agree cursor.past (parseValue next fuel cursor)
        (parseValue other fuel cursor))
    (array : ∀ items cursor, QuotesClosed next (.item cursor) →
      Agree cursor.past (parseArray next fuel items cursor)
        (parseArray other fuel items cursor))
    (items : List Node) {cursor : Cursor}
    (closed : QuotesClosed next (.item cursor)) :
    Agree cursor.past (parseArray next (fuel + 1) items cursor)
      (parseArray other (fuel + 1) items cursor) := by
  by_cases starts : StartsItem cursor
  · rw [parseArray_starts starts, parseArray_starts starts]
    refine .bind (value _ (closed.leads (.inl (.itemValue starts)))) ?_
    intro item left isValue past
    dsimp only
    cases isNext : nextItem left with
    | none => exact .refl (.ok ((skipClosing_past _).trans past))
    | some after =>
        have samePast : after.past = cursor.past :=
          (nextItem_past isNext).trans past
        rw [← samePast]
        exact array _ after (closed.leads
          (.inr (.item starts isValue isNext)))
  · rw [parseArray, parseArray]
    dsimp only
    split
    · exact .refl (.error _)
    · exact .refl (.ok rfl)
    · rename_i nonEmpty notClosed
      refine absurd ⟨nonEmpty, ?_⟩ starts
      intro isClosed
      obtain ⟨rest, isRest⟩ := List.head?_eq_some_iff.mp isClosed
      exact notClosed rest isRest

theorem parseInlineTable_agree {fuel : Nat}
    (value : ∀ cursor, QuotesClosed next (.value cursor) →
      Agree cursor.past (parseValue next fuel cursor)
        (parseValue other fuel cursor))
    (inline : ∀ table cursor, QuotesClosed next (.field cursor) →
      Agree cursor.past (parseInlineTable next fuel table cursor)
        (parseInlineTable other fuel table cursor))
    (table : Table) {cursor : Cursor}
    (closed : QuotesClosed next (.field cursor)) :
    Agree cursor.past (parseInlineTable next (fuel + 1) table cursor)
      (parseInlineTable other (fuel + 1) table cursor) := by
  rw [parseInlineTable, parseInlineTable]
  refine .bind (.refl (parseKeyToken_steady (skipWsInline cursor))) ?_
  intro key left isKey keyPast
  dsimp only
  split
  · rename_i rest isRest
    have inField := value _ (closed.leads (.inl (.fieldValue isKey isRest)))
    have valuePast :
        (skipWsInline ((skipWsInline left).to rest)).past = cursor.past :=
      keyPast
    rw [valuePast] at inField
    refine .bind inField ?_
    intro field behind isValue past
    dsimp only
    split
    · rename_i more isMore
      have samePast :
          ((skipWsInline behind).to more).past = cursor.past := past
      rw [← samePast]
      exact inline _ _ (closed.leads
        (.inr (.field isKey isRest isValue isMore)))
    · exact .refl (.ok past)
    · exact .refl (.error _)
  · exact .refl (.error _)

/-- Values, items and fields are the same whatever is behind the text. -/
theorem parse_agree (fuel : Nat) :
    (∀ cursor, QuotesClosed next (.value cursor) →
      Agree cursor.past (parseValue next fuel cursor)
        (parseValue other fuel cursor)) ∧
    (∀ items cursor, QuotesClosed next (.item cursor) →
      Agree cursor.past (parseArray next fuel items cursor)
        (parseArray other fuel items cursor)) ∧
    (∀ table cursor, QuotesClosed next (.field cursor) →
      Agree cursor.past (parseInlineTable next fuel table cursor)
        (parseInlineTable other fuel table cursor)) := by
  induction fuel with
  | zero =>
      refine ⟨fun cursor _ => ?_, fun items cursor _ => ?_,
        fun table cursor _ => ?_⟩
      · rw [parseValue, parseValue]
        exact .refl (.error _)
      · rw [parseArray, parseArray]
        exact .refl (.error _)
      · rw [parseInlineTable, parseInlineTable]
        exact .refl (.error _)
  | succ fuel induction =>
      obtain ⟨value, array, inline⟩ := induction
      exact ⟨fun _ closed => parseValue_agree next other array inline closed,
        fun items _ closed =>
          parseArray_agree next other value array items closed,
        fun table _ closed =>
          parseInlineTable_agree next other value inline table closed⟩

/-! ## Statements -/

theorem parseHeader_past {document after : Document} {cursor : Cursor}
    (read : parseHeader document cursor = .ok after) :
    after.cursor.past = cursor.past := by
  have startPast : (if cursor.rest.head? == some 91 then
      cursor.to (cursor.rest.drop 1) else cursor).past = cursor.past := by
    split <;> rfl
  unfold parseHeader at read
  dsimp only at read
  cases isPath : parseDottedPath (if cursor.rest.head? == some 91 then
      cursor.to (cursor.rest.drop 1) else cursor) with
  | error stop =>
      rw [isPath] at read
      cases read
  | ok path =>
      obtain ⟨keys, left⟩ := path
      have pathPast : left.past = cursor.past :=
        (parseDottedPath_steady _ keys left isPath).trans startPast
      have once : (skipClosing (skipWsInline left)).past = cursor.past :=
        (skipClosing_past _).trans pathPast
      rw [isPath] at read
      simp only [bind, Except.bind] at read
      split at read
      · cases read
      · cases read
        dsimp only
        split
        · exact (skipClosing_past _).trans once
        · exact once

theorem assignKeys_past {document after : Document} {keys : List Bytes}
    {read : Node × Cursor}
    (assigned : assignKeys document keys read = .ok (some after)) :
    after.cursor.past = read.2.past := by
  unfold assignKeys at assigned
  split at assigned
  · cases assigned
  · cases assigned
    dsimp only
    split <;> rfl

/-- A statement is the same whatever is behind the text, and stays in front
of the end. -/
theorem parseStatement_same (fuel : Nat) {document : Document}
    (closed : QuotesClosed next (.statement document)) :
    parseStatement next fuel document =
      parseStatement other fuel document ∧
    ∀ after, parseStatement next fuel document = .ok (some after) →
      after.cursor.past = document.cursor.past := by
  by_cases starts : StartsAssignment document
  · cases isPath : parseDottedPath (skipWsAndComments document.cursor) with
    | error stop =>
        rw [parseStatement_starts starts, parseStatement_starts starts,
          parseAssignment, parseAssignment, isPath]
        exact ⟨rfl, fun after read => by cases read⟩
    | ok path =>
        obtain ⟨keys, left⟩ := path
        have pathPast : left.past = document.cursor.past :=
          parseDottedPath_steady (skipWsAndComments document.cursor) keys
            left isPath
        by_cases assigns : ∃ rest, (skipWsInline left).rest = 61 :: rest
        · obtain ⟨rest, isRest⟩ := assigns
          rw [parseStatement_assignment starts isPath isRest,
            parseStatement_assignment starts isPath isRest]
          obtain ⟨same, steady⟩ := (parse_agree next other fuel).1 _
            (closed.leads (.inl (.assignmentValue starts isPath isRest)))
          refine ⟨by rw [same], fun after read => ?_⟩
          cases isValue : parseValue next fuel
              ((skipWsInline left).to rest) with
          | error stop =>
              rw [isValue] at read
              cases read
          | ok value =>
              rw [isValue] at read
              calc after.cursor.past
                  = value.2.past := assignKeys_past read
                _ = left.past := steady value.1 value.2 isValue
                _ = document.cursor.past := pathPast
        · have malformed : ∀ rest, (skipWsInline left).rest ≠ 61 :: rest :=
            fun rest isRest => assigns ⟨rest, isRest⟩
          rw [parseStatement_malformed starts isPath malformed,
            parseStatement_malformed starts isPath malformed]
          exact ⟨rfl, fun after read => by cases read⟩
  · -- The end of the text or a header: no value is parsed.
    unfold parseStatement
    dsimp only
    split
    · exact ⟨rfl, fun after read => by cases read⟩
    · rename_i rest isRest
      refine ⟨rfl, fun after read => ?_⟩
      cases header : parseHeader document
          ((skipWsAndComments document.cursor).to rest) with
      | error stop =>
          rw [header] at read
          cases read
      | ok result =>
          rw [header] at read
          cases read
          have headerPast := parseHeader_past header
          exact headerPast
    · rename_i nonEmpty noHeader
      refine absurd ⟨nonEmpty, ?_⟩ starts
      intro isHeader
      obtain ⟨rest, isRest⟩ := List.head?_eq_some_iff.mp isHeader
      exact noHeader rest isRest

theorem statementLoop_same (fuel rounds : Nat) {document : Document}
    (closed : QuotesClosed next (.statement document)) :
    statementLoop next fuel rounds document =
      statementLoop other fuel rounds document := by
  induction rounds generalizing document with
  | zero => rfl
  | succ rounds induction =>
      unfold statementLoop
      rw [← (parseStatement_same next other fuel closed).1]
      cases isStatement : parseStatement next fuel document with
      | error stop => simp only [bind, Except.bind]
      | ok read =>
          simp only [bind, Except.bind]
          cases read with
          | none => rfl
          | some after =>
              exact induction (closed.leads (.inr (.statement isStatement)))

/-! ## Places -/

theorem Calls.past_eq {place after : Place} (calls : Calls place after) :
    after.past = place.past := by
  cases calls with
  | array isRest => rfl
  | inlineTable isRest notEmpty => rfl
  | itemValue starts => rfl
  | fieldValue isKey isRest =>
      have keyPast := parseKeyToken_steady _ _ _ isKey
      exact keyPast
  | @headerKeys document rest isRest =>
      have startPast : (headerStart
          ((skipWsAndComments document.cursor).to rest)).past =
            document.cursor.past := by
        unfold headerStart
        split <;> rfl
      exact startPast
  | assignmentKeys starts => rfl
  | assignmentValue starts isPath isRest =>
      have pathPast := parseDottedPath_steady _ _ _ isPath
      exact pathPast

theorem QuotesClosed.past_eq {next : UInt8} {place after : Place}
    (closed : QuotesClosed next place) (leads : Leads next place after) :
    after.past = place.past := by
  rcases leads with calls | rounds
  · exact calls.past_eq
  cases rounds with
  | @item cursor left _ fuel _ starts isValue isNext =>
      have inItem := closed.leads (.inl (.itemValue starts))
      have valuePast := ((parse_agree next next fuel).1 _ inItem).steady
        _ _ isValue
      exact (nextItem_past isNext).trans valuePast
  | @field cursor left behind fuel _ _ _ _ isKey isRest isValue isMore =>
      have inField := closed.leads (.inl (.fieldValue isKey isRest))
      have valuePast := ((parse_agree next next fuel).1 _ inField).steady
        _ _ isValue
      have keyPast := parseKeyToken_steady _ _ _ isKey
      exact valuePast.trans keyPast
  | key isKey isRest =>
      have keyPast := parseKeyToken_steady _ _ _ isKey
      exact keyPast
  | @statement document after fuel isStatement =>
      exact (parseStatement_same next next fuel closed).2 after isStatement

/-- No place behind one with closed quotes is further behind the end. -/
theorem QuotesClosed.past_eq_of_comes {next : UInt8} {place after : Place}
    (closed : QuotesClosed next place)
    (comes : ReflTransGen (Leads next) place after) :
    after.past = place.past := by
  induction comes using ReflTransGen.head_induction_on with
  | refl => rfl
  | head leads _ induction =>
      exact (induction (closed.leads leads)).trans (closed.past_eq leads)

end

/-! ## The byte behind the text -/

section

variable {next other : UInt8}

/-- With another byte behind the text a parse comes to no other place. -/
theorem QuotesClosed.leads_of_other {place after : Place}
    (closed : QuotesClosed next place) (leads : Leads other place after) :
    Leads next place after := by
  rcases leads with calls | rounds
  · exact .inl calls
  right
  cases rounds with
  | @item _ _ _ fuel _ starts isValue isNext =>
      have inItem := closed.leads (.inl (.itemValue starts))
      have same := ((parse_agree next other fuel).1 _ inItem).same
      exact .item starts (same.trans isValue) isNext
  | @field _ _ _ fuel _ _ _ _ isKey isRest isValue isMore =>
      have inField := closed.leads (.inl (.fieldValue isKey isRest))
      have same := ((parse_agree next other fuel).1 _ inField).same
      exact .field isKey isRest (same.trans isValue) isMore
  | key isKey isRest => exact .key isKey isRest
  | @statement _ _ fuel isStatement =>
      have same := (parseStatement_same next other fuel closed).1
      exact .statement (same.trans isStatement)

theorem QuotesClosed.comes_of_other {place after : Place}
    (closed : QuotesClosed next place)
    (comes : ReflTransGen (Leads other) place after) :
    ReflTransGen (Leads next) place after := by
  induction comes using ReflTransGen.head_induction_on with
  | refl => exact .refl
  | head leads _ induction =>
      have sameLeads := closed.leads_of_other leads
      exact .head sameLeads (induction (closed.leads sameLeads))

theorem RoundsSafe.round_of_other {kind : Kind} {cursor after : Cursor}
    (safe : RoundsSafe next kind cursor)
    (round : TextRounds other kind cursor after) :
    TextRounds next kind cursor after := by
  have closes := (closesMultiline_same next other (safe cursor .refl)).1
  cases round with
  | continuation isRest isOpen skipped =>
      exact .continuation isRest (closes.trans isOpen) skipped
  | escape isRest isOpen noSkip escaped =>
      exact .escape isRest (closes.trans isOpen) noSkip escaped
  | byte isRest isOpen noEscape =>
      exact .byte isRest (closes.trans isOpen) noEscape

theorem RoundsSafe.rounds_of_other {kind : Kind} {start cursor : Cursor}
    (safe : RoundsSafe next kind start)
    (rounds : ReflTransGen (TextRounds other kind) start cursor) :
    ReflTransGen (TextRounds next kind) start cursor := by
  induction rounds using ReflTransGen.head_induction_on with
  | refl => exact .refl
  | head round _ induction =>
      have sameRound := safe.round_of_other round
      exact .head sameRound (induction (safe.later sameRound))

theorem QuotesClosed.of_other {place : Place}
    (closed : QuotesClosed next place) : QuotesClosed other place := by
  rintro kind cursor ⟨value, start, comes, opens, rounds⟩
  have sameComes := closed.comes_of_other comes
  have safe : RoundsSafe next kind start := fun final later =>
    closed kind final ⟨value, start, sameComes, opens, later⟩
  exact closed kind cursor
    ⟨value, start, sameComes, opens, safe.rounds_of_other rounds⟩

end

/-- The parser keeps to its text just when no multi-line string of it is open
with two of its quotes left; which byte is stored behind the text does not
matter for that. -/
theorem confined_iff_quotesClosed (text : Bytes) (next : UInt8) :
    Confined text ↔ QuotesClosed next (Place.start text) := by
  constructor
  · intro confined kind cursor comes
    exact looksAt_within.mp (confined.reads next kind cursor comes)
  · intro closed
    constructor
    · intro behind kind cursor comes
      exact looksAt_within.mpr (closed.of_other kind cursor comes)
    · intro behind place comes
      have closedBehind : QuotesClosed behind (Place.start text) :=
        closed.of_other
      exact closedBehind.past_eq_of_comes comes
    · intro behind fuel cursor value left comes isValue
      have closedBehind : QuotesClosed behind (Place.start text) :=
        closed.of_other
      have start := closedBehind.past_eq_of_comes comes
      have steady := ((parse_agree behind behind fuel).1 cursor
        (closedBehind.comes comes)).steady
      exact (steady value left isValue).trans start
    · intro behind other fuel
      exact statementLoop_same behind other fuel _ closed.of_other

/-- With a quote behind it, two quotes close a string of three. -/
theorem quotes_behind_the_end :
    ¬ Confined (ascii "a = \"\"\"\"\"") := by
  intro confined
  have same := confined.same 34 0 2
  have accepted : (parse 34 2 (ascii "a = \"\"\"\"\"")).isOk = true := by
    decide +kernel
  have rejected : (parse 0 2 (ascii "a = \"\"\"\"\"")).isOk = false := by
    decide +kernel
  rw [same, rejected] at accepted
  cases accepted

end SaltOS.Toml
