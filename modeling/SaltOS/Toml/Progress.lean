import SaltOS.Toml.Fuel

/-!
# What the parsers leave

Every parser leaves a suffix of its input.  Strings, keys and paths are read
by loops that take at least one byte in each round, so the fuel that they are
given is always enough.
-/

namespace SaltOS.Toml

variable {α β : Type}

/-- What is left behind a result is a suffix of `input`. -/
def Leaves (input : Bytes) (result : Except Stop (α × Cursor)) : Prop :=
  ∀ value cursor, result = .ok (value, cursor) → cursor.rest <:+ input

namespace Leaves

variable {input : Bytes}

theorem ok {value : α} {cursor : Cursor} (suffix : cursor.rest <:+ input) :
    Leaves input (.ok (value, cursor)) := by
  intro _ _ isOk
  cases isOk
  exact suffix

theorem error (stop : Stop) :
    Leaves input (.error stop : Except Stop (α × Cursor)) := by
  intro _ _ isOk
  cases isOk

theorem mono {longer : Bytes} {result : Except Stop (α × Cursor)}
    (leaves : Leaves input result) (suffix : input <:+ longer) :
    Leaves longer result :=
  fun value cursor isOk => (leaves value cursor isOk).trans suffix

theorem bind {first : Except Stop (α × Cursor)}
    {next : α × Cursor → Except Stop (β × Cursor)}
    (leaves : Leaves input first)
    (others : ∀ value cursor, cursor.rest <:+ input →
      Leaves cursor.rest (next (value, cursor))) :
    Leaves input (first >>= next) := by
  cases first with
  | error stop => exact error stop
  | ok read =>
      obtain ⟨value, cursor⟩ := read
      have suffix := leaves value cursor rfl
      exact (others value cursor suffix).mono suffix

end Leaves

/-- A result that leaves a suffix and did not run out of fuel. -/
structure Stops (input : Bytes) (result : Except Stop (α × Cursor)) :
    Prop where
  leaves : Leaves input result
  fueled : result ≠ .error .outOfFuel

namespace Stops

variable {input : Bytes}

theorem ok {value : α} {cursor : Cursor} (suffix : cursor.rest <:+ input) :
    Stops input (.ok (value, cursor)) :=
  ⟨.ok suffix, by simp⟩

theorem error (message : Option Bytes) :
    Stops input (.error (.error message) : Except Stop (α × Cursor)) :=
  ⟨.error _, by simp⟩

theorem mono {longer : Bytes} {result : Except Stop (α × Cursor)}
    (stops : Stops input result) (suffix : input <:+ longer) :
    Stops longer result :=
  ⟨stops.leaves.mono suffix, stops.fueled⟩

theorem bind {first : Except Stop (α × Cursor)}
    {next : α × Cursor → Except Stop (β × Cursor)}
    (stops : Stops input first)
    (others : ∀ value cursor, cursor.rest <:+ input →
      Stops cursor.rest (next (value, cursor))) :
    Stops input (first >>= next) := by
  cases first with
  | error stop =>
      refine ⟨.error stop, ?_⟩
      intro isEmpty
      cases isEmpty
      exact stops.fueled rfl
  | ok read =>
      obtain ⟨value, cursor⟩ := read
      have suffix := stops.leaves value cursor rfl
      exact (others value cursor suffix).mono suffix

end Stops

/-! ## Blanks -/

theorem skipWsInline_suffix (cursor : Cursor) :
    (skipWsInline cursor).rest <:+ cursor.rest :=
  List.dropWhile_suffix _

theorem skipBlank_suffix (inComment : Bool) (rest : Bytes) (line : Nat) :
    (skipBlank inComment rest line).1 <:+ rest := by
  induction rest generalizing inComment line with
  | nil => cases inComment <;> exact List.suffix_refl []
  | cons byte rest induction =>
      have longer := List.suffix_cons byte rest
      unfold skipBlank
      split
      · exact (induction _ _).trans longer
      split
      · exact (induction _ _).trans longer
      split
      · exact (induction _ _).trans longer
      split
      · exact (induction _ _).trans longer
      · exact List.suffix_refl _

theorem skipWsAndComments_suffix (cursor : Cursor) :
    (skipWsAndComments cursor).rest <:+ cursor.rest :=
  skipBlank_suffix false cursor.rest cursor.line

theorem skipBlank_starts {inComment : Bool} {rest left : Bytes}
    {line : Nat} {byte : UInt8}
    (skipped : (skipBlank inComment rest line).1 = byte :: left) :
    StartsStatement byte := by
  induction rest generalizing inComment line with
  | nil => cases inComment <;> cases skipped
  | cons first rest induction =>
      unfold skipBlank at skipped
      split at skipped
      · exact induction skipped
      split at skipped
      · exact induction skipped
      split at skipped
      · exact induction skipped
      split at skipped
      · exact induction skipped
      · rename_i notEnd _ notBlank notComment
        cases skipped
        simp only [Bool.or_eq_true, beq_iff_eq, not_or] at notEnd notBlank
        simp only [beq_iff_eq] at notComment
        exact ⟨notEnd, by simp [isInlineBlank, notBlank], notBlank.2,
          notComment⟩

theorem skipWsAndComments_starts {cursor : Cursor} {byte : UInt8}
    {left : Bytes} (isRest : (skipWsAndComments cursor).rest = byte :: left) :
    StartsStatement byte :=
  skipBlank_starts isRest

/-- Where a byte of a statement stands nothing is skipped. -/
theorem skipWsAndComments_self {cursor : Cursor} {byte : UInt8}
    {left : Bytes} (isRest : cursor.rest = byte :: left)
    (starts : StartsStatement byte) : skipWsAndComments cursor = cursor := by
  obtain ⟨rest, past, line⟩ := cursor
  subst isRest
  have notBlank := starts.notBlank
  simp only [isInlineBlank, Bool.or_eq_false_iff, beq_eq_false_iff_ne]
    at notBlank
  simp [skipWsAndComments, skipBlank, starts.notEnd, starts.notReturn,
    starts.notComment, notBlank]

theorem skipWsInline_self {cursor : Cursor} {byte : UInt8} {left : Bytes}
    (isRest : cursor.rest = byte :: left)
    (plain : isInlineBlank byte = false) : skipWsInline cursor = cursor := by
  obtain ⟨rest, past, line⟩ := cursor
  subst isRest
  exact skipWsInline_plain plain

/-! ## Strings -/

theorem hexDigits_suffix {count cp value : Nat} {rest left : Bytes}
    (read : hexDigits count cp rest = some (value, left)) :
    left <:+ rest := by
  induction count generalizing cp rest with
  | zero =>
      cases read
      exact List.suffix_refl _
  | succ count induction =>
      cases rest with
      | nil => cases read
      | cons byte rest =>
          rw [hexDigits, Option.bind_eq_some_iff] at read
          obtain ⟨digit, -, later⟩ := read
          exact (induction later).trans (List.suffix_cons byte rest)

theorem parseEscape_stops (cursor : Cursor) :
    Stops cursor.rest (parseEscape cursor) := by
  unfold parseEscape
  split
  · exact .error none
  · rename_i byte rest isRest
    rw [isRest]
    have longer := List.suffix_cons byte rest
    split
    · exact .ok longer
    split
    · split
      · rename_i cp left read
        exact .ok ((hexDigits_suffix read).trans longer)
      · exact .error none
    · exact .error _

theorem basicLoop_stops {fuel : Nat} (text : Bytes) (cursor : Cursor)
    (enough : cursor.rest.length < fuel) :
    Stops cursor.rest (basicLoop fuel text cursor) := by
  induction fuel generalizing text cursor with
  | zero => exact absurd enough (Nat.not_lt_zero _)
  | succ fuel induction =>
      unfold basicLoop
      split
      · exact .error _
      · rename_i byte rest isRest
        rw [isRest] at enough ⊢
        rw [List.length_cons] at enough
        have longer := List.suffix_cons byte rest
        split
        · exact .ok longer
        split
        · refine (Stops.bind (parseEscape_stops (cursor.to rest)) ?_).mono
            longer
          intro bytes left suffix
          have shorter : left.rest.length ≤ rest.length := suffix.length_le
          exact induction _ left (by omega)
        split
        · exact .error _
        · have stops := induction (text ++ [byte]) (cursor.to rest)
            (Nat.lt_of_succ_lt_succ enough)
          exact stops.mono longer

theorem parseBasicString_stops (cursor : Cursor) :
    Stops cursor.rest (parseBasicString cursor) :=
  basicLoop_stops [] cursor (Nat.lt_succ_self _)

theorem skipContinuation_suffix {cursor continued : Cursor}
    (skipped : skipContinuation cursor = some continued) :
    continued.rest <:+ cursor.rest := by
  unfold skipContinuation at skipped
  split at skipped
  · rename_i rest isRest
    cases skipped
    have dropped := List.dropWhile_suffix (l := cursor.rest) isEscapedBlank
    rw [isRest] at dropped
    exact ((List.drop_suffix _ rest).trans (List.suffix_cons 10 rest)).trans
      dropped
  · cases skipped

theorem closesMultiline_suffix {next quote : UInt8} {guarded : Bool}
    {cursor closed : Cursor}
    (closes : closesMultiline next quote guarded cursor = some closed) :
    closed.rest <:+ cursor.rest := by
  unfold closesMultiline at closes
  split at closes
  · rename_i a b c rest isRest
    split at closes
    · cases closes
      rw [isRest]
      exact List.suffix_append [a, b, c] rest
    · cases closes
  · split at closes
    · cases closes
      exact List.nil_suffix
    · cases closes
  · cases closes

theorem multilineBasicLoop_stops (next : UInt8) {fuel : Nat} (text : Bytes)
    (cursor : Cursor) (enough : cursor.rest.length < fuel) :
    Stops cursor.rest (multilineBasicLoop next fuel text cursor) := by
  induction fuel generalizing text cursor with
  | zero => exact absurd enough (Nat.not_lt_zero _)
  | succ fuel induction =>
      unfold multilineBasicLoop
      split
      · exact .error _
      · rename_i byte rest isRest
        have longer : rest <:+ cursor.rest := by
          rw [isRest]
          exact List.suffix_cons byte rest
        rw [isRest, List.length_cons] at enough
        split
        · rename_i closed closes
          exact .ok (closesMultiline_suffix closes)
        split
        · split
          · rename_i continued skipped
            have suffix := skipContinuation_suffix skipped
            have shorter : continued.rest.length ≤ rest.length :=
              suffix.length_le
            exact (induction _ continued (by omega)).mono
              (suffix.trans longer)
          · refine (Stops.bind (parseEscape_stops (cursor.to rest)) ?_).mono
              longer
            intro bytes left suffix
            have shorter : left.rest.length ≤ rest.length := suffix.length_le
            exact induction _ left (by omega)
        · refine (induction _ _ ?_).mono longer
          exact Nat.lt_of_succ_lt_succ enough

theorem parseMultilineBasic_stops (next : UInt8) (cursor : Cursor) :
    Stops cursor.rest (parseMultilineBasic next cursor) := by
  unfold parseMultilineBasic
  refine (multilineBasicLoop_stops next [] _ (Nat.lt_succ_self _)).mono ?_
  split
  · rename_i rest isRest
    rw [isRest]
    exact List.suffix_cons 10 rest
  · rename_i rest isRest
    rw [isRest]
    exact List.suffix_append [13, 10] rest
  · exact List.suffix_refl _

theorem parseLiteralString_stops (cursor : Cursor) :
    Stops cursor.rest (parseLiteralString cursor) := by
  unfold parseLiteralString
  dsimp only
  split
  · exact .error _
  · rename_i byte rest isRest
    split
    · refine .ok ((List.suffix_cons byte rest).trans ?_)
      rw [← isRest]
      exact List.drop_suffix _ _
    · exact .error _

theorem multilineLiteralLoop_stops (next : UInt8) {fuel : Nat}
    (text : Bytes) (cursor : Cursor) (enough : cursor.rest.length < fuel) :
    Stops cursor.rest (multilineLiteralLoop next fuel text cursor) := by
  induction fuel generalizing text cursor with
  | zero => exact absurd enough (Nat.not_lt_zero _)
  | succ fuel induction =>
      unfold multilineLiteralLoop
      split
      · exact .error _
      · rename_i byte rest isRest
        have longer : rest <:+ cursor.rest := by
          rw [isRest]
          exact List.suffix_cons byte rest
        rw [isRest, List.length_cons] at enough
        split
        · rename_i closed closes
          exact .ok (closesMultiline_suffix closes)
        · refine (induction _ _ ?_).mono longer
          exact Nat.lt_of_succ_lt_succ enough

theorem parseMultilineLiteral_stops (next : UInt8) (cursor : Cursor) :
    Stops cursor.rest (parseMultilineLiteral next cursor) := by
  unfold parseMultilineLiteral
  refine (multilineLiteralLoop_stops next [] _ (Nat.lt_succ_self _)).mono ?_
  split
  · rename_i rest isRest
    rw [isRest]
    exact List.suffix_cons 10 rest
  · exact List.suffix_refl _

/-! ## Keys -/

theorem suffix_tail {left right : Bytes} (suffix : left <:+ right) :
    left.tail <:+ right.tail := by
  obtain ⟨before, rfl⟩ := suffix
  cases before with
  | nil => exact List.suffix_refl _
  | cons byte before =>
      exact (List.tail_suffix left).trans (List.suffix_append before left)

/-- A key takes at least one byte. -/
theorem parseKeyToken_stops (cursor : Cursor) :
    Stops cursor.rest.tail (parseKeyToken cursor) := by
  have skipped := suffix_tail (skipWsInline_suffix cursor)
  unfold parseKeyToken
  dsimp only
  split
  · exact .error _
  · rename_i rest isRest
    rw [isRest] at skipped
    exact (parseBasicString_stops ((skipWsInline cursor).to rest)).mono
      skipped
  · rename_i rest isRest
    rw [isRest] at skipped
    exact (parseLiteralString_stops ((skipWsInline cursor).to rest)).mono
      skipped
  · split
    · exact .error _
    · rename_i nonEmpty
      refine .ok (List.IsSuffix.trans ?_ skipped)
      obtain ⟨byte, key, isKey⟩ := List.exists_cons_of_ne_nil nonEmpty
      rw [isKey, List.length_cons, Cursor.to, ← List.drop_tail]
      exact List.drop_suffix _ _

theorem dottedLoop_stops {fuel : Nat} (keys : List Bytes) (cursor : Cursor)
    (enough : cursor.rest.length < fuel) :
    Stops cursor.rest.tail (dottedLoop fuel keys cursor) := by
  induction fuel generalizing keys cursor with
  | zero => exact absurd enough (Nat.not_lt_zero _)
  | succ fuel induction =>
      unfold dottedLoop
      refine .bind (parseKeyToken_stops cursor) ?_
      intro key left suffix
      have skipped := skipWsInline_suffix left
      dsimp only
      split
      · rename_i rest isRest
        have shorter := (skipped.trans suffix).length_le
        rw [isRest, List.length_cons, List.length_tail] at shorter
        have stops := induction (keys ++ [key])
          ((skipWsInline left).to rest) (by simp only [Cursor.to]; omega)
        refine stops.mono (((List.tail_suffix _).trans ?_).trans skipped)
        rw [isRest]
        exact List.suffix_cons 46 rest
      · exact .ok skipped

theorem parseDottedPath_stops (cursor : Cursor) :
    Stops cursor.rest.tail (parseDottedPath cursor) :=
  dottedLoop_stops [] cursor (Nat.lt_succ_self _)

/-! ## Values -/

theorem parseScalarToken_suffix (cursor : Cursor) :
    (parseScalarToken cursor).2.rest <:+ cursor.rest :=
  List.drop_suffix _ _

/-- The result of a string parser as a node. -/
theorem Stops.str {input : Bytes} {result : Except Stop (Bytes × Cursor)}
    (stops : Stops input result) :
    Stops input (result >>= fun read =>
      (.ok (Node.str read.1, read.2) : Except Stop (Node × Cursor))) := by
  refine Stops.bind stops ?_
  intro text left _
  exact .ok (List.suffix_refl _)

section

variable (next : UInt8)

theorem parse_leaves (fuel : Nat) :
    (∀ cursor, Leaves cursor.rest (parseValue next fuel cursor)) ∧
    (∀ items cursor,
      Leaves cursor.rest (parseArray next fuel items cursor)) ∧
    ∀ table cursor,
      Leaves cursor.rest (parseInlineTable next fuel table cursor) := by
  induction fuel with
  | zero =>
      refine ⟨fun cursor => ?_, fun items cursor => ?_,
        fun table cursor => ?_⟩
      · rw [parseValue]
        exact .error _
      · rw [parseArray]
        exact .error _
      · rw [parseInlineTable]
        exact .error _
  | succ fuel induction =>
      obtain ⟨value, array, inline⟩ := induction
      refine ⟨fun cursor => ?_, fun items cursor => ?_,
        fun table cursor => ?_⟩
      · refine Leaves.mono ?_ (skipWsInline_suffix cursor)
        rw [parseValue]
        dsimp only
        split
        · exact .error _
        · rename_i rest isRest
          rw [isRest]
          exact (parseMultilineBasic_stops next _).str.leaves.mono
            (List.suffix_append [34, 34, 34] rest)
        · rename_i rest _ isRest
          rw [isRest]
          exact (parseBasicString_stops _).str.leaves.mono
            (List.suffix_cons 34 rest)
        · rename_i rest isRest
          rw [isRest]
          exact (parseMultilineLiteral_stops next _).str.leaves.mono
            (List.suffix_append [39, 39, 39] rest)
        · rename_i rest _ isRest
          rw [isRest]
          exact (parseLiteralString_stops _).str.leaves.mono
            (List.suffix_cons 39 rest)
        · rename_i rest isRest
          rw [isRest]
          exact (array [] _).mono (List.suffix_cons 91 rest)
        · rename_i rest isRest
          rw [isRest]
          have skipped := skipWsInline_suffix
            ((skipWsInline cursor).to rest)
          split
          · rename_i after isAfter
            rw [isAfter] at skipped
            exact .ok (((List.suffix_cons 125 after).trans skipped).trans
              (List.suffix_cons 123 rest))
          · exact (inline [] _).mono
              (skipped.trans (List.suffix_cons 123 rest))
        · exact .ok (parseScalarToken_suffix _)
      · refine Leaves.mono ?_ (skipWsAndComments_suffix cursor)
        rw [parseArray]
        dsimp only
        split
        · exact .error _
        · rename_i rest isRest
          rw [isRest]
          exact .ok (List.suffix_cons 93 rest)
        · refine .bind (value _) ?_
          intro item left _
          refine Leaves.mono ?_ (skipWsAndComments_suffix left)
          dsimp only
          split
          · rename_i rest isRest
            rw [isRest]
            exact (array _ _).mono (List.suffix_cons 44 rest)
          · rename_i rest isRest
            rw [isRest]
            exact .ok (List.suffix_cons 93 rest)
          · exact array _ _
      · refine Leaves.mono ?_ (skipWsInline_suffix cursor)
        rw [parseInlineTable]
        refine Leaves.bind ((parseKeyToken_stops _).leaves.mono
          (List.tail_suffix _)) ?_
        intro key left _
        refine Leaves.mono ?_ (skipWsInline_suffix left)
        dsimp only
        split
        · rename_i rest isRest
          rw [isRest]
          have skipped := skipWsInline_suffix ((skipWsInline left).to rest)
          refine (Leaves.bind (value _) ?_).mono
            (skipped.trans (List.suffix_cons 61 rest))
          intro item behind _
          refine Leaves.mono ?_ (skipWsInline_suffix behind)
          dsimp only
          split
          · rename_i more isMore
            rw [isMore]
            exact (inline _ _).mono (List.suffix_cons 44 more)
          · rename_i more isMore
            rw [isMore]
            exact .ok (List.suffix_cons 125 more)
          · exact .error _
        · exact .error _

/-- A token that takes no byte stands at the end of one. -/
theorem parseScalarToken_advances {cursor : Cursor}
    (nonEmpty : cursor.rest ≠ []) :
    (parseScalarToken cursor).2.rest <:+ cursor.rest.tail ∨
      (parseScalarToken cursor).2 = cursor ∧
        ∃ byte, cursor.rest.head? = some byte ∧ isScalarEnd byte = true := by
  obtain ⟨byte, rest, isRest⟩ := List.exists_cons_of_ne_nil nonEmpty
  unfold parseScalarToken
  dsimp only
  cases isEnd : isScalarEnd byte with
  | true =>
      right
      rw [isRest, List.takeWhile_cons_of_neg (by simp [isEnd])]
      refine ⟨?_, byte, rfl, isEnd⟩
      rw [List.length_nil, List.drop_zero, ← isRest]
      rfl
  | false =>
      left
      rw [isRest, List.takeWhile_cons_of_pos (by simp [isEnd])]
      rw [List.length_cons, List.drop_succ_cons]
      exact List.drop_suffix _ _

/-- A value takes a byte, or it is an empty token. -/
theorem parseValue_advances {fuel : Nat} {cursor left : Cursor}
    {value : Node} (read : parseValue next fuel cursor = .ok (value, left)) :
    left.rest <:+ (skipWsInline cursor).rest.tail ∨
      left = skipWsInline cursor ∧ ∃ byte,
        (skipWsInline cursor).rest.head? = some byte ∧
          isScalarEnd byte = true := by
  cases fuel with
  | zero =>
      rw [parseValue] at read
      cases read
  | succ fuel =>
      rw [parseValue] at read
      dsimp only at read
      split at read
      · cases read
      · rename_i rest isRest
        left
        rw [isRest]
        exact ((parseMultilineBasic_stops next _).str.leaves _ _ read).trans
          (List.suffix_append [34, 34] rest)
      · rename_i rest _ isRest
        left
        rw [isRest]
        exact (parseBasicString_stops _).str.leaves _ _ read
      · rename_i rest isRest
        left
        rw [isRest]
        exact ((parseMultilineLiteral_stops next _).str.leaves _ _
          read).trans (List.suffix_append [39, 39] rest)
      · rename_i rest _ isRest
        left
        rw [isRest]
        exact (parseLiteralString_stops _).str.leaves _ _ read
      · rename_i rest isRest
        left
        rw [isRest]
        exact (parse_leaves next fuel).2.1 _ _ _ _ read
      · rename_i rest isRest
        left
        rw [isRest]
        have skipped := skipWsInline_suffix ((skipWsInline cursor).to rest)
        split at read
        · rename_i after isAfter
          cases read
          rw [isAfter] at skipped
          exact (List.suffix_cons 125 after).trans skipped
        · exact ((parse_leaves next fuel).2.2 _ _ _ _ read).trans skipped
      · rename_i nonEmpty _ _ _ _ _ _
        cases read
        exact parseScalarToken_advances nonEmpty

/-- Only arrays and inline tables need more than one unit of fuel. -/
theorem parseValue_flat {cursor : Cursor} (fuel : Nat)
    (noArray : (skipWsInline cursor).rest.head? ≠ some 91)
    (noTable : (skipWsInline cursor).rest.head? ≠ some 123) :
    parseValue next (fuel + 1) cursor ≠ .error .outOfFuel := by
  rw [parseValue]
  dsimp only
  split
  · simp [failAt]
  · exact (parseMultilineBasic_stops next _).str.fueled
  · exact (parseBasicString_stops _).str.fueled
  · exact (parseMultilineLiteral_stops next _).str.fueled
  · exact (parseLiteralString_stops _).str.fueled
  · rename_i rest isRest
    rw [isRest] at noArray
    exact absurd rfl noArray
  · rename_i rest isRest
    rw [isRest] at noTable
    exact absurd rfl noTable
  · simp

end

end SaltOS.Toml
