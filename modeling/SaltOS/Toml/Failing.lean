import SaltOS.Toml.Values

/-!
# Texts that are printed as they are

A writer that puts a text between quotes without escaping it is undone only
when the text spells itself.  Without a quote in it, a text either spells some
text or makes the parse fail on its line; one that spells itself has no
backslash and no line end.
-/

namespace SaltOS.Toml

/-! ## Texts that spell something -/

/-- An escape takes more bytes than it stands for. -/
theorem Spells.plain_of_length {encoded text : Bytes}
    (spells : Spells encoded text) (length : encoded.length ≤ text.length) :
    PlainText encoded := by
  induction spells with
  | nil => decide
  | plain noQuote noSlash noEnd _ induction =>
      simp only [List.length_cons, Nat.add_le_add_iff_right] at length
      obtain ⟨restQuote, restSlash, restEnd⟩ := induction length
      refine ⟨?_, ?_, ?_⟩
      · simp [Ne.symm noQuote, restQuote]
      · simp [Ne.symm noSlash, restSlash]
      · simp [Ne.symm noEnd, restEnd]
  | escape _ spells =>
      have shorter := spells.length_le
      simp only [List.length_cons] at length
      omega
  | @unicode _ digits _ _ cp form _ spells =>
      have shorter := spells.length_le
      have bounds := length_appendUtf8 cp
      simp only [List.length_cons, List.length_append] at length
      omega

/-- A text that spells itself is plain. -/
theorem Spells.plain_of_eq {encoded text : Bytes}
    (spells : Spells encoded text) (same : cstr text = encoded) :
    PlainText encoded := by
  apply spells.plain_of_length
  rw [← same]
  exact (List.takeWhile_prefix _).length_le

/-- The digits of a number end before a quote. -/
theorem hexDigits_before_quote {count value cp : Nat}
    {text tail rest : Bytes}
    (read : hexDigits count value (text ++ 34 :: tail) = some (cp, rest)) :
    ∃ digits after, text = digits ++ after ∧ digits.length = count ∧
      hexDigits count value digits = some (cp, []) := by
  induction count generalizing value text with
  | zero =>
      simp only [hexDigits, Option.some.injEq, Prod.mk.injEq] at read
      exact ⟨[], text, rfl, rfl, by simp [hexDigits, read.1]⟩
  | succ count induction =>
      cases text with
      | nil =>
          have noDigit : hexValue 34 = none := by decide
          simp [hexDigits, noDigit] at read
      | cons digit text =>
          simp only [List.cons_append, hexDigits,
            Option.bind_eq_some_iff] at read
          obtain ⟨number, isDigit, others⟩ := read
          obtain ⟨digits, after, rfl, length, readDigits⟩ := induction others
          refine ⟨digit :: digits, after, rfl, by simp [length], ?_⟩
          simp [hexDigits, isDigit, readDigits]

/-- The string that the text starts does not end on its line. -/
def FailsOnLine (encoded : Bytes) : Prop :=
  ∀ fuel text tail past line, encoded.length + 1 < fuel → ∃ message,
    basicLoop fuel text ⟨encoded ++ 34 :: 10 :: tail, past, line⟩ =
      .error (.error message)

/-- The first round of a string decides whether it fails. -/
theorem FailsOnLine.of_round {encoded : Bytes}
    (round : ∀ fuel text tail past line, encoded.length < fuel →
      ∃ message, basicLoop (fuel + 1) text
        ⟨encoded ++ 34 :: 10 :: tail, past, line⟩ =
          .error (.error message)) : FailsOnLine encoded := by
  intro fuel text tail past line enough
  cases fuel with
  | zero => omega
  | succ fuel => exact round fuel text tail past line (by omega)

/-- A backslash hands over to the escape behind it. -/
theorem basicLoop_escape (fuel : Nat) (text rest : Bytes)
    (past line : Nat) :
    basicLoop (fuel + 1) text ⟨92 :: rest, past, line⟩ =
      (parseEscape ⟨rest, past, line⟩).bind fun read =>
        basicLoop fuel (text ++ read.1) read.2 := by
  simp only [basicLoop, Cursor.to, bind]
  rfl

namespace FailsOnLine

theorem lineEnd (rest : Bytes) : FailsOnLine (10 :: rest) := by
  apply of_round
  intro fuel text tail past line enough
  exact ⟨_, rfl⟩

/-- The quote that should close the string is escaped. -/
theorem lastSlash : FailsOnLine [92] := by
  apply of_round
  intro fuel text tail past line enough
  cases fuel with
  | zero => simp at enough
  | succ fuel => exact ⟨_, rfl⟩

theorem plain {byte : UInt8} {rest : Bytes} (noQuote : byte ≠ 34)
    (noSlash : byte ≠ 92) (fails : FailsOnLine rest) :
    FailsOnLine (byte :: rest) := by
  by_cases isEnd : byte = 10
  · rw [isEnd]
    exact lineEnd rest
  apply of_round
  intro fuel text tail past line enough
  obtain ⟨message, failed⟩ := fails fuel (text ++ [byte]) tail past line
    (by simpa using enough)
  refine ⟨message, ?_⟩
  rw [← failed]
  simp [basicLoop, noQuote, noSlash, isEnd, Cursor.to]

theorem escape {letter value : UInt8} {rest : Bytes}
    (isEscape : simpleEscape letter = some value)
    (fails : FailsOnLine rest) : FailsOnLine (92 :: letter :: rest) := by
  apply of_round
  intro fuel text tail past line enough
  obtain ⟨message, failed⟩ := fails fuel (text ++ [value]) tail past line
    (by simp at enough; omega)
  refine ⟨message, ?_⟩
  rw [← failed, List.cons_append, basicLoop_escape]
  simp only [List.cons_append, parseEscape, isEscape, Cursor.to]
  rfl

theorem unicode {letter : UInt8} {digits rest : Bytes} {cp : Nat}
    (form : letter = 117 ∧ digits.length = 4 ∨
      letter = 85 ∧ digits.length = 8)
    (read : hexDigits digits.length 0 digits = some (cp, []))
    (fails : FailsOnLine rest) :
    FailsOnLine (92 :: letter :: (digits ++ rest)) := by
  apply of_round
  intro fuel text tail past line enough
  obtain ⟨message, failed⟩ := fails fuel (text ++ appendUtf8 cp) tail past
    line (by simp at enough; omega)
  refine ⟨message, ?_⟩
  rw [← failed, List.cons_append, basicLoop_escape, List.cons_append,
    List.append_assoc, parseEscape_unicode form read]
  rfl

/-- A backslash in front of no escape. -/
theorem badEscape {letter : UInt8} {rest : Bytes}
    (noEscape : simpleEscape letter = none)
    (noNumber : letter = 117 ∨ letter = 85 → ∀ tail,
      hexDigits (if letter = 117 then 4 else 8) 0 (rest ++ 34 :: tail) =
        none) : FailsOnLine (92 :: letter :: rest) := by
  apply of_round
  intro fuel text tail past line enough
  rw [List.cons_append, basicLoop_escape, List.cons_append]
  by_cases form : letter = 117 ∨ letter = 85
  · have isLetter : (letter == 117 || letter == 85) = true := by
      simpa using form
    refine ⟨none, ?_⟩
    simp only [parseEscape, noEscape, isLetter, if_true, beq_iff_eq,
      noNumber form]
    rfl
  · have noLetter : (letter == 117 || letter == 85) = false := by
      simpa using form
    simp only [parseEscape, noEscape, noLetter, if_false,
      Bool.false_eq_true]
    exact ⟨_, rfl⟩

end FailsOnLine

/-- The bytes behind a backslash are an escape, the number of a character, or
an error. -/
theorem spells_or_fails_escape {letter : UInt8} {rest : Bytes}
    (shorter : ∀ after, after.length ≤ rest.length → after <:+ rest →
      (∃ source, Spells after source) ∨ FailsOnLine after) :
    (∃ source, Spells (92 :: letter :: rest) source) ∨
      FailsOnLine (92 :: letter :: rest) := by
  cases isEscape : simpleEscape letter with
  | some value =>
      rcases shorter rest (Nat.le_refl _) List.suffix_rfl with
        ⟨source, spells⟩ | fails
      · exact .inl ⟨value :: source, .escape isEscape spells⟩
      · exact .inr (.escape isEscape fails)
  | none =>
      by_cases number : (letter = 117 ∨ letter = 85) ∧ ∃ tail result,
          hexDigits (if letter = 117 then 4 else 8) 0 (rest ++ 34 :: tail) =
            some result
      · obtain ⟨form, tail, ⟨cp, behind⟩, isNumber⟩ := number
        obtain ⟨digits, after, rfl, length, read⟩ :=
          hexDigits_before_quote isNumber
        have isForm : letter = 117 ∧ digits.length = 4 ∨
            letter = 85 ∧ digits.length = 8 := by
          rcases form with rfl | rfl
          · exact .inl ⟨rfl, length⟩
          · exact .inr ⟨rfl, length⟩
        rw [← length] at read
        rcases shorter after (by simp) (List.suffix_append _ _) with
          ⟨source, spells⟩ | fails
        · exact .inl ⟨_, .unicode isForm read spells⟩
        · exact .inr (.unicode isForm read fails)
      · refine .inr (.badEscape isEscape ?_)
        intro form tail
        by_contra some
        obtain ⟨result, isSome⟩ := Option.ne_none_iff_exists'.mp some
        exact number ⟨form, tail, result, isSome⟩

/-- A text without quotes spells something, or the string that it starts does
not end on its line. -/
theorem spells_or_fails {encoded : Bytes} (noQuote : 34 ∉ encoded) :
    (∃ source, Spells encoded source) ∨ FailsOnLine encoded := by
  -- An escape takes several bytes at once, so the induction is on the length.
  induction length : encoded.length using Nat.strong_induction_on
    generalizing encoded with
  | _ bound induction =>
      subst length
      rcases encoded with _ | ⟨byte, rest⟩
      · exact .inl ⟨[], .nil⟩
      have isByte : byte ≠ 34 := by
        rintro rfl
        exact noQuote List.mem_cons_self
      have shorter : ∀ after, after.length < (byte :: rest).length →
          after <:+ byte :: rest →
            (∃ source, Spells after source) ∨ FailsOnLine after := by
        intro after less suffix
        exact induction after.length less
          (fun member => noQuote (suffix.subset member)) rfl
      by_cases slash : byte = 92
      · subst slash
        rcases rest with _ | ⟨letter, rest⟩
        · exact .inr .lastSlash
        · apply spells_or_fails_escape
          intro after less suffix
          apply shorter after (by simp; omega)
          exact suffix.trans ⟨[92, letter], rfl⟩
      · rcases shorter rest (by simp) (List.suffix_cons _ _) with
          ⟨source, spells⟩ | fails
        · by_cases isEnd : byte = 10
          · subst isEnd
            exact .inr (.lineEnd rest)
          · exact .inl ⟨byte :: source, .plain isByte slash isEnd spells⟩
        · exact .inr (.plain isByte slash fails)

/-! ## Lines that fail -/

section

variable {next : UInt8} {fuel : Nat}

/-- A value text whose parse fails before the end of its line. -/
def FailsValue (next : UInt8) (fuel : Nat) (text : Bytes) : Prop :=
  ∀ tail line, ∃ message,
    parseValue next fuel ⟨32 :: text ++ 10 :: tail, 0, line⟩ =
      .error (.error message)

theorem failsValue_quoted {encoded : Bytes} (noQuote : 34 ∉ encoded)
    (fails : FailsOnLine encoded) :
    FailsValue next (fuel + 1) (quoted encoded) := by
  intro tail line
  have text : quoted encoded ++ 10 :: tail =
      34 :: (encoded ++ 34 :: 10 :: tail) := by
    simp [quoted]
  have single : ∀ rest, encoded ++ 34 :: 10 :: tail ≠ 34 :: 34 :: rest := by
    intro rest same
    cases encoded with
    | nil => simp at same
    | cons byte encoded =>
        apply noQuote
        rw [(List.cons.inj same).1]
        exact List.mem_cons_self
  obtain ⟨message, failed⟩ := fails ((encoded ++ 34 :: 10 :: tail).length + 1)
    [] tail 0 line (by simp)
  refine ⟨message, ?_⟩
  rw [List.cons_append, parseValue_blank, parseValue, text,
    skipWsInline_plain (by decide)]
  simp only
  simp only [Cursor.to, parseBasicString, failed, bind, Except.bind]

/-- Without quotes and backslashes a line end makes the string fail, whatever
is behind it. -/
theorem basicLoop_lineEnd {encoded : Bytes} (noQuote : 34 ∉ encoded)
    (noSlash : 92 ∉ encoded) (hasEnd : 10 ∈ encoded) {rounds : Nat}
    (enough : encoded.length < rounds) (text rest : Bytes)
    (past line : Nat) :
    ∃ message, basicLoop rounds text ⟨encoded ++ rest, past, line⟩ =
      .error (.error message) := by
  induction encoded generalizing rounds text with
  | nil => cases hasEnd
  | cons byte encoded induction =>
      obtain ⟨rounds, rfl⟩ : ∃ more, rounds = more + 1 :=
        ⟨rounds - 1, by simp at enough; omega⟩
      simp only [List.mem_cons, not_or] at noQuote noSlash
      by_cases isEnd : byte = 10
      · subst isEnd
        exact ⟨_, rfl⟩
      · have inRest : 10 ∈ encoded :=
          (List.mem_cons.mp hasEnd).resolve_left (Ne.symm isEnd)
        obtain ⟨message, failed⟩ := induction noQuote.2 noSlash.2 inRest
          (Nat.lt_of_succ_lt_succ enough) (text ++ [byte])
        refine ⟨message, ?_⟩
        simpa [basicLoop, Ne.symm noQuote.1, Ne.symm noSlash.1, isEnd,
          Cursor.to] using failed

theorem parseValue_lineEnd {encoded : Bytes} (noQuote : 34 ∉ encoded)
    (noSlash : 92 ∉ encoded) (hasEnd : 10 ∈ encoded) (rest : Bytes)
    (line : Nat) :
    ∃ message, parseValue next (fuel + 1)
      ⟨34 :: (encoded ++ 34 :: rest), 0, line⟩ = .error (.error message) := by
  have single : ∀ more, encoded ++ 34 :: rest ≠ 34 :: 34 :: more := by
    intro more same
    cases encoded with
    | nil => cases hasEnd
    | cons byte encoded =>
        apply noQuote
        rw [(List.cons.inj same).1]
        exact List.mem_cons_self
  obtain ⟨message, failed⟩ := @basicLoop_lineEnd encoded noQuote noSlash
    hasEnd ((encoded ++ 34 :: rest).length + 1)
    (by simp only [List.length_append]; omega) [] (34 :: rest) 0 line
  refine ⟨message, ?_⟩
  rw [parseValue, skipWsInline_plain (by decide)]
  simp only
  simp only [Cursor.to, parseBasicString, failed, bind, Except.bind]

/-- An item with a line end makes the array fail. -/
theorem parseArray_lineEnd {items : List Bytes}
    (noQuote : ∀ item ∈ items, 34 ∉ item)
    (noSlash : ∀ item ∈ items, 92 ∉ item)
    (hasEnd : ∃ item ∈ items, 10 ∈ item) (tail : Bytes) (read : List Node)
    (line : Nat) {rounds : Nat} (enough : items.length < rounds) :
    ∃ message, parseArray next rounds read
      ⟨quotedItems items ++ 93 :: tail, 0, line⟩ =
        .error (.error message) := by
  induction items generalizing read rounds with
  | nil =>
      obtain ⟨_, member, -⟩ := hasEnd
      cases member
  | cons first others induction =>
      obtain ⟨rounds, rfl⟩ : ∃ more, rounds = more + 2 :=
        ⟨rounds - 2, by simp at enough; omega⟩
      have firstQuote := noQuote first List.mem_cons_self
      have firstSlash := noSlash first List.mem_cons_self
      by_cases inFirst : 10 ∈ first
      · obtain ⟨rest, text⟩ : ∃ rest, quotedItems (first :: others) ++
            93 :: tail = 34 :: (first ++ 34 :: rest) := by
          cases others with
          | nil => exact ⟨93 :: tail, by simp [quotedItems, quoted]⟩
          | cons second others =>
              exact ⟨ascii ", " ++ (quotedItems (second :: others) ++
                93 :: tail), by simp [quotedItems, quoted]⟩
        obtain ⟨message, failed⟩ := @parseValue_lineEnd next rounds first
          firstQuote firstSlash inFirst rest line
        refine ⟨message, ?_⟩
        rw [text, parseArray, skipWsAndComments_plain' quote_starts]
        simp only [bind, Except.bind, failed]
        rfl
      · have plain : PlainText first := ⟨firstQuote, firstSlash, inFirst⟩
        obtain ⟨item, member, isEnd⟩ := hasEnd
        have inOthers : item ∈ others := by
          rcases List.mem_cons.mp member with rfl | inside
          · exact absurd isEnd inFirst
          · exact inside
        obtain ⟨second, others, rfl⟩ :=
          List.exists_cons_of_ne_nil (List.ne_nil_of_mem inOthers)
        have text : quotedItems (first :: second :: others) ++
            93 :: tail = quoted first ++ 44 ::
              (32 :: (quotedItems (second :: others) ++ 93 :: tail)) := by
          simp [quotedItems, ascii]
        obtain ⟨message, failed⟩ := induction
          (fun other inside => noQuote other (List.mem_cons_of_mem _ inside))
          (fun other inside => noSlash other (List.mem_cons_of_mem _ inside))
          ⟨item, inOthers, isEnd⟩ (read ++ [.str (cstr first)])
          (Nat.lt_of_succ_lt_succ enough)
        refine ⟨message, ?_⟩
        rw [text, parseArray_item plain.spells
          ⟨by decide, by decide, by decide, by decide⟩ (by decide)]
        change parseArray next (rounds + 1) _ ⟨32 :: _, 0, line⟩ = _
        rw [parseArray_blank, failed]

/-- Items without quotes and backslashes are read, or make their line
fail. -/
theorem items_spell_or_fail {items : List Bytes}
    (noQuote : ∀ item ∈ items, 34 ∉ item)
    (noSlash : ∀ item ∈ items, 92 ∉ item)
    (enough : items.length + 1 < fuel) :
    (∀ item ∈ items, PlainText item) ∨
      FailsValue next fuel ([91] ++ quotedItems items ++ [93]) := by
  by_cases hasEnd : ∃ item ∈ items, 10 ∈ item
  · right
    obtain ⟨fuel, rfl⟩ : ∃ rounds, fuel = rounds + 1 :=
      ⟨fuel - 1, by omega⟩
    intro tail line
    obtain ⟨message, failed⟩ := @parseArray_lineEnd next items noQuote
      noSlash hasEnd (10 :: tail) [] line fuel (by omega)
    refine ⟨message, ?_⟩
    have text : 32 :: ([91] ++ quotedItems items ++ [93]) ++ 10 :: tail =
        32 :: 91 :: (quotedItems items ++ 93 :: 10 :: tail) := by simp
    rw [text, parseValue_blank, parseValue, skipWsInline_plain (by decide)]
    exact failed
  · left
    intro item member
    exact ⟨noQuote item member, noSlash item member,
      fun isEnd => hasEnd ⟨item, member, isEnd⟩⟩

/-- Within some statements the parse fails, whatever the line. -/
def Fails (next : UInt8) (fuel count : Nat) (page : Page) : Prop :=
  ∀ rounds line, ∃ message,
    statementLoop next fuel (rounds + count) (page.at line) =
      .error (.error message)

theorem Fails.mono {page : Page} {count more : Nat}
    (fails : Fails next fuel count page) (le : count ≤ more) :
    Fails next fuel more page := by
  intro rounds line
  obtain ⟨extra, rfl⟩ := Nat.exists_eq_add_of_le le
  obtain ⟨message, failed⟩ := fails (rounds + extra) line
  refine ⟨message, ?_⟩
  rw [← failed]
  congr 1
  omega

theorem Reads.fails {first second : Nat} {before middle : Page}
    (reads : Reads next fuel first before middle)
    (fails : Fails next fuel second middle) :
    Fails next fuel (first + second) before := by
  intro rounds line
  obtain ⟨middleLine, toMiddle⟩ := reads (rounds + second) line
  obtain ⟨message, failed⟩ := fails rounds middleLine
  refine ⟨message, ?_⟩
  rw [← failed, ← toMiddle]
  congr 1
  omega

theorem Fails.assign {root : Table} {current : List Bytes}
    {key text tail : Bytes} (blanks : Nat) (bare : BareKey key)
    (fails : FailsValue next fuel text) :
    Fails next fuel 1 ⟨root, current, List.replicate blanks 10 ++
      (key ++ 32 :: 61 :: 32 :: text) ++ 10 :: tail⟩ := by
  intro rounds line
  obtain ⟨message, failed⟩ := fails tail (line + blanks)
  refine ⟨message, ?_⟩
  rw [statementLoop, parseStatement_line blanks bare, failed]
  rfl

/-- A document in which a line fails is rejected. -/
theorem Fails.parse {text : Bytes} {count : Nat}
    (fails : Fails next fuel count ⟨[], [], 10 :: text⟩)
    (enough : count ≤ text.length) :
    ∃ message, parse next fuel text = .error (.error message) := by
  obtain ⟨message, failed⟩ := fails (text.length + 1 - count) 0
  refine ⟨message, ?_⟩
  have rounds : text.length + 1 - count + count = text.length + 1 := by omega
  have start : statementLoop next fuel (text.length + 1)
      (Page.at ⟨[], [], 10 :: text⟩ 0) =
      statementLoop next fuel (text.length + 1)
        (Page.at ⟨[], [], text⟩ 1) := by
    simp only [statementLoop, parseStatement, Page.at, skipWsAndComments,
      skipBlank]
    rfl
  rw [rounds, start] at failed
  exact failed

/-- A line that is read, or at which the parse fails. -/
def Line.Decided (next : UInt8) (fuel : Nat) (line : Line) : Prop :=
  line.Ok next fuel ∨ BareKey line.key ∧ FailsValue next fuel line.value

end

end SaltOS.Toml
