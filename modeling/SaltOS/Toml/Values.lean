import SaltOS.Toml.Statements

/-!
# Values that writers emit

Quoted strings, arrays of quoted strings and integers, as they stand behind
the equals sign of a generated line.
-/

namespace SaltOS.Toml

/-! ## Quoted strings -/

/-- The bytes between two quotes that the string parser reads as a text: a
byte stands for itself, or a backslash is followed by the letter of an escape
or by the number of a character. -/
inductive Spells : Bytes → Bytes → Prop where
  | nil : Spells [] []
  | plain {byte : UInt8} {encoded text : Bytes} :
      byte ≠ 34 → byte ≠ 92 → byte ≠ 10 → Spells encoded text →
      Spells (byte :: encoded) (byte :: text)
  | escape {letter byte : UInt8} {encoded text : Bytes} :
      simpleEscape letter = some byte → Spells encoded text →
      Spells (92 :: letter :: encoded) (byte :: text)
  | unicode {letter : UInt8} {digits encoded text : Bytes} {cp : Nat} :
      letter = 117 ∧ digits.length = 4 ∨ letter = 85 ∧ digits.length = 8 →
      hexDigits digits.length 0 digits = some (cp, []) →
      Spells encoded text →
      Spells (92 :: letter :: (digits ++ encoded)) (appendUtf8 cp ++ text)

def quoted (encoded : Bytes) : Bytes :=
  [34] ++ encoded ++ [34]

/-- A text that can stand between quotes as it is. -/
def PlainText (text : Bytes) : Prop :=
  34 ∉ text ∧ 92 ∉ text ∧ 10 ∉ text

instance (text : Bytes) : Decidable (PlainText text) :=
  inferInstanceAs (Decidable (_ ∧ _ ∧ _))

theorem PlainText.spells {text : Bytes} (plain : PlainText text) :
    Spells text text := by
  induction text with
  | nil => exact .nil
  | cons byte text induction =>
      obtain ⟨noQuote, noSlash, noEnd⟩ := plain
      simp only [List.mem_cons, not_or] at noQuote noSlash noEnd
      exact .plain (Ne.symm noQuote.1) (Ne.symm noSlash.1) (Ne.symm noEnd.1)
        (induction ⟨noQuote.2, noSlash.2, noEnd.2⟩)

/-- A writer that escapes byte by byte. -/
theorem Spells.flatMap {escape : UInt8 → Bytes}
    (each : ∀ byte encoded text, Spells encoded text →
      Spells (escape byte ++ encoded) (byte :: text)) (text : Bytes) :
    Spells (text.flatMap escape) text := by
  induction text with
  | nil => exact .nil
  | cons byte text induction => exact each byte _ text induction

theorem length_appendUtf8 (cp : Nat) :
    1 ≤ (appendUtf8 cp).length ∧ (appendUtf8 cp).length ≤ 4 := by
  unfold appendUtf8
  split_ifs <;> simp

theorem hexDigits_append {digits : Bytes} {count value cp : Nat}
    (read : hexDigits count value digits = some (cp, [])) (rest : Bytes) :
    hexDigits count value (digits ++ rest) = some (cp, rest) := by
  induction digits generalizing count value with
  | nil =>
      cases count with
      | zero =>
          simp only [hexDigits, Option.some.injEq, Prod.mk.injEq] at read
          simp [hexDigits, read.1]
      | succ count => simp [hexDigits] at read
  | cons digit digits induction =>
      cases count with
      | zero => simp [hexDigits] at read
      | succ count =>
          simp only [List.cons_append, hexDigits, Option.bind_eq_some_iff]
            at read ⊢
          obtain ⟨number, isDigit, others⟩ := read
          exact ⟨number, isDigit, induction others⟩

/-- The escape of a character's number. -/
theorem parseEscape_unicode {letter : UInt8} {digits : Bytes} {cp : Nat}
    (form : letter = 117 ∧ digits.length = 4 ∨
      letter = 85 ∧ digits.length = 8)
    (read : hexDigits digits.length 0 digits = some (cp, []))
    (rest : Bytes) (past line : Nat) :
    parseEscape ⟨letter :: (digits ++ rest), past, line⟩ =
      .ok (appendUtf8 cp, ⟨rest, past, line⟩) := by
  have number := hexDigits_append read rest
  rcases form with ⟨rfl, length⟩ | ⟨rfl, length⟩
  · rw [length] at number
    simp [parseEscape, simpleEscape, number, Cursor.to]
  · rw [length] at number
    simp [parseEscape, simpleEscape, number, Cursor.to]

theorem Spells.length_le {encoded text : Bytes}
    (spells : Spells encoded text) : text.length ≤ encoded.length := by
  induction spells with
  | nil => exact Nat.le_refl _
  | plain _ _ _ _ induction => simpa using induction
  | escape _ _ induction =>
      simp only [List.length_cons]
      omega
  | @unicode _ digits _ _ cp form _ _ induction =>
      have bounds := length_appendUtf8 cp
      simp only [List.length_cons, List.length_append]
      omega

theorem basicLoop_spelled {encoded source : Bytes}
    (spells : Spells encoded source) (text tail : Bytes) (past line : Nat)
    {fuel : Nat} (enough : source.length < fuel) :
    basicLoop fuel text ⟨encoded ++ 34 :: tail, past, line⟩ =
      .ok (cstr (text ++ source), ⟨tail, past, line⟩) := by
  induction spells generalizing text fuel with
  | nil =>
      obtain ⟨fuel, rfl⟩ := Nat.exists_eq_add_of_lt enough
      simp [basicLoop, Cursor.to]
  | plain noQuote noSlash noEnd _ induction =>
      cases fuel with
      | zero => cases enough
      | succ fuel =>
          simp only [List.cons_append, basicLoop, noQuote, noSlash, noEnd,
            beq_iff_eq, if_false, Cursor.to]
          rw [induction _ (Nat.lt_of_succ_lt_succ enough)]
          simp
  | @escape letter byte _ _ isEscape _ induction =>
      cases fuel with
      | zero => cases enough
      | succ fuel =>
          have parsed : ∀ rest, parseEscape ⟨letter :: rest, past, line⟩ =
              .ok ([byte], ⟨rest, past, line⟩) := by
            intro rest
            simp only [parseEscape, isEscape, Cursor.to]
          have slash : ((92 : UInt8) == 34) = false ∧
              ((92 : UInt8) == 92) = true := by decide
          simp only [List.cons_append, basicLoop, slash, Cursor.to, parsed,
            bind, Except.bind, if_true, if_false, Bool.false_eq_true]
          rw [induction _ (Nat.lt_of_succ_lt_succ enough)]
          simp
  | @unicode letter digits _ _ cp form read _ induction =>
      have positive := (length_appendUtf8 cp).1
      rw [List.length_append] at enough
      cases fuel with
      | zero => omega
      | succ fuel =>
          have slash : ((92 : UInt8) == 34) = false ∧
              ((92 : UInt8) == 92) = true := by decide
          simp only [List.cons_append, List.append_assoc, basicLoop, slash,
            Cursor.to, parseEscape_unicode form read, bind, Except.bind,
            if_true, if_false, Bool.false_eq_true]
          rw [induction _ (by omega)]
          simp

theorem parseBasicString_spelled {encoded source : Bytes}
    (spells : Spells encoded source) (tail : Bytes) (past line : Nat) :
    parseBasicString ⟨encoded ++ 34 :: tail, past, line⟩ =
      .ok (cstr source, ⟨tail, past, line⟩) := by
  have enough : source.length < (encoded ++ 34 :: tail).length + 1 := by
    have longer := spells.length_le
    simp only [List.length_append, List.length_cons]
    omega
  rw [parseBasicString, basicLoop_spelled spells [] tail past line enough,
    List.nil_append]

theorem Spells.not_quotes {encoded source tail rest : Bytes}
    (spells : Spells encoded source) (notQuote : tail.head? ≠ some 34) :
    encoded ++ 34 :: tail ≠ 34 :: 34 :: rest := by
  intro same
  cases spells with
  | nil =>
      obtain ⟨-, isTail⟩ := List.cons.inj same
      apply notQuote
      simp [isTail]
  | plain noQuote => exact noQuote (List.cons.inj same).1
  | escape => exact absurd (List.cons.inj same).1 (by decide)
  | unicode => exact absurd (List.cons.inj same).1 (by decide)

/-- A quoted string, followed by anything but another quote. -/
theorem parseValue_spelled (next : UInt8) (fuel : Nat)
    {encoded source : Bytes} (tail : Bytes)
    (spells : Spells encoded source) (notQuote : tail.head? ≠ some 34)
    (past line : Nat) :
    parseValue next (fuel + 1) ⟨quoted encoded ++ tail, past, line⟩ =
      .ok (.str (cstr source), ⟨tail, past, line⟩) := by
  have text : quoted encoded ++ tail = 34 :: (encoded ++ 34 :: tail) := by
    simp [quoted]
  rw [parseValue, text, skipWsInline_plain (by decide)]
  simp only
  split
  · rename_i isNil
    cases isNil
  · rename_i isTriple
    exact absurd (List.cons.inj isTriple).2 (spells.not_quotes notQuote)
  · rename_i isString
    obtain ⟨-, rfl⟩ := List.cons.inj isString
    simp [Cursor.to, parseBasicString_spelled spells, bind, Except.bind]
  case h_8 =>
    rename_i notString _ _ _ _
    exact (notString _ rfl).elim
  all_goals
    rename_i isOther
    exact absurd (List.cons.inj isOther).1 (by decide)

theorem skipWsInline_blank {rest : Bytes} {past line : Nat} :
    skipWsInline ⟨32 :: rest, past, line⟩ =
      skipWsInline ⟨rest, past, line⟩ := by
  simp [skipWsInline, Cursor.to, isInlineBlank]

/-- The blank behind the equals sign. -/
theorem parseValue_blank {next : UInt8} {fuel : Nat} {rest : Bytes}
    {past line : Nat} :
    parseValue next fuel ⟨32 :: rest, past, line⟩ =
      parseValue next fuel ⟨rest, past, line⟩ := by
  cases fuel with
  | zero => simp [parseValue]
  | succ fuel => simp only [parseValue, skipWsInline_blank]

theorem readsValue_spelled {next : UInt8} {fuel : Nat}
    {encoded source : Bytes} (spells : Spells encoded source) :
    ReadsValue next (fuel + 1) (quoted encoded) (.str (cstr source)) := by
  intro tail line
  rw [List.cons_append, parseValue_blank]
  exact parseValue_spelled _ _ _ spells (by simp) 0 line

/-- A quoted C string is read back. -/
theorem readsValue_text {next : UInt8} {fuel : Nat}
    {encoded source : Bytes} (spells : Spells encoded source)
    (noNul : 0 ∉ source) :
    ReadsValue next (fuel + 1) (quoted encoded) (.str source) := by
  have reads : ReadsValue next (fuel + 1) _ _ := readsValue_spelled spells
  rwa [cstr_eq_self noNul] at reads

/-! ## Arrays of strings -/

theorem skipWsAndComments_plain' {byte : UInt8} {rest : Bytes}
    {line : Nat} (starts : StartsStatement byte) :
    skipWsAndComments ⟨byte :: rest, 0, line⟩ = ⟨byte :: rest, 0, line⟩ := by
  simpa using skipWsAndComments_plain rest line 0 starts

theorem quote_starts : StartsStatement 34 :=
  ⟨by decide, by decide, by decide, by decide⟩

theorem parseArray_blank {next : UInt8} {fuel : Nat} {read : List Node}
    {rest : Bytes} {line : Nat} :
    parseArray next fuel read ⟨32 :: rest, 0, line⟩ =
      parseArray next fuel read ⟨rest, 0, line⟩ := by
  have skipped : skipWsAndComments ⟨32 :: rest, 0, line⟩ =
      skipWsAndComments ⟨rest, 0, line⟩ := by
    simp [skipWsAndComments, skipBlank]
  cases fuel with
  | zero => simp [parseArray]
  | succ fuel => simp only [parseArray, skipped]

/-- The items of an array, separated by commas. -/
def quotedItems : List Bytes → Bytes
  | [] => []
  | [item] => quoted item
  | item :: rest => quoted item ++ ascii ", " ++ quotedItems rest

theorem quotedItems_eq (encoded : List Bytes) :
    quotedItems encoded = (ascii ", ").intercalate (encoded.map quoted) := by
  fun_induction quotedItems encoded with
  | case1 => rfl
  | case2 item => simp [List.intercalate]
  | case3 item rest notLast induction =>
      cases rest with
      | nil => exact absurd rfl notLast
      | cons second rest =>
          rw [induction]
          simp [List.intercalate]

/-- One item, up to the separator or the bracket behind it. -/
theorem parseArray_item {next : UInt8} {fuel : Nat} {read : List Node}
    {encoded item after : Bytes} {stop : UInt8} {line : Nat}
    (spells : Spells encoded item) (starts : StartsStatement stop)
    (notQuote : stop ≠ 34) :
    parseArray next (fuel + 2) read
        ⟨quoted encoded ++ stop :: after, 0, line⟩ =
      match stop :: after with
      | 44 :: rest => parseArray next (fuel + 1)
          (read ++ [.str (cstr item)]) ⟨rest, 0, line⟩
      | 93 :: rest => .ok (.arr (read ++ [.str (cstr item)]),
          ⟨rest, 0, line⟩)
      | _ => parseArray next (fuel + 1) (read ++ [.str (cstr item)])
          ⟨stop :: after, 0, line⟩ := by
  have value := parseValue_spelled next fuel (stop :: after) spells
    (by simpa using notQuote) 0 line
  obtain ⟨more, text⟩ : ∃ more, quoted encoded ++ stop :: after =
      34 :: more := ⟨_, rfl⟩
  rw [text] at value ⊢
  rw [parseArray, skipWsAndComments_plain' quote_starts]
  simp only [bind, Except.bind, value, skipWsAndComments_plain' starts,
    Cursor.to]
  rfl

/-- The items of an array, from the first one on. -/
theorem parseArray_items {next : UInt8} {encoded items : List Bytes}
    {tail : Bytes} (spells : List.Forall₂ Spells encoded items)
    (nonempty : items ≠ []) (read : List Node) (line : Nat) {fuel : Nat}
    (enough : items.length < fuel) :
    parseArray next fuel read ⟨quotedItems encoded ++ 93 :: tail, 0, line⟩ =
      .ok (.arr (read ++ items.map fun item => .str (cstr item)),
        ⟨tail, 0, line⟩) := by
  induction spells generalizing read fuel with
  | nil => exact absurd rfl nonempty
  | @cons first item others rest isItem areItems induction =>
      obtain ⟨fuel, rfl⟩ : ∃ rounds, fuel = rounds + 2 :=
        ⟨fuel - 2, by simp at enough; omega⟩
      cases areItems with
      | nil =>
          rw [quotedItems, parseArray_item isItem
            ⟨by decide, by decide, by decide, by decide⟩ (by decide)]
          rfl
      | @cons second _ others _ isSecond areOthers =>
          have text : quotedItems (first :: second :: others) ++
              93 :: tail = quoted first ++ 44 ::
                (32 :: (quotedItems (second :: others) ++ 93 :: tail)) := by
            simp [quotedItems, ascii]
          rw [text, parseArray_item isItem
            ⟨by decide, by decide, by decide, by decide⟩ (by decide)]
          change parseArray next (fuel + 1) _ ⟨32 :: _, 0, line⟩ = _
          rw [parseArray_blank, induction (by simp) _
            (Nat.lt_of_succ_lt_succ enough)]
          simp

theorem readsValue_spelledItems {next : UInt8}
    {encoded items : List Bytes} {fuel : Nat}
    (spells : List.Forall₂ Spells encoded items)
    (enough : items.length + 1 < fuel) :
    ReadsValue next fuel ([91] ++ quotedItems encoded ++ [93])
      (.arr (items.map fun item => .str (cstr item))) := by
  obtain ⟨fuel, rfl⟩ : ∃ rounds, fuel = rounds + 1 :=
    ⟨fuel - 1, by omega⟩
  intro tail line
  have text : 32 :: ([91] ++ quotedItems encoded ++ [93]) ++ 10 :: tail =
      32 :: 91 :: (quotedItems encoded ++ 93 :: 10 :: tail) := by simp
  rw [text, parseValue_blank, parseValue, skipWsInline_plain (by decide)]
  change parseArray next fuel [] ⟨quotedItems encoded ++ 93 :: 10 :: tail, 0,
    line⟩ = _
  by_cases empty : items = []
  · subst empty
    obtain rfl : encoded = [] := List.forall₂_nil_right_iff.mp spells
    obtain ⟨fuel, rfl⟩ : ∃ rounds, fuel = rounds + 1 :=
      ⟨fuel - 1, by simp at enough; omega⟩
    have closing : StartsStatement 93 :=
      ⟨by decide, by decide, by decide, by decide⟩
    rw [quotedItems, List.nil_append, parseArray,
      skipWsAndComments_plain' closing]
    rfl
  · rw [parseArray_items spells empty [] line (by omega)]
    rfl

/-- An array of quoted C strings is read back. -/
theorem readsValue_items {next : UInt8} {encoded items : List Bytes}
    {fuel : Nat} (spells : List.Forall₂ Spells encoded items)
    (noNul : ∀ item ∈ items, 0 ∉ item) (enough : items.length + 1 < fuel) :
    ReadsValue next fuel ([91] ++ quotedItems encoded ++ [93])
      (.arr (items.map Node.str)) := by
  have same : (items.map fun item => Node.str (cstr item)) =
      items.map Node.str :=
    List.map_congr_left fun item member => by
      rw [cstr_eq_self (noNul item member)]
  rw [← same]
  exact readsValue_spelledItems spells enough

/-! ## Numbers -/

/-- The text of an integer: digits behind an optional minus. -/
structure IntText (text : Bytes) (value : Int) : Prop where
  digits : ∃ sign body, text = sign ++ body ∧ (sign = [] ∨ sign = [45]) ∧
    body ≠ [] ∧ (∀ byte ∈ body, Bytes.isDigit byte = true)
  short : text.length ≤ 63
  reads : strtoll text = value

/-- A digit ends no token and starts no string, array or table. -/
theorem isDigit_plain {byte : UInt8} (digit : Bytes.isDigit byte = true) :
    isScalarEnd byte = false ∧ isInlineBlank byte = false ∧
      byte ∉ [0, 34, 39, 43, 45, 91, 95, 102, 116, 123] := by
  refine forall_byte (fun byte => Bytes.isDigit byte = true →
    isScalarEnd byte = false ∧ isInlineBlank byte = false ∧
      byte ∉ [0, 34, 39, 43, 45, 91, 95, 102, 116, 123]) ?_ byte digit
  decide +kernel

theorem IntText.plain {text : Bytes} {value : Int}
    (isInt : IntText text value) :
    ∀ byte ∈ text, isScalarEnd byte = false ∧ isInlineBlank byte = false ∧
      byte ∉ [0, 34, 39, 43, 91, 95, 102, 116, 123] := by
  obtain ⟨sign, body, rfl, isSign, -, digits⟩ := isInt.digits
  intro byte member
  rcases List.mem_append.mp member with inSign | inBody
  · rcases isSign with rfl | rfl
    · cases inSign
    · rw [List.mem_singleton.mp inSign]
      decide
  · obtain ⟨noEnd, noBlank, others⟩ := isDigit_plain (digits byte inBody)
    exact ⟨noEnd, noBlank, by simp_all⟩

theorem scalarNode_int {text : Bytes} {value : Int}
    (isInt : IntText text value) : scalarNode text = .int value := by
  have plain := isInt.plain
  obtain ⟨sign, body, isText, isSign, nonempty, digits⟩ := isInt.digits
  have noTrue : text ≠ ascii "true" := by
    rintro rfl
    have inside := plain 116 (by decide)
    simp at inside
  have noFalse : text ≠ ascii "false" := by
    rintro rfl
    have inside := plain 102 (by decide)
    simp at inside
  have stripped : (if text.head? = some 43 ∨ text.head? = some 45 then
      text.drop 1 else text) = body := by
    obtain ⟨first, more, isBody⟩ := List.exists_cons_of_ne_nil nonempty
    have firstDigit := isDigit_plain (digits first (by simp [isBody]))
    rcases isSign with rfl | rfl
    · simp_all
    · simp [isText]
  have clean : (text.filter (· != 95)).take 63 = text := by
    rw [List.filter_eq_self.mpr, List.take_of_length_le isInt.short]
    intro byte member
    have inside := (plain byte member).2.2
    simp_all
  have allDigits : body.all (fun byte => byte == 95 ||
      Bytes.isDigit byte) = true := by
    rw [List.all_eq_true]
    intro byte member
    simp [digits byte member]
  simp only [scalarNode, noTrue, noFalse, if_false, stripped, nonempty,
    allDigits, clean, isInt.reads, ne_eq, not_false_eq_true, and_self,
    if_true]

theorem readsValue_int {next : UInt8} {fuel : Nat} {text : Bytes}
    {value : Int} (isInt : IntText text value) :
    ReadsValue next (fuel + 1) text (.int value) := by
  have plain := isInt.plain
  intro tail line
  obtain ⟨first, more, isText⟩ : ∃ first more, text = first :: more := by
    obtain ⟨sign, body, rfl, -, nonempty, -⟩ := isInt.digits
    exact List.exists_cons_of_ne_nil (by simp [nonempty])
  have firstPlain := plain first (by simp [isText])
  have token : (text ++ 10 :: tail).takeWhile
      (fun byte => !isScalarEnd byte) = text := by
    rw [List.takeWhile_append_of_pos (fun byte member => by
      simp [(plain byte member).1])]
    simp [isScalarEnd]
  have noNul : 0 ∉ text := fun member => by
    have inside := (plain 0 member).2.2
    simp at inside
  have scalar : parseScalarToken ⟨text ++ 10 :: tail, 0, line⟩ =
      (.int value, ⟨10 :: tail, 0, line⟩) := by
    simp [parseScalarToken, token, cstr_eq_self noNul, Cursor.to,
      scalarNode_int isInt]
  rw [List.cons_append, parseValue_blank]
  rw [isText] at scalar ⊢
  simp only [List.cons_append] at scalar ⊢
  rw [parseValue, skipWsInline_plain firstPlain.2.1]
  have others := firstPlain.2.2
  simp only
  split
  case h_8 => rw [scalar]
  all_goals
    rename_i isOther
    simp_all

theorem isDigit_printBase (value : Nat) :
    ∀ byte ∈ printBase 10 value, Bytes.isDigit byte = true := by
  intro byte member
  have bounds := printBase_bounds (by decide) (by decide) byte member
  have low : (48 : UInt8) ≤ byte := UInt8.le_iff_toNat_le.mpr bounds.1
  have high : byte ≤ (57 : UInt8) := UInt8.le_iff_toNat_le.mpr (by
    change byte.toNat ≤ 57
    omega)
  simp [Bytes.isDigit, low, high]

theorem strtoll_printBase {value : Nat} (small : value < 2 ^ 63) :
    strtoll (printBase 10 value) = value := by
  have digits := isDigit_printBase value
  have same : (printBase 10 value).filter Bytes.isDigit =
      printBase 10 value := List.filter_eq_self.mpr digits
  have noSign : (printBase 10 value).head? ≠ some 45 := by
    intro isSign
    have digit := digits 45 (List.mem_of_mem_head? isSign)
    exact absurd digit (by decide)
  rw [strtoll, same, readBase_printBase (by decide) (by decide),
    if_neg noSign]
  omega

/-- A size below `2^63` is printed and read back. -/
theorem intText_nat {value : Nat} (small : value < 2 ^ 63) :
    IntText (printBase 10 value) value where
  digits := ⟨[], printBase 10 value, rfl, .inl rfl, printBase_ne_nil 10 value,
    isDigit_printBase _⟩
  short := printBase_length _ _ _ (by decide) (by decide)
    (Nat.lt_of_lt_of_le small (by decide))
  reads := strtoll_printBase small

/-- A `long long` is printed and read back. -/
theorem intText_long {value : Int} (low : -2 ^ 63 ≤ value)
    (high : value < 2 ^ 63) : IntText (printInt value) value := by
  cases value with
  | ofNat magnitude =>
      exact intText_nat (by simp at high; omega)
  | negSucc rest =>
      have small : rest + 1 ≤ 2 ^ 63 := by
        have bound := low
        simp [Int.negSucc_eq] at bound
        omega
      refine ⟨⟨[45], printBase 10 (rest + 1), rfl, .inr rfl,
        printBase_ne_nil 10 _, isDigit_printBase _⟩, ?_, ?_⟩
      · have short := printBase_length 10 (rest + 1) 62 (by decide) (by decide)
          (Nat.lt_of_le_of_lt small (by decide))
        simpa [printInt] using Nat.succ_le_succ short
      · have same : (45 :: printBase 10 (rest + 1)).filter Bytes.isDigit =
            printBase 10 (rest + 1) := by
          rw [List.filter_cons_of_neg (by decide)]
          exact List.filter_eq_self.mpr (isDigit_printBase _)
        rw [printInt, strtoll, same,
          readBase_printBase (by decide) (by decide)]
        simp [Int.negSucc_eq]
        omega

/-- An `int` is printed and read back. -/
theorem intText_int {value : Int} (low : -2 ^ 31 ≤ value)
    (high : value < 2 ^ 31) : IntText (printInt value) value :=
  intText_long (by omega) (by omega)

/-! ## Paths into the tree -/

/-- A path segment as it is written in the source. -/
structure Segment (part : Bytes) : Prop where
  nonempty : part ≠ []
  noDot : 46 ∉ part
  short : part.length ≤ 255

instance (part : Bytes) : Decidable (Segment part) :=
  decidable_of_iff (part ≠ [] ∧ 46 ∉ part ∧ part.length ≤ 255)
    ⟨fun all => ⟨all.1, all.2.1, all.2.2⟩,
      fun segment => ⟨segment.nonempty, segment.noDot, segment.short⟩⟩

theorem Segment.takeWhile {part rest : Bytes} (segment : Segment part)
    (ends : rest = [] ∨ rest.head? = some 46) :
    ((part ++ rest).takeWhile (· != 46)).take 255 = part := by
  have noDot : ∀ byte ∈ part, (byte != 46) = true := fun byte member => by
    simpa using fun isDot : byte = 46 => segment.noDot (isDot ▸ member)
  have stop : rest.takeWhile (· != 46) = [] := by
    rcases ends with rfl | isDot
    · rfl
    · obtain ⟨more, rfl⟩ := List.head?_eq_some_iff.mp isDot
      simp
  rw [List.takeWhile_append_of_pos noDot, stop, List.append_nil,
    List.take_of_length_le segment.short]

theorem path_cons (rounds : Nat) {part rest : Bytes} (node : Node)
    (segment : Segment part) (ends : rest = [] ∨ rest.head? = some 46) :
    path (rounds + 1) (part ++ rest) node =
      (segmentGet part node).bind (path rounds (rest.drop 1)) := by
  have token := segment.takeWhile ends
  obtain ⟨first, more, isPart⟩ := List.exists_cons_of_ne_nil segment.nonempty
  have dropped : (if rest.head? = some 46 then rest.drop 1 else rest) =
      rest.drop 1 := by
    rcases ends with rfl | isDot
    · rfl
    · rw [if_pos isDot]
  rw [isPart, List.cons_append] at token ⊢
  simp only [path, token, ← isPart]
  rw [← List.cons_append, ← isPart, List.drop_left, dropped]

theorem getPath_bare {table : Table} {key : Bytes} (segment : Segment key) :
    getPath (.tab table) key = tableGet table key := by
  have read := path_cons key.length (.tab table) segment
    (.inl rfl)
  rw [List.append_nil] at read
  rw [getPath, read]
  cases found : tableGet table key with
  | none => simp [segmentGet, found]
  | some node =>
      cases key with
      | nil => exact absurd rfl segment.nonempty
      | cons first more => simp [segmentGet, found, path]

theorem getPath_dotted {table : Table} {outer inner : Bytes}
    (outerSegment : Segment outer) (innerSegment : Segment inner) :
    getPath (.tab table) (outer ++ 46 :: inner) =
      (tableGet table outer).bind (segmentGet inner) := by
  obtain ⟨rounds, length⟩ : ∃ rounds,
      (outer ++ 46 :: inner).length = rounds + 1 + 1 := by
    obtain ⟨first, more, rfl⟩ :=
      List.exists_cons_of_ne_nil outerSegment.nonempty
    exact ⟨more.length + inner.length, by simp; omega⟩
  rw [getPath, length, path_cons _ _ outerSegment (.inr rfl)]
  simp only [segmentGet, List.drop_one, List.tail_cons]
  cases found : tableGet table outer with
  | none => rfl
  | some node =>
      have read := path_cons (rounds + 1) node
        innerSegment (.inl rfl)
      rw [List.append_nil] at read
      simp only [Option.bind_some, read]
      cases segmentGet inner node <;> rfl

end SaltOS.Toml
