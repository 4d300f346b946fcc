import SaltOS.Base.Numerals

/-!
# The TOML parser

`salt_toml_parse` of `src/halite/src/toml.c`.  A cursor holds the bytes
between the parser's position and its end, how far the position is behind the
end, and the line.  Two loops look at the byte stored behind the text; it is
the argument `next`.

`parse_array` goes round again when a value consumed nothing and no separator
follows, so values are parsed with fuel and running out of it is an outcome of
its own.  The other loops take at least one byte in each round; their fuel is
the length of the input.
-/

namespace SaltOS.Toml

inductive Node where
  | str (text : Bytes)
  | int (value : Int)
  | bool (value : Bool)
  | arr (items : List Node)
  | tab (entries : List (Bytes × Node))
  deriving Repr

abbrev Table := List (Bytes × Node)

structure Cursor where
  rest : Bytes
  past : Nat
  line : Nat
  deriving DecidableEq, Repr

/-- A parse fails with the message it set, if any, or goes on for ever. -/
inductive Stop where
  | error (message : Option Bytes)
  | outOfFuel
  deriving DecidableEq, Repr

def Cursor.to (cursor : Cursor) (rest : Bytes) : Cursor :=
  { cursor with rest := rest }

def fail (message : String) : Except Stop α :=
  .error (.error (some (ascii message)))

def failAt (message : Bytes) (cursor : Cursor) : Except Stop α :=
  .error (.error (some
    (message ++ ascii " at line " ++ printBase 10 cursor.line)))

/-! ## Blanks -/

def isInlineBlank (byte : UInt8) : Bool :=
  byte == 32 || byte == 9

def skipWsInline (cursor : Cursor) : Cursor :=
  cursor.to (cursor.rest.dropWhile isInlineBlank)

/-- Blanks, line ends and comments; the flag says that a comment is open. -/
def skipBlank : Bool → Bytes → Nat → Bytes × Nat
  | _, [], line => ([], line)
  | inComment, byte :: rest, line =>
      if byte == 10 then skipBlank false rest (line + 1)
      else if inComment then skipBlank true rest line
      else if byte == 32 || byte == 9 || byte == 13 then
        skipBlank false rest line
      else if byte == 35 then skipBlank true rest line
      else (byte :: rest, line)

def skipWsAndComments (cursor : Cursor) : Cursor :=
  let (rest, line) := skipBlank false cursor.rest cursor.line
  { cursor with rest := rest, line := line }

/-! ## Strings -/

def appendUtf8 (cp : Nat) : Bytes :=
  if cp < 0x80 then [cp.toUInt8]
  else if cp < 0x800 then
    [(0xC0 ||| cp >>> 6).toUInt8, (0x80 ||| cp &&& 0x3F).toUInt8]
  else if cp < 0x10000 then
    [(0xE0 ||| cp >>> 12).toUInt8, (0x80 ||| cp >>> 6 &&& 0x3F).toUInt8,
      (0x80 ||| cp &&& 0x3F).toUInt8]
  else
    [(0xF0 ||| cp >>> 18).toUInt8, (0x80 ||| cp >>> 12 &&& 0x3F).toUInt8,
      (0x80 ||| cp >>> 6 &&& 0x3F).toUInt8, (0x80 ||| cp &&& 0x3F).toUInt8]

def hexValue (byte : UInt8) : Option Nat :=
  if 48 ≤ byte && byte ≤ 57 then some (byte.toNat - 48)
  else if 97 ≤ byte && byte ≤ 102 then some (byte.toNat - 97 + 10)
  else if 65 ≤ byte && byte ≤ 70 then some (byte.toNat - 65 + 10)
  else none

def hexDigits : Nat → Nat → Bytes → Option (Nat × Bytes)
  | 0, cp, rest => some (cp, rest)
  | _ + 1, _, [] => none
  | count + 1, cp, byte :: rest =>
      (hexValue byte).bind fun digit => hexDigits count (cp * 16 + digit) rest

/-- The escapes of one letter. -/
def simpleEscape (byte : UInt8) : Option UInt8 :=
  if byte == 98 then some 8
  else if byte == 116 then some 9
  else if byte == 110 then some 10
  else if byte == 102 then some 12
  else if byte == 114 then some 13
  else if byte == 34 then some 34
  else if byte == 92 then some 92
  else none

/-- `parse_escape`, from behind the backslash. -/
def parseEscape (cursor : Cursor) : Except Stop (Bytes × Cursor) :=
  match cursor.rest with
  | [] => .error (.error none)
  | byte :: rest =>
      match simpleEscape byte with
      | some value => .ok ([value], cursor.to rest)
      | none =>
          if byte == 117 || byte == 85 then
            match hexDigits (if byte == 117 then 4 else 8) 0 rest with
            | some (cp, rest) => .ok (appendUtf8 cp, cursor.to rest)
            | none => .error (.error none)
          else failAt (ascii "toml: bad escape \\" ++ [byte]) cursor

/-- The loop of `parse_basic_string`. -/
def basicLoop : Nat → Bytes → Cursor →
    Except Stop (Bytes × Cursor)
  | 0, _, _ => .error .outOfFuel
  | fuel + 1, text, cursor =>
      match cursor.rest with
      | [] => fail "toml: unterminated string"
      | byte :: rest =>
          if byte == 34 then .ok (cstr text, cursor.to rest)
          else if byte == 92 then do
            let (bytes, cursor) ← parseEscape (cursor.to rest)
            basicLoop fuel (text ++ bytes) cursor
          else if byte == 10 then
            failAt (ascii "toml: newline in string") cursor
          else basicLoop fuel (text ++ [byte]) (cursor.to rest)

/-- `parse_basic_string`, from behind the quote. -/
def parseBasicString (cursor : Cursor) : Except Stop (Bytes × Cursor) :=
  basicLoop (cursor.rest.length + 1) [] cursor

def isEscapedBlank (byte : UInt8) : Bool :=
  byte == 32 || byte == 9 || byte == 13

/-- The line continuation of a multi-line string: the blanks and line ends
behind a backslash that ends its line. -/
def skipContinuation (cursor : Cursor) : Option Cursor :=
  match cursor.rest.dropWhile isEscapedBlank with
  | 10 :: rest =>
      let blanks := rest.takeWhile (fun byte => isEscapedBlank byte ||
        byte == 10)
      some { cursor with
        rest := rest.drop blanks.length
        line := cursor.line + 1 + blanks.count 10 }
  | _ => none

/-- The quotes that close a multi-line string.  With two bytes left the test
reads the byte behind the end and steps over it. -/
def closesMultiline (next quote : UInt8) (guarded : Bool)
    (cursor : Cursor) : Option Cursor :=
  match cursor.rest with
  | a :: b :: c :: rest =>
      if a == quote && b == quote && c == quote &&
          !(guarded && rest.head? == some quote) then
        some (cursor.to rest)
      else none
  | [a, b] =>
      if a == quote && b == quote && next == quote then
        some { cursor with rest := [], past := cursor.past + 1 }
      else none
  | _ => none

def multilineBasicLoop (next : UInt8) : Nat → Bytes → Cursor →
    Except Stop (Bytes × Cursor)
  | 0, _, _ => .error .outOfFuel
  | fuel + 1, text, cursor =>
      match cursor.rest with
      | [] => fail "toml: unterminated multiline string"
      | byte :: rest =>
          match closesMultiline next 34 true cursor with
          | some closed => .ok (cstr text, closed)
          | none =>
              if byte == 92 then
                match skipContinuation (cursor.to rest) with
                | some continued =>
                    multilineBasicLoop next fuel text continued
                | none => do
                    let (bytes, cursor) ← parseEscape (cursor.to rest)
                    multilineBasicLoop next fuel (text ++ bytes) cursor
              else
                multilineBasicLoop next fuel (text ++ [byte])
                  { cursor with
                    rest := rest
                    line := if byte == 10 then cursor.line + 1
                      else cursor.line }

/-- `parse_multiline_basic`, from behind the quotes. -/
def parseMultilineBasic (next : UInt8) (cursor : Cursor) :
    Except Stop (Bytes × Cursor) :=
  let start :=
    match cursor.rest with
    | 10 :: rest => { cursor with rest := rest, line := cursor.line + 1 }
    | 13 :: 10 :: rest =>
        { cursor with rest := rest, line := cursor.line + 1 }
    | _ => cursor
  multilineBasicLoop next (start.rest.length + 1) [] start

/-- `parse_literal_string`, from behind the quote. -/
def parseLiteralString (cursor : Cursor) : Except Stop (Bytes × Cursor) :=
  let text := cursor.rest.takeWhile (fun byte => byte != 39 && byte != 10)
  match cursor.rest.drop text.length with
  | [] => fail "toml: unterminated literal string"
  | byte :: rest =>
      if byte == 39 then .ok (cstr text, cursor.to rest)
      else failAt (ascii "toml: newline in literal string") cursor

def multilineLiteralLoop (next : UInt8) : Nat → Bytes → Cursor →
    Except Stop (Bytes × Cursor)
  | 0, _, _ => .error .outOfFuel
  | fuel + 1, text, cursor =>
      match cursor.rest with
      | [] => fail "toml: unterminated multiline literal"
      | byte :: rest =>
          match closesMultiline next 39 false cursor with
          | some closed => .ok (cstr text, closed)
          | none =>
              multilineLiteralLoop next fuel (text ++ [byte])
                { cursor with
                  rest := rest
                  line := if byte == 10 then cursor.line + 1
                    else cursor.line }

def parseMultilineLiteral (next : UInt8) (cursor : Cursor) :
    Except Stop (Bytes × Cursor) :=
  let start :=
    match cursor.rest with
    | 10 :: rest => { cursor with rest := rest, line := cursor.line + 1 }
    | _ => cursor
  multilineLiteralLoop next (start.rest.length + 1) [] start

/-! ## Scalars -/

def isScalarEnd (byte : UInt8) : Bool :=
  byte == 44 || byte == 93 || byte == 125 || byte == 10 || byte == 35 ||
    byte == 32 || byte == 9 || byte == 13

/-- `strtoll` of an optional sign and digits; it saturates. -/
def strtoll (text : Bytes) : Int :=
  let magnitude := (readBase 10 (text.filter Bytes.isDigit) : Int)
  if text.head? = some 45 then max (-magnitude) (-2 ^ 63)
  else min magnitude (2 ^ 63 - 1)

/-- The node of a token: a boolean, an integer, or a bare string. -/
def scalarNode (token : Bytes) : Node :=
  if token = ascii "true" then .bool true
  else if token = ascii "false" then .bool false
  else
    let digits :=
      if token.head? = some 43 ∨ token.head? = some 45 then token.drop 1
      else token
    if digits ≠ [] ∧ digits.all (fun byte => byte == 95 ||
        Bytes.isDigit byte) then
      .int (strtoll ((token.filter (· != 95)).take 63))
    else .str token

def parseScalarToken (cursor : Cursor) : Node × Cursor :=
  let token := cursor.rest.takeWhile (fun byte => !isScalarEnd byte)
  (scalarNode (cstr token), cursor.to (cursor.rest.drop token.length))

/-! ## Keys -/

def isAlnum (byte : UInt8) : Bool :=
  Bytes.isDigit byte || (65 ≤ byte && byte ≤ 90) || (97 ≤ byte && byte ≤ 122)

def isKeyByte (byte : UInt8) : Bool :=
  isAlnum byte || byte == 95 || byte == 45

def parseKeyToken (cursor : Cursor) : Except Stop (Bytes × Cursor) :=
  let cursor := skipWsInline cursor
  match cursor.rest with
  | [] => .error (.error none)
  | 34 :: rest => parseBasicString (cursor.to rest)
  | 39 :: rest => parseLiteralString (cursor.to rest)
  | _ =>
      let key := cursor.rest.takeWhile isKeyByte
      if key = [] then failAt (ascii "toml: expected key") cursor
      else .ok (key, cursor.to (cursor.rest.drop key.length))

/-- The loop of `parse_dotted_path`. -/
def dottedLoop : Nat → List Bytes → Cursor →
    Except Stop (List Bytes × Cursor)
  | 0, _, _ => .error .outOfFuel
  | fuel + 1, keys, cursor => do
      let (key, cursor) ← parseKeyToken cursor
      let cursor := skipWsInline cursor
      match cursor.rest with
      | 46 :: rest => dottedLoop fuel (keys ++ [key]) (cursor.to rest)
      | _ => .ok (keys ++ [key], cursor)

def parseDottedPath (cursor : Cursor) : Except Stop (List Bytes × Cursor) :=
  dottedLoop (cursor.rest.length + 1) [] cursor

/-! ## Tables -/

def tableGet (table : Table) (key : Bytes) : Option Node :=
  (table.find? (fun entry => entry.1 == key)).map Prod.snd

/-- `table_set`: replace the first entry of that key, or append one. -/
def tableSet : Table → Bytes → Node → Table
  | [], key, value => [(key, value)]
  | entry :: rest, key, value =>
      if entry.1 = key then (key, value) :: rest
      else entry :: tableSet rest key value

/-- Change the table at a path, creating missing tables on the way; an array
on the way stands for its last element. -/
def descend (change : Table → Option Table) :
    List Bytes → Table → Option Table
  | [], table => change table
  | key :: keys, table =>
      match tableGet table key with
      | none => (descend change keys []).map fun child =>
          tableSet table key (.tab child)
      | some (.tab child) => (descend change keys child).map fun child =>
          tableSet table key (.tab child)
      | some (.arr items) =>
          match items.getLast? with
          | some (.tab child) => (descend change keys child).map fun child =>
              tableSet table key (.arr (items.dropLast ++ [.tab child]))
          | _ => none
      | some _ => none

/-- The last step of `descend_table` for an array of tables. -/
def pushTable (key : Bytes) (table : Table) : Option Table :=
  match tableGet table key with
  | none => some (tableSet table key (.arr [.tab []]))
  | some (.arr items) =>
      some (tableSet table key (.arr (items ++ [.tab []])))
  | some _ => none

/-! ## Values -/

mutual

def parseValue (next : UInt8) : Nat → Cursor → Except Stop (Node × Cursor)
  | 0, _ => .error .outOfFuel
  | fuel + 1, start => do
      let cursor := skipWsInline start
      match cursor.rest with
      | [] => failAt (ascii "toml: unexpected end of value") cursor
      | 34 :: 34 :: 34 :: rest => do
          let (text, cursor) ← parseMultilineBasic next (cursor.to rest)
          .ok (.str text, cursor)
      | 34 :: rest => do
          let (text, cursor) ← parseBasicString (cursor.to rest)
          .ok (.str text, cursor)
      | 39 :: 39 :: 39 :: rest => do
          let (text, cursor) ← parseMultilineLiteral next (cursor.to rest)
          .ok (.str text, cursor)
      | 39 :: rest => do
          let (text, cursor) ← parseLiteralString (cursor.to rest)
          .ok (.str text, cursor)
      | 91 :: rest => parseArray next fuel [] (cursor.to rest)
      | 123 :: rest =>
          let cursor := skipWsInline (cursor.to rest)
          match cursor.rest with
          | 125 :: rest => .ok (.tab [], cursor.to rest)
          | _ => parseInlineTable next fuel [] cursor
      | _ => .ok (parseScalarToken cursor)

/-- The loop of `parse_array`. -/
def parseArray (next : UInt8) : Nat → List Node → Cursor →
    Except Stop (Node × Cursor)
  | 0, _, _ => .error .outOfFuel
  | fuel + 1, items, start => do
      let cursor := skipWsAndComments start
      match cursor.rest with
      | [] => fail "toml: unterminated array"
      | 93 :: rest => .ok (.arr items, cursor.to rest)
      | _ => do
          let (value, cursor) ← parseValue next fuel cursor
          let cursor := skipWsAndComments cursor
          match cursor.rest with
          | 44 :: rest =>
              parseArray next fuel (items ++ [value]) (cursor.to rest)
          | 93 :: rest => .ok (.arr (items ++ [value]), cursor.to rest)
          | _ => parseArray next fuel (items ++ [value]) cursor

/-- The loop of `parse_inline_table`. -/
def parseInlineTable (next : UInt8) : Nat → Table → Cursor →
    Except Stop (Node × Cursor)
  | 0, _, _ => .error .outOfFuel
  | fuel + 1, table, start => do
      let (key, cursor) ← parseKeyToken (skipWsInline start)
      let cursor := skipWsInline cursor
      match cursor.rest with
      | 61 :: rest => do
          let (value, cursor) ← parseValue next fuel
            (skipWsInline (cursor.to rest))
          let cursor := skipWsInline cursor
          match cursor.rest with
          | 44 :: rest =>
              parseInlineTable next fuel (tableSet table key value)
                (cursor.to rest)
          | 125 :: rest => .ok (.tab (tableSet table key value),
              cursor.to rest)
          | _ => failAt (ascii "toml: malformed inline table") cursor
      | _ => failAt (ascii "toml: expected = in inline table") cursor

end

/-! ## Statements -/

/-- A document being parsed: the tree, the path of the current table, and the
cursor. -/
structure Document where
  root : Table
  current : List Bytes
  cursor : Cursor

def skipClosing (cursor : Cursor) : Cursor :=
  match cursor.rest with
  | 93 :: rest => cursor.to rest
  | _ => cursor

/-- A table header, from behind its first bracket. -/
def parseHeader (document : Document) (cursor : Cursor) :
    Except Stop Document := do
  let isArray := cursor.rest.head? == some 91
  let start := if isArray then cursor.to (cursor.rest.drop 1) else cursor
  let (keys, cursor) ← parseDottedPath start
  let cursor := skipClosing (skipWsInline cursor)
  let cursor := if isArray then skipClosing cursor else cursor
  let created :=
    if isArray then
      descend (pushTable (keys.getLast?.getD [])) keys.dropLast document.root
    else descend some keys document.root
  match created with
  | none => failAt (ascii "toml: table path conflict") cursor
  | some root => .ok { root := root, current := keys, cursor := cursor }

/-- An assignment `keys = value`, with a comment behind it. -/
def parseAssignment (next : UInt8) (fuel : Nat) (document : Document)
    (cursor : Cursor) : Except Stop Document := do
  let (keys, cursor) ← parseDottedPath cursor
  let cursor := skipWsInline cursor
  match cursor.rest with
  | 61 :: rest => do
      let (value, cursor) ← parseValue next fuel (cursor.to rest)
      let key := keys.getLast?.getD []
      match descend (fun table => some (tableSet table key value))
          (document.current ++ keys.dropLast) document.root with
      | none => failAt (ascii "toml: key path conflict") cursor
      | some root =>
          let cursor := skipWsInline cursor
          let cursor :=
            match cursor.rest with
            | 35 :: rest => cursor.to (rest.dropWhile (· != 10))
            | _ => cursor
          .ok { document with root := root, cursor := cursor }
  | _ => failAt (ascii "toml: expected =") cursor

/-- One statement; `none` at the end of the text. -/
def parseStatement (next : UInt8) (fuel : Nat) (document : Document) :
    Except Stop (Option Document) :=
  let cursor := skipWsAndComments document.cursor
  match cursor.rest with
  | [] => .ok none
  | 91 :: rest => (parseHeader document (cursor.to rest)).map some
  | _ => (parseAssignment next fuel document cursor).map some

def statementLoop (next : UInt8) (fuel : Nat) : Nat → Document →
    Except Stop Table
  | 0, _ => .error .outOfFuel
  | rounds + 1, document => do
      match ← parseStatement next fuel document with
      | none => .ok document.root
      | some document => statementLoop next fuel rounds document

/-- `salt_toml_parse`, with the fuel for nested values. -/
def parse (next : UInt8) (fuel : Nat) (text : Bytes) : Except Stop Table :=
  statementLoop next fuel (text.length + 1)
    { root := [], current := [], cursor := ⟨text, 0, 1⟩ }

/-- A computation with fuel returns a result: more fuel changes nothing. -/
def Returns {α : Type} (run : Nat → Except Stop α) (result : α) : Prop :=
  ∃ bound, ∀ fuel ≥ bound, run fuel = .ok result

/-- `salt_toml_parse_file` of a file name that does not end in `.lua`: a file
that cannot be read and a text that is rejected both give no tree. -/
def parseFile (fuel : Nat) (content : Option Bytes) :
    Except Stop (Option Table) :=
  match content with
  | none => .ok none
  | some text =>
      match parse 0 fuel text with
      | .ok root => .ok (some root)
      | .error .outOfFuel => .error .outOfFuel
      | .error (.error _) => .ok none

/-! ## Access -/

/-- `strtol` of an index segment, when it is one as a whole. -/
def segmentIndex (part : Bytes) : Option Nat :=
  let body := part.dropWhile (fun byte => byte == 32 || (9 ≤ byte &&
    byte ≤ 13))
  let digits := if body.head? = some 43 then body.drop 1 else body
  if digits ≠ [] ∧ digits.all Bytes.isDigit then some (readBase 10 digits)
  else none

/-- One segment of `salt_toml_path`. -/
def segmentGet (part : Bytes) : Node → Option Node
  | .arr items =>
      match segmentIndex part with
      | some (index + 1) => items[index]?
      | _ => none
  | .tab table => tableGet table part
  | _ => none

/-- `salt_toml_path`; a segment is cut at 255 bytes. -/
def path : Nat → Bytes → Node → Option Node
  | 0, _, node => some node
  | _ + 1, [], node => some node
  | rounds + 1, key, node =>
      let part := (key.takeWhile (· != 46)).take 255
      let rest := key.drop part.length
      let rest := if rest.head? = some 46 then rest.drop 1 else rest
      (segmentGet part node).bind (path rounds rest)

def getPath (node : Node) (key : Bytes) : Option Node :=
  path (key.length + 1) key node

def asString : Node → Option Bytes
  | .str text => some text
  | _ => none

/-- `salt_toml_string`. -/
def stringAt (node : Node) (key : String) : Option Bytes :=
  (getPath node (ascii key)).bind asString

/-- `salt_toml_int`. -/
def intAt (node : Node) (key : String) (fallback : Int) : Int :=
  match getPath node (ascii key) with
  | some (.int value) => value
  | _ => fallback

/-- `salt_toml_string_array`: the strings of an array. -/
def stringArrayAt (node : Node) (key : String) : List Bytes :=
  match getPath node (ascii key) with
  | some (.arr items) => items.filterMap asString
  | _ => []

/-- The items that `salt_toml_array_len` and `salt_toml_array_at` give. -/
def arrayItems : Option Node → List Node
  | some (.arr items) => items
  | _ => []

end SaltOS.Toml
