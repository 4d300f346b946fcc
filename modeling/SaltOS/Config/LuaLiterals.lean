import SaltOS.Lib.Transducer
import SaltOS.Base.Numerals

/-!
# Literals of the configuration language

What `llex` and `constructor` of the vendored interpreter make of a chunk that
returns a literal: comments, names, strings, booleans and tables of them.  A
text with anything else in it is refused here.
-/

namespace SaltOS.Config

open Lib

inductive LuaKey where
  | str (text : Bytes)
  | int (value : Int)
  | other
  deriving DecidableEq, Repr

/-- A value of the interpreter.  A table has its entries and what
`lua_rawlen` gives for it, a float the text of `lua_tostring`, and any other
value the name of its type. -/
inductive LuaValue where
  | str (text : Bytes)
  | int (value : Int)
  | float (shown : Bytes)
  | bool (value : Bool)
  | table (length : Nat) (entries : List (LuaKey × LuaValue))
  | other (typeName : Bytes)
  deriving Repr

/-! ## Tokens -/

inductive Token where
  | word (text : Bytes)
  | text (text : Bytes)
  | symbol (byte : UInt8)
  deriving DecidableEq, Repr

def lislalpha (byte : UInt8) : Bool :=
  (97 ≤ byte && byte ≤ 122) || (65 ≤ byte && byte ≤ 90) || byte == 95

def lislalnum (byte : UInt8) : Bool :=
  lislalpha byte || Bytes.isDigit byte

/-- Where the lexer is: between tokens, behind one or two dashes, in a comment
or a word, behind an equals sign, in a string, behind its backslash or in a
decimal escape. -/
inductive LexMode where
  | blank
  | dash
  | dashes
  | comment
  | word (text : Bytes)
  | equals
  | text (text : Bytes)
  | escape (text : Bytes)
  | decimal (text : Bytes) (count value : Nat)
  deriving DecidableEq, Repr

def isNewline (byte : UInt8) : Bool :=
  byte == 10 || byte == 13

/-- The byte at the start of a token. -/
def lexBlank (byte : UInt8) : Option (List Token × LexMode) :=
  if isNewline byte || byte == 32 || byte == 12 || byte == 9 || byte == 11 then
    some ([], .blank)
  else if byte == 45 then some ([], .dash)
  else if byte == 34 then some ([], .text [])
  else if byte == 61 then some ([], .equals)
  else if byte == 123 || byte == 125 || byte == 44 || byte == 59 then
    some ([.symbol byte], .blank)
  else if lislalpha byte then some ([], .word [byte])
  else none

/-- The byte behind a token that has ended. -/
def lexBehind (token : Token) (byte : UInt8) :
    Option (List Token × LexMode) :=
  (lexBlank byte).map fun next => (token :: next.1, next.2)

/-- The escapes of one letter in `read_string`. -/
def luaEscape (byte : UInt8) : Option UInt8 :=
  if byte == 97 then some 7
  else if byte == 98 then some 8
  else if byte == 102 then some 12
  else if byte == 110 then some 10
  else if byte == 114 then some 13
  else if byte == 116 then some 9
  else if byte == 118 then some 11
  else if byte == 92 || byte == 34 || byte == 39 then some byte
  else none

/-- `read_string`. -/
def lexText (text : Bytes) (byte : UInt8) : Option (List Token × LexMode) :=
  if byte == 34 then some ([.text text], .blank)
  else if isNewline byte then none
  else if byte == 92 then some ([], .escape text)
  else some ([], .text (text ++ [byte]))

/-- A decimal escape with fewer than three digits read so far. -/
def lexDecimal (text : Bytes) (count value : Nat) (byte : UInt8) :
    Option (List Token × LexMode) :=
  if Bytes.isDigit byte then
    let more := 10 * value + (byte.toNat - 48)
    if count < 2 then some ([], .decimal text (count + 1) more)
    else if more ≤ 255 then some ([], .text (text ++ [more.toUInt8]))
    else none
  else if value ≤ 255 then lexText (text ++ [value.toUInt8]) byte
  else none

def lexStep : LexMode → UInt8 → Option (List Token × LexMode)
  | .blank, byte => lexBlank byte
  | .dash, byte => if byte == 45 then some ([], .dashes) else none
  | .dashes, byte =>
      if byte == 91 then none
      else if isNewline byte then some ([], .blank)
      else some ([], .comment)
  | .comment, byte =>
      if isNewline byte then some ([], .blank) else some ([], .comment)
  | .word text, byte =>
      if lislalnum byte then some ([], .word (text ++ [byte]))
      else lexBehind (.word text) byte
  | .equals, byte =>
      if byte == 61 then none else lexBehind (.symbol 61) byte
  | .text text, byte => lexText text byte
  | .escape text, byte =>
      match luaEscape byte with
      | some value => some ([], .text (text ++ [value]))
      | none =>
          if Bytes.isDigit byte then
            some ([], .decimal text 1 (byte.toNat - 48))
          else none
  | .decimal text count value, byte => lexDecimal text count value byte

/-- `llex`, for the tokens of literals. -/
def llex : Transducer LexMode UInt8 Token where
  step := lexStep
  finish
    | .blank | .dashes | .comment => some []
    | .word text => some [.word text]
    | .equals => some [.symbol 61]
    | _ => none

/-! ## Tables -/

/-- The reserved words of `luaX_tokens`. -/
def luaTokens : List String :=
  ["and", "break", "do", "else", "elseif", "end", "false", "for", "function",
    "goto", "if", "in", "local", "nil", "not", "or", "repeat", "return",
    "then", "true", "until", "while"]

def isReserved (word : Bytes) : Bool :=
  word ∈ luaTokens.map ascii

def luaBool (word : Bytes) : Option LuaValue :=
  if word = ascii "true" then some (.bool true)
  else if word = ascii "false" then some (.bool false)
  else none

/-- A constructor that is still open: its fields with a name, those without,
and the name whose value comes next. -/
structure Constructor where
  fields : List (Bytes × LuaValue)
  items : List LuaValue
  key : Option Bytes

def Constructor.empty : Constructor :=
  { fields := [], items := [], key := none }

def fieldEntry (field : Bytes × LuaValue) : LuaKey × LuaValue :=
  (.str field.1, field.2)

def itemEntry (item : LuaValue × Nat) : LuaKey × LuaValue :=
  (.int (item.2 + 1), item.1)

def Constructor.close (top : Constructor) : LuaValue :=
  .table top.items.length
    (top.items.zipIdx.map itemEntry ++ top.fields.map fieldEntry)

/-- What the parser expects: `return`, an expression, a field, the equals sign
behind a name, what follows a field, or the end.  The open constructors are
on a stack. -/
inductive ParseMode where
  | start
  | expr (opened : List Constructor)
  | field (top : Constructor) (below : List Constructor)
  | name (name : Bytes) (top : Constructor) (below : List Constructor)
  | behind (top : Constructor) (below : List Constructor)
  | done (value : LuaValue)

/-- A value is complete; a name must be new to its constructor. -/
def give (value : LuaValue) : List Constructor → Option ParseMode
  | [] => some (.done value)
  | top :: below =>
      match top.key with
      | none => some (.behind { top with items := top.items ++ [value] } below)
      | some name =>
          if name ∈ top.fields.map Prod.fst then none
          else some (.behind
            { top with fields := top.fields ++ [(name, value)], key := none }
            below)

/-- The first token of an expression. -/
def parseExpr (opened : List Constructor) : Token → Option ParseMode
  | .text text => give (.str text) opened
  | .word word => (luaBool word).bind (give · opened)
  | .symbol byte =>
      if byte == 123 then some (.field .empty opened) else none

def parseStep : ParseMode → Token → Option ParseMode
  | .start, token =>
      if token = .word (ascii "return") then some (.expr []) else none
  | .expr opened, token => parseExpr opened token
  | .field top below, .symbol byte =>
      if byte == 125 then give top.close below
      else parseExpr (top :: below) (.symbol byte)
  | .field top below, .word word =>
      if isReserved word then parseExpr (top :: below) (.word word)
      else some (.name word top below)
  | .field top below, token => parseExpr (top :: below) token
  | .name name top below, token =>
      if token = .symbol 61 then
        some (.expr ({ top with key := some name } :: below))
      else none
  | .behind top below, token =>
      if token = .symbol 44 ∨ token = .symbol 59 then some (.field top below)
      else if token = .symbol 125 then give top.close below
      else none
  | .done _, _ => none

/-- `constructor`, for a chunk that only returns a literal. -/
def luaParser : Transducer ParseMode Token LuaValue where
  step := fun mode token => (parseStep mode token).map ([], ·)
  finish
    | .done value => some [value]
    | _ => none

/-- The value of a chunk that returns a literal. -/
def evalLiteral (text : Bytes) : Option LuaValue :=
  (llex.output .blank text).bind fun tokens =>
    (luaParser.output .start tokens).bind List.head?

/-! ## Reading literals -/

variable {text name : Bytes} {token : Token} {value : LuaValue}
  {mode after : ParseMode} {top : Constructor} {below : List Constructor}

theorem reads_step (isStep : parseStep mode token = some after) :
    luaParser.Reads mode [token] [] after := by
  apply Transducer.Reads.one
  change (parseStep mode token).map _ = _
  rw [isStep]
  rfl

/-- A chunk is read in two passes. -/
theorem evalLiteral_eq {tokens : List Token}
    (lexed : llex.Reads .blank text tokens .blank)
    (parsed : luaParser.Reads .start tokens [] (.done value)) :
    evalLiteral text = some value := by
  unfold evalLiteral
  rw [lexed.output rfl, List.append_nil, Option.bind_some,
    parsed.output rfl]
  rfl

/-- A name that is no reserved word, and its equals sign. -/
theorem reads_name (free : isReserved name = false) :
    luaParser.Reads (.field top below) [.word name, .symbol 61] []
      (.expr ({ top with key := some name } :: below)) := by
  have isName : parseStep (.field top below) (.word name) =
      some (.name name top below) := by
    rw [parseStep, free]
    rfl
  have isEquals : parseStep (.name name top below) (.symbol 61) =
      some (.expr ({ top with key := some name } :: below)) := by
    rw [parseStep, if_pos rfl]
  exact (reads_step isName).append (reads_step isEquals)

theorem give_named {opened : Constructor} (isKey : opened.key = some name)
    (new : name ∉ opened.fields.map Prod.fst) :
    give value (opened :: below) = some (.behind
      { opened with fields := opened.fields ++ [(name, value)], key := none }
      below) := by
  rw [give, isKey]
  exact if_neg new

/-- The separator behind a field. -/
theorem reads_comma :
    luaParser.Reads (.behind top below) [.symbol 44] []
      (.field top below) := by
  apply reads_step
  rw [parseStep, if_pos (.inl rfl)]

theorem reads_close (given : give top.close below = some after) :
    luaParser.Reads (.field top below) [.symbol 125] [] after :=
  reads_step given

theorem reads_open :
    luaParser.Reads (.expr below) [.symbol 123] [] (.field .empty below) :=
  reads_step rfl

end SaltOS.Config
