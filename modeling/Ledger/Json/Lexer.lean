import Ledger.Json.Value

/-! The lexer: one state per call of `get()` in `scan_string` and `scan_number`. The input
still unread, the position and the bytes quoted in error messages travel together. -/
namespace Ledger.Json
open Text

structure Position where
  charsReadTotal : ℕ := 0
  charsReadCurrentLine : ℕ := 0
  linesRead : ℕ := 0
  deriving DecidableEq

/-- What the lexer records about the bytes it has read. -/
structure Trace where
  position : Position := {}
  tokenString : Bytes := []
  deriving DecidableEq

structure Lexer where
  ia : Bytes
  trace : Trace := {}
  deriving DecidableEq

inductive Token (F : Type)
  | literalTrue
  | literalFalse
  | literalNull
  | valueString (s : Bytes)
  | valueInteger (i : JsonInt)
  | valueFloat (x : F)
  | beginArray
  | beginObject
  | endArray
  | endObject
  | nameSeparator
  | valueSeparator
  | parseError (message : String)
  | endOfInput

def Token.name {F : Type} : Token F → String
  | .literalTrue => "true literal"
  | .literalFalse => "false literal"
  | .literalNull => "null literal"
  | .valueString _ => "string literal"
  | .valueInteger _ => "number literal"
  | .valueFloat _ => "number literal"
  | .beginArray => "'['"
  | .beginObject => "'\x7b'"
  | .endArray => "']'"
  | .endObject => "'\x7d'"
  | .nameSeparator => "':'"
  | .valueSeparator => "','"
  | .parseError _ => "<parse error>"
  | .endOfInput => "end of input"

namespace Trace

def read (d : Trace) (c : UInt8) : Trace :=
  { position :=
      if c = 0x0A then ⟨d.position.charsReadTotal + 1, 0, d.position.linesRead + 1⟩
      else
        ⟨d.position.charsReadTotal + 1, d.position.charsReadCurrentLine + 1, d.position.linesRead⟩
    tokenString := d.tokenString ++ [c] }

def readEof (d : Trace) : Trace :=
  { d with position :=
      { d.position with
        charsReadTotal := d.position.charsReadTotal + 1
        charsReadCurrentLine := d.position.charsReadCurrentLine + 1 } }

/-- The position after `unget()`: going back over a newline does not restore the column. -/
def back (p : Position) : Position :=
  if p.charsReadCurrentLine = 0 then ⟨p.charsReadTotal - 1, 0, p.linesRead - 1⟩
  else ⟨p.charsReadTotal - 1, p.charsReadCurrentLine - 1, p.linesRead⟩

def unread (d : Trace) : Trace :=
  ⟨back d.position, d.tokenString.dropLast⟩

def unreadEof (d : Trace) : Trace :=
  { d with position := back d.position }

/-- `reset()`: the current character starts a token. -/
def reset (d : Trace) (c : UInt8) : Trace :=
  { d with tokenString := [c] }

end Trace

/-- `get_token_string()`: control characters as `<U+XXXX>`, every other byte as it is. -/
def tokenByte (c : UInt8) : Bytes :=
  if c ≤ 0x1F then ascii "<U+00" ++ hexByteUpper c ++ ascii ">" else [c]

def tokenText (tokenString : Bytes) : Bytes :=
  tokenString.flatMap tokenByte

/-- The places in `scan_string` that wait for a character. -/
inductive StringState
  /-- The head of the loop, or inside `next_byte_in_range` when ranges are owed. -/
  | chars (owed : List Utf8.Range)
  | escape
  /-- `get_codepoint` with `digits` still to read; `high` is a leading surrogate. -/
  | codepoint (digits acc : ℕ) (high : Option ℕ)
  | surrogateBackslash (high : ℕ)
  | surrogateU (high : ℕ)

inductive StringStep
  | more (state : StringState) (buffer : Bytes)
  | closed (buffer : Bytes)
  | error (message : String)

def illFormed : String := "invalid string: ill-formed UTF-8 byte"
def badEscape : String := "invalid string: forbidden character after backslash"
def badHex : String := "invalid string: '\\u' must be followed by 4 hex digits"
def loneHigh : String :=
  "invalid string: surrogate U+D800..U+DBFF must be followed by U+DC00..U+DFFF"
def loneLow : String :=
  "invalid string: surrogate U+DC00..U+DFFF must follow U+D800..U+DBFF"

/-- The messages for unescaped control characters, in the order of the characters. -/
def controlMessages : List String :=
  ["U+0000 (NUL) must be escaped to \\u0000", "U+0001 (SOH) must be escaped to \\u0001",
   "U+0002 (STX) must be escaped to \\u0002", "U+0003 (ETX) must be escaped to \\u0003",
   "U+0004 (EOT) must be escaped to \\u0004", "U+0005 (ENQ) must be escaped to \\u0005",
   "U+0006 (ACK) must be escaped to \\u0006", "U+0007 (BEL) must be escaped to \\u0007",
   "U+0008 (BS) must be escaped to \\u0008 or \\b", "U+0009 (HT) must be escaped to \\u0009 or \\t",
   "U+000A (LF) must be escaped to \\u000A or \\n", "U+000B (VT) must be escaped to \\u000B",
   "U+000C (FF) must be escaped to \\u000C or \\f", "U+000D (CR) must be escaped to \\u000D or \\r",
   "U+000E (SO) must be escaped to \\u000E", "U+000F (SI) must be escaped to \\u000F",
   "U+0010 (DLE) must be escaped to \\u0010", "U+0011 (DC1) must be escaped to \\u0011",
   "U+0012 (DC2) must be escaped to \\u0012", "U+0013 (DC3) must be escaped to \\u0013",
   "U+0014 (DC4) must be escaped to \\u0014", "U+0015 (NAK) must be escaped to \\u0015",
   "U+0016 (SYN) must be escaped to \\u0016", "U+0017 (ETB) must be escaped to \\u0017",
   "U+0018 (CAN) must be escaped to \\u0018", "U+0019 (EM) must be escaped to \\u0019",
   "U+001A (SUB) must be escaped to \\u001A", "U+001B (ESC) must be escaped to \\u001B",
   "U+001C (FS) must be escaped to \\u001C", "U+001D (GS) must be escaped to \\u001D",
   "U+001E (RS) must be escaped to \\u001E", "U+001F (US) must be escaped to \\u001F"]

def controlMessage (c : UInt8) : String :=
  "invalid string: control character " ++ controlMessages.getD c.toNat ""

def hexValue (c : UInt8) : Option ℕ :=
  if 0x30 ≤ c ∧ c ≤ 0x39 then some (c.toNat - 0x30)
  else if 0x41 ≤ c ∧ c ≤ 0x46 then some (c.toNat - 0x37)
  else if 0x61 ≤ c ∧ c ≤ 0x66 then some (c.toNat - 0x57)
  else none

/-- The character that a one-letter escape stands for. -/
def escapeValue (c : UInt8) : Option UInt8 :=
  if c = 0x22 then some 0x22
  else if c = 0x5C then some 0x5C
  else if c = 0x2F then some 0x2F
  else if c = 0x62 then some 0x08
  else if c = 0x66 then some 0x0C
  else if c = 0x6E then some 0x0A
  else if c = 0x72 then some 0x0D
  else if c = 0x74 then some 0x09
  else none

def codepointRead (cp : ℕ) (high : Option ℕ) (buffer : Bytes) : StringStep :=
  match high with
  | none =>
    if 0xD800 ≤ cp ∧ cp ≤ 0xDBFF then .more (.surrogateBackslash cp) buffer
    else if 0xDC00 ≤ cp ∧ cp ≤ 0xDFFF then .error loneLow
    else .more (.chars []) (buffer ++ Utf8.encode cp)
  | some high =>
    if 0xDC00 ≤ cp ∧ cp ≤ 0xDFFF then
      .more (.chars []) (buffer ++ Utf8.encode (high * 1024 + cp - 0x35FDC00))
    else .error loneHigh

def stringStep (buffer : Bytes) : StringState → UInt8 → StringStep
  | .chars [], c =>
    if c = 0x22 then .closed buffer
    else if c = 0x5C then .more .escape buffer
    else if c ≤ 0x1F then .error (controlMessage c)
    else match Utf8.continuation c with
      | some owed => .more (.chars owed) (buffer ++ [c])
      | none => .error illFormed
  | .chars (r :: owed), c =>
    match Utf8.step (r :: owed) c with
    | some owed' => .more (.chars owed') (buffer ++ [c])
    | none => .error illFormed
  | .escape, c =>
    if c = 0x75 then .more (.codepoint 4 0 none) buffer
    else match escapeValue c with
      | some e => .more (.chars []) (buffer ++ [e])
      | none => .error badEscape
  | .codepoint digits acc high, c =>
    match hexValue c with
    | none => .error badHex
    | some d =>
      if digits ≤ 1 then codepointRead (acc * 16 + d) high buffer
      else .more (.codepoint (digits - 1) (acc * 16 + d) high) buffer
  | .surrogateBackslash high, c =>
    if c = 0x5C then .more (.surrogateU high) buffer else .error loneHigh
  | .surrogateU high, c =>
    if c = 0x75 then .more (.codepoint 4 0 (some high)) buffer else .error loneHigh

def stringEof : StringState → String
  | .chars [] => "invalid string: missing closing quote"
  | .chars (_ :: _) => illFormed
  | .escape => badEscape
  | .codepoint _ _ _ => badHex
  | .surrogateBackslash _ => loneHigh
  | .surrogateU _ => loneHigh

section Scan
variable {F : Type}

/-- `scan_string` behind the opening quote. -/
def scanString (state : StringState) (buffer : Bytes) (d : Trace) : Bytes → Token F × Lexer
  | [] => (.parseError (stringEof state), ⟨[], d.readEof⟩)
  | c :: rest =>
    match stringStep buffer state c with
    | .more state' buffer' => scanString state' buffer' (d.read c) rest
    | .closed buffer' => (.valueString buffer', ⟨rest, d.read c⟩)
    | .error message => (.parseError message, ⟨rest, d.read c⟩)

/-- The labels of `scan_number`. -/
inductive NumberState
  | minus | zero | any1 | decimal1 | decimal2 | exponent | sign | any2
  deriving DecidableEq

inductive NumberKind
  | unsigned | integer | float
  deriving DecidableEq

/-- The next label, or `none` when the character does not belong to the number. -/
def numberStep (state : NumberState) (c : UInt8) : Option NumberState :=
  match state with
  | .minus => if c = 0x30 then some .zero else if isDigit c then some .any1 else none
  | .zero =>
    if c = 0x2E then some .decimal1 else if c = 0x65 ∨ c = 0x45 then some .exponent else none
  | .any1 =>
    if isDigit c then some .any1
    else if c = 0x2E then some .decimal1
    else if c = 0x65 ∨ c = 0x45 then some .exponent else none
  | .decimal1 => if isDigit c then some .decimal2 else none
  | .decimal2 =>
    if isDigit c then some .decimal2 else if c = 0x65 ∨ c = 0x45 then some .exponent else none
  | .exponent =>
    if c = 0x2B ∨ c = 0x2D then some .sign else if isDigit c then some .any2 else none
  | .sign => if isDigit c then some .any2 else none
  | .any2 => if isDigit c then some .any2 else none

/-- What a label reports when the number stops there; `none` where it may stop. -/
def numberError : NumberState → Option String
  | .minus => some "invalid number; expected digit after '-'"
  | .decimal1 => some "invalid number; expected digit after '.'"
  | .exponent => some "invalid number; expected '+', '-', or digit after exponent"
  | .sign => some "invalid number; expected digit after exponent sign"
  | .zero | .any1 | .decimal2 | .any2 => none

/-- Entering `decimal1` or `exponent` makes the number a float. -/
def NumberKind.enter (kind : NumberKind) : NumberState → NumberKind
  | .decimal1 | .exponent => .float
  | _ => kind

/-- `scan_number_done`: an integer that does not fit falls back to a float. -/
def numberToken [NumberFloat F] (kind : NumberKind) (buffer : Bytes) : Token F :=
  match kind with
  | .unsigned =>
    if h : ofDecimal buffer < 2 ^ 64 then
      .valueInteger ⟨ofDecimal buffer, by omega, by exact_mod_cast h⟩
    else .valueFloat (NumberFloat.strtod buffer)
  | .integer =>
    if h : ofDecimal buffer.tail ≤ 2 ^ 63 then
      .valueInteger ⟨-(ofDecimal buffer.tail : ℤ), by
        have : (ofDecimal buffer.tail : ℤ) ≤ 2 ^ 63 := by exact_mod_cast h
        omega, by omega⟩
    else .valueFloat (NumberFloat.strtod buffer)
  | .float => .valueFloat (NumberFloat.strtod buffer)

def scanNumber [NumberFloat F] (state : NumberState) (kind : NumberKind) (buffer : Bytes)
    (d : Trace) : Bytes → Token F × Lexer
  | [] =>
    match numberError state with
    | some message => (.parseError message, ⟨[], d.readEof⟩)
    | none => (numberToken kind buffer, ⟨[], d.readEof.unreadEof⟩)
  | c :: rest =>
    match numberStep state c with
    | some state' => scanNumber state' (kind.enter state') (buffer ++ [c]) (d.read c) rest
    | none =>
      match numberError state with
      | some message => (.parseError message, ⟨rest, d.read c⟩)
      | none => (numberToken kind buffer, ⟨c :: rest, (d.read c).unread⟩)

def scanLiteral (token : Token F) (d : Trace) : (expected input : Bytes) → Token F × Lexer
  | [], input => (token, ⟨input, d⟩)
  | _ :: _, [] => (.parseError "invalid literal", ⟨[], d.readEof⟩)
  | e :: expected, c :: rest =>
    if c = e then scanLiteral token (d.read c) expected rest
    else (.parseError "invalid literal", ⟨rest, d.read c⟩)

/-- `skip_bom`: whether there is no byte order mark or a complete one. -/
def skipBom (lx : Lexer) : Bool × Lexer :=
  match lx.ia with
  | [] => (true, ⟨[], lx.trace.readEof.unreadEof⟩)
  | a :: rest =>
    if a = 0xEF then
      match rest with
      | [] => (false, ⟨[], (lx.trace.read a).readEof⟩)
      | b :: rest =>
        if b = 0xBB then
          match rest with
          | [] => (false, ⟨[], ((lx.trace.read a).read b).readEof⟩)
          | c :: rest => (c = 0xBF, ⟨rest, ((lx.trace.read a).read b).read c⟩)
        else (false, ⟨rest, (lx.trace.read a).read b⟩)
    else (true, ⟨a :: rest, (lx.trace.read a).unread⟩)

def isSpace (c : UInt8) : Bool :=
  c = 0x20 || c = 0x09 || c = 0x0A || c = 0x0D

/-- `skip_whitespace`, which leaves the first other character read. -/
def skipWhitespace (d : Trace) : Bytes → Option UInt8 × Lexer
  | [] => (none, ⟨[], d.readEof⟩)
  | c :: rest => if isSpace c then skipWhitespace (d.read c) rest else (some c, ⟨rest, d.read c⟩)

def structuralToken (c : UInt8) : Option (Token F) :=
  if c = 0x5B then some .beginArray
  else if c = 0x5D then some .endArray
  else if c = 0x7B then some .beginObject
  else if c = 0x7D then some .endObject
  else if c = 0x3A then some .nameSeparator
  else if c = 0x2C then some .valueSeparator
  else none

/-- The literal that starts with a character, and the rest of its text. -/
def literalToken (c : UInt8) : Option (Token F × Bytes) :=
  if c = 0x74 then some (.literalTrue, ascii "rue")
  else if c = 0x66 then some (.literalFalse, ascii "alse")
  else if c = 0x6E then some (.literalNull, ascii "ull")
  else none

/-- Where `scan_number` starts, by the first character. -/
def numberStart (c : UInt8) : Option (NumberState × NumberKind) :=
  if c = 0x2D then some (.minus, .integer)
  else if c = 0x30 then some (.zero, .unsigned)
  else if isDigit c then some (.any1, .unsigned)
  else none

/-- The `switch` of `scan` over the current character. -/
def scanFrom [NumberFloat F] (c : UInt8) (lx : Lexer) : Token F × Lexer :=
  match structuralToken c, literalToken c, numberStart c with
  | some token, _, _ => (token, lx)
  | none, some (token, expected), _ => scanLiteral token lx.trace expected lx.ia
  | none, none, some (state, kind) => scanNumber state kind [c] (lx.trace.reset c) lx.ia
  | none, none, none =>
    if c = 0x22 then scanString (.chars []) [] (lx.trace.reset c) lx.ia
    else if c = 0x00 then (.endOfInput, lx)
    else (.parseError "invalid literal", lx)

/-- `scan` behind the byte order mark. -/
def scanToken [NumberFloat F] (lx : Lexer) : Token F × Lexer :=
  match skipWhitespace lx.trace lx.ia with
  | (none, lx') => (.endOfInput, lx')
  | (some c, lx') => scanFrom c lx'

def scan [NumberFloat F] (lx : Lexer) : Token F × Lexer :=
  if lx.trace.position.charsReadTotal = 0 then
    match skipBom lx with
    | (true, lx') => scanToken lx'
    | (false, lx') => (.parseError "invalid BOM; must be 0xEF 0xBB 0xBF if given", lx')
  else scanToken lx

end Scan
end Ledger.Json
