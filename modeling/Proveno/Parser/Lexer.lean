import Proveno.Lib.Loop
import Proveno.Parser.Ast
import Proveno.Types.Utf8

/-! The lexer: it goes through the bytes of the source with a position and a line counter that
are advanced apart. The counter wraps around, as without overflow checks. -/

namespace Proveno

inductive Token
  | integer (n : Int64)
  | stringLit (bytes : Bytes)
  | ident (name : Bytes)
  | kwAnd | kwBreak | kwDo | kwElse | kwElseif | kwEnd | kwFalse | kwFor | kwFunction | kwIf
  | kwIn | kwLocal | kwNil | kwNot | kwOr | kwReturn | kwThen | kwTrue | kwWhile
  | plus | minus | star | slashSlash | percent | dotDot | dotDotDot | hash
  | eq | tildeEq | lt | ltEq | gt | gtEq | assign
  | lParen | rParen | lBrace | rBrace | lBracket | rBracket
  | semicolon | colon | comma | dot
  | eof
  deriving DecidableEq

structure SpannedToken where
  token : Token
  span : Span
  deriving DecidableEq

inductive ParseError
  | singleSlash (span : Span)
  | floatLiteral (span : Span)
  | integerOverflow (span : Span)
  | badEscape (span : Span)
  | stringTooLong (span : Span)
  | unexpectedChar (span : Span) (ch : Char)
  | unterminatedString (span : Span)
  | unterminatedComment (span : Span)
  | unexpectedToken (span : Span) (expected : String) (got : Bytes)
  | expectedExpr (span : Span)
  | toolAsValue (span : Span)
  | disallowedIdent (span : Span) (name : Bytes)
  | variadicNotAllowed (span : Span)
  | multiAssignNotSupported (span : Span)
  deriving DecidableEq

def maxStringLen : Nat := 65536

structure Lexer where
  src : Bytes
  pos : Nat
  line : UInt32

abbrev Lex (α : Type) := Exec (Failure ParseError) Lexer α

namespace Lexer

def new (src : Bytes) : Lexer := ⟨src, 0, 1⟩

def byte (c : Char) : UInt8 := UInt8.ofNat c.toNat

def newline : UInt8 := 10

def isSpace (b : UInt8) : Bool := b = 32 || b = 9 || b = 13 || b = newline

def isHexDigit (b : UInt8) : Bool := (hexValue b).isSome

def isIdentStart (b : UInt8) : Bool := (97 ≤ b && b ≤ 122) || (65 ≤ b && b ≤ 90) || b = 95

def isIdentByte (b : UInt8) : Bool := isIdentStart b || isDigit b

section State

variable (l : Lexer)

def atEnd : Prop := l.src.length ≤ l.pos

instance : Decidable l.atEnd := inferInstanceAs (Decidable (_ ≤ _))

def cur : UInt8 := l.src.getD l.pos 0

def peek : UInt8 := l.src.getD (l.pos + 1) 0

def moved (n : Nat) : Lexer := { l with pos := l.pos + n }

def advanced : Lexer :=
  { l with pos := l.pos + 1, line := if l.cur = newline then l.line + 1 else l.line }

/-- How many of the next bytes pass the test. -/
def run (p : UInt8 → Bool) : Nat := ((l.src.drop l.pos).takeWhile p).length

def spanFrom (start : Nat) (line : UInt32) : Span := ⟨start, l.pos, line⟩

def countLongBracketOpen : Option Nat :=
  if l.cur ≠ byte '[' then none
  else
    let level := (l.moved 1).run (· == byte '=')
    if l.src[l.pos + 1 + level]? = some (byte '[') then some level else none

end State

def raise {α : Type} (e : ParseError) : Lex α := Exec.throw (.raised e)

def failAt {α : Type} (e : Span → ParseError) (start : Nat) (line : UInt32) : Lex α := do
  raise (e ((← Exec.get).spanFrom start line))

def skip (n : Nat) : Lex Unit := Exec.modify fun l => l.moved n

def advance : Lex UInt8 := do
  let l ← Exec.get
  Exec.modify advanced
  pure l.cur

/-- A loop that moves on by one byte as long as the byte at hand passes the test. -/
def skipWhile (p : UInt8 → Bool) : Lex Nat := do
  let l ← Exec.get
  skip (l.run p)
  pure (l.run p)

/-- The same with `advance` for each byte. -/
def advanceWhile (p : UInt8 → Bool) : Lex Unit :=
  Exec.modify fun l => advanced^[l.run p] l

/-- A loop on the rest of the source. -/
def loop {α β : Type} (turn : α → Lex (α ⊕ β)) (a : α) : Lex β := do
  Exec.loop turn ((← Exec.get).src.length + 1) a

/-- `&self.src[start..self.pos]` as text: it has to be a valid range of valid UTF-8. -/
def textFrom (start : Nat) : Lex Bytes := do
  let l ← Exec.get
  let text := (l.src.take l.pos).drop start
  if start ≤ l.pos ∧ l.pos ≤ l.src.length ∧ fromUtf8Lossy text = text then pure text
  else Exec.throw .panicked

def tok (token : Token) (start : Nat) (line : UInt32) : Lex SpannedToken := do
  pure ⟨token, (← Exec.get).spanFrom start line⟩

def consumeLongBracketOpen (level : Nat) : Lex Unit := do
  skip 1
  skip level
  skip 1

def skipInitialNewline : Lex Unit := do
  let l ← Exec.get
  if ¬l.atEnd ∧ l.cur = newline then Exec.modify advanced
  else if l.pos + 1 < l.src.length ∧ l.cur = 13 ∧ l.peek = newline then do
    Exec.modify advanced
    Exec.modify advanced
  else pure ()

/-- One turn through the body of a long bracket: it ends at the closing bracket. -/
def longBracketTurn (level : Nat) (keep : Bool) (unterminated : Lex Bytes)
    (closed : Bytes → Lex Bytes) (buf : Bytes) : Lex (Bytes ⊕ Bytes) := do
  if (← Exec.get).atEnd then return .inr (← unterminated)
  let c ← advance
  if c = byte ']' then
    let eq ← skipWhile (· == byte '=')
    let l ← Exec.get
    if eq = level ∧ l.src[l.pos]? = some (byte ']') then
      skip 1
      return .inr (← closed buf)
    else return .inl (if keep then buf ++ [byte ']'] ++ List.replicate eq (byte '=') else buf)
  else return .inl (if keep then buf ++ [c] else buf)

def skipLongString (level : Nat) (discard : Bool) : Lex Bytes := do
  let l ← Exec.get
  if l.pos < 2 then Exec.throw .panicked
  else
    let start := l.pos - 2
    consumeLongBracketOpen level
    skipInitialNewline
    let unterminated : Lex Bytes := do
      failAt .unterminatedComment start (← Exec.get).line
    loop (longBracketTurn level (!discard) unterminated pure) []

def readLongStringCollect (level start : Nat) (line : UInt32) : Lex Bytes := do
  consumeLongBracketOpen level
  skipInitialNewline
  loop (longBracketTurn level true (failAt .unterminatedString start line) fun buf =>
    if maxStringLen < buf.length then failAt .stringTooLong start line else pure buf) []

def skipWhitespaceAndCommentsTurn (_ : Unit) : Lex (Unit ⊕ Unit) := do
  advanceWhile isSpace
  let l ← Exec.get
  if l.pos + 1 < l.src.length ∧ l.cur = byte '-' ∧ l.peek = byte '-' then
    skip 2
    match (← Exec.get).countLongBracketOpen with
    | some level =>
      let _ ← skipLongString level true
      return .inl ()
    | none =>
      let _ ← skipWhile (· != newline)
      return .inl ()
  else return .inr ()

def skipWhitespaceAndComments : Lex Unit := loop skipWhitespaceAndCommentsTurn ()

def hexU64 (digits : Bytes) : Option Nat :=
  (parseHex digits).bind fun v => if v < 2 ^ 64 then some v else none

def readHex (start : Nat) (line : UInt32) : Lex SpannedToken := do
  skip 2
  let hexStart := (← Exec.get).pos
  let _ ← skipWhile isHexDigit
  let l ← Exec.get
  if ¬l.atEnd ∧ (l.cur = byte '.' ∨ l.cur = byte 'p' ∨ l.cur = byte 'P') then
    skip 1
    failAt .floatLiteral start line
  else
    let hexStr ← textFrom hexStart
    if hexStr = [] then
      failAt (.unexpectedToken · "hex digits after 0x" (ascii "nothing")) start line
    else
      match hexU64 hexStr with
      | some v => tok (.integer (Int64.ofInt v)) start line
      | none => failAt .integerOverflow start line

def readNumber (start : Nat) (line : UInt32) : Lex SpannedToken := do
  let l ← Exec.get
  if l.cur = byte '0' ∧ (l.peek = byte 'x' ∨ l.peek = byte 'X') then readHex start line
  else
    let _ ← skipWhile isDigit
    let l ← Exec.get
    if ¬l.atEnd ∧ (l.cur = byte '.' ∨ l.cur = byte 'e' ∨ l.cur = byte 'E') then
      skip 1
      failAt .floatLiteral start line
    else
      let text ← textFrom start
      match parseI64 text with
      | some n => tok (.integer n) start line
      | none => failAt .integerOverflow start line

/-- The escapes of one letter. -/
def plainEscape (c : UInt8) : Option UInt8 :=
  if c = 92 ∨ c = 34 ∨ c = 39 then some c
  else if c = byte 'n' then some 10
  else if c = byte 'r' then some 13
  else if c = byte 't' then some 9
  else if c = byte 'a' then some 7
  else if c = byte 'b' then some 8
  else if c = byte 'f' then some 12
  else if c = byte 'v' then some 11
  else if c = newline ∨ c = 13 then some newline
  else none

def hexEscape (escStart : Nat) (escLine : UInt32) : Nat → Nat → Lex UInt8
  | 0, val => pure (UInt8.ofNat val)
  | count + 1, val => do
    let l ← Exec.get
    if l.atEnd ∨ isHexDigit l.cur = false then failAt .badEscape escStart escLine
    else
      skip 1
      hexEscape escStart escLine count (val * 16 + (hexValue l.cur).getD 0)

def decimalEscape (escStart : Nat) (escLine : UInt32) : Nat → Nat → Lex UInt8
  | 0, val =>
    if 255 < val then failAt .badEscape escStart escLine else pure (UInt8.ofNat val)
  | count + 1, val => do
    let l ← Exec.get
    if ¬l.atEnd ∧ isDigit l.cur = true then
      skip 1
      decimalEscape escStart escLine count (val * 10 + digitValue l.cur)
    else if 255 < val then failAt .badEscape escStart escLine
    else pure (UInt8.ofNat val)

def readEscape (start : Nat) (line : UInt32) : Lex UInt8 := do
  let l ← Exec.get
  if l.atEnd then failAt .badEscape start line
  else
    let c ← advance
    match plainEscape c with
    | some b => pure b
    | none =>
      if c = byte 'x' then hexEscape l.pos l.line 2 0
      else if isDigit c then decimalEscape l.pos l.line 2 (digitValue c)
      else failAt .badEscape l.pos l.line

def readShortStringTurn (quote : UInt8) (start : Nat) (line : UInt32) (buf : Bytes) :
    Lex (Bytes ⊕ Bytes) := do
  let l ← Exec.get
  if l.atEnd ∨ l.cur = newline then failAt .unterminatedString start line
  else if l.cur = quote then
    skip 1
    return .inr buf
  else if l.cur = 92 then
    skip 1
    let b ← readEscape start line
    return .inl (buf ++ [b])
  else
    skip 1
    return .inl (buf ++ [l.cur])

def readShortString (start : Nat) (line : UInt32) : Lex SpannedToken := do
  let quote := (← Exec.get).cur
  skip 1
  let buf ← loop (readShortStringTurn quote start line) []
  if maxStringLen < buf.length then failAt .stringTooLong start line
  else tok (.stringLit buf) start line

def keywords : List (String × Token) :=
  [("and", .kwAnd), ("break", .kwBreak), ("do", .kwDo), ("else", .kwElse),
    ("elseif", .kwElseif), ("end", .kwEnd), ("false", .kwFalse), ("for", .kwFor),
    ("function", .kwFunction), ("if", .kwIf), ("in", .kwIn), ("local", .kwLocal),
    ("nil", .kwNil), ("not", .kwNot), ("or", .kwOr), ("return", .kwReturn),
    ("then", .kwThen), ("true", .kwTrue), ("while", .kwWhile)]

def wordToken (text : Bytes) : Token :=
  match keywords.find? fun entry => ascii entry.1 == text with
  | some entry => entry.2
  | none => .ident text

def readIdentOrKeyword (start : Nat) (line : UInt32) : Lex SpannedToken := do
  let _ ← skipWhile isIdentByte
  let text ← textFrom start
  tok (wordToken text) start line

/-- The tokens of one byte that begins no other token. -/
def punctuation (c : UInt8) : Option Token :=
  if c = byte '+' then some .plus
  else if c = byte '-' then some .minus
  else if c = byte '*' then some .star
  else if c = byte '%' then some .percent
  else if c = byte '#' then some .hash
  else if c = byte '(' then some .lParen
  else if c = byte ')' then some .rParen
  else if c = byte '{' then some .lBrace
  else if c = byte '}' then some .rBrace
  else if c = byte ']' then some .rBracket
  else if c = byte ';' then some .semicolon
  else if c = byte ':' then some .colon
  else if c = byte ',' then some .comma
  else none

def fixedToken (n : Nat) (token : Token) (start : Nat) (line : UInt32) : Lex SpannedToken := do
  skip n
  tok token start line

def fixedError (e : Span → ParseError) (start : Nat) (line : UInt32) : Lex SpannedToken := do
  skip 1
  failAt e start line

def readDots (start : Nat) (line : UInt32) : Lex SpannedToken := do
  let l ← Exec.get
  if l.peek = byte '.' then
    if l.src[l.pos + 2]? = some (byte '.') then fixedToken 3 .dotDotDot start line
    else fixedToken 2 .dotDot start line
  else if isDigit l.peek then fixedError .floatLiteral start line
  else fixedToken 1 .dot start line

def readBracket (start : Nat) (line : UInt32) : Lex SpannedToken := do
  match (← Exec.get).countLongBracketOpen with
  | some level =>
    let bytes ← readLongStringCollect level start line
    tok (.stringLit bytes) start line
  | none => fixedToken 1 .lBracket start line

def nextToken : Lex SpannedToken := do
  let l ← Exec.get
  let start := l.pos
  let line := l.line
  let c := l.cur
  match punctuation c with
  | some token => fixedToken 1 token start line
  | none =>
    if c = byte '/' then
      if l.peek = byte '/' then fixedToken 2 .slashSlash start line
      else fixedError .singleSlash start line
    else if c = byte '=' then
      if l.peek = byte '=' then fixedToken 2 .eq start line else fixedToken 1 .assign start line
    else if c = byte '~' then
      if l.peek = byte '=' then fixedToken 2 .tildeEq start line
      else fixedError (.unexpectedChar · '~') start line
    else if c = byte '<' then
      if l.peek = byte '=' then fixedToken 2 .ltEq start line else fixedToken 1 .lt start line
    else if c = byte '>' then
      if l.peek = byte '=' then fixedToken 2 .gtEq start line else fixedToken 1 .gt start line
    else if c = byte '.' then readDots start line
    else if c = byte '[' then readBracket start line
    else if c = 34 ∨ c = 39 then readShortString start line
    else if isDigit c then readNumber start line
    else if isIdentStart c then readIdentOrKeyword start line
    else fixedError (.unexpectedChar · (Char.ofNat c.toNat)) start line

def tokenizeTurn (tokens : List SpannedToken) :
    Lex (List SpannedToken ⊕ List SpannedToken) := do
  skipWhitespaceAndComments
  let l ← Exec.get
  if l.atEnd then return .inr (tokens ++ [⟨.eof, l.spanFrom l.pos l.line⟩])
  else
    let token ← nextToken
    return .inl (tokens ++ [token])

def tokenize (src : Bytes) : Except (Failure ParseError) (List SpannedToken) :=
  ((loop tokenizeTurn []).run (new src)).1

end Lexer

example : ((Lexer.tokenize (ascii "x --[[y\n]] .. 0xFF")).toOption.getD []).map
      (fun t => (t.token, t.span.start, t.span.line)) =
    [(.ident [120], 0, 1), (.dotDot, 11, 2), (.integer 255, 14, 2), (.eof, 18, 2)] := by
  decide

end Proveno
