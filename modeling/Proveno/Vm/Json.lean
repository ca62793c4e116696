import Proveno.Host.ToolRegistry
import Proveno.Vm.Args

/-! The `json` builtins. The decoder works on what is left of the input, whose length
gives the position in error texts. -/

namespace Proveno.Vm

namespace Json

/-- How numbers are read: as integers, or as their verbatim text. -/
inductive NumberMode
  | integer
  | verbatim
  deriving DecidableEq

def maxTableDepth : Nat := 32

def jsonErr {α : Type} (msg : String) : Vm α := raise (runtimeErr (ascii msg))

/-- An error text that ends with the position reached. -/
def positionErr {α : Type} (total : Nat) (msg : Bytes) (s : Bytes) : Vm α :=
  raise (runtimeErr (msg ++ ascii " at position " ++ decimal (total - s.length)))

def skipWs (s : Bytes) : Bytes := s.dropWhile isWhitespace

/-- `b as char` in a text. -/
def byteChar (b : UInt8) : Bytes := encodeChar b.toNat

def expect (total : Nat) (b : UInt8) (s : Bytes) : Vm Bytes :=
  if s.head? = some b then pure s.tail
  else positionErr total (ascii "json.decode: expected '" ++ byteChar b ++ ascii "'") s

def expectLit (total : Nat) (literal : Bytes) (v : LuaValue) (s : Bytes) : Vm (LuaValue × Bytes) :=
  if literal.isPrefixOf s then pure (v, s.drop literal.length)
  else positionErr total (ascii "json.decode: expected '" ++ literal ++ ascii "'") s

/-- `char::from_u32`, with the replacement character for a surrogate. -/
def codePoint (code : Nat) : Nat :=
  if 0xD800 ≤ code ∧ code ≤ 0xDFFF then replacementCharacter else code

def shortEscape (b : UInt8) : Option UInt8 :=
  if b = 34 then some 34
  else if b = 92 then some 92
  else if b = 47 then some 47
  else if b = 110 then some 10
  else if b = 114 then some 13
  else if b = 116 then some 9
  else if b = 98 then some 8
  else if b = 102 then some 12
  else none

/-- The bytes of a string after its opening quote, and what follows the closing one. -/
def stringBody (out : Bytes) : Bytes → Except VmError (Bytes × Bytes)
  | [] => .error (runtimeErr (ascii "json.decode: unterminated string"))
  | b :: rest =>
    if b = 34 then .ok (out, rest)
    else if b = 92 then
      match rest with
      | [] => .error (runtimeErr (ascii "json.decode: invalid escape sequence"))
      | c :: rest =>
        match shortEscape c with
        | some decoded => stringBody (out ++ [decoded]) rest
        | none =>
          if c = 117 then
            match rest with
            | d₁ :: d₂ :: d₃ :: d₄ :: rest =>
              match parseHex [d₁, d₂, d₃, d₄] with
              | some code => stringBody (out ++ encodeChar (codePoint code)) rest
              | none => .error (runtimeErr (ascii "json.decode: invalid \\u escape"))
            | _ => .error (runtimeErr (ascii "json.decode: invalid \\u escape"))
          else .error (runtimeErr (ascii "json.decode: invalid escape sequence"))
    else stringBody (out ++ [b]) rest

def parseString (total : Nat) (s : Bytes) : Vm (Bytes × Bytes) := do
  let rest ← expect total 34 s
  let (text, rest) ← liftError (stringBody [] rest)
  trackAlloc (AllocSize.string text.length)
  pure (text, rest)

/-- An optional minus sign and what follows it. -/
def splitSign (s : Bytes) : Bytes × Bytes :=
  if s.head? = some 45 then ([45], s.tail) else ([], s)

def parseNumberAsInteger (s : Bytes) : Vm (LuaValue × Bytes) := do
  let (sign, rest) := splitSign s
  let digits := rest.takeWhile isDigit
  let rest := rest.dropWhile isDigit
  if rest.head? = some 46 ∨ rest.head? = some 101 ∨ rest.head? = some 69 then
    jsonErr "json.decode: fractional numbers not supported; only integers"
  else match parseI64 (sign ++ digits) with
    | some n => pure (.integer n, rest)
    | none => jsonErr "json.decode: number out of i64 range"

/-- At least one digit after what was read so far. -/
def requireDigits (missing : String) (read s : Bytes) : Except VmError (Bytes × Bytes) :=
  let digits := s.takeWhile isDigit
  if digits = [] then
    .error (runtimeErr (ascii "json.decode_strings: invalid number (missing " ++ ascii missing ++
      ascii ")"))
  else .ok (read ++ digits, s.dropWhile isDigit)

def fractionText (read s : Bytes) : Except VmError (Bytes × Bytes) :=
  if s.head? = some 46 then requireDigits "fractional digits" (read ++ [46]) s.tail
  else .ok (read, s)

def exponentText (read s : Bytes) : Except VmError (Bytes × Bytes) :=
  match s with
  | [] => .ok (read, s)
  | e :: rest =>
    if e = 101 ∨ e = 69 then
      match rest with
      | [] => requireDigits "exponent digits" (read ++ [e]) []
      | sign :: after =>
        if sign = 43 ∨ sign = 45 then
          requireDigits "exponent digits" (read ++ [e, sign]) after
        else requireDigits "exponent digits" (read ++ [e]) rest
    else .ok (read, s)

def numberText (s : Bytes) : Except VmError (Bytes × Bytes) := do
  let (sign, rest) := splitSign s
  let (read, rest) ← requireDigits "integer part" sign rest
  let (read, rest) ← fractionText read rest
  exponentText read rest

def parseNumberAsString (s : Bytes) : Vm (LuaValue × Bytes) := do
  let (text, rest) ← liftError (numberText s)
  trackAlloc (AllocSize.string text.length)
  pure (.string text, rest)

def parseNumber (mode : NumberMode) (s : Bytes) : Vm (LuaValue × Bytes) :=
  match mode with
  | .integer => parseNumberAsInteger s
  | .verbatim => parseNumberAsString s

def newTable : Vm TableRef := do
  let t ← allocTable LuaTable.new
  trackAlloc AllocSize.tableBase
  pure t

mutual

def parseValue (mode : NumberMode) (total : Nat) : Nat → Nat → Bytes → Vm (LuaValue × Bytes)
  | 0, _, _ => Exec.throw .outOfFuel
  | fuel + 1, depth, s =>
    if depth > maxTableDepth then jsonErr "json.decode: nesting depth exceeded"
    else
      match skipWs s with
      | [] => jsonErr "json.decode: unexpected end of input"
      | b :: rest =>
        if b = 34 then do
          let (text, rest) ← parseString total (b :: rest)
          pure (.string text, rest)
        else if b = 123 then do
          let t ← newTable
          let s := skipWs rest
          if s.head? = some 125 then pure (.table t, s.tail)
          else parseObject mode total fuel (depth + 1) t s
        else if b = 91 then do
          let t ← newTable
          let s := skipWs rest
          if s.head? = some 93 then pure (.table t, s.tail)
          else parseArray mode total fuel (depth + 1) t 1 s
        else if b = 116 then expectLit total (ascii "true") (.boolean true) (b :: rest)
        else if b = 102 then expectLit total (ascii "false") (.boolean false) (b :: rest)
        else if b = 110 then expectLit total (ascii "null") .nil (b :: rest)
        else if b = 45 ∨ isDigit b then parseNumber mode (b :: rest)
        else
          positionErr total (ascii "json.decode: unexpected character '" ++ byteChar b ++
            ascii "'") (b :: rest)

/-- The loop over the elements, with the index of the next. -/
def parseArray (mode : NumberMode) (total : Nat) :
    Nat → Nat → TableRef → Nat → Bytes → Vm (LuaValue × Bytes)
  | 0, _, _, _, _ => Exec.throw .outOfFuel
  | fuel + 1, depth, t, idx, s => do
    let (v, after) ← parseValue mode total fuel depth s
    rawsetCharged t (LuaTable.arrayKey idx) v
    let after := skipWs after
    if after.head? = some 44 then parseArray mode total fuel depth t (idx + 1) after.tail
    else if after.head? = some 93 then pure (.table t, after.tail)
    else jsonErr "json.decode: expected ',' or ']' in array"

/-- The loop over the entries. -/
def parseObject (mode : NumberMode) (total : Nat) :
    Nat → Nat → TableRef → Bytes → Vm (LuaValue × Bytes)
  | 0, _, _, _ => Exec.throw .outOfFuel
  | fuel + 1, depth, t, s => do
    let (key, afterKey) ← parseString total (skipWs s)
    let rest ← expect total 58 (skipWs afterKey)
    let (v, after) ← parseValue mode total fuel depth rest
    rawsetCharged t (.string key) v
    let after := skipWs after
    if after.head? = some 44 then parseObject mode total fuel depth t after.tail
    else if after.head? = some 125 then pure (.table t, after.tail)
    else jsonErr "json.decode: expected ',' or '\x7d' in object"

end

/-- Fuel for any input: each level and each turn of a loop reads a byte. -/
def fuelFor (input : Bytes) : Nat := 2 * input.length + 2

end Json

def jsonEncode (args : List LuaValue) : Vm (List LuaValue) := do
  let v ← liftError (requireArg args 0 "json.encode")
  let heap := (← Exec.get).heap
  match Canonicalize.canonicalSerialize heap v with
  | .error e => raise (.ofCanonError e)
  | .ok result => do
    liftError (checkStringLen result.length)
    charge result.length
    trackAlloc (AllocSize.string result.length)
    pure [.string result]

/-- `json.decode` and `json.decode_strings`, which differ in how numbers are read. -/
def jsonDecodeWith (mode : Json.NumberMode) (fname : String) (args : List LuaValue) :
    Vm (List LuaValue) := do
  let input ← liftError (requireString args 0 fname)
  charge input.length
  let (v, rest) ← Json.parseValue mode input.length (Json.fuelFor input) 0 input
  let rest := Json.skipWs rest
  if rest ≠ [] then
    Json.positionErr input.length (ascii fname ++ ascii ": trailing characters") rest
  else pure [v]

def jsonDecode (args : List LuaValue) : Vm (List LuaValue) :=
  jsonDecodeWith .integer "json.decode" args

def jsonDecodeStrings (args : List LuaValue) : Vm (List LuaValue) :=
  jsonDecodeWith .verbatim "json.decode_strings" args

end Proveno.Vm
