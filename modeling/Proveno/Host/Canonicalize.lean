import Proveno.Types.Heap

/-! Canonical JSON of a value in the heap, and the decoder of those bytes.
The encoder counts down the levels still allowed, 33 at the outermost value;
the decoder counts down the bytes it may still look at. -/

namespace Proveno

inductive CanonError
  | functionNotSerializable
  | tableDepthExceeded
  | stringTooLong
  | invalidInput
  deriving DecidableEq

namespace Canonicalize

def maxTableDepth : Nat := 32

def maxStringLen : Nat := 1024 * 1024

/-- `{:04x}` of one byte after `\u`. -/
def unicodeEscape (b : UInt8) : Bytes :=
  [92, 117, 48, 48, hexDigit (b.toNat / 16), hexDigit (b.toNat % 16)]

def escapeByte (b : UInt8) : Bytes :=
  if b = 34 then [92, 34]
  else if b = 92 then [92, 92]
  else if b = 10 then [92, 110]
  else if b = 13 then [92, 114]
  else if b = 9 then [92, 116]
  else if 32 ≤ b ∧ b ≤ 126 then [b]
  else unicodeEscape b

def serializeString (s : Bytes) : Bytes := 34 :: (s.flatMap escapeByte ++ [34])

def keyBytes : LuaKey → Bytes
  | .integer n => serializeString (intText n)
  | .string s => serializeString s
  | .boolean b => ascii (if b then "\"true\"" else "\"false\"")

def hasValue (t : LuaTable LuaValue) (key : LuaKey) : Bool :=
  match t.get key with
  | some v => !HasNil.isNil v
  | none => false

/-- The elements under the keys from `i` on, as many as the count says. -/
def serializeElements (encode : LuaValue → Except CanonError Bytes) (t : LuaTable LuaValue) :
    Nat → Nat → Except CanonError (List Bytes)
  | _, 0 => .ok []
  | i, count + 1 => do
    let encoded ← encode ((t.get (LuaTable.arrayKey i)).getD .nil)
    let others ← serializeElements encode t (i + 1) count
    .ok (encoded :: others)

def serializeEntries (encode : LuaValue → Except CanonError Bytes) (t : LuaTable LuaValue) :
    List LuaKey → Except CanonError (List Bytes)
  | [] => .ok []
  | key :: rest =>
    match t.get key with
    | some v =>
      if HasNil.isNil v then serializeEntries encode t rest
      else do
        let encoded ← encode v
        let others ← serializeEntries encode t rest
        .ok ((keyBytes key ++ 58 :: encoded) :: others)
    | none => serializeEntries encode t rest

def separated (parts : List Bytes) : Bytes := List.intercalate [44] parts

/-- `serialize_table`, given how the values one level down are encoded. -/
def serializeTable (encode : LuaValue → Except CanonError Bytes) (t : LuaTable LuaValue) :
    Except CanonError Bytes :=
  let keys := t.sortedKeys.filter (hasValue t)
  if 0 < t.length ∧ keys.length = t.length then do
    let parts ← serializeElements encode t 1 t.length
    .ok (91 :: (separated parts ++ [93]))
  else do
    let parts ← serializeEntries encode t keys
    .ok (123 :: (separated parts ++ [125]))

def serializeValue (h : Heap) : Nat → LuaValue → Except CanonError Bytes
  | 0, _ => .error .tableDepthExceeded
  | levels + 1, v =>
    match v with
    | .nil => .ok (ascii "null")
    | .boolean b => .ok (ascii (if b then "true" else "false"))
    | .integer n => .ok (intText n)
    | .string s => .ok (serializeString s)
    | .table r => serializeTable (serializeValue h levels) (h.table r)
    | .function _ | .builtin _ => .error .functionNotSerializable

def limitLength (bytes : Bytes) : Except CanonError Bytes :=
  if bytes.length > maxStringLen then .error .stringTooLong else .ok bytes

def canonicalSerialize (h : Heap) (v : LuaValue) : Except CanonError Bytes := do
  let bytes ← serializeValue h (maxTableDepth + 1) v
  limitLength bytes

def canonicalSerializeTable (h : Heap) (t : LuaTable LuaValue) : Except CanonError Bytes := do
  let bytes ← serializeTable (serializeValue h maxTableDepth) t
  limitLength bytes

def canonicalByteLen (h : Heap) (v : LuaValue) : Except CanonError Nat := do
  let bytes ← canonicalSerialize h v
  .ok bytes.length

def trimLeadingWhitespace (s : Bytes) : Bytes := s.dropWhile isWhitespace

def deserString (out : Bytes) : Bytes → Except CanonError (Bytes × Bytes)
  | [] => .error .invalidInput
  | b :: rest =>
    if b = 34 then .ok (out, rest)
    else if b = 92 then
      match rest with
      | [] => .error .invalidInput
      | c :: rest =>
        if c = 34 then deserString (out ++ [34]) rest
        else if c = 92 then deserString (out ++ [92]) rest
        else if c = 47 then deserString (out ++ [47]) rest
        else if c = 110 then deserString (out ++ [10]) rest
        else if c = 114 then deserString (out ++ [13]) rest
        else if c = 116 then deserString (out ++ [9]) rest
        else if c = 117 then
          match rest with
          | d₁ :: d₂ :: d₃ :: d₄ :: rest =>
            match parseHex [d₁, d₂, d₃, d₄] with
            | some cp => deserString (out ++ [UInt8.ofNat cp]) rest
            | none => .error .invalidInput
          | _ => .error .invalidInput
        else .error .invalidInput
    else deserString (out ++ [b]) rest

def deserLiteral (literal : Bytes) (v : OwnedValue) (s : Bytes) :
    Except CanonError (OwnedValue × Bytes) :=
  if literal.isPrefixOf s then .ok (v, s.drop literal.length) else .error .invalidInput

def isIntegerByte (b : UInt8) : Bool := b = 45 || isDigit b

def deserInteger (s : Bytes) : Except CanonError (OwnedValue × Bytes) :=
  match parseI64 (s.takeWhile isIntegerByte) with
  | some n => .ok (.integer n, s.dropWhile isIntegerByte)
  | none => .error .invalidInput

/-- An object key that reads as an integer or a boolean becomes one. -/
def retypeKey (key : Bytes) : LuaKey :=
  match parseI64 key with
  | some n => .integer n
  | none =>
    if key = ascii "true" then .boolean true
    else if key = ascii "false" then .boolean false
    else .string key

mutual

def deserValue : Nat → Bytes → Except CanonError (OwnedValue × Bytes)
  | 0, _ => .error .invalidInput
  | fuel + 1, bytes =>
    match trimLeadingWhitespace bytes with
    | [] => .error .invalidInput
    | b :: rest =>
      if b = 110 then deserLiteral (ascii "null") .nil (b :: rest)
      else if b = 116 then deserLiteral (ascii "true") (.boolean true) (b :: rest)
      else if b = 102 then deserLiteral (ascii "false") (.boolean false) (b :: rest)
      else if b = 34 then do
        let (s, rest) ← deserString [] rest
        .ok (.string s, rest)
      else if b = 91 then
        let s := trimLeadingWhitespace rest
        if s.head? = some 93 then .ok (.table LuaTable.new, s.tail)
        else deserArray fuel LuaTable.new 1 s
      else if b = 123 then
        let s := trimLeadingWhitespace rest
        if s.head? = some 125 then .ok (.table LuaTable.new, s.tail)
        else deserObject fuel LuaTable.new s
      else if isIntegerByte b then deserInteger (b :: rest)
      else .error .invalidInput

/-- The loop of `deser_array`, with the elements so far and the next index. -/
def deserArray : Nat → LuaTable OwnedValue → Nat → Bytes →
    Except CanonError (OwnedValue × Bytes)
  | 0, _, _, _ => .error .invalidInput
  | fuel + 1, t, idx, s => do
    let (v, after) ← deserValue fuel s
    match t.rawset (LuaTable.arrayKey idx) v with
    | (.error _, _) => .error .invalidInput
    | (.ok _, t) =>
      let after := trimLeadingWhitespace after
      if after.head? = some 93 then .ok (.table t, after.tail)
      else if after.head? = some 44 then deserArray fuel t (idx + 1) after.tail
      else .error .invalidInput

/-- The loop of `deser_object`, with the entries so far. -/
def deserObject : Nat → LuaTable OwnedValue → Bytes → Except CanonError (OwnedValue × Bytes)
  | 0, _, _ => .error .invalidInput
  | fuel + 1, t, s => do
    let s := trimLeadingWhitespace s
    if s.head? = some 34 then
      let (key, afterKey) ← deserString [] s.tail
      let afterKey := trimLeadingWhitespace afterKey
      if afterKey.head? = some 58 then
        let (v, after) ← deserValue fuel afterKey.tail
        match t.rawset (retypeKey key) v with
        | (.error _, _) => .error .invalidInput
        | (.ok _, t) =>
          let after := trimLeadingWhitespace after
          if after.head? = some 125 then .ok (.table t, after.tail)
          else if after.head? = some 44 then deserObject fuel t after.tail
          else .error .invalidInput
      else .error .invalidInput
    else .error .invalidInput

end

def canonicalDeserialize (bytes : Bytes) : Except CanonError OwnedValue := do
  let (v, rest) ← deserValue bytes.length bytes
  if trimLeadingWhitespace rest = [] then .ok v else .error .invalidInput

end Canonicalize

end Proveno
