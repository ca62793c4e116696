import Proveno.Vm.Args

/-! The string builtins other than `string.format`. -/

namespace Proveno.Vm

/-- The offset at which a slice starts, clamped to the string. -/
def luaStrIdx (tgt : Target) (i : Int64) (len : Nat) : Option Nat :=
  if 0 ≤ i.toInt then some (min (tgt.toUsize i - 1) len)
  else (tgt.checkedI64 (-i.toInt)).map fun n => len - tgt.toUsize n

/-- The offset before which a slice ends. -/
def luaStrEnd (tgt : Target) (j : Int64) (len : Nat) : Option Nat :=
  if 0 ≤ j.toInt then some (min (tgt.toUsize j) len)
  else (tgt.checkedI64 (-j.toInt)).map fun n =>
    if tgt.toUsize n > len then 0 else len - tgt.toUsize n + 1

/-- `&s[start..end]`. -/
def slice (s : Bytes) (start stop : Nat) : Option Bytes :=
  if start ≤ stop ∧ stop ≤ s.length then some ((s.drop start).take (stop - start)) else none

def stringLen (args : List LuaValue) : Vm (List LuaValue) := do
  let s ← liftError (requireString args 0 "string.len")
  pure [.integer (Int64.ofNat s.length)]

def subRange (s : Bytes) (i j : Int64) : Vm (List LuaValue) := do
  let tgt ← getTarget
  let start ← orPanic (luaStrIdx tgt i s.length)
  let stop ← orPanic (luaStrEnd tgt j s.length)
  if start ≥ stop then pure [.string []]
  else
    charge (stop - start)
    trackAlloc (AllocSize.string (stop - start))
    let bytes ← orPanic (slice s start stop)
    pure [.string bytes]

def stringSub (args : List LuaValue) : Vm (List LuaValue) := do
  let s ← liftError (requireString args 0 "string.sub")
  let i ← liftError (requireInteger args 1 "string.sub")
  let j ← liftError
    (optionalInteger args 2 "string.sub" "integer for j" (Int64.ofNat s.length))
  subRange s i j

def isPatternMetachar (b : UInt8) : Bool := (ascii "^$()%.[]*+-?").contains b

def checkNoPatternMetachar (pattern : Bytes) : Except VmError Unit :=
  if pattern.any isPatternMetachar then
    .error (runtimeErr (ascii "string patterns not supported; use literal string.find only"))
  else .ok ()

def parseFindInit (tgt : Target) (args : List LuaValue) (fname : String) :
    Except VmError Nat := do
  if args.length < 3 then .ok 0
  else
    let n ← optionalInteger args 2 fname "integer for init" 0
    if n.toInt < 1 then .ok 0 else .ok (tgt.toUsize (n - 1))

def parseFindPlain (args : List LuaValue) (fname : String) : Except VmError Bool :=
  match (args[3]? : Option LuaValue) with
  | none => .ok false
  | some (.boolean b) => .ok b
  | some other => .error (typeErr fname "boolean for plain" other)

/-- The first offset at which the needle occurs: `windows(n).position(..)`. -/
def position (needle : Bytes) : Bytes → Option Nat
  | [] => none
  | b :: rest =>
    if needle.isPrefixOf (b :: rest) then some 0 else (position needle rest).map (· + 1)

def literalSubstringSearch (haystack needle : Bytes) (init : Nat) : Vm (List LuaValue) := do
  charge haystack.length
  if needle = [] then
    let pos := min init haystack.length
    pure [.integer (Int64.ofNat (pos + 1)), .integer (Int64.ofNat pos)]
  else if init > haystack.length then pure [.nil, .nil]
  else
    match position needle (haystack.drop init) with
    | some offset =>
      pure [.integer (Int64.ofNat (init + offset + 1)),
        .integer (Int64.ofNat (init + offset + needle.length))]
    | none => pure [.nil, .nil]

def stringFind (args : List LuaValue) : Vm (List LuaValue) := do
  let s ← liftError (requireString args 0 "string.find")
  let pat ← liftError (requireString args 1 "string.find")
  let init ← liftError (parseFindInit (← getTarget) args "string.find")
  let plain ← liftError (parseFindPlain args "string.find")
  if !plain then liftError (checkNoPatternMetachar pat)
  literalSubstringSearch s pat init

def stringFindLiteral (args : List LuaValue) : Vm (List LuaValue) := do
  let s ← liftError (requireString args 0 "string.find_literal")
  let needle ← liftError (requireString args 1 "string.find_literal")
  let init ← liftError (parseFindInit (← getTarget) args "string.find_literal")
  literalSubstringSearch s needle init

def toAsciiUppercase (b : UInt8) : UInt8 := if 97 ≤ b ∧ b ≤ 122 then b - 32 else b

def toAsciiLowercase (b : UInt8) : UInt8 := if 65 ≤ b ∧ b ≤ 90 then b + 32 else b

/-- `string.upper` and `string.lower`, which differ in the byte map. -/
def mapBytes (fname : String) (f : UInt8 → UInt8) (args : List LuaValue) :
    Vm (List LuaValue) := do
  let s ← liftError (requireString args 0 fname)
  charge s.length
  trackAlloc (AllocSize.string s.length)
  pure [.string (s.map f)]

def stringUpper (args : List LuaValue) : Vm (List LuaValue) :=
  mapBytes "string.upper" toAsciiUppercase args

def stringLower (args : List LuaValue) : Vm (List LuaValue) :=
  mapBytes "string.lower" toAsciiLowercase args

/-- The repetitions once their number has been cast. The product is saturated
for the length check, after which it is exact. -/
def repeated (s : Bytes) (n : Nat) : Vm (List LuaValue) := do
  let tgt ← getTarget
  let resultLen := min (s.length * n) (2 ^ tgt.wordBits - 1)
  liftError (checkStringLen resultLen)
  charge (s.length * n)
  trackAlloc (AllocSize.string resultLen)
  pure [.string (List.replicate n s).flatten]

def stringRep (args : List LuaValue) : Vm (List LuaValue) := do
  let s ← liftError (requireString args 0 "string.rep")
  let n ← liftError (requireInteger args 1 "string.rep")
  if n.toInt ≤ 0 then pure [.string []]
  else repeated s ((← getTarget).toUsize n)

def byteRange (s : Bytes) (i j : Int64) : Vm (List LuaValue) := do
  let tgt ← getTarget
  let start ← orPanic (luaStrIdx tgt i s.length)
  let stop ← orPanic (luaStrEnd tgt j s.length)
  if start ≥ stop then pure []
  else
    charge (stop - start)
    let bytes ← orPanic (slice s start stop)
    pure (bytes.map fun b => .integer (Int64.ofNat b.toNat))

/-- A second index that is not an integer counts as absent. -/
def byteEnd (args : List LuaValue) (i : Int64) : Int64 :=
  match (args[2]? : Option LuaValue) with
  | some (.integer n) => n
  | _ => i

def stringByte (args : List LuaValue) : Vm (List LuaValue) := do
  let s ← liftError (requireString args 0 "string.byte")
  let i ← liftError (if args.length ≥ 2 then requireInteger args 1 "string.byte" else .ok 1)
  byteRange s i (byteEnd args i)

def charBytes : Nat → List LuaValue → Except VmError Bytes
  | _, [] => .ok []
  | i, .integer n :: rest =>
    if n.toInt < 0 ∨ n.toInt > 255 then
      .error (.typeError (ascii "string.char: argument " ++ decimal (i + 1) ++
        ascii " out of range (" ++ intText n ++ ascii ")"))
    else do
      let bytes ← charBytes (i + 1) rest
      .ok (UInt8.ofNat n.toInt.toNat :: bytes)
  | _, other :: _ => .error (typeErr "string.char" "integer" other)

def stringChar (args : List LuaValue) : Vm (List LuaValue) := do
  charge args.length
  trackAlloc (AllocSize.string args.length)
  let bytes ← liftError (charBytes 0 args)
  pure [.string bytes]

end Proveno.Vm
