import Proveno.Vm.Args

/-! The `math` and `decimal` builtins. A decimal at a scale is an integer count of
its smallest units. -/

namespace Proveno.Vm

def mathAbs (args : List LuaValue) : Vm (List LuaValue) := do
  let n ← liftError (requireInteger args 0 "math.abs")
  pure [.integer (if n.toInt < 0 then -n else n)]

/-- The loop of `math.min` and `math.max`, which differ in the order. -/
def extremum (fname : String) (better : Int64 → Int64 → Bool) :
    Int64 → List LuaValue → Except VmError Int64
  | result, [] => .ok result
  | result, .integer n :: rest =>
    extremum fname better (if better n result then n else result) rest
  | _, other :: _ => .error (typeErr fname "integer" other)

def mathExtremum (fname : String) (better : Int64 → Int64 → Bool) (args : List LuaValue) :
    Vm (List LuaValue) :=
  if args = [] then raise (runtimeErr (ascii fname ++ ascii ": at least one argument required"))
  else do
    let first ← liftError (requireInteger args 0 fname)
    let result ← liftError (extremum fname better first args.tail)
    pure [.integer result]

def mathMin (args : List LuaValue) : Vm (List LuaValue) :=
  mathExtremum "math.min" (fun n result => n.toInt < result.toInt) args

def mathMax (args : List LuaValue) : Vm (List LuaValue) :=
  mathExtremum "math.max" (fun n result => n.toInt > result.toInt) args

def mathScaleDiv (args : List LuaValue) : Vm (List LuaValue) := do
  let a ← liftError (requireInteger args 0 "math.scale_div")
  let b ← liftError (requireInteger args 1 "math.scale_div")
  let scale ← liftError (requireInteger args 2 "math.scale_div")
  if b = 0 then raise (runtimeErr (ascii "math.scale_div: division by zero"))
  else match i64OfInt ((a.toInt * scale.toInt).tdiv b.toInt) with
    | some result => pure [.integer result]
    | none => raise (runtimeErr (ascii "math.scale_div: overflow"))

def decimalMaxScale : Nat := 18

def requireScale (args : List LuaValue) (idx : Nat) (fname : String) : Except VmError Nat := do
  let scale ← requireInteger args idx fname
  if 0 ≤ scale.toInt ∧ scale.toInt ≤ decimalMaxScale then .ok scale.toInt.toNat
  else
    .error (runtimeErr (ascii fname ++ ascii ": scale must be between 0 and " ++
      decimal decimalMaxScale ++ ascii ", got " ++ intText scale))

/-- A string of the program in an error text, cut after 32 bytes. -/
def quoteExcerpt (bytes : Bytes) : Bytes :=
  if bytes.length ≤ 32 then 34 :: (fromUtf8Lossy bytes ++ [34])
  else 34 :: (fromUtf8Lossy (bytes.take 32) ++ ascii "...\"")

/-- The scan for the dot: its position, given the byte before and the dot so far. -/
def scanDecimal (quoted : Bytes) :
    Nat → Option UInt8 → Option Nat → Bytes → Except Bytes (Option Nat)
  | _, _, dot, [] => .ok dot
  | i, before, dot, b :: rest =>
    if isDigit b then scanDecimal quoted (i + 1) (some b) dot rest
    else if b = 45 ∧ i = 0 then scanDecimal quoted (i + 1) (some b) dot rest
    else if b = 46 ∧ dot = none then scanDecimal quoted (i + 1) (some b) (some i) rest
    else if (b = 101 ∨ b = 69) ∧ (before.any isDigit) then
      .error (quoted ++ ascii " uses exponent notation, which is not supported")
    else if b = 46 then .error (quoted ++ ascii " has more than one '.'")
    else if 0x21 ≤ b ∧ b ≤ 0x7e then
      .error (quoted ++ ascii " is not a decimal number: unexpected '" ++ [b] ++
        ascii "' at position " ++ decimal (i + 1))
    else
      .error (quoted ++ ascii " is not a decimal number: unexpected byte 0x" ++
        [hexDigit (b.toNat / 16), hexDigit (b.toNat % 16)] ++ ascii " at position " ++
        decimal (i + 1))

/-- The digits accumulated towards the sign, so that the least integer is reached. -/
def accumulate (negative : Bool) : Int64 → Bytes → Option Int64
  | n, [] => some n
  | n, b :: rest =>
    match i64OfInt (n.toInt * 10) with
    | none => none
    | some n =>
      match i64OfInt (if negative then n.toInt - digitValue b else n.toInt + digitValue b) with
      | none => none
      | some n => accumulate negative n rest

def scaleUp : Nat → Int64 → Option Int64
  | 0, n => some n
  | k + 1, n => (i64OfInt (n.toInt * 10)).bind (scaleUp k)

def parseDecimal (text : Bytes) (scale : Nat) : Except Bytes Int64 := do
  let quoted := quoteExcerpt text
  if text = [] then .error (ascii "empty string is not a decimal number")
  else
    let dot ← scanDecimal quoted 0 none none text
    let negative : Bool := text.head? = some 45
    let body := if negative then text.tail else text
    let (intDigits, fracDigits) : Bytes × Bytes := match dot with
      | some i =>
        let i := if negative then i - 1 else i
        (body.take i, body.drop (i + 1))
      | none => (body, [])
    if intDigits = [] ∧ dot = none then .error (quoted ++ ascii " has no digits")
    else if intDigits = [] then .error (quoted ++ ascii " needs a digit before '.'")
    else if dot ≠ none ∧ fracDigits = [] then
      .error (quoted ++ ascii " needs a digit after '.'")
    else if fracDigits.length > scale then
      .error (quoted ++ ascii " has " ++ decimal fracDigits.length ++
        ascii " fractional digits, more than scale " ++ decimal scale ++
        ascii ("; digits are never dropped silently. Parse at scale ") ++
        decimal fracDigits.length ++
        ascii " and narrow with decimal.rescale, which fails if a dropped digit is non-zero")
    else
      match (accumulate negative 0 (intDigits ++ fracDigits)).bind
          (scaleUp (scale - fracDigits.length)) with
      | some n => .ok n
      | none =>
        .error (quoted ++ ascii " at scale " ++ decimal scale ++
          ascii " does not fit in a 64-bit integer")

def formatDecimal (value : Int64) (scale : Nat) : Bytes :=
  let digits := decimal value.toInt.natAbs
  let sign : Bytes := if value.toInt < 0 then [45] else []
  if scale = 0 then sign ++ digits
  else if digits.length > scale then
    sign ++ digits.take (digits.length - scale) ++ 46 :: digits.drop (digits.length - scale)
  else sign ++ ascii "0." ++ List.replicate (scale - digits.length) 48 ++ digits

def decimalParse (args : List LuaValue) : Vm (List LuaValue) := do
  let text ← liftError (requireString args 0 "decimal.parse")
  let scale ← liftError (requireScale args 1 "decimal.parse")
  charge text.length
  match parseDecimal text scale with
  | .ok n => pure [.integer n]
  | .error reason => raise (runtimeErr (ascii "decimal.parse: " ++ reason))

def decimalFormat (args : List LuaValue) : Vm (List LuaValue) := do
  let value ← liftError (requireInteger args 0 "decimal.format")
  let scale ← liftError (requireScale args 1 "decimal.format")
  let out := formatDecimal value scale
  charge out.length
  trackAlloc (AllocSize.string out.length)
  pure [.string out]

def decimalRescale (args : List LuaValue) : Vm (List LuaValue) := do
  let value ← liftError (requireInteger args 0 "decimal.rescale")
  let fromScale ← liftError (requireScale args 1 "decimal.rescale")
  let toScale ← liftError (requireScale args 2 "decimal.rescale")
  if toScale ≥ fromScale then
    match i64OfInt (value.toInt * 10 ^ (toScale - fromScale)) with
    | some result => pure [.integer result]
    | none =>
      raise (runtimeErr (ascii "decimal.rescale: " ++ intText value ++ ascii " from scale " ++
        decimal fromScale ++ ascii " to scale " ++ decimal toScale ++
        ascii " does not fit in a 64-bit integer"))
  else
    let divisor : Int := 10 ^ (fromScale - toScale)
    if value.toInt.tmod divisor ≠ 0 then
      raise (runtimeErr (ascii "decimal.rescale: " ++ formatDecimal value fromScale ++ ascii " (" ++
        intText value ++ ascii " at scale " ++ decimal fromScale ++
        ascii ") has a non-zero digit beyond scale " ++ decimal toScale ++
        ascii ("; digits are never dropped silently. To divide with truncation, " ++
          "use math.scale_div")))
    else pure [.integer (Int64.ofInt (value.toInt.tdiv divisor))]

example : parseDecimal (ascii "-0.50") 3 = .ok (-500) := by decide
example : formatDecimal (-500) 3 = ascii "-0.500" := by decide

end Proveno.Vm
