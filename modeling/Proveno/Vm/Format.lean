import Proveno.Vm.Args

/-! `string.format`. The loop works on what is left of the format string. -/

namespace Proveno.Vm

def formatSupported : String :=
  "supported: %d, %x and %s, with flags '-' and '0' " ++
    "(not '0' on %s), a width and a precision of at most 2 digits each, and %%"

/-- A width or a precision, absent when there is no digit, and what follows it. -/
def formatReadNumber (fmt : Bytes) : Except VmError (Option Nat × Bytes) :=
  let digits := fmt.takeWhile isDigit
  if digits.length > 2 then
    .error (runtimeErr (ascii "string.format: width or precision '" ++ fromUtf8Lossy digits ++
      ascii "' is too long; " ++ ascii formatSupported))
  else .ok (if digits = [] then none else some (digitsValue digits), fmt.dropWhile isDigit)

def isFormatFlag (b : UInt8) : Bool := b = 45 || b = 48

structure FormatSpec where
  leftAlign : Bool
  zeroPad : Bool
  width : Option Nat
  precision : Option Nat

/-- Flags, width and precision after a percent sign. -/
def formatReadSpec (fmt : Bytes) : Except VmError (FormatSpec × Bytes) := do
  let flags := fmt.takeWhile isFormatFlag
  let (width, rest) ← formatReadNumber (fmt.dropWhile isFormatFlag)
  let (precision, rest) ←
    if rest.head? = some 46 then do
      let (number, rest) ← formatReadNumber rest.tail
      .ok (some (number.getD 0), rest)
    else .ok (none, rest)
  .ok (⟨flags.contains 45, flags.contains 48, width, precision⟩, rest)

/-- The digits of an integer conversion with their sign and leading zeros. -/
def formatInteger (spec : FormatSpec) (sign digits : Bytes) (isZero : Bool) : Bytes :=
  match spec.precision with
  | some p =>
    if p = 0 ∧ isZero then sign
    else sign ++ List.replicate (p - digits.length) 48 ++ digits
  | none =>
    let pad :=
      if spec.zeroPad && !spec.leftAlign then
        spec.width.getD 0 - (sign.length + digits.length)
      else 0
    sign ++ List.replicate pad 48 ++ digits

/-- The text of one conversion, without its padding; `read` is what the specifier
took of the format string, from its percent sign to the conversion. -/
def formatBody (args : List LuaValue) (argIdx : Nat) (spec : FormatSpec) (conv : UInt8)
    (read : Bytes) : Except VmError Bytes :=
  if conv = 100 then do
    let n ← requireInteger args argIdx "string.format"
    let sign := if n.toInt < 0 then [45] else []
    .ok (formatInteger spec sign (decimal n.toInt.natAbs) (n = 0))
  else if conv = 120 then do
    let n ← requireInteger args argIdx "string.format"
    .ok (formatInteger spec [] (hexText (n.toInt % 2 ^ 64).toNat) (n = 0))
  else if conv = 115 then
    if spec.zeroPad then
      .error (runtimeErr (ascii "string.format: flag '0' is not valid with '%s'; " ++
        ascii formatSupported))
    else do
      let v ← requireArg args argIdx "string.format"
      let bytes := v.toLuaString
      .ok (match spec.precision with
        | some p => bytes.take p
        | none => bytes)
  else if (ascii "fFeEgGaA").contains conv then
    .error (runtimeErr (ascii "string.format: '%" ++ [conv] ++
      ascii ("' needs a float, and the VM has no floats. " ++
        "A non-integer number is a decimal string such as \"2550.75\": " ++
        "print it with %s, or scale it to an integer (cents) and print " ++
        "that with decimal.format(value, scale) or %d")))
  else
    .error (runtimeErr (ascii "string.format: unsupported format specifier '" ++
      fromUtf8Lossy read ++ ascii "'; " ++ ascii formatSupported))

def formatPad (spec : FormatSpec) (body : Bytes) : Bytes :=
  let pad := List.replicate (spec.width.getD 0 - body.length) 32
  if spec.leftAlign then body ++ pad else pad ++ body

/-- The text of one specifier, given what follows its percent sign, and the rest. -/
def formatConversion (args : List LuaValue) (argIdx : Nat) (fmt : Bytes) :
    Except VmError (Bytes × Bytes) := do
  let (spec, rest) ← formatReadSpec fmt
  match rest with
  | [] =>
    .error (runtimeErr (ascii "string.format: incomplete format specifier '" ++
      fromUtf8Lossy (37 :: fmt) ++ ascii "'; " ++ ascii formatSupported))
  | conv :: rest => do
    let read := 37 :: fmt.take (fmt.length - rest.length)
    let body ← formatBody args argIdx spec conv read
    .ok (formatPad spec body, rest)

def formatLoop (args : List LuaValue) : Nat → Bytes → Nat → Bytes → Except VmError Bytes
  | 0, _, _, result => .ok result
  | _ + 1, [], _, result => .ok result
  | fuel + 1, b :: rest, argIdx, result =>
    if b ≠ 37 then formatLoop args fuel rest argIdx (result ++ [b])
    else match rest with
      | [] => .error (runtimeErr (ascii "string.format: trailing % in format string"))
      | c :: rest' =>
        if c = 37 then formatLoop args fuel rest' argIdx (result ++ [37])
        else do
          let (text, rest'') ← formatConversion args argIdx (c :: rest')
          checkStringLen (result ++ text).length
          formatLoop args fuel rest'' (argIdx + 1) (result ++ text)

def stringFormat (args : List LuaValue) : Vm (List LuaValue) := do
  let fmt ← liftError (requireString args 0 "string.format")
  let result ← liftError (formatLoop args fmt.length fmt 1 [])
  liftError (checkStringLen result.length)
  charge result.length
  trackAlloc (AllocSize.string result.length)
  pure [.string result]

example : formatLoop [.nil, .integer (-42), .string (ascii "abc")] 20
    (ascii "[%06d|%-5.2s]%%") 1 [] = .ok (ascii "[-00042|ab   ]%") := by decide

end Proveno.Vm
