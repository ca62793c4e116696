import Proveno.Types.Text

/-! `String::from_utf8_lossy` and `str::trim` on byte strings, through the code
points that the bytes denote. -/

namespace Proveno

def replacementCharacter : Nat := 0xFFFD

def isContinuation (b : UInt8) : Bool := 128 ≤ b && b ≤ 191

def continuationBits (b : UInt8) : Nat := b.toNat % 64

/-- The second bytes that may follow a leading byte of a three-byte sequence. -/
def isSecondOfThree (first b : UInt8) : Bool :=
  if first = 0xE0 then 0xA0 ≤ b && b ≤ 0xBF
  else if first = 0xED then 0x80 ≤ b && b ≤ 0x9F
  else isContinuation b

def isSecondOfFour (first b : UInt8) : Bool :=
  if first = 0xF0 then 0x90 ≤ b && b ≤ 0xBF
  else if first = 0xF4 then 0x80 ≤ b && b ≤ 0x8F
  else isContinuation b

/-- The first code point of the bytes and how many bytes it takes; the bytes of
a truncated or invalid sequence are replaced together. -/
def decodeChar (first : UInt8) (rest : Bytes) : Nat × Nat :=
  let at' (i : Nat) : UInt8 := rest.getD i 0
  if first < 128 then (first.toNat, 1)
  else if 0xC2 ≤ first ∧ first ≤ 0xDF then
    if isContinuation (at' 0) then (first.toNat % 32 * 64 + continuationBits (at' 0), 2)
    else (replacementCharacter, 1)
  else if 0xE0 ≤ first ∧ first ≤ 0xEF then
    if !isSecondOfThree first (at' 0) then (replacementCharacter, 1)
    else if !isContinuation (at' 1) then (replacementCharacter, 2)
    else
      (first.toNat % 16 * 4096 + continuationBits (at' 0) * 64 + continuationBits (at' 1), 3)
  else if 0xF0 ≤ first ∧ first ≤ 0xF4 then
    if !isSecondOfFour first (at' 0) then (replacementCharacter, 1)
    else if !isContinuation (at' 1) then (replacementCharacter, 2)
    else if !isContinuation (at' 2) then (replacementCharacter, 3)
    else
      (first.toNat % 8 * 262144 + continuationBits (at' 0) * 4096 +
        continuationBits (at' 1) * 64 + continuationBits (at' 2), 4)
  else (replacementCharacter, 1)

def lossyChars : Nat → Bytes → List Nat
  | 0, _ => []
  | _ + 1, [] => []
  | fuel + 1, first :: rest =>
    (decodeChar first rest).1 :: lossyChars fuel ((first :: rest).drop (decodeChar first rest).2)

def encodeChar (c : Nat) : Bytes :=
  if c < 0x80 then [UInt8.ofNat c]
  else if c < 0x800 then [UInt8.ofNat (0xC0 + c / 64), UInt8.ofNat (0x80 + c % 64)]
  else if c < 0x10000 then
    [UInt8.ofNat (0xE0 + c / 4096), UInt8.ofNat (0x80 + c / 64 % 64), UInt8.ofNat (0x80 + c % 64)]
  else
    [UInt8.ofNat (0xF0 + c / 262144), UInt8.ofNat (0x80 + c / 4096 % 64),
      UInt8.ofNat (0x80 + c / 64 % 64), UInt8.ofNat (0x80 + c % 64)]

def fromUtf8Lossy (s : Bytes) : Bytes := (lossyChars s.length s).flatMap encodeChar

/-- The characters with the Unicode property `White_Space`. -/
def isWhiteSpace (c : Nat) : Bool :=
  (9 ≤ c && c ≤ 13) || c == 32 || c == 0x85 || c == 0xA0 || c == 0x1680 ||
    (0x2000 ≤ c && c ≤ 0x200A) || c == 0x2028 || c == 0x2029 || c == 0x202F || c == 0x205F ||
    c == 0x3000

def trimChars (cs : List Nat) : List Nat :=
  (((cs.dropWhile isWhiteSpace).reverse).dropWhile isWhiteSpace).reverse

example : fromUtf8Lossy [0x61, 0xC3, 0xA9, 0xE2, 0x82, 0xFF] =
    [0x61, 0xC3, 0xA9, 0xEF, 0xBF, 0xBD, 0xEF, 0xBF, 0xBD] := by decide

end Proveno
