import Mathlib.Tactic

/-! Byte strings and the standard-library text conversions the runtime uses:
decimal and hexadecimal rendering, and `str::parse::<i64>` with its optional
sign, its tolerance of leading zeros and its range check. -/

namespace Proveno

abbrev Bytes := List UInt8

/-- The bytes of an ASCII literal of the source. -/
def ascii (s : String) : Bytes := s.toList.map fun c => UInt8.ofNat c.toNat

def isDigit (b : UInt8) : Bool := 48 ≤ b && b ≤ 57

def digitByte (d : Nat) : UInt8 := UInt8.ofNat (48 + d)

def digitValue (b : UInt8) : Nat := b.toNat - 48

def decimalAux : Nat → Nat → Bytes
  | 0, n => [digitByte (n % 10)]
  | fuel + 1, n =>
    if n < 10 then [digitByte n] else decimalAux fuel (n / 10) ++ [digitByte (n % 10)]

/-- `u64::to_string`. -/
def decimal (n : Nat) : Bytes := decimalAux n n

/-- `i64::to_string`. -/
def intText (n : Int64) : Bytes :=
  if n.toInt < 0 then 45 :: decimal n.toInt.natAbs else decimal n.toInt.natAbs

def hexDigit (d : Nat) : UInt8 := UInt8.ofNat (if d < 10 then 48 + d else 87 + d)

def hexAux : Nat → Nat → Bytes
  | 0, n => [hexDigit (n % 16)]
  | fuel + 1, n => if n < 16 then [hexDigit n] else hexAux fuel (n / 16) ++ [hexDigit (n % 16)]

/-- `{:x}` of a `u64`. -/
def hexText (n : Nat) : Bytes := hexAux n n

def digitsValue (ds : Bytes) : Nat := ds.foldl (fun acc d => acc * 10 + digitValue d) 0

def i64OfInt (n : Int) : Option Int64 :=
  if -2 ^ 63 ≤ n ∧ n < 2 ^ 63 then some (Int64.ofInt n) else none

def parseDigits (ds : Bytes) : Option Nat :=
  if ds ≠ [] ∧ ds.all isDigit then some (digitsValue ds) else none

/-- `str::parse::<i64>`: an optional sign, then at least one digit. -/
def parseI64 (s : Bytes) : Option Int64 :=
  if s.head? = some 45 then (parseDigits s.tail).bind fun n => i64OfInt (-(n : Int))
  else if s.head? = some 43 then (parseDigits s.tail).bind fun n => i64OfInt n
  else (parseDigits s).bind fun n => i64OfInt n

def hexValue (b : UInt8) : Option Nat :=
  if 48 ≤ b ∧ b ≤ 57 then some (b.toNat - 48)
  else if 97 ≤ b ∧ b ≤ 102 then some (b.toNat - 87)
  else if 65 ≤ b ∧ b ≤ 70 then some (b.toNat - 55)
  else none

def hexDigitsValue : Nat → Bytes → Option Nat
  | acc, [] => some acc
  | acc, d :: rest =>
    match hexValue d with
    | some v => hexDigitsValue (acc * 16 + v) rest
    | none => none

/-- `from_str_radix(_, 16)`: a leading plus sign is accepted. -/
def parseHex (digits : Bytes) : Option Nat :=
  if digits.head? = some 43 then
    if digits.tail = [] then none else hexDigitsValue 0 digits.tail
  else if digits = [] then none
  else hexDigitsValue 0 digits

/-- The whitespace of JSON. -/
def isWhitespace (b : UInt8) : Bool := b = 32 || b = 9 || b = 10 || b = 13

theorem digitByte_toNat {d : Nat} (h : d < 10) : (digitByte d).toNat = 48 + d := by
  rw [digitByte, UInt8.toNat_ofNat']
  omega

theorem isDigit_digitByte {d : Nat} (h : d < 10) : isDigit (digitByte d) = true := by
  have hval := digitByte_toNat h
  simp only [isDigit, Bool.and_eq_true, decide_eq_true_eq, UInt8.le_iff_toNat_le, hval]
  exact ⟨by simp, by simp; omega⟩

theorem digitValue_digitByte {d : Nat} (h : d < 10) : digitValue (digitByte d) = d := by
  simp [digitValue, digitByte_toNat h]

theorem digitsValue_append (ds : Bytes) (d : UInt8) :
    digitsValue (ds ++ [d]) = digitsValue ds * 10 + digitValue d := by
  simp [digitsValue]

theorem decimalAux_succ (fuel n : Nat) :
    decimalAux (fuel + 1) n =
      if n < 10 then [digitByte n] else decimalAux fuel (n / 10) ++ [digitByte (n % 10)] := rfl

theorem decimalAux_ne_nil (fuel n : Nat) : decimalAux fuel n ≠ [] := by
  cases fuel with
  | zero => exact List.cons_ne_nil _ _
  | succ fuel =>
    rw [decimalAux_succ]
    split_ifs <;> simp

theorem decimalAux_digits (fuel n : Nat) : ∀ b ∈ decimalAux fuel n, isDigit b = true := by
  induction fuel generalizing n with
  | zero =>
    intro b hb
    rw [List.mem_singleton.mp hb]
    exact isDigit_digitByte (by omega)
  | succ fuel ih =>
    intro b hb
    rw [decimalAux_succ] at hb
    split_ifs at hb with hlt
    · rw [List.mem_singleton.mp hb]
      exact isDigit_digitByte hlt
    · rcases List.mem_append.mp hb with hb | hb
      · exact ih _ b hb
      · rw [List.mem_singleton.mp hb]
        exact isDigit_digitByte (by omega)

theorem digitsValue_decimalAux (fuel n : Nat) (h : n ≤ fuel) :
    digitsValue (decimalAux fuel n) = n := by
  induction fuel generalizing n with
  | zero =>
    have hn : n = 0 := by omega
    subst hn
    decide
  | succ fuel ih =>
    rw [decimalAux_succ]
    split_ifs with hlt
    · simp [digitsValue, digitValue_digitByte hlt]
    · rw [digitsValue_append, ih _ (by omega), digitValue_digitByte (by omega)]
      omega

theorem decimal_ne_nil (n : Nat) : decimal n ≠ [] := decimalAux_ne_nil n n

theorem decimal_digits (n : Nat) : ∀ b ∈ decimal n, isDigit b = true := decimalAux_digits n n

@[simp] theorem digitsValue_decimal (n : Nat) : digitsValue (decimal n) = n :=
  digitsValue_decimalAux n n le_rfl

@[simp] theorem parseDigits_decimal (n : Nat) : parseDigits (decimal n) = some n := by
  have hall : (decimal n).all isDigit = true := List.all_eq_true.mpr (decimal_digits n)
  simp [parseDigits, decimal_ne_nil, hall]

theorem i64OfInt_toInt (n : Int64) : i64OfInt n.toInt = some n := by
  rw [i64OfInt, if_pos ⟨n.le_toInt, n.toInt_lt⟩, Int64.ofInt_toInt]

theorem i64OfInt_eq_some {m : Int} {n : Int64} (h : i64OfInt m = some n) : n.toInt = m := by
  unfold i64OfInt at h
  split_ifs at h with hr
  obtain rfl := Option.some.inj h
  rw [Int64.toInt_ofInt, Int.bmod_def, Int64.size]
  split_ifs <;> omega

theorem parseI64_of_digits {ds : Bytes} (hd : ∀ b ∈ ds, isDigit b = true) :
    parseI64 ds = (parseDigits ds).bind fun n => i64OfInt n := by
  have hsign : ∀ b : UInt8, isDigit b = false → ds.head? ≠ some b := by
    intro b hb hhead
    have hmem := hd b (List.mem_of_mem_head? hhead)
    simp [hb] at hmem
  rw [parseI64, if_neg (hsign 45 (by decide)), if_neg (hsign 43 (by decide))]

/-- Parsing inverts rendering over the whole of `i64`. -/
@[simp] theorem parseI64_intText (n : Int64) : parseI64 (intText n) = some n := by
  unfold intText
  split_ifs with hneg
  · have habs : -((n.toInt.natAbs : Nat) : Int) = n.toInt := by omega
    rw [parseI64, if_pos (by rfl), List.tail_cons, parseDigits_decimal, Option.bind_some, habs,
      i64OfInt_toInt]
  · have habs : ((n.toInt.natAbs : Nat) : Int) = n.toInt := by omega
    rw [parseI64_of_digits (decimal_digits _), parseDigits_decimal, Option.bind_some, habs,
      i64OfInt_toInt]

example : parseI64 (ascii "-007") = some (-7) := by decide
example : parseI64 (ascii "9223372036854775808") = none := by decide

end Proveno
