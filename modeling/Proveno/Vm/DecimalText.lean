import Proveno.Types.Digits
import Proveno.Vm.Decimal
import Proveno.Vm.Strings

/-! The texts of `decimal.parse` and `decimal.format`: the grammar of a decimal
literal, the number it denotes, and the one canonical text at a scale. -/

namespace Proveno.Vm

/-- `-?digits(.digits)?` with a digit on each side of a present dot. -/
@[ext] structure DecimalLiteral where
  negative : Bool
  whole : Bytes
  fraction : Option Bytes
  whole_ne_nil : whole ≠ []
  whole_digits : Digits whole
  fraction_ne_nil : fraction ≠ some []
  fraction_digits : Digits (fraction.getD [])

def signText (negative : Bool) : Bytes := if negative then [45] else []

namespace DecimalLiteral

def text (l : DecimalLiteral) : Bytes := signText l.negative ++ l.whole ++ dottedText l.fraction

/-- The number of fractional digits. -/
def places (l : DecimalLiteral) : Nat := (l.fraction.getD []).length

def value (l : DecimalLiteral) : ℚ :=
  (if l.negative then -1 else 1) *
    (digitsValue l.whole + digitsValue (l.fraction.getD []) / 10 ^ l.places)

/-- Exactly `scale` fractional digits, no surplus leading zero, no negative zero. -/
structure Canonical (scale : Nat) (l : DecimalLiteral) : Prop where
  places_eq : l.places = scale
  no_leading_zero : l.whole.length = 1 ∨ l.whole.head? ≠ some 48
  no_negative_zero : l.negative = true → l.value ≠ 0

end DecimalLiteral

/-- `usize` subtraction that must not go below zero. -/
def checkedSub (a b : Nat) : Option Nat := if b ≤ a then some (a - b) else none

/-- The text after its sign. -/
def unsignedText (negative : Bool) (text : Bytes) : Option Bytes :=
  if negative then slice text 1 text.length else some text

/-- The dot's index after the sign. -/
def unsignedIndex (negative : Bool) (i : Nat) : Option Nat :=
  if negative then checkedSub i 1 else some i

/-- The digits before and after the dot, by the slices the parser takes. -/
def splitAtDot (negative : Bool) (body : Bytes) : Option Nat → Option (Bytes × Bytes)
  | none => (slice body body.length body.length).map fun rest => (body, rest)
  | some i => do
    let i ← unsignedIndex negative i
    let whole ← slice body 0 i
    let fraction ← slice body (i + 1) body.length
    some (whole, fraction)

/-- The accumulation with `b - b'0'` checked on the byte. -/
def accumulateChecked (negative : Bool) : Int64 → Bytes → Option (Option Int64)
  | n, [] => some (some n)
  | n, b :: rest =>
    match checkedSub b.toNat 48 with
    | none => none
    | some d =>
      match i64OfInt (n.toInt * 10) with
      | none => some none
      | some n =>
        match i64OfInt (if negative then n.toInt - d else n.toInt + d) with
        | none => some none
        | some n => accumulateChecked negative n rest

/-- The reports on the digits around the dot, before they are accumulated. -/
def decimalReport (quoted : Bytes) (scale : Nat) (dot : Option Nat) (whole fraction : Bytes) :
    Option Bytes :=
  if whole = [] ∧ dot = none then some (quoted ++ ascii " has no digits")
  else if whole = [] then some (quoted ++ ascii " needs a digit before '.'")
  else if dot ≠ none ∧ fraction = [] then some (quoted ++ ascii " needs a digit after '.'")
  else if fraction.length > scale then
    some (quoted ++ ascii " has " ++ decimal fraction.length ++
      ascii " fractional digits, more than scale " ++ decimal scale ++
      ascii ("; digits are never dropped silently. Parse at scale ") ++
      decimal fraction.length ++
      ascii " and narrow with decimal.rescale, which fails if a dropped digit is non-zero")
  else none

/-- The end of the parser: what the accumulated digits amount to. -/
def decimalResult (quoted : Bytes) (scale : Nat) : Option Int64 → Except Bytes Int64
  | some n => .ok n
  | none =>
    .error (quoted ++ ascii " at scale " ++ decimal scale ++
      ascii " does not fit in a 64-bit integer")

/-- `parse_decimal` with its slices, indices and subtractions checked: `none` where the
code would panic. -/
def parseDecimalChecked (text : Bytes) (scale : Nat) : Option (Except Bytes Int64) :=
  let quoted := quoteExcerpt text
  if text = [] then some (.error (ascii "empty string is not a decimal number"))
  else match scanDecimal quoted 0 none none text with
    | .error reason => some (.error reason)
    | .ok dot => do
      let first ← text[0]?
      let negative : Bool := first = 45
      let body ← unsignedText negative text
      let (whole, fraction) ← splitAtDot negative body dot
      match decimalReport quoted scale dot whole fraction with
      | some reason => some (.error reason)
      | none => do
        let padding ← checkedSub scale fraction.length
        let n ← accumulateChecked negative 0 (whole ++ fraction)
        some (decimalResult quoted scale (n.bind (scaleUp padding)))

/-- A magnitude with its sign. -/
def signed (negative : Bool) (v : Nat) : Int := if negative then -(v : Int) else v

theorem i64OfInt_eq_none_iff {m : Int} : i64OfInt m = none ↔ ¬(-2 ^ 63 ≤ m ∧ m < 2 ^ 63) := by
  simp [i64OfInt]

theorem i64OfInt_eq_some_iff {m : Int} {n : Int64} : i64OfInt m = some n ↔ n.toInt = m := by
  constructor
  · exact i64OfInt_eq_some
  · rintro rfl
    exact i64OfInt_toInt n

/-- A magnitude out of range stays out of range as it grows. -/
theorem i64OfInt_signed_mono {negative : Bool} {v w : Nat} (hle : v ≤ w)
    (h : i64OfInt (signed negative v) = none) : i64OfInt (signed negative w) = none := by
  rw [i64OfInt_eq_none_iff] at h ⊢
  cases negative <;> simp [signed] at h ⊢ <;> omega

/-- The accumulation computes the number the digits denote, or finds it out of range. -/
theorem accumulate_eq {negative : Bool} {n : Int64} {v : Nat} (hn : n.toInt = signed negative v)
    (ds : Bytes) :
    accumulate negative n ds =
      i64OfInt (signed negative (v * 10 ^ ds.length + digitsValue ds)) := by
  induction ds generalizing n v with
  | nil =>
    rw [accumulate, eq_comm, i64OfInt_eq_some_iff]
    simpa [digitsValue] using hn
  | cons d ds ih =>
    have hten : n.toInt * 10 = signed negative (v * 10) := by
      rw [hn]
      cases negative <;> simp [signed]
    have hgrow : v * 10 + digitValue d ≤
        (v * 10 + digitValue d) * 10 ^ ds.length + digitsValue ds :=
      le_add_right (Nat.le_mul_of_pos_right _ (by positivity))
    have htotal : v * 10 ^ (d :: ds).length + digitsValue (d :: ds) =
        (v * 10 + digitValue d) * 10 ^ ds.length + digitsValue ds := by
      rw [digitsValue_cons, List.length_cons, pow_succ]
      ring
    rw [accumulate, hten, htotal]
    cases hmul : i64OfInt (signed negative (v * 10)) with
    | none => exact (i64OfInt_signed_mono (by omega) hmul).symm
    | some m =>
      have hm := i64OfInt_eq_some hmul
      have hadd : (if negative then m.toInt - digitValue d else m.toInt + digitValue d) =
          signed negative (v * 10 + digitValue d) := by
        rw [hm]
        cases negative <;> simp [signed] <;> ring
      simp only [hadd]
      cases hsum : i64OfInt (signed negative (v * 10 + digitValue d)) with
      | none => exact (i64OfInt_signed_mono hgrow hsum).symm
      | some m' => exact ih (i64OfInt_eq_some hsum)

theorem scaleUp_eq {negative : Bool} {n : Int64} {v : Nat} (hn : n.toInt = signed negative v)
    (k : Nat) : scaleUp k n = i64OfInt (signed negative (v * 10 ^ k)) := by
  induction k generalizing n v with
  | zero =>
    rw [scaleUp, eq_comm, i64OfInt_eq_some_iff]
    simpa using hn
  | succ k ih =>
    have hten : n.toInt * 10 = signed negative (v * 10) := by
      rw [hn]
      cases negative <;> simp [signed]
    have htotal : v * 10 ^ (k + 1) = v * 10 * 10 ^ k := by ring
    rw [scaleUp, hten, htotal]
    cases hmul : i64OfInt (signed negative (v * 10)) with
    | none =>
      have hgrow : v * 10 ≤ v * 10 * 10 ^ k := Nat.le_mul_of_pos_right _ (by positivity)
      exact (i64OfInt_signed_mono hgrow hmul).symm
    | some m => exact ih (i64OfInt_eq_some hmul)

/-- The digits and the padding together: the count of smallest units, or none. -/
theorem accumulated_eq (negative : Bool) (ds : Bytes) (k : Nat) :
    (accumulate negative 0 ds).bind (scaleUp k) =
      i64OfInt (signed negative (digitsValue ds * 10 ^ k)) := by
  have hzero : (0 : Int64).toInt = signed negative 0 := by cases negative <;> rfl
  have hacc := accumulate_eq hzero ds
  simp only [zero_mul, zero_add] at hacc
  rw [hacc]
  cases hv : i64OfInt (signed negative (digitsValue ds)) with
  | none =>
    have hgrow : digitsValue ds ≤ digitsValue ds * 10 ^ k :=
      Nat.le_mul_of_pos_right _ (by positivity)
    exact (i64OfInt_signed_mono hgrow hv).symm
  | some m => exact scaleUp_eq (i64OfInt_eq_some hv) k

theorem accumulateChecked_eq {negative : Bool} {n : Int64} {ds : Bytes} (hd : Digits ds) :
    accumulateChecked negative n ds = some (accumulate negative n ds) := by
  induction ds generalizing n with
  | nil => rfl
  | cons d ds ih =>
    have hdigit : 48 ≤ d.toNat := by
      have h := hd d (by simp)
      simp only [isDigit, Bool.and_eq_true, decide_eq_true_eq, UInt8.le_iff_toNat_le] at h
      simpa using h.1
    have hrest : Digits ds := fun b hb => hd b (by simp [hb])
    rw [accumulateChecked, accumulate, checkedSub, if_pos hdigit]
    simp only [show d.toNat - 48 = digitValue d from rfl]
    cases i64OfInt (n.toInt * 10) with
    | none => rfl
    | some m =>
      simp only
      cases i64OfInt (if negative then m.toInt - digitValue d else m.toInt + digitValue d) with
      | none => rfl
      | some m' => exact ih hrest

/-- A text cut at its first dot, when it has one: what a scan for one dot accepts. -/
structure Scanned (rest whole : Bytes) (fraction : Option Bytes) : Prop where
  text_eq : rest = whole ++ dottedText fraction
  whole_digits : Digits whole
  fraction_digits : Digits (fraction.getD [])

theorem scanDecimal_after_dot {q : Bytes} {i p : Nat} {before : Option UInt8} {rest : Bytes}
    {dot : Option Nat} (hi : 0 < i) :
    scanDecimal q i before (some p) rest = .ok dot ↔ Digits rest ∧ dot = some p := by
  induction rest generalizing i before with
  | nil => simp [scanDecimal, Digits.nil, eq_comm]
  | cons b rest ih =>
    rw [scanDecimal, digits_cons]
    by_cases hb : isDigit b = true
    · simp only [hb, ↓reduceIte, true_and]
      exact ih (by omega)
    · have hne : i ≠ 0 := by omega
      simp only [hb, hne, Bool.false_eq_true, ↓reduceIte, and_false, reduceCtorEq, false_and,
        iff_false]
      split_ifs <;> simp

theorem scanDecimal_before_dot {q : Bytes} {i : Nat} {before : Option UInt8} {rest : Bytes}
    {dot : Option Nat} (hi : 0 < i ∨ rest.head? ≠ some 45) :
    scanDecimal q i before none rest = .ok dot ↔ ∃ whole fraction, Scanned rest whole fraction ∧
      dot = fraction.map fun _ => i + whole.length := by
  induction rest generalizing i before with
  | nil =>
    constructor
    · intro h
      obtain rfl : dot = none := by simpa [scanDecimal, eq_comm] using h
      exact ⟨[], none, ⟨rfl, Digits.nil, Digits.nil⟩, rfl⟩
    · rintro ⟨whole, fraction, ⟨htext, -, -⟩, rfl⟩
      cases fraction with
      | none => rfl
      | some ds => simp [dottedText] at htext
  | cons b rest ih =>
    have hsign : ¬(b = 45 ∧ i = 0) := by
      rintro ⟨rfl, rfl⟩
      simp at hi
    rw [scanDecimal, if_neg hsign]
    by_cases hb : isDigit b = true
    · rw [if_pos hb, ih (.inl (by omega))]
      constructor
      · rintro ⟨whole, fraction, ⟨rfl, hwhole, hfrac⟩, rfl⟩
        refine ⟨b :: whole, fraction, ⟨rfl, digits_cons.mpr ⟨hb, hwhole⟩, hfrac⟩, ?_⟩
        rw [List.length_cons, Nat.add_right_comm, Nat.add_assoc]
      · rintro ⟨whole, fraction, ⟨htext, hwhole, hfrac⟩, rfl⟩
        cases whole with
        | nil =>
          cases fraction with
          | none => simp [dottedText] at htext
          | some ds =>
            obtain ⟨rfl, rfl⟩ : b = 46 ∧ rest = ds := by simpa [dottedText] using htext
            exact absurd hb (by decide)
        | cons d whole =>
          obtain ⟨rfl, hrest⟩ : b = d ∧ rest = whole ++ dottedText fraction := by
            simpa using htext
          refine ⟨whole, fraction, ⟨hrest, (digits_cons.mp hwhole).2, hfrac⟩, ?_⟩
          rw [List.length_cons, Nat.add_right_comm, Nat.add_assoc]
    · rw [if_neg hb]
      by_cases hdot : b = 46
      · rw [if_pos ⟨hdot, rfl⟩, scanDecimal_after_dot (by omega)]
        subst hdot
        constructor
        · rintro ⟨hrest, rfl⟩
          exact ⟨[], some rest, ⟨rfl, Digits.nil, hrest⟩, rfl⟩
        · rintro ⟨whole, fraction, ⟨htext, hwhole, hfrac⟩, rfl⟩
          cases whole with
          | nil =>
            cases fraction with
            | none => simp [dottedText] at htext
            | some ds =>
              obtain rfl : rest = ds := by simpa [dottedText] using htext
              exact ⟨hfrac, rfl⟩
          | cons d whole =>
            obtain ⟨rfl, -⟩ : 46 = d ∧ rest = whole ++ dottedText fraction := by
              simpa using htext
            exact absurd (digits_cons.mp hwhole).1 hb
      · have hreject : ¬∃ whole fraction, Scanned (b :: rest) whole fraction ∧
            dot = fraction.map fun _ => i + whole.length := by
          rintro ⟨whole, fraction, ⟨htext, hwhole, -⟩, -⟩
          cases whole with
          | nil =>
            cases fraction with
            | none => simp [dottedText] at htext
            | some ds => simp [dottedText, hdot] at htext
          | cons d whole =>
            obtain ⟨rfl, -⟩ : b = d ∧ rest = whole ++ dottedText fraction := by simpa using htext
            exact hb (digits_cons.mp hwhole).1
        simp only [hdot, false_and, ↓reduceIte, hreject, iff_false]
        split_ifs <;> simp

/-- The scan accepts a text with an optional sign, digits, and at most one dot. -/
theorem scanDecimal_ok_iff {q text : Bytes} {dot : Option Nat} :
    scanDecimal q 0 none none text = .ok dot ↔ ∃ negative rest whole fraction,
      text = signText negative ++ rest ∧ negative = decide (text.head? = some 45) ∧
      Scanned rest whole fraction ∧
      dot = fraction.map fun _ => (signText negative).length + whole.length := by
  by_cases hhead : text.head? = some 45
  · obtain ⟨rest, rfl⟩ : ∃ rest, text = 45 :: rest := by
      cases text with
      | nil => simp at hhead
      | cons b rest => exact ⟨rest, by simpa using hhead⟩
    have hstep : scanDecimal q 0 none none (45 :: rest) = scanDecimal q 1 (some 45) none rest := by
      rw [scanDecimal, if_neg (by decide), if_pos ⟨rfl, rfl⟩]
    rw [hstep, scanDecimal_before_dot (.inl one_pos)]
    constructor
    · rintro ⟨whole, fraction, hscan, rfl⟩
      exact ⟨true, rest, whole, fraction, rfl, rfl, hscan, rfl⟩
    · rintro ⟨negative, rest', whole, fraction, htext, rfl, hscan, rfl⟩
      obtain rfl : rest = rest' := by simpa [signText] using htext
      exact ⟨whole, fraction, hscan, rfl⟩
  · rw [scanDecimal_before_dot (.inr hhead)]
    constructor
    · rintro ⟨whole, fraction, hscan, rfl⟩
      exact ⟨false, text, whole, fraction, rfl, by simp [hhead], hscan, by simp [signText]⟩
    · rintro ⟨negative, rest, whole, fraction, htext, rfl, hscan, rfl⟩
      obtain rfl : text = rest := by simpa [signText, hhead] using htext
      exact ⟨whole, fraction, hscan, by simp [signText, hhead]⟩

theorem slice_append (a b : Bytes) : slice (a ++ b) 0 a.length = some a := by
  simp [slice]

theorem slice_drop {s : Bytes} {i : Nat} (hi : i ≤ s.length) :
    slice s i s.length = some (s.drop i) := by
  rw [slice, if_pos ⟨hi, le_rfl⟩, List.take_of_length_le (by simp)]

/-- What the scan found, read back from the text by the slices of the parser. -/
theorem splitAtDot_eq (negative : Bool) (whole : Bytes) (fraction : Option Bytes) :
    splitAtDot negative (whole ++ dottedText fraction)
        (fraction.map fun _ => (signText negative).length + whole.length) =
      some (whole, fraction.getD []) := by
  cases fraction with
  | none => simp [splitAtDot, dottedText, slice]
  | some ds =>
    have hdrop : slice (whole ++ 46 :: ds) (whole.length + 1) (whole ++ 46 :: ds).length =
        some ds := by
      rw [slice_drop (by simp)]
      simp
    have hindex : unsignedIndex negative ((signText negative).length + whole.length) =
        some whole.length := by
      cases negative <;> simp [unsignedIndex, signText, checkedSub]
    simp only [splitAtDot, dottedText, Option.map_some, Option.getD_some, Option.bind_eq_bind,
      hindex, Option.bind_some, slice_append, hdrop]

section Scanned

variable {text rest whole : Bytes} {fraction : Option Bytes} {negative : Bool} {scale : Nat}

/-- The parser on a text that the scan accepts. -/
theorem parseDecimal_scanned (htext : text = signText negative ++ rest) (hne : text ≠ [])
    (hsign : negative = decide (text.head? = some 45)) (hscan : Scanned rest whole fraction) :
    parseDecimal text scale =
      match decimalReport (quoteExcerpt text) scale
        (fraction.map fun _ => (signText negative).length + whole.length) whole
        (fraction.getD []) with
      | some reason => .error reason
      | none => decimalResult (quoteExcerpt text) scale
          (i64OfInt (signed negative (digitsValue (whole ++ fraction.getD []) *
            10 ^ (scale - (fraction.getD []).length)))) := by
  have hdot : scanDecimal (quoteExcerpt text) 0 none none text =
      .ok (fraction.map fun _ => (signText negative).length + whole.length) :=
    scanDecimal_ok_iff.mpr ⟨negative, rest, whole, fraction, htext, hsign, hscan, rfl⟩
  have hbody : (if negative then text.tail else text) = whole ++ dottedText fraction := by
    rw [← hscan.text_eq, htext]
    cases negative <;> simp [signText]
  simp only [parseDecimal, hne, ↓reduceIte, hdot, bind, Except.bind, ← hsign, hbody]
  cases fraction with
  | none =>
    simp only [Option.map_none, dottedText, Option.getD_none, List.append_nil, decimalReport,
      ← accumulated_eq, decimalResult]
    split_ifs <;> rfl
  | some ds =>
    have hat : (if negative then (signText negative).length + whole.length - 1
        else (signText negative).length + whole.length) = whole.length := by
      cases negative <;> simp [signText]
    have htake : (whole ++ 46 :: ds).take whole.length = whole := by simp
    have hdrop : (whole ++ 46 :: ds).drop (whole.length + 1) = ds := by simp
    simp only [Option.map_some, dottedText, Option.getD_some, hat, htake, hdrop, decimalReport,
      ← accumulated_eq, decimalResult]
    split_ifs <;> rfl

theorem decimalReport_eq_none_iff {q : Bytes} :
    decimalReport q scale (fraction.map fun _ => (signText negative).length + whole.length) whole
        (fraction.getD []) = none ↔
      whole ≠ [] ∧ fraction ≠ some [] ∧ (fraction.getD []).length ≤ scale := by
  have hdot : ((fraction.map fun _ => (signText negative).length + whole.length) ≠ none ∧
      fraction.getD [] = []) ↔ fraction = some [] := by
    cases fraction <;> simp
  simp only [decimalReport, hdot]
  split_ifs with h₁ h₂ h₃ h₄
  · simp [h₁.1]
  · simp [h₂]
  · simp [h₃]
  · simp [Nat.not_le.mpr h₄]
  · simpa [h₂, h₃] using h₄

/-- No slice, index or subtraction of the parser is out of range. -/
theorem parseDecimalChecked_eq (text : Bytes) (scale : Nat) :
    parseDecimalChecked text scale = some (parseDecimal text scale) := by
  rw [parseDecimalChecked]
  by_cases hne : text = []
  · simp [hne, parseDecimal]
  · rw [if_neg hne]
    cases hdot : scanDecimal (quoteExcerpt text) 0 none none text with
    | error reason => simp [parseDecimal, hne, hdot, bind, Except.bind]
    | ok dot =>
      obtain ⟨negative, rest, whole, fraction, htext, hsign, hscan, rfl⟩ :=
        scanDecimal_ok_iff.mp hdot
      obtain ⟨first, hfirst⟩ : ∃ first, text.head? = some first :=
        Option.isSome_iff_exists.mp (List.isSome_head?.mpr hne)
      have hnegative : decide (first = 45) = negative := by rw [hsign, hfirst]; simp
      have hbody : unsignedText negative text = some (whole ++ dottedText fraction) := by
        rw [← hscan.text_eq, htext]
        cases negative with
        | false => rfl
        | true => exact slice_drop (by simp [signText])
      have hpad : (fraction.getD []).length ≤ scale → checkedSub scale (fraction.getD []).length =
          some (scale - (fraction.getD []).length) := fun h => if_pos h
      have hdigits : Digits (whole ++ fraction.getD []) :=
        digits_append.mpr ⟨hscan.whole_digits, hscan.fraction_digits⟩
      rw [parseDecimal_scanned htext hne hsign hscan]
      simp only [← List.head?_eq_getElem?, hfirst, Option.bind_eq_bind, Option.bind_some,
        hnegative, hbody, splitAtDot_eq]
      cases hreport : decimalReport (quoteExcerpt text) scale
          (fraction.map fun _ => (signText negative).length + whole.length) whole
          (fraction.getD []) with
      | some reason => rfl
      | none =>
        have hfits := (decimalReport_eq_none_iff.mp hreport).2.2
        simp only [hpad hfits, Option.bind_some, accumulateChecked_eq hdigits, accumulated_eq]

end Scanned

namespace DecimalLiteral

/-- The digits of both parts together. -/
def digits (l : DecimalLiteral) : Bytes := l.whole ++ l.fraction.getD []

theorem digitsValue_digits (l : DecimalLiteral) :
    digitsValue l.digits =
      digitsValue l.whole * 10 ^ l.places + digitsValue (l.fraction.getD []) :=
  digitsValue_append_all _ _

/-- The number of a literal counted in units of the scale. -/
theorem value_mul {l : DecimalLiteral} {scale : Nat} (h : l.places ≤ scale) :
    l.value * 10 ^ scale =
      (signed l.negative (digitsValue l.digits * 10 ^ (scale - l.places)) : ℤ) := by
  obtain ⟨k, rfl⟩ := Nat.exists_eq_add_of_le h
  have hten : (10 : ℚ) ^ l.places ≠ 0 := by positivity
  rw [Nat.add_sub_cancel_left, digitsValue_digits, value, pow_add]
  cases l.negative <;> simp only [signed] <;> push_cast <;> simp <;> field_simp <;> ring

theorem head?_text (l : DecimalLiteral) : l.negative = decide (l.text.head? = some 45) := by
  obtain ⟨d, ds, hwhole⟩ := List.exists_cons_of_ne_nil l.whole_ne_nil
  have hd : isDigit d = true := l.whole_digits d (by simp [hwhole])
  have hne : d ≠ 45 := by
    rintro rfl
    exact absurd hd (by decide)
  cases hneg : l.negative <;> simp [text, signText, hneg, hwhole, hne]

theorem text_ne_nil (l : DecimalLiteral) : l.text ≠ [] := by
  simp [text, l.whole_ne_nil]

theorem text_eq (l : DecimalLiteral) :
    l.text = signText l.negative ++ (l.whole ++ dottedText l.fraction) := by
  rw [text, List.append_assoc]

theorem scanned (l : DecimalLiteral) :
    Scanned (l.whole ++ dottedText l.fraction) l.whole l.fraction :=
  ⟨rfl, l.whole_digits, l.fraction_digits⟩

/-- The parser on the text of a literal. -/
theorem parseDecimal_text (l : DecimalLiteral) (scale : Nat) (n : Int64) :
    parseDecimal l.text scale = .ok n ↔
      l.places ≤ scale ∧ (n.toInt : ℚ) = l.value * 10 ^ scale := by
  rw [parseDecimal_scanned l.text_eq l.text_ne_nil l.head?_text l.scanned]
  cases hreport : decimalReport (quoteExcerpt l.text) scale
      (l.fraction.map fun _ => (signText l.negative).length + l.whole.length) l.whole
      (l.fraction.getD []) with
  | some reason =>
    have hlong : ¬l.places ≤ scale := by
      intro hfits
      rw [decimalReport_eq_none_iff.mpr ⟨l.whole_ne_nil, l.fraction_ne_nil, hfits⟩] at hreport
      cases hreport
    simp [hlong]
  | none =>
    have hfits : l.places ≤ scale := (decimalReport_eq_none_iff.mp hreport).2.2
    have hresult : ∀ r, decimalResult (quoteExcerpt l.text) scale r = .ok n ↔ r = some n := by
      rintro (_ | m) <;> simp [decimalResult]
    rw [value_mul hfits, Int.cast_inj]
    simp only [hresult, i64OfInt_eq_some_iff, hfits, true_and]
    rfl

end DecimalLiteral

/-- Only the text of a literal is accepted. -/
theorem parseDecimal_ok_text {text : Bytes} {scale : Nat} {n : Int64}
    (h : parseDecimal text scale = .ok n) : ∃ l : DecimalLiteral, l.text = text := by
  by_cases hne : text = []
  · simp [parseDecimal, hne] at h
  cases hdot : scanDecimal (quoteExcerpt text) 0 none none text with
  | error reason => simp [parseDecimal, hne, hdot, bind, Except.bind] at h
  | ok dot =>
    obtain ⟨negative, rest, whole, fraction, htext, hsign, hscan, rfl⟩ :=
      scanDecimal_ok_iff.mp hdot
    rw [parseDecimal_scanned htext hne hsign hscan] at h
    cases hreport : decimalReport (quoteExcerpt text) scale
        (fraction.map fun _ => (signText negative).length + whole.length) whole
        (fraction.getD []) with
    | some reason => simp [hreport] at h
    | none =>
      obtain ⟨hwhole, hfraction, -⟩ := decimalReport_eq_none_iff.mp hreport
      refine ⟨⟨negative, whole, fraction, hwhole, hscan.whole_digits, hfraction,
        hscan.fraction_digits⟩, ?_⟩
      rw [DecimalLiteral.text_eq, htext]
      exact congrArg (signText negative ++ ·) hscan.text_eq.symm

theorem parseDecimal_ok_iff {text : Bytes} {scale : Nat} {n : Int64} :
    parseDecimal text scale = .ok n ↔ ∃ l : DecimalLiteral, l.text = text ∧
      l.places ≤ scale ∧ (n.toInt : ℚ) = l.value * 10 ^ scale := by
  constructor
  · intro h
    obtain ⟨l, rfl⟩ := parseDecimal_ok_text h
    exact ⟨l, rfl, (l.parseDecimal_text scale n).mp h⟩
  · rintro ⟨l, rfl, h⟩
    exact (l.parseDecimal_text scale n).mpr h

/-- The parser accepts its grammar with the exact value, reports everything else, and
leaves no slice, index or subtraction out of range. -/
theorem parseDecimal_exact (text : Bytes) (scale : Nat) :
    (∀ n, parseDecimalChecked text scale = some (.ok n) ↔ ∃ l : DecimalLiteral,
      l.text = text ∧ l.places ≤ scale ∧ (n.toInt : ℚ) = l.value * 10 ^ scale) ∧
    ((¬∃ (l : DecimalLiteral) (n : Int64),
      l.text = text ∧ l.places ≤ scale ∧ (n.toInt : ℚ) = l.value * 10 ^ scale) →
      ∃ reason, parseDecimalChecked text scale = some (.error reason)) := by
  rw [parseDecimalChecked_eq]
  constructor
  · intro n
    rw [Option.some_inj, parseDecimal_ok_iff]
  · intro hno
    cases h : parseDecimal text scale with
    | error reason => exact ⟨reason, rfl⟩
    | ok n =>
      obtain ⟨l, hl⟩ := parseDecimal_ok_iff.mp h
      exact absurd ⟨l, n, hl⟩ hno

end Proveno.Vm
