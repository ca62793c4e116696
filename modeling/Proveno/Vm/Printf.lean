import Mathlib.Data.List.TakeWhile
import Proveno.Types.Digits
import Proveno.Vm.Format

/-! `printf` for 64-bit integers and byte strings, after the C standard, and the formats
that `string.format` shares with it. -/

namespace Proveno.Vm

/-- A number in its base, without leading zeros. -/
def numeral (base n : Nat) : Bytes :=
  if n = 0 then [48] else (Nat.digits base n).reverse.map hexDigit

inductive Conversion
  | d
  | x
  | s
  deriving DecidableEq

def Conversion.byte : Conversion → UInt8
  | d => 100
  | x => 120
  | s => 115

/-- `%[flags][width][.precision]conversion`. A zero that could start the width is a flag. -/
structure Specifier where
  flags : Bytes
  width : Bytes
  precision : Option Bytes
  conversion : Conversion
  flags_valid : ∀ b ∈ flags, isFormatFlag b = true
  width_digits : Digits width
  width_length : width.length ≤ 2
  width_head : width.head? ≠ some 48
  precision_digits : Digits (precision.getD [])
  precision_length : (precision.getD []).length ≤ 2
  no_zero : conversion = .s → 48 ∉ flags

namespace Specifier

/-- What follows the percent sign. -/
def rest (spec : Specifier) : Bytes :=
  spec.flags ++ (spec.width ++ (dottedText spec.precision ++ [spec.conversion.byte]))

def minWidth (spec : Specifier) : Nat := digitsValue spec.width

def precisionValue (spec : Specifier) : Option Nat := spec.precision.map digitsValue

/-- The digits of an integer: at least as many as the precision, 1 when there is none;
zero at precision zero has no digits. -/
def integerDigits (spec : Specifier) (base n : Nat) : Bytes :=
  if n = 0 ∧ spec.precisionValue = some 0 then []
  else (numeral base n).leftpad (spec.precisionValue.getD 1) 48

/-- An integer in its field. The flag `0` fills it after the sign; it is ignored beside
the flag `-` and beside a precision. -/
def integerField (spec : Specifier) (sign : Bytes) (base n : Nat) : Bytes :=
  let digits := spec.integerDigits base n
  if 45 ∈ spec.flags then (sign ++ digits).rightpad spec.minWidth 32
  else if 48 ∈ spec.flags ∧ spec.precision = none then
    sign ++ digits.leftpad (spec.minWidth - sign.length) 48
  else (sign ++ digits).leftpad spec.minWidth 32

/-- A string in its field: at most as many bytes as the precision. -/
def stringField (spec : Specifier) (text : Bytes) : Bytes :=
  let text := (spec.precisionValue.map text.take).getD text
  if 45 ∈ spec.flags then text.rightpad spec.minWidth 32
  else text.leftpad spec.minWidth 32

/-- The field of an argument, which must be an integer for `d` and `x`; `x` takes it as
unsigned. -/
def field (spec : Specifier) (arg : LuaValue) : Option Bytes :=
  match spec.conversion, arg with
  | .d, .integer n =>
    some (spec.integerField (if n.toInt < 0 then [45] else []) 10 n.toInt.natAbs)
  | .x, .integer n => some (spec.integerField [] 16 (n.toInt % 2 ^ 64).toNat)
  | .s, v => some (spec.stringField v.toLuaString)
  | _, _ => none

end Specifier

inductive Piece
  | byte (b : UInt8) (h : b ≠ 37)
  | percent
  | specifier (spec : Specifier)

def Piece.text : Piece → Bytes
  | byte b _ => [b]
  | percent => [37, 37]
  | specifier spec => 37 :: spec.rest

def formatText (pieces : List Piece) : Bytes := pieces.flatMap Piece.text

/-- Each specifier takes the next argument; arguments left over are ignored. -/
def printf : List Piece → List LuaValue → Option Bytes
  | [], _ => some []
  | .byte b _ :: pieces, args => (printf pieces args).map (b :: ·)
  | .percent :: pieces, args => (printf pieces args).map (37 :: ·)
  | .specifier _ :: _, [] => none
  | .specifier spec :: pieces, arg :: args => do
    let text ← spec.field arg
    let rest ← printf pieces args
    some (text ++ rest)

section Numerals

theorem numeral_of_lt {base n : Nat} (hlt : n < base) : numeral base n = [hexDigit n] := by
  by_cases hzero : n = 0
  · subst hzero
    rfl
  · rw [numeral, if_neg hzero, Nat.digits_of_lt base n hzero hlt]
    rfl

theorem numeral_step {base n : Nat} (hbase : 1 < base) (hle : base ≤ n) :
    numeral base n = numeral base (n / base) ++ [hexDigit (n % base)] := by
  have hpos : 0 < n := by omega
  have hquot : n / base ≠ 0 := Nat.div_ne_zero_iff.mpr ⟨by omega, hle⟩
  rw [numeral, if_neg hpos.ne', numeral, if_neg hquot, Nat.digits_def' hbase hpos,
    List.reverse_cons, List.map_append, List.map_singleton]

theorem hexDigit_of_lt_ten {d : Nat} (h : d < 10) : hexDigit d = digitByte d := by
  rw [hexDigit, if_pos h, digitByte]

theorem decimalAux_eq_numeral {fuel n : Nat} (hle : n ≤ fuel) :
    decimalAux fuel n = numeral 10 n := by
  induction fuel generalizing n with
  | zero =>
    obtain rfl : n = 0 := by omega
    rfl
  | succ fuel ih =>
    rw [decimalAux_succ]
    split_ifs with hlt
    · rw [numeral_of_lt hlt, hexDigit_of_lt_ten hlt]
    · rw [numeral_step (by norm_num) (by omega), ih (by omega),
        hexDigit_of_lt_ten (Nat.mod_lt n (by norm_num))]

theorem hexAux_eq_numeral {fuel n : Nat} (hle : n ≤ fuel) : hexAux fuel n = numeral 16 n := by
  induction fuel generalizing n with
  | zero =>
    obtain rfl : n = 0 := by omega
    rfl
  | succ fuel ih =>
    rw [hexAux]
    split_ifs with hlt
    · rw [numeral_of_lt hlt]
    · rw [numeral_step (by norm_num) (by omega), ih (by omega)]

theorem decimal_eq_numeral (n : Nat) : decimal n = numeral 10 n := decimalAux_eq_numeral le_rfl

theorem hexText_eq_numeral (n : Nat) : hexText n = numeral 16 n := hexAux_eq_numeral le_rfl

theorem numeral_length_pos (base n : Nat) : 1 ≤ (numeral base n).length := by
  rw [numeral]
  split_ifs with hzero
  · simp
  · have hne := Nat.digits_ne_nil_iff_ne_zero (b := base).mpr hzero
    simpa [Nat.one_le_iff_ne_zero] using hne

end Numerals

namespace Specifier

/-- The specifier as the scanner records it. -/
def formatSpec (spec : Specifier) : FormatSpec where
  leftAlign := spec.flags.contains 45
  zeroPad := spec.flags.contains 48
  width := if spec.width = [] then none else some (digitsValue spec.width)
  precision := spec.precisionValue

theorem formatSpec_width (spec : Specifier) : spec.formatSpec.width.getD 0 = spec.minWidth := by
  simp only [formatSpec, minWidth]
  split_ifs with hnil
  · simp [hnil, digitsValue]
  · rfl

theorem formatPad_eq (spec : Specifier) (body : Bytes) :
    formatPad spec.formatSpec body =
      if 45 ∈ spec.flags then body.rightpad spec.minWidth 32
      else body.leftpad spec.minWidth 32 := by
  have hleft : spec.formatSpec.leftAlign = decide (45 ∈ spec.flags) := by
    simp [formatSpec]
  simp only [formatPad, formatSpec_width, hleft, List.rightpad, List.leftpad, decide_eq_true_eq]

theorem integerDigits_of_none {spec : Specifier} (h : spec.precision = none) (base n : Nat) :
    spec.integerDigits base n = numeral base n := by
  have hpos := numeral_length_pos base n
  simp [integerDigits, precisionValue, h, List.leftpad, Nat.sub_eq_zero_of_le hpos]

theorem formatInteger_precision {spec : Specifier} {ds : Bytes} (h : spec.precision = some ds)
    (sign : Bytes) (base n : Nat) :
    formatInteger spec.formatSpec sign (numeral base n) (n = 0) =
      sign ++ spec.integerDigits base n := by
  simp only [formatInteger, integerDigits, formatSpec, precisionValue, h, Option.map_some,
    Option.some.injEq, decide_eq_true_eq, Option.getD_some, List.leftpad, List.append_assoc,
    and_comm]
  split_ifs <;> simp

theorem formatInteger_plain {spec : Specifier} (h : spec.precision = none) (sign : Bytes)
    (base n : Nat) :
    formatInteger spec.formatSpec sign (numeral base n) (n = 0) =
      if 45 ∉ spec.flags ∧ 48 ∈ spec.flags then
        sign ++ (numeral base n).leftpad (spec.minWidth - sign.length) 48
      else sign ++ numeral base n := by
  have hprecision : spec.formatSpec.precision = none := by simp [formatSpec, precisionValue, h]
  have hfill : (spec.formatSpec.zeroPad && !spec.formatSpec.leftAlign) =
      decide (45 ∉ spec.flags ∧ 48 ∈ spec.flags) := by
    simp [formatSpec, Bool.and_comm]
  simp only [formatInteger, hprecision, hfill, formatSpec_width, decide_eq_true_eq]
  split_ifs <;> simp [List.leftpad, Nat.sub_sub]

/-- The rendering of an integer is its field. -/
theorem formatInteger_eq (spec : Specifier) (sign : Bytes) (base n : Nat) :
    formatPad spec.formatSpec (formatInteger spec.formatSpec sign (numeral base n) (n = 0)) =
      spec.integerField sign base n := by
  rw [formatPad_eq, integerField]
  cases hprecision : spec.precision with
  | some ds => simp [formatInteger_precision hprecision]
  | none =>
    rw [formatInteger_plain hprecision, integerDigits_of_none hprecision]
    by_cases hleft : 45 ∈ spec.flags
    · simp [hleft]
    · by_cases hzero : 48 ∈ spec.flags
      · have hfull : spec.minWidth - (sign ++ (numeral base n).leftpad
            (spec.minWidth - sign.length) 48).length = 0 := by
          rw [List.length_append, List.length_leftpad]
          omega
        simp only [hleft, hzero, not_false_eq_true, and_self, ↓reduceIte]
        rw [List.leftpad, hfull, List.replicate_zero, List.nil_append]
      · simp [hleft, hzero]

theorem formatString_eq (spec : Specifier) (text : Bytes) :
    formatPad spec.formatSpec
        (match spec.formatSpec.precision with
          | some p => text.take p
          | none => text) = spec.stringField text := by
  rw [formatPad_eq, stringField]
  cases hprecision : spec.precision <;> simp [formatSpec, precisionValue, hprecision]

end Specifier

section Reading

variable {fmt rest : Bytes} {args : List LuaValue} {k : Nat}

/-- The number read for a run of digits. -/
def numberRead (ds : Bytes) : Option Nat := if ds = [] then none else some (digitsValue ds)

theorem formatReadNumber_run {ds : Bytes} (hds : Digits ds) (hlen : ds.length ≤ 2)
    (hstop : ∀ b, rest.head? = some b → isDigit b = false) :
    formatReadNumber (ds ++ rest) = .ok (numberRead ds, rest) := by
  obtain ⟨htake, hdrop⟩ := takeWhile_run hds hstop
  simp only [formatReadNumber, htake, hdrop, if_neg (Nat.not_lt.mpr hlen), numberRead]

theorem formatReadNumber_ok {number : Option Nat}
    (h : formatReadNumber fmt = .ok (number, rest)) :
    ∃ ds, fmt = ds ++ rest ∧ Digits ds ∧ ds.length ≤ 2 ∧ number = numberRead ds := by
  have hunfold : formatReadNumber fmt =
      if (fmt.takeWhile isDigit).length > 2 then
        .error (runtimeErr (ascii "string.format: width or precision '" ++
          fromUtf8Lossy (fmt.takeWhile isDigit) ++ ascii "' is too long; " ++
          ascii formatSupported))
      else .ok (numberRead (fmt.takeWhile isDigit), fmt.dropWhile isDigit) := rfl
  by_cases hlong : (fmt.takeWhile isDigit).length > 2
  · rw [hunfold, if_pos hlong] at h
    cases h
  rw [hunfold, if_neg hlong] at h
  obtain ⟨hnumber, rfl⟩ := Prod.mk.inj (Except.ok.inj h)
  exact ⟨fmt.takeWhile isDigit, List.takeWhile_append_dropWhile.symm,
    fun b hb => List.mem_takeWhile_imp hb, Nat.not_lt.mp hlong, hnumber.symm⟩

theorem numberRead_getD (ds : Bytes) : (numberRead ds).getD 0 = digitsValue ds := by
  unfold numberRead
  split_ifs with hnil
  · simp [hnil, digitsValue]
  · rfl

theorem Conversion.byte_stops (c : Conversion) :
    isFormatFlag c.byte = false ∧ isDigit c.byte = false ∧ c.byte ≠ 46 := by
  cases c <;> decide

theorem dottedText_head (fraction : Option Bytes) (b : UInt8) (s : Bytes) :
    (dottedText fraction ++ b :: s).head? = if fraction = none then some b else some 46 := by
  cases fraction <;> rfl

/-- The scanner reads a specifier back. -/
theorem formatReadSpec_rest (spec : Specifier) (rest : Bytes) :
    formatReadSpec (spec.rest ++ rest) =
      .ok (spec.formatSpec, spec.conversion.byte :: rest) := by
  obtain ⟨hflag, hdigit, hdot⟩ := spec.conversion.byte_stops
  have htail : spec.rest ++ rest = spec.flags ++ (spec.width ++
      (dottedText spec.precision ++ spec.conversion.byte :: rest)) := by
    simp [Specifier.rest]
  have hafter : ∀ p : UInt8 → Bool, p 46 = false → p spec.conversion.byte = false → ∀ b,
      (dottedText spec.precision ++ spec.conversion.byte :: rest).head? = some b →
        p b = false := by
    intro p hp hc b hb
    rw [dottedText_head] at hb
    split_ifs at hb <;> cases hb <;> assumption
  have hstop : ∀ b, (spec.width ++ (dottedText spec.precision ++
      spec.conversion.byte :: rest)).head? = some b → isFormatFlag b = false := by
    intro b hb
    cases hwidth : spec.width with
    | nil =>
      rw [hwidth, List.nil_append] at hb
      exact hafter isFormatFlag (by decide) hflag b hb
    | cons d ds =>
      obtain rfl : d = b := by simpa [hwidth] using hb
      have hd := spec.width_digits d (by simp [hwidth])
      have hzero : d ≠ 48 := by simpa [hwidth] using spec.width_head
      have hsign : d ≠ 45 := by
        rintro rfl
        exact absurd hd (by decide)
      simp [isFormatFlag, hzero, hsign]
  obtain ⟨htake, hdrop⟩ := takeWhile_run spec.flags_valid hstop
  have hwidth := formatReadNumber_run spec.width_digits spec.width_length
    (hafter isDigit (by decide) hdigit)
  rw [htail]
  simp only [formatReadSpec, htake, hdrop, hwidth, bind, Except.bind]
  cases hprecision : spec.precision with
  | none =>
    simp only [dottedText, Option.map_none, Option.getD_none, List.nil_append, List.head?_cons,
      Option.some.injEq, hdot, ↓reduceIte, Specifier.formatSpec, Specifier.precisionValue,
      hprecision]
    rfl
  | some ds =>
    have hds : Digits ds := by simpa [hprecision] using spec.precision_digits
    have hlen : ds.length ≤ 2 := by simpa [hprecision] using spec.precision_length
    have hread : formatReadNumber (ds ++ spec.conversion.byte :: rest) = _ :=
      formatReadNumber_run hds hlen (by simpa using hdigit)
    simp only [dottedText, Option.map_some, Option.getD_some, List.cons_append, List.head?_cons,
      ↓reduceIte, List.tail_cons, hread, numberRead_getD, Specifier.formatSpec,
      Specifier.precisionValue, hprecision]
    rfl

theorem head?_dropWhile_flag {b : UInt8} (h : (fmt.dropWhile isFormatFlag).head? = some b) :
    isFormatFlag b = false := by
  have hhead := List.head?_dropWhile_not isFormatFlag fmt
  rw [h] at hhead
  exact hhead

/-- What the scanner accepts before the conversion. -/
theorem formatReadSpec_ok {fs : FormatSpec} (h : formatReadSpec fmt = .ok (fs, rest)) :
    ∃ (flags width : Bytes) (precision : Option Bytes),
      fmt = flags ++ (width ++ (dottedText precision ++ rest)) ∧
      (∀ b ∈ flags, isFormatFlag b = true) ∧ Digits width ∧ width.length ≤ 2 ∧
      width.head? ≠ some 48 ∧ Digits (precision.getD []) ∧ (precision.getD []).length ≤ 2 ∧
      fs = ⟨flags.contains 45, flags.contains 48, numberRead width,
        precision.map digitsValue⟩ := by
  simp only [formatReadSpec, bind, Except.bind] at h
  cases hnumber : formatReadNumber (fmt.dropWhile isFormatFlag) with
  | error e => simp [hnumber] at h
  | ok r =>
    obtain ⟨number, after⟩ := r
    obtain ⟨width, hsplit, hwidth, hlen, rfl⟩ := formatReadNumber_ok hnumber
    have hhead : width.head? ≠ some 48 := by
      intro hzero
      have hflag := @head?_dropWhile_flag fmt 48 (by rw [hsplit, List.head?_append, hzero]; rfl)
      exact absurd hflag (by decide)
    have hfmt : fmt = fmt.takeWhile isFormatFlag ++ (width ++ after) := by
      rw [← hsplit, List.takeWhile_append_dropWhile]
    have hflags : ∀ b ∈ fmt.takeWhile isFormatFlag, isFormatFlag b = true :=
      fun b hb => List.mem_takeWhile_imp hb
    simp only [hnumber] at h
    split_ifs at h with hdot
    · obtain ⟨tail, rfl⟩ : ∃ tail, after = 46 :: tail := by
        cases after with
        | nil => simp at hdot
        | cons b tail => exact ⟨tail, by simpa using hdot⟩
      cases hprec : formatReadNumber tail with
      | error e => simp [hprec] at h
      | ok r =>
        obtain ⟨precision, last⟩ := r
        obtain ⟨ds, rfl, hds, hdslen, rfl⟩ := formatReadNumber_ok hprec
        simp only [List.tail_cons, hprec] at h
        obtain ⟨rfl, rfl⟩ := Prod.mk.inj (Except.ok.inj h)
        exact ⟨_, width, some ds, hfmt, hflags, hwidth, hlen, hhead, hds, hdslen,
          by simp [numberRead_getD]⟩
    · obtain ⟨rfl, rfl⟩ := Prod.mk.inj (Except.ok.inj h)
      exact ⟨_, width, none, hfmt, hflags, hwidth, hlen, hhead, Digits.nil, by simp, rfl⟩

/-- The text of one conversion is the field of its argument. -/
theorem formatBody_eq (spec : Specifier) (read text : Bytes) :
    (formatBody args k spec.formatSpec spec.conversion.byte read).map
        (formatPad spec.formatSpec) = .ok text ↔
      ∃ arg, args[k]? = some arg ∧ spec.field arg = some text := by
  cases hconv : spec.conversion with
  | d =>
    simp only [formatBody, Conversion.byte, ↓reduceIte, Specifier.field, hconv]
    cases hint : requireInteger args k "string.format" with
    | error e =>
      have hno : ∀ n, args[k]? ≠ some (.integer n) := by
        intro n hn
        rw [requireInteger_ok.mpr hn] at hint
        cases hint
      simp only [bind, Except.bind, Except.map, reduceCtorEq, false_iff]
      rintro ⟨arg, harg, hfield⟩
      cases arg <;> simp at hfield
      exact hno _ harg
    | ok n =>
      have harg := requireInteger_ok.mp hint
      have hzero : (n = 0) ↔ n.toInt.natAbs = 0 := by
        rw [Int.natAbs_eq_zero, ← Int64.toInt_inj]
        rfl
      simp only [bind, Except.bind, Except.map, Except.ok.injEq, harg, Option.some.injEq,
        exists_eq_left', hzero, decimal_eq_numeral, Specifier.formatInteger_eq]
  | x =>
    have hne : ¬(120 : UInt8) = 100 := by decide
    simp only [formatBody, Conversion.byte, hne, ↓reduceIte, Specifier.field, hconv]
    cases hint : requireInteger args k "string.format" with
    | error e =>
      have hno : ∀ n, args[k]? ≠ some (.integer n) := by
        intro n hn
        rw [requireInteger_ok.mpr hn] at hint
        cases hint
      simp only [bind, Except.bind, Except.map, reduceCtorEq, false_iff]
      rintro ⟨arg, harg, hfield⟩
      cases arg <;> simp at hfield
      exact hno _ harg
    | ok n =>
      have harg := requireInteger_ok.mp hint
      have hzero : (n = 0) ↔ (n.toInt % 2 ^ 64).toNat = 0 := by
        have hlo := n.le_toInt
        have hhi := n.toInt_lt
        rw [← Int64.toInt_inj]
        constructor
        · intro h
          rw [h]
          rfl
        · intro h
          have hval : n.toInt = 0 := by omega
          exact hval
      simp only [bind, Except.bind, Except.map, Except.ok.injEq, harg, Option.some.injEq,
        exists_eq_left', hzero, hexText_eq_numeral, Specifier.formatInteger_eq]
  | s =>
    have hne : ¬(115 : UInt8) = 100 ∧ ¬(115 : UInt8) = 120 := by decide
    have hzero : spec.formatSpec.zeroPad = false := by
      simpa [Specifier.formatSpec] using spec.no_zero hconv
    simp only [formatBody, Conversion.byte, hne.1, hne.2, hzero, Bool.false_eq_true,
      ↓reduceIte, Specifier.field, hconv]
    cases harg : requireArg args k "string.format" with
    | error e =>
      have hno : args[k]? = none := by
        by_contra hsome
        obtain ⟨v, hv⟩ := Option.ne_none_iff_exists'.mp hsome
        rw [requireArg_ok.mpr hv] at harg
        cases harg
      simp [bind, Except.bind, Except.map, hno]
    | ok v =>
      simp only [bind, Except.bind, Except.map, Except.ok.injEq, requireArg_ok.mp harg,
        Option.some.injEq, exists_eq_left']
      rw [← Specifier.formatString_eq]
      all_goals exact Iff.rfl

/-- Only the conversions of the grammar have a text. -/
theorem formatBody_ok {fs : FormatSpec} {conv : UInt8} {read body : Bytes}
    (h : formatBody args k fs conv read = .ok body) :
    ∃ c : Conversion, c.byte = conv ∧ (c = .s → fs.zeroPad = false) := by
  unfold formatBody at h
  split_ifs at h with hd hx hs hzero
  · exact ⟨.d, hd.symm, nofun⟩
  · exact ⟨.x, hx.symm, nofun⟩
  · exact ⟨.s, hs.symm, fun _ => by simpa using hzero⟩

theorem formatConversion_ok_iff {text : Bytes} :
    formatConversion args k fmt = .ok (text, rest) ↔
      ∃ (spec : Specifier) (arg : LuaValue), fmt = spec.rest ++ rest ∧
        args[k]? = some arg ∧ spec.field arg = some text := by
  constructor
  · intro h
    simp only [formatConversion, bind, Except.bind] at h
    cases hspec : formatReadSpec fmt with
    | error e => simp [hspec] at h
    | ok r =>
      obtain ⟨fs, after⟩ := r
      obtain ⟨flags, width, precision, hfmt, hflags, hwidth, hlen, hhead, hprec, hplen, rfl⟩ :=
        formatReadSpec_ok hspec
      cases after with
      | nil => simp [hspec] at h
      | cons conv after =>
        simp only [hspec] at h
        cases hbody : formatBody args k ⟨flags.contains 45, flags.contains 48, numberRead width,
            precision.map digitsValue⟩ conv
            (37 :: fmt.take (fmt.length - after.length)) with
        | error e =>
          rw [hbody] at h
          cases h
        | ok body =>
          obtain ⟨c, rfl, hzero⟩ := formatBody_ok hbody
          simp only [hbody, Except.ok.injEq, Prod.mk.injEq] at h
          obtain ⟨rfl, rfl⟩ := h
          let spec : Specifier := ⟨flags, width, precision, c, hflags, hwidth, hlen, hhead, hprec,
            hplen, fun hc => by simpa using hzero hc⟩
          have hmap : (formatBody args k spec.formatSpec spec.conversion.byte
              (37 :: fmt.take (fmt.length - after.length))).map (formatPad spec.formatSpec) =
                .ok (formatPad spec.formatSpec body) := by
            rw [show formatBody args k spec.formatSpec spec.conversion.byte _ = .ok body from hbody]
            rfl
          obtain ⟨arg, harg, hfield⟩ := (formatBody_eq spec _ _).mp hmap
          refine ⟨spec, arg, ?_, harg, hfield⟩
          rw [hfmt]
          simp [spec, Specifier.rest]
  · rintro ⟨spec, arg, rfl, harg, hfield⟩
    have hmap := (formatBody_eq spec
      (37 :: (spec.rest ++ rest).take ((spec.rest ++ rest).length - rest.length)) text).mpr
      ⟨arg, harg, hfield⟩
    simp only [formatConversion, formatReadSpec_rest, bind, Except.bind]
    cases hbody : formatBody args k spec.formatSpec spec.conversion.byte
        (37 :: (spec.rest ++ rest).take ((spec.rest ++ rest).length - rest.length)) with
    | error e =>
      rw [hbody] at hmap
      cases hmap
    | ok body =>
      rw [hbody] at hmap
      rw [← Except.ok.inj hmap]

end Reading

section Loop

variable {args : List LuaValue}

@[simp] theorem Piece.text_byte (b : UInt8) (h : b ≠ 37) : (Piece.byte b h).text = [b] := rfl

@[simp] theorem Piece.text_percent : Piece.percent.text = [37, 37] := rfl

@[simp] theorem Piece.text_specifier (spec : Specifier) :
    (Piece.specifier spec).text = 37 :: spec.rest := rfl

@[simp] theorem formatText_nil : formatText [] = [] := rfl

@[simp] theorem formatText_cons (piece : Piece) (pieces : List Piece) :
    formatText (piece :: pieces) = piece.text ++ formatText pieces := rfl

@[simp] theorem printf_nil : printf [] args = some [] := rfl

@[simp] theorem printf_byte (b : UInt8) (h : b ≠ 37) (pieces : List Piece) :
    printf (.byte b h :: pieces) args = (printf pieces args).map (b :: ·) := rfl

@[simp] theorem printf_percent (pieces : List Piece) :
    printf (.percent :: pieces) args = (printf pieces args).map (37 :: ·) := rfl

theorem printf_specifier_nil (spec : Specifier) (pieces : List Piece) :
    printf (.specifier spec :: pieces) [] = none := rfl

theorem printf_specifier_cons (spec : Specifier) (pieces : List Piece) (arg : LuaValue) :
    printf (.specifier spec :: pieces) (arg :: args) = (do
      let text ← spec.field arg
      let rest ← printf pieces args
      some (text ++ rest)) := rfl

theorem Specifier.rest_head (spec : Specifier) (s : Bytes) :
    ∃ b t, spec.rest ++ s = b :: t ∧ b ≠ 37 := by
  obtain ⟨b, t, htext⟩ : ∃ b t, spec.rest = b :: t :=
    List.exists_cons_of_ne_nil (by simp [Specifier.rest])
  refine ⟨b, t ++ s, by rw [htext]; rfl, ?_⟩
  rintro rfl
  have hmem : (37 : UInt8) ∈ spec.rest := by simp [htext]
  have hflag : (37 : UInt8) ∉ spec.flags := fun h => absurd (spec.flags_valid _ h) (by decide)
  have hwidth : (37 : UInt8) ∉ spec.width := fun h => absurd (spec.width_digits _ h) (by decide)
  have hconv : spec.conversion.byte ≠ 37 := by cases spec.conversion <;> decide
  have hprec : (37 : UInt8) ∉ dottedText spec.precision := by
    cases hprecision : spec.precision with
    | none => simp [dottedText]
    | some ds =>
      intro h
      have hds : Digits ds := by simpa [hprecision] using spec.precision_digits
      rcases List.mem_cons.mp (show (37 : UInt8) ∈ 46 :: ds from h) with h | h
      · exact absurd h (by decide)
      · exact absurd (hds _ h) (by decide)
  simp [Specifier.rest, hflag, hwidth, hprec, hconv.symm] at hmem

theorem formatText_eq_nil {pieces : List Piece} : formatText pieces = [] ↔ pieces = [] := by
  cases pieces with
  | nil => simp
  | cons piece pieces => cases piece <;> simp

theorem formatText_eq_byte {pieces : List Piece} {b : UInt8} {rest : Bytes} (hb : b ≠ 37) :
    formatText pieces = b :: rest ↔
      ∃ pieces', pieces = .byte b hb :: pieces' ∧ formatText pieces' = rest := by
  constructor
  · intro h
    cases pieces with
    | nil => simp at h
    | cons piece pieces =>
      cases piece with
      | byte b' hb' =>
        obtain ⟨rfl, hrest⟩ : b' = b ∧ formatText pieces = rest := by
          simpa using h
        exact ⟨pieces, rfl, hrest⟩
      | percent => exact absurd (List.cons.inj h).1.symm hb
      | specifier spec => exact absurd (List.cons.inj h).1.symm hb
  · rintro ⟨pieces', rfl, rfl⟩
    rfl

theorem formatText_ne_percent (pieces : List Piece) : formatText pieces ≠ [37] := by
  intro h
  cases pieces with
  | nil => simp at h
  | cons piece pieces =>
    cases piece with
    | byte b hb =>
      have hhead : b = 37 := (List.cons.inj h).1
      exact hb hhead
    | percent => simp at h
    | specifier spec => simp [Specifier.rest] at h

theorem formatText_eq_percent {pieces : List Piece} {rest : Bytes} :
    formatText pieces = 37 :: 37 :: rest ↔
      ∃ pieces', pieces = .percent :: pieces' ∧ formatText pieces' = rest := by
  constructor
  · intro h
    cases pieces with
    | nil => simp at h
    | cons piece pieces =>
      cases piece with
      | byte b hb =>
        have hhead : b = 37 := (List.cons.inj h).1
        exact absurd hhead hb
      | percent => exact ⟨pieces, rfl, by simpa using h⟩
      | specifier spec =>
        have htail : spec.rest ++ formatText pieces = 37 :: rest := (List.cons.inj h).2
        obtain ⟨b, t, hsplit, hb⟩ := spec.rest_head (formatText pieces)
        rw [hsplit] at htail
        exact absurd (List.cons.inj htail).1 hb
  · rintro ⟨pieces', rfl, rfl⟩
    rfl

theorem formatText_eq_specifier {pieces : List Piece} {c : UInt8} {rest : Bytes} (hc : c ≠ 37) :
    formatText pieces = 37 :: c :: rest ↔
      ∃ spec pieces', pieces = .specifier spec :: pieces' ∧
        c :: rest = spec.rest ++ formatText pieces' := by
  constructor
  · intro h
    cases pieces with
    | nil => simp at h
    | cons piece pieces =>
      cases piece with
      | byte b hb =>
        have hhead : b = 37 := (List.cons.inj h).1
        exact absurd hhead hb
      | percent =>
        have htail : 37 :: formatText pieces = c :: rest := (List.cons.inj h).2
        exact absurd (List.cons.inj htail).1.symm hc
      | specifier spec => exact ⟨spec, pieces, rfl, (List.cons.inj h).2.symm⟩
  · rintro ⟨spec, pieces', rfl, h⟩
    rw [h]
    rfl

theorem drop_eq_cons_iff {k : Nat} {arg : LuaValue} {rest : List LuaValue} :
    args.drop k = arg :: rest ↔ args[k]? = some arg ∧ rest = args.drop (k + 1) := by
  rw [← List.head?_drop]
  cases hdrop : args.drop k with
  | nil => simp
  | cons a tail =>
    have htail : args.drop (k + 1) = tail := by rw [← List.tail_drop, hdrop, List.tail_cons]
    simp [htail, eq_comm]

theorem printf_specifier {spec : Specifier} {pieces : List Piece} {k : Nat} {out : Bytes} :
    printf (.specifier spec :: pieces) (args.drop k) = some out ↔
      ∃ arg text rest, args[k]? = some arg ∧ spec.field arg = some text ∧
        printf pieces (args.drop (k + 1)) = some rest ∧ out = text ++ rest := by
  cases hdrop : args.drop k with
  | nil =>
    have hnone : args[k]? = none := by rw [← List.head?_drop, hdrop, List.head?_nil]
    simp [printf_specifier_nil, hnone]
  | cons arg tail =>
    obtain ⟨harg, rfl⟩ := drop_eq_cons_iff.mp hdrop
    simp only [printf_specifier_cons, harg, Option.some.injEq, Option.bind_eq_bind, Option.bind_eq_some_iff]
    constructor
    · rintro ⟨text, htext, rest, hrest, rfl⟩
      exact ⟨arg, text, rest, rfl, htext, hrest, rfl⟩
    · rintro ⟨_, text, rest, rfl, htext, hrest, rfl⟩
      exact ⟨text, htext, rest, hrest, rfl⟩

/-- What the loop turns the rest of the format into, after the text written so far. -/
def Writes (args : List LuaValue) (fmt : Bytes) (k : Nat) (result out : Bytes) : Prop :=
  ∃ pieces text, formatText pieces = fmt ∧ printf pieces (args.drop k) = some text ∧
    out = result ++ text ∧ out.length ≤ maxStringLen

theorem writes_nil {k : Nat} {result out : Bytes} :
    Writes args [] k result out ↔ out = result ∧ out.length ≤ maxStringLen := by
  constructor
  · rintro ⟨pieces, text, hpieces, htext, rfl, hlen⟩
    obtain rfl := formatText_eq_nil.mp hpieces
    obtain rfl : text = [] := by simpa [eq_comm] using htext
    exact ⟨by simp, hlen⟩
  · rintro ⟨rfl, hlen⟩
    exact ⟨[], [], rfl, rfl, by simp, hlen⟩

theorem writes_byte {b : UInt8} (hb : b ≠ 37) {rest : Bytes} {k : Nat} {result out : Bytes} :
    Writes args (b :: rest) k result out ↔ Writes args rest k (result ++ [b]) out := by
  constructor
  · rintro ⟨pieces, text, hpieces, htext, rfl, hlen⟩
    obtain ⟨pieces, rfl, hrest⟩ := (formatText_eq_byte hb).mp hpieces
    obtain ⟨text, hprint, rfl⟩ := Option.map_eq_some_iff.mp htext
    exact ⟨pieces, text, hrest, hprint, by simp, hlen⟩
  · rintro ⟨pieces, text, hpieces, htext, rfl, hlen⟩
    exact ⟨.byte b hb :: pieces, b :: text, (formatText_eq_byte hb).mpr ⟨pieces, rfl, hpieces⟩,
      by simp [htext], by simp, hlen⟩

theorem writes_percent {rest : Bytes} {k : Nat} {result out : Bytes} :
    Writes args (37 :: 37 :: rest) k result out ↔ Writes args rest k (result ++ [37]) out := by
  constructor
  · rintro ⟨pieces, text, hpieces, htext, rfl, hlen⟩
    obtain ⟨pieces, rfl, hrest⟩ := formatText_eq_percent.mp hpieces
    obtain ⟨text, hprint, rfl⟩ := Option.map_eq_some_iff.mp htext
    exact ⟨pieces, text, hrest, hprint, by simp, hlen⟩
  · rintro ⟨pieces, text, hpieces, htext, rfl, hlen⟩
    exact ⟨.percent :: pieces, 37 :: text, formatText_eq_percent.mpr ⟨pieces, rfl, hpieces⟩,
      by simp [htext], by simp, hlen⟩

theorem not_writes_percent {k : Nat} {result out : Bytes} : ¬Writes args [37] k result out := by
  rintro ⟨pieces, -, hpieces, -⟩
  exact formatText_ne_percent pieces hpieces

theorem writes_specifier {c : UInt8} (hc : c ≠ 37) {rest : Bytes} {k : Nat} {result out : Bytes} :
    Writes args (37 :: c :: rest) k result out ↔
      ∃ text after, formatConversion args k (c :: rest) = .ok (text, after) ∧
        (result ++ text).length ≤ maxStringLen ∧ Writes args after (k + 1) (result ++ text) out := by
  simp only [formatConversion_ok_iff]
  constructor
  · rintro ⟨pieces, text, hpieces, htext, rfl, hlen⟩
    obtain ⟨spec, pieces, rfl, hrest⟩ := (formatText_eq_specifier hc).mp hpieces
    obtain ⟨arg, field, text, harg, hfield, hprint, rfl⟩ := printf_specifier.mp htext
    have hshort : (result ++ field).length ≤ maxStringLen := by
      simp only [List.length_append] at hlen ⊢
      omega
    exact ⟨field, formatText pieces, ⟨spec, arg, hrest, harg, hfield⟩, hshort, pieces, text, rfl,
      hprint, by simp, hlen⟩
  · rintro ⟨field, after, ⟨spec, arg, hrest, harg, hfield⟩, -, pieces, text, rfl, hprint, rfl, hlen⟩
    exact ⟨.specifier spec :: pieces, field ++ text,
      (formatText_eq_specifier hc).mpr ⟨spec, pieces, rfl, hrest⟩,
      printf_specifier.mpr ⟨arg, field, text, harg, hfield, hprint, rfl⟩, by simp, hlen⟩

theorem formatConversion_length {k : Nat} {fmt text after : Bytes}
    (h : formatConversion args k fmt = .ok (text, after)) : after.length < fmt.length := by
  obtain ⟨spec, -, rfl, -⟩ := formatConversion_ok_iff.mp h
  simp only [Specifier.rest, List.length_append, List.length_cons, List.length_nil]
  omega

/-- One round of the loop at a specifier. -/
theorem formatLoop_specifier {c : UInt8} (hc : c ≠ 37) {fuel k : Nat} {rest result out : Bytes} :
    formatLoop args (fuel + 1) (37 :: c :: rest) k result = .ok out ↔
      ∃ text after, formatConversion args k (c :: rest) = .ok (text, after) ∧
        (result ++ text).length ≤ maxStringLen ∧
        formatLoop args fuel after (k + 1) (result ++ text) = .ok out := by
  have hloop : formatLoop args (fuel + 1) (37 :: c :: rest) k result =
      formatConversion args k (c :: rest) >>= fun r =>
        checkStringLen (result ++ r.1).length >>= fun _ =>
          formatLoop args fuel r.2 (k + 1) (result ++ r.1) := by
    simp [formatLoop, hc]
  rw [hloop]
  cases hconv : formatConversion args k (c :: rest) with
  | error e => simp [bind, Except.bind]
  | ok r =>
    obtain ⟨text, after⟩ := r
    simp only [bind, Except.bind, Except.ok.injEq, Prod.mk.injEq]
    cases hcheck : checkStringLen (result ++ text).length with
    | error e =>
      have hlong : ¬(result ++ text).length ≤ maxStringLen := by
        rw [← checkStringLen_ok, hcheck]
        nofun
      simp only [reduceCtorEq, false_iff]
      rintro ⟨text', after', ⟨rfl, rfl⟩, hshort, -⟩
      exact hlong hshort
    | ok u =>
      have hshort := checkStringLen_ok.mp hcheck
      constructor
      · exact fun h => ⟨text, after, ⟨rfl, rfl⟩, hshort, h⟩
      · rintro ⟨text', after', ⟨rfl, rfl⟩, -, h⟩
        exact h

/-- The loop writes what `printf` prints for the rest of the format. -/
theorem formatLoop_writes {fuel : Nat} {fmt result out : Bytes} {k : Nat}
    (hfuel : fmt.length ≤ fuel) :
    (formatLoop args fuel fmt k result = .ok out ∧ out.length ≤ maxStringLen) ↔
      Writes args fmt k result out := by
  induction fuel generalizing fmt k result with
  | zero =>
    obtain rfl : fmt = [] := List.eq_nil_of_length_eq_zero (by omega)
    rw [writes_nil, formatLoop, Except.ok.injEq, eq_comm]
  | succ fuel ih =>
    cases fmt with
    | nil => rw [writes_nil, formatLoop, Except.ok.injEq, eq_comm]
    | cons b rest =>
      rw [List.length_cons] at hfuel
      by_cases hb : b = 37
      · subst hb
        cases rest with
        | nil =>
          have herror : formatLoop args (fuel + 1) [37] k result ≠ .ok out := by simp [formatLoop]
          simp [herror, not_writes_percent]
        | cons c rest =>
          rw [List.length_cons] at hfuel
          by_cases hc : c = 37
          · subst hc
            have hloop : formatLoop args (fuel + 1) (37 :: 37 :: rest) k result =
                formatLoop args fuel rest k (result ++ [37]) := by simp [formatLoop]
            rw [hloop, writes_percent]
            exact ih (by omega)
          · rw [formatLoop_specifier hc, writes_specifier hc]
            constructor
            · rintro ⟨⟨text, after, hconv, hshort, hrest⟩, hlen⟩
              have hless := formatConversion_length hconv
              rw [List.length_cons] at hless
              exact ⟨text, after, hconv, hshort, (ih (by omega)).mp ⟨hrest, hlen⟩⟩
            · rintro ⟨text, after, hconv, hshort, hrest⟩
              have hless := formatConversion_length hconv
              rw [List.length_cons] at hless
              have hdone := (ih (by omega)).mpr hrest
              exact ⟨⟨text, after, hconv, hshort, hdone.1⟩, hdone.2⟩
      · have hloop : formatLoop args (fuel + 1) (b :: rest) k result =
            formatLoop args fuel rest k (result ++ [b]) := by simp [formatLoop, hb]
        rw [hloop, writes_byte hb]
        exact ih (by omega)

end Loop

/-- The meters can pay for a string of this length. -/
def Affords (c : Core) (n : Nat) : Prop :=
  n ≤ c.gas.remaining ∧
    min (c.mem.allocated + AllocSize.string n) MemoryMeter.u64Max ≤ c.mem.limit

/-- The end of `string.format`, once the text is written. -/
def payFormatted (out : Bytes) : Vm (List LuaValue) := do
  charge out.length
  trackAlloc (AllocSize.string out.length)
  pure [.string out]

theorem run_payFormatted (out : Bytes) (c : Core) (r : List LuaValue) :
    ((payFormatted out).run c).1 = .ok r ↔ Affords c out.length ∧ r = [.string out] := by
  rw [payFormatted, Exec.run_bind, run_charge]
  by_cases hgas : out.length ≤ c.gas.remaining
  · rw [if_neg (Nat.not_lt.mpr hgas)]
    simp only [Exec.run_bind, run_trackAlloc]
    by_cases hmem : min (c.mem.allocated + AllocSize.string out.length) MemoryMeter.u64Max ≤
        c.mem.limit
    · simp only [if_neg (Nat.not_lt.mpr hmem), Exec.run_pure, Except.ok.injEq, Affords, hgas, hmem,
        and_self, true_and, eq_comm]
    · simp only [if_pos (Nat.lt_of_not_le hmem), Affords, hmem, and_false, false_and]
      simp
  · simp [if_pos (Nat.lt_of_not_le hgas), Affords, hgas]

/-- `string.format` is `printf` on the formats they share, and fails on all others. -/
theorem stringFormat_eq_printf (fmt : Bytes) (args : List LuaValue) (c : Core)
    (r : List LuaValue) :
    ((stringFormat (.string fmt :: args)).run c).1 = .ok r ↔
      ∃ pieces out, formatText pieces = fmt ∧ printf pieces args = some out ∧
        out.length ≤ maxStringLen ∧ Affords c out.length ∧ r = [.string out] := by
  have hfmt : requireString (.string fmt :: args) 0 "string.format" = .ok fmt := rfl
  have hwrites : ∀ out, (formatLoop (.string fmt :: args) fmt.length fmt 1 [] = .ok out ∧
      out.length ≤ maxStringLen) ↔ ∃ pieces, formatText pieces = fmt ∧
        printf pieces args = some out ∧ out.length ≤ maxStringLen := by
    intro out
    rw [formatLoop_writes le_rfl]
    simp [Writes]
  have hrun : stringFormat (.string fmt :: args) =
      liftError (formatLoop (.string fmt :: args) fmt.length fmt 1 []) >>= fun out =>
        liftError (checkStringLen out.length) >>= fun _ => payFormatted out := by
    rw [stringFormat, hfmt]
    rfl
  have hsplit : (∃ pieces out, formatText pieces = fmt ∧ printf pieces args = some out ∧
      out.length ≤ maxStringLen ∧ Affords c out.length ∧ r = [.string out]) ↔
        ∃ out, (formatLoop (.string fmt :: args) fmt.length fmt 1 [] = .ok out ∧
          out.length ≤ maxStringLen) ∧ Affords c out.length ∧ r = [.string out] := by
    simp only [hwrites]
    constructor
    · rintro ⟨pieces, out, htext, hout, hlen, hrest⟩
      exact ⟨out, ⟨pieces, htext, hout, hlen⟩, hrest⟩
    · rintro ⟨out, ⟨pieces, htext, hout, hlen⟩, hrest⟩
      exact ⟨pieces, out, htext, hout, hlen, hrest⟩
  rw [hsplit, hrun]
  cases hloop : formatLoop (.string fmt :: args) fmt.length fmt 1 [] with
  | error e => simp [Exec.run_bind, run_liftError]
  | ok out =>
    have hcheck := @checkStringLen_ok out.length
    cases hlen : checkStringLen out.length with
    | error e =>
      have hlong : ¬out.length ≤ maxStringLen := by
        rw [← hcheck, hlen]
        nofun
      have hno : ¬∃ out', ((Except.ok out : Except VmError Bytes) = .ok out' ∧
          out'.length ≤ maxStringLen) ∧ Affords c out'.length ∧ r = [.string out'] := by
        rintro ⟨out', ⟨heq, hshort⟩, -⟩
        exact hlong (Except.ok.inj heq ▸ hshort)
      simp only [hno, iff_false]
      simp [Exec.run_bind, run_liftError, hlen]
    | ok u =>
      have hshort := hcheck.mp hlen
      have hone : (∃ out', ((Except.ok out : Except VmError Bytes) = .ok out' ∧
          out'.length ≤ maxStringLen) ∧ Affords c out'.length ∧ r = [.string out']) ↔
            Affords c out.length ∧ r = [.string out] := by
        constructor
        · rintro ⟨out', ⟨heq, -⟩, hrest⟩
          exact Except.ok.inj heq ▸ hrest
        · exact fun hrest => ⟨out, ⟨rfl, hshort⟩, hrest⟩
      rw [hone, ← run_payFormatted]
      simp only [Exec.run_bind, run_liftError, hlen]

end Proveno.Vm
