import Proveno.Vm.DecimalText

/-! `decimal.format` writes the canonical literal of a number at a scale, and
`decimal.parse` reads it back. -/

namespace Proveno.Vm

namespace DecimalLiteral

theorem value_mul_places (l : DecimalLiteral) :
    l.value * 10 ^ l.places = (signed l.negative (digitsValue l.digits) : ℤ) := by
  rw [value_mul le_rfl, Nat.sub_self, pow_zero, mul_one]

theorem value_eq_zero_iff (l : DecimalLiteral) : l.value = 0 ↔ digitsValue l.digits = 0 := by
  have hmul := l.value_mul_places
  have hten : (10 : ℚ) ^ l.places ≠ 0 := by positivity
  constructor
  · intro hzero
    rw [hzero, zero_mul] at hmul
    have hsigned : signed l.negative (digitsValue l.digits) = 0 := by exact_mod_cast hmul.symm
    cases hneg : l.negative <;> simpa [signed, hneg] using hsigned
  · intro hzero
    have hsigned : signed l.negative (digitsValue l.digits) = 0 := by
      cases l.negative <;> simp [signed, hzero]
    rw [hsigned, Int.cast_zero] at hmul
    exact (mul_eq_zero.mp hmul).resolve_right hten

theorem fraction_of_places {l : DecimalLiteral} {scale : Nat} (h : l.places = scale) :
    l.fraction = if scale = 0 then none else some (l.fraction.getD []) := by
  cases hfrac : l.fraction with
  | none =>
    have hzero : scale = 0 := by simpa [places, hfrac] using h.symm
    simp [hzero]
  | some ds =>
    have hne : scale ≠ 0 := by
      rintro rfl
      have hnil : ds = [] := by simpa [places, hfrac] using h
      exact l.fraction_ne_nil (by rw [hfrac, hnil])
    simp [hne]

/-- A number has at most one canonical literal at a scale. -/
theorem Canonical.ext {a b : DecimalLiteral} {scale : Nat} (ha : a.Canonical scale)
    (hb : b.Canonical scale) (h : a.value = b.value) : a = b := by
  have hunits : signed a.negative (digitsValue a.digits) =
      signed b.negative (digitsValue b.digits) := by
    have hcast := a.value_mul_places
    rw [h, ha.places_eq, ← hb.places_eq, b.value_mul_places] at hcast
    exact_mod_cast hcast.symm
  have hanz : a.negative = true → digitsValue a.digits ≠ 0 := fun hneg hzero =>
    ha.no_negative_zero hneg (a.value_eq_zero_iff.mpr hzero)
  have hbnz : b.negative = true → digitsValue b.digits ≠ 0 := fun hneg hzero =>
    hb.no_negative_zero hneg (b.value_eq_zero_iff.mpr hzero)
  have hsame : a.negative = b.negative ∧ digitsValue a.digits = digitsValue b.digits := by
    cases hna : a.negative <;> cases hnb : b.negative <;>
      simp [signed, hna, hnb] at hunits hanz hbnz ⊢ <;> omega
  obtain ⟨hnegative, hdigits⟩ := hsame
  have hlen : (a.fraction.getD []).length = (b.fraction.getD []).length :=
    ha.places_eq.trans hb.places_eq.symm
  have hfa := digitsValue_lt a.fraction_digits
  have hfb := digitsValue_lt b.fraction_digits
  rw [digitsValue_digits, digitsValue_digits, ha.places_eq, hb.places_eq] at hdigits
  have hpa : (a.fraction.getD []).length = scale := ha.places_eq
  have hpb : (b.fraction.getD []).length = scale := hb.places_eq
  rw [hpa] at hfa
  rw [hpb] at hfb
  have hwhole : digitsValue a.whole = digitsValue b.whole := by
    have hpos : 0 < 10 ^ scale := by positivity
    have hdiv := congrArg (· / 10 ^ scale) hdigits
    simpa [Nat.add_div_of_dvd_right, Nat.mul_div_cancel, hpos, Nat.div_eq_of_lt hfa,
      Nat.div_eq_of_lt hfb] using hdiv
  have hfraction : digitsValue (a.fraction.getD []) = digitsValue (b.fraction.getD []) := by
    rw [hwhole] at hdigits
    omega
  apply DecimalLiteral.ext hnegative
  · exact Trimmed.ext a.whole_digits ha.no_leading_zero a.whole_ne_nil b.whole_digits
      hb.no_leading_zero b.whole_ne_nil hwhole
  · rw [fraction_of_places ha.places_eq, fraction_of_places hb.places_eq,
      digits_ext a.fraction_digits b.fraction_digits hlen hfraction]

end DecimalLiteral

/-- The parts of a magnitude at a scale: its digits cut before the last `scale` of them,
which are padded when there are fewer. -/
theorem scaled_digits (v scale : Nat) (hscale : scale ≠ 0) :
    ∃ whole fraction : Bytes, whole ≠ [] ∧ Digits whole ∧ Trimmed whole ∧ Digits fraction ∧
      fraction.length = scale ∧ digitsValue (whole ++ fraction) = v ∧
      whole ++ 46 :: fraction =
        if (decimal v).length > scale then
          (decimal v).take ((decimal v).length - scale) ++
            46 :: (decimal v).drop ((decimal v).length - scale)
        else ascii "0." ++ List.replicate (scale - (decimal v).length) 48 ++ decimal v := by
  split_ifs with hlong
  · have hcut : (decimal v).take ((decimal v).length - scale) ++
        (decimal v).drop ((decimal v).length - scale) = decimal v := List.take_append_drop _ _
    have hparts := digits_append.mp (hcut.symm ▸ digits_decimal v)
    have htake : ((decimal v).take ((decimal v).length - scale)).head? = (decimal v).head? := by
      rw [List.head?_take, if_neg (by omega)]
    refine ⟨_, _, ?_, hparts.1, .inr ?_, hparts.2, ?_, ?_, rfl⟩
    · simp only [ne_eq, List.take_eq_nil_iff, decimal_ne_nil, or_false]
      omega
    · rw [htake]
      exact (decimal_trimmed v).resolve_left (by omega)
    · rw [List.length_drop]
      omega
    · rw [hcut, digitsValue_decimal]
  · refine ⟨[48], List.replicate (scale - (decimal v).length) 48 ++ decimal v, by simp,
      digits_zeros 1, .inl rfl, digits_append.mpr ⟨digits_zeros _, digits_decimal v⟩, ?_, ?_, ?_⟩
    · rw [List.length_append, List.length_replicate]
      omega
    · have hlead := digitsValue_zeros (1 + (scale - (decimal v).length)) (decimal v)
      rw [List.replicate_add, List.append_assoc, digitsValue_decimal] at hlead
      exact hlead
    · rw [List.append_assoc]
      rfl

/-- The formatter writes the canonical literal of the value. -/
theorem formatDecimal_canonical (value : Int64) (scale : Nat) :
    ∃ l : DecimalLiteral, l.text = formatDecimal value scale ∧ l.Canonical scale ∧
      l.value * 10 ^ scale = value.toInt := by
  have hsigned : signed (decide (value.toInt < 0)) value.toInt.natAbs = value.toInt := by
    by_cases hneg : value.toInt < 0
    · simp only [signed, hneg, decide_true, ↓reduceIte]
      omega
    · simp only [signed, hneg, decide_false, Bool.false_eq_true, ↓reduceIte]
      omega
  have hfinish : ∀ l : DecimalLiteral, l.negative = decide (value.toInt < 0) →
      l.places = scale → Trimmed l.whole → digitsValue l.digits = value.toInt.natAbs →
      l.Canonical scale ∧ l.value * 10 ^ scale = value.toInt := by
    intro l hnegative hplaces htrim hdigits
    refine ⟨⟨hplaces, htrim, ?_⟩, ?_⟩
    · intro hneg hzero
      rw [DecimalLiteral.value_eq_zero_iff, hdigits] at hzero
      rw [hnegative, decide_eq_true_eq] at hneg
      omega
    · rw [← hplaces, DecimalLiteral.value_mul_places, hdigits, hnegative, hsigned]
  by_cases hscale : scale = 0
  · refine ⟨⟨decide (value.toInt < 0), decimal value.toInt.natAbs, none, decimal_ne_nil _,
      digits_decimal _, by simp, Digits.nil⟩, ?_, hfinish _ rfl ?_ (decimal_trimmed _) ?_⟩
    · simp [DecimalLiteral.text, formatDecimal, hscale, signText, dottedText]
    · simp [DecimalLiteral.places, hscale]
    · simp [DecimalLiteral.digits]
  · obtain ⟨whole, fraction, hne, hwhole, htrim, hfraction, hlen, hdigits, htext⟩ :=
      scaled_digits value.toInt.natAbs scale hscale
    have hsome : fraction ≠ [] := by
      rintro rfl
      exact hscale hlen.symm
    refine ⟨⟨decide (value.toInt < 0), whole, some fraction, hne, hwhole, by simpa using hsome,
      hfraction⟩, ?_, hfinish _ rfl hlen htrim hdigits⟩
    rw [DecimalLiteral.text_eq]
    simp only [dottedText, Option.map_some, Option.getD_some, htext, formatDecimal, hscale,
      ↓reduceIte]
    split_ifs <;> simp [signText, *]

theorem parseDecimal_formatDecimal (value : Int64) (scale : Nat) :
    parseDecimal (formatDecimal value scale) scale = .ok value := by
  obtain ⟨l, htext, hcanonical, hvalue⟩ := formatDecimal_canonical value scale
  rw [← htext, DecimalLiteral.parseDecimal_text]
  exact ⟨hcanonical.places_eq.le, hvalue.symm⟩

/-- Formatting what was parsed gives the one canonical text of the number in the text. -/
theorem formatDecimal_of_parseDecimal {l : DecimalLiteral} {scale : Nat} {n : Int64}
    (h : parseDecimal l.text scale = .ok n) :
    ∃ c : DecimalLiteral, c.text = formatDecimal n scale ∧ c.Canonical scale ∧
      c.value = l.value ∧
      ∀ c' : DecimalLiteral, c'.Canonical scale → c'.value = l.value → c' = c := by
  obtain ⟨-, hl⟩ := (l.parseDecimal_text scale n).mp h
  obtain ⟨c, hc, hcanonical, hvalue⟩ := formatDecimal_canonical n scale
  have hten : (10 : ℚ) ^ scale ≠ 0 := by positivity
  have hsame : c.value = l.value := mul_right_cancel₀ hten (hvalue.trans hl)
  exact ⟨c, hc, hcanonical, hsame, fun c' hc' h' =>
    DecimalLiteral.Canonical.ext hc' hcanonical (h'.trans hsame.symm)⟩

/-- The formatter and the parser are inverse at every scale, up to the canonical text. -/
theorem decimal_inverse (scale : Nat) :
    (∀ value, parseDecimal (formatDecimal value scale) scale = .ok value) ∧
    ∀ text n, parseDecimal text scale = .ok n →
      (∃ l : DecimalLiteral, l.text = text) ∧
      ∀ l : DecimalLiteral, l.text = text →
        ∃ c : DecimalLiteral, c.text = formatDecimal n scale ∧ c.Canonical scale ∧
          c.value = l.value ∧
          ∀ c' : DecimalLiteral, c'.Canonical scale → c'.value = l.value → c' = c := by
  refine ⟨fun value => parseDecimal_formatDecimal value scale, fun text n h =>
    ⟨parseDecimal_ok_text h, ?_⟩⟩
  rintro l rfl
  exact formatDecimal_of_parseDecimal h

end Proveno.Vm
