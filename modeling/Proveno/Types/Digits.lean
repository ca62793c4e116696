import Proveno.Types.Text

/-! Digit strings: what they denote, when two of them are the same, and the maximal run
of bytes of a kind at the head of a text. -/

namespace Proveno

def Digits (ds : Bytes) : Prop := ∀ b ∈ ds, isDigit b = true

/-- The digits after a dot, when there is one. -/
def dottedText (fraction : Option Bytes) : Bytes := (fraction.map (46 :: ·)).getD []

theorem Digits.nil : Digits [] := by simp [Digits]

theorem digits_cons {b : UInt8} {ds : Bytes} : Digits (b :: ds) ↔ isDigit b = true ∧ Digits ds := by
  simp [Digits]

theorem digits_append {a b : Bytes} : Digits (a ++ b) ↔ Digits a ∧ Digits b := by
  simp [Digits, or_imp, forall_and]

theorem digitsValue_cons (d : UInt8) (ds : Bytes) :
    digitsValue (d :: ds) = digitValue d * 10 ^ ds.length + digitsValue ds := by
  induction ds using List.reverseRecOn with
  | nil => simp [digitsValue]
  | append_singleton ds e ih =>
    rw [← List.cons_append, digitsValue_append, digitsValue_append, ih, List.length_append,
      List.length_singleton, pow_succ]
    ring

theorem digitsValue_append_all (a b : Bytes) :
    digitsValue (a ++ b) = digitsValue a * 10 ^ b.length + digitsValue b := by
  induction a with
  | nil => simp [digitsValue]
  | cons d a ih =>
    rw [List.cons_append, digitsValue_cons, digitsValue_cons, ih, List.length_append, pow_add]
    ring

/-- No surplus leading zero. -/
def Trimmed (ds : Bytes) : Prop := ds.length = 1 ∨ ds.head? ≠ some 48

theorem digitValue_lt {d : UInt8} (h : isDigit d = true) : digitValue d < 10 := by
  simp only [isDigit, Bool.and_eq_true, decide_eq_true_eq, UInt8.le_iff_toNat_le] at h
  have hle : d.toNat ≤ 57 := by simpa using h.2
  simp only [digitValue]
  omega

theorem digitValue_pos {d : UInt8} (h : isDigit d = true) (hne : d ≠ 48) : 0 < digitValue d := by
  simp only [isDigit, Bool.and_eq_true, decide_eq_true_eq, UInt8.le_iff_toNat_le] at h
  have hge : 48 ≤ d.toNat := by simpa using h.1
  have hval : d.toNat ≠ 48 := fun heq => hne (UInt8.toNat_inj.mp heq)
  simp only [digitValue]
  omega

theorem digitValue_inj {a b : UInt8} (ha : isDigit a = true) (hb : isDigit b = true)
    (h : digitValue a = digitValue b) : a = b := by
  simp only [isDigit, Bool.and_eq_true, decide_eq_true_eq, UInt8.le_iff_toNat_le] at ha hb
  have hage : 48 ≤ a.toNat := by simpa using ha.1
  have hbge : 48 ≤ b.toNat := by simpa using hb.1
  simp only [digitValue] at h
  exact UInt8.toNat_inj.mp (by omega)

theorem digitsValue_lt {ds : Bytes} (h : Digits ds) : digitsValue ds < 10 ^ ds.length := by
  induction ds with
  | nil => simp [digitsValue]
  | cons d ds ih =>
    obtain ⟨hd, hds⟩ := digits_cons.mp h
    have hlast := ih hds
    have hfirst : digitValue d + 1 ≤ 10 := digitValue_lt hd
    have hscaled : (digitValue d + 1) * 10 ^ ds.length ≤ 10 * 10 ^ ds.length :=
      Nat.mul_le_mul_right _ hfirst
    rw [digitsValue_cons, List.length_cons, pow_succ]
    linarith

/-- Digit strings of one length are told apart by their values. -/
theorem digits_ext {a b : Bytes} (ha : Digits a) (hb : Digits b) (hlen : a.length = b.length)
    (h : digitsValue a = digitsValue b) : a = b := by
  induction a generalizing b with
  | nil => exact (List.eq_nil_of_length_eq_zero hlen.symm).symm
  | cons d a ih =>
    cases b with
    | nil => simp at hlen
    | cons e b =>
      obtain ⟨hd, hda⟩ := digits_cons.mp ha
      obtain ⟨he, heb⟩ := digits_cons.mp hb
      have hrest : a.length = b.length := by simpa using hlen
      have hva := digitsValue_lt hda
      have hvb := digitsValue_lt heb
      rw [digitsValue_cons, digitsValue_cons, hrest] at h
      rw [hrest] at hva
      have hpos : 0 < 10 ^ b.length := by positivity
      have hdigit : digitValue d = digitValue e := by
        have hdiv := congrArg (· / 10 ^ b.length) h
        simpa [Nat.add_div_of_dvd_right, Nat.mul_div_cancel, hpos, Nat.div_eq_of_lt hva,
          Nat.div_eq_of_lt hvb] using hdiv
      rw [digitValue_inj hd he hdigit, ih hda heb hrest (by rw [hdigit] at h; omega)]

theorem Trimmed.le_digitsValue {ds : Bytes} (hd : Digits ds) (ht : Trimmed ds)
    (hlong : 2 ≤ ds.length) : 10 ^ (ds.length - 1) ≤ digitsValue ds := by
  cases ds with
  | nil => simp at hlong
  | cons d ds =>
    have hne : d ≠ 48 := by
      rcases ht with hone | hhead
      · omega
      · simpa using hhead
    have hpos := digitValue_pos (digits_cons.mp hd).1 hne
    rw [digitsValue_cons, List.length_cons, Nat.add_sub_cancel]
    exact le_add_right (Nat.le_mul_of_pos_left _ hpos)

theorem Trimmed.length_le {a b : Bytes} (ha : Digits a) (hta : Trimmed a) (hb : Digits b)
    (hbne : b ≠ []) (h : digitsValue a = digitsValue b) : a.length ≤ b.length := by
  by_contra hlt
  have hbpos : 0 < b.length := List.length_pos_of_ne_nil hbne
  have hlow := hta.le_digitsValue ha (by omega)
  have hhigh := digitsValue_lt hb
  have hgrow : 10 ^ b.length ≤ 10 ^ (a.length - 1) := Nat.pow_le_pow_right (by norm_num) (by omega)
  omega

/-- A number has one digit string without a surplus leading zero. -/
theorem Trimmed.ext {a b : Bytes} (ha : Digits a) (hta : Trimmed a) (hane : a ≠ [])
    (hb : Digits b) (htb : Trimmed b) (hbne : b ≠ []) (h : digitsValue a = digitsValue b) :
    a = b :=
  digits_ext ha hb
    (le_antisymm (hta.length_le ha hb hbne h) (htb.length_le hb ha hane h.symm)) h

theorem decimalAux_head {fuel n : Nat} (hpos : 0 < n) (hle : n ≤ fuel) :
    (decimalAux fuel n).head? ≠ some 48 := by
  induction fuel generalizing n with
  | zero => omega
  | succ fuel ih =>
    rw [decimalAux_succ]
    split_ifs with hlt
    · intro hhead
      have hbyte : (digitByte n).toNat = 48 := by
        rw [show digitByte n = 48 by simpa using hhead]
        rfl
      rw [digitByte_toNat hlt] at hbyte
      omega
    · rw [List.head?_append_of_ne_nil _ (decimalAux_ne_nil _ _)]
      exact ih (by omega) (by omega)

theorem decimal_trimmed (n : Nat) : Trimmed (decimal n) := by
  rcases Nat.eq_zero_or_pos n with rfl | hpos
  · exact .inl rfl
  · exact .inr (decimalAux_head hpos le_rfl)

theorem digits_decimal (n : Nat) : Digits (decimal n) := decimal_digits n

theorem decimal_length_le {n k : Nat} (hk : 0 < k) (h : n < 10 ^ k) : (decimal n).length ≤ k := by
  by_contra hlong
  have hlow := (decimal_trimmed n).le_digitsValue (digits_decimal n) (by omega)
  have hgrow : 10 ^ k ≤ 10 ^ ((decimal n).length - 1) :=
    Nat.pow_le_pow_right (by norm_num) (by omega)
  rw [digitsValue_decimal] at hlow
  omega

theorem decimal_natAbs_length_le (n : Int64) : (decimal n.toInt.natAbs).length ≤ 19 := by
  have hlow := n.le_toInt
  have hhigh := n.toInt_lt
  exact decimal_length_le (by norm_num) (by omega)

theorem intText_length_le (n : Int64) : (intText n).length ≤ 20 := by
  have hdigits := decimal_natAbs_length_le n
  unfold intText
  split_ifs
  · rw [List.length_cons]
    omega
  · omega

theorem digits_zeros (k : Nat) : Digits (List.replicate k 48) := by
  intro b hb
  rw [List.eq_of_mem_replicate hb]
  decide

theorem digitsValue_zeros (k : Nat) (ds : Bytes) :
    digitsValue (List.replicate k 48 ++ ds) = digitsValue ds := by
  induction k with
  | zero => simp
  | succ k ih =>
    have hzero : digitValue 48 = 0 := by decide
    rw [List.replicate_succ, List.cons_append, digitsValue_cons, hzero, zero_mul, zero_add, ih]

/-- A maximal run of bytes of a kind is read back from the head of a text. -/
theorem takeWhile_run {p : UInt8 → Bool} {run rest : Bytes} (hrun : ∀ b ∈ run, p b = true)
    (hstop : ∀ b, rest.head? = some b → p b = false) :
    (run ++ rest).takeWhile p = run ∧ (run ++ rest).dropWhile p = rest := by
  have hrest : rest.takeWhile p = [] ∧ rest.dropWhile p = rest := by
    cases rest with
    | nil => exact ⟨rfl, rfl⟩
    | cons b rest => simp [hstop b rfl]
  rw [List.takeWhile_append_of_pos hrun, List.dropWhile_append_of_pos hrun, hrest.1, hrest.2,
    List.append_nil]
  exact ⟨rfl, rfl⟩

end Proveno
