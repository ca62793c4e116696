import Proveno.Types.TableWordSize
import Proveno.Vm.Strings

/-! When a runtime with a 32-bit `usize` gives the same results as one with a
64-bit `usize`: for table calls, for the slices and searches of strings, and for
repetition. -/

namespace Proveno.Vm

open LuaTable

/-- The same machine with `usize` of another width. -/
def atBits (bits : Nat) (c : Core) : Core :=
  { c with target := { c.target with wordBits := bits } }

/-- The first computation on the narrow host and the second on the wide one end
with the same value, error or panic. -/
def Agree {α : Type} (m m' : Vm α) (c : Core) : Prop :=
  (m.run (atBits 32 c)).1 = (m'.run (atBits 64 c)).1

theorem agree_liftError_bind_iff {α β : Type} (e : Except VmError α) (f f' : α → Vm β) (c : Core) :
    Agree (liftError e >>= f) (liftError e >>= f') c ↔ ∀ a, e = .ok a → Agree (f a) (f' a) c := by
  cases e with
  | ok a => simp [liftError]
  | error e => simp [Agree, liftError, raise, Exec.run_bind]

section Indices

variable {tgt : Target}

theorem toUsize_checkedI64 (hbits : tgt.wordBits ≤ 64) {exact : Int} {n : Int64}
    (h : tgt.checkedI64 exact = some n) : tgt.toUsize n = (exact % 2 ^ tgt.wordBits).toNat := by
  unfold Target.checkedI64 at h
  split_ifs at h
  rw [← Option.some.inj h, Target.toUsize, Int64.toInt_ofInt, Int.bmod_def]
  congr 1
  have hdvd : (2 : Int) ^ tgt.wordBits ∣ (Int64.size : Int) := by
    have hsize : (Int64.size : Int) = 2 ^ 64 := by decide
    rw [hsize]
    exact pow_dvd_pow 2 hbits
  split_ifs
  · exact Int.emod_emod_of_dvd _ hdvd
  · rw [Int.sub_emod, Int.emod_emod_of_dvd _ hdvd, Int.emod_eq_zero_of_dvd hdvd, Int.sub_zero,
      Int.emod_emod_of_dvd _ (dvd_refl _)]

/-- The magnitude of an index as a word of the target. -/
def magnitude (tgt : Target) (i : Int64) : Nat := (|i.toInt| % 2 ^ tgt.wordBits).toNat

def negationPanics (tgt : Target) (i : Int64) : Prop :=
  tgt.overflowChecks = true ∧ i.toInt = -2 ^ 63

instance (tgt : Target) (i : Int64) : Decidable (negationPanics tgt i) := by
  unfold negationPanics
  infer_instance

theorem checkedI64_neg (tgt : Target) (i : Int64) :
    tgt.checkedI64 (-i.toInt) =
      if negationPanics tgt i then none else some (Int64.ofInt (-i.toInt)) := by
  have hle := i.le_toInt
  have hlt := i.toInt_lt
  have hiff : (tgt.overflowChecks = true ∧ ¬(-2 ^ 63 ≤ -i.toInt ∧ -i.toInt < 2 ^ 63)) ↔
      negationPanics tgt i := by
    unfold negationPanics
    exact and_congr_right fun _ => by omega
  simp only [Target.checkedI64, hiff]

theorem luaStrIdx_eq (hbits : tgt.wordBits ≤ 64) (i : Int64) (len : Nat) :
    luaStrIdx tgt i len =
      if 0 ≤ i.toInt then some (min (magnitude tgt i - 1) len)
      else if negationPanics tgt i then none else some (len - magnitude tgt i) := by
  unfold luaStrIdx
  split_ifs with hpos hpanic
  · rw [Target.toUsize, magnitude, abs_of_nonneg hpos]
  · rw [checkedI64_neg, if_pos hpanic, Option.map_none]
  · have hneg := checkedI64_neg tgt i
    rw [if_neg hpanic] at hneg
    rw [hneg, Option.map_some, toUsize_checkedI64 hbits hneg, magnitude,
      abs_of_neg (not_le.mp hpos)]

theorem luaStrEnd_eq (hbits : tgt.wordBits ≤ 64) (j : Int64) (len : Nat) :
    luaStrEnd tgt j len =
      if 0 ≤ j.toInt then some (min (magnitude tgt j) len)
      else if negationPanics tgt j then none
      else some (if magnitude tgt j > len then 0 else len - magnitude tgt j + 1) := by
  unfold luaStrEnd
  split_ifs with hpos hpanic
  · rw [Target.toUsize, magnitude, abs_of_nonneg hpos]
  · rw [checkedI64_neg, if_pos hpanic, Option.map_none]
  all_goals
    have hneg := checkedI64_neg tgt j
    rw [if_neg hpanic] at hneg
    rw [hneg, Option.map_some, toUsize_checkedI64 hbits hneg, ← abs_of_neg (not_le.mp hpos),
      ← magnitude]
    simp_all

end Indices

section Ranges

/-- What is left to do once the range is known: stop for want of gas or memory,
or cut out the bytes. -/
def rangeOutcome (stops : Nat → Option Stop) (render : Bytes → List LuaValue) (s : Bytes) :
    Option Nat → Option Nat → Except Stop (List LuaValue)
  | some start, some stop =>
    if start ≥ stop then .ok (render [])
    else
      match stops (stop - start) with
      | some e => .error e
      | none =>
        match slice s start stop with
        | some bytes => .ok (render bytes)
        | none => .error .panicked
  | _, _ => .error .panicked

/-- Neither range can be computed, or they are the same, or both are empty, or
both are longer than gas or memory allows. -/
def RangesAgree (stops : Nat → Option Stop) (start stop start' stop' : Option Nat) : Prop :=
  ((start = none ∨ stop = none) ∧ (start' = none ∨ stop' = none)) ∨
  (start = start' ∧ stop = stop') ∨
  ∃ a b a' b', (start = some a ∧ stop = some b) ∧ (start' = some a' ∧ stop' = some b') ∧
    ((b ≤ a ∧ b' ≤ a') ∨
      (a < b ∧ a' < b' ∧ (stops (b - a)).isSome ∧ stops (b - a) = stops (b' - a')))

def RangeKeepsWord (stops : Nat → Option Stop) (c : Core) (s : Bytes) (i j : Int64) : Prop :=
  RangesAgree stops (luaStrIdx (atBits 32 c).target i s.length)
    (luaStrEnd (atBits 32 c).target j s.length) (luaStrIdx (atBits 64 c).target i s.length)
    (luaStrEnd (atBits 64 c).target j s.length)

variable {c : Core}

theorem luaStrIdx_isSome_eq (i : Int64) (len : Nat) :
    (luaStrIdx (atBits 32 c).target i len).isSome =
      (luaStrIdx (atBits 64 c).target i len).isSome := by
  unfold luaStrIdx
  split_ifs
  · rfl
  · rw [Option.isSome_map, Option.isSome_map]
    rfl

theorem luaStrEnd_isSome_eq (j : Int64) (len : Nat) :
    (luaStrEnd (atBits 32 c).target j len).isSome =
      (luaStrEnd (atBits 64 c).target j len).isSome := by
  unfold luaStrEnd
  split_ifs
  · rfl
  · rw [Option.isSome_map, Option.isSome_map]
    rfl

theorem magnitude_wide (i : Int64) : magnitude (atBits 64 c).target i = i.toInt.natAbs := by
  have hle := i.le_toInt
  have hlt := i.toInt_lt
  simp only [magnitude, atBits, Int.abs_eq_natAbs]
  omega

theorem magnitude_narrow (i : Int64) :
    magnitude (atBits 32 c).target i = i.toInt.natAbs % 2 ^ 32 := by
  simp only [magnitude, atBits, Int.abs_eq_natAbs]
  omega

/-- Where the wide range is not empty, the narrow one does not reach beyond it. -/
theorem range_subset {i j : Int64} {len start stop start' stop' : Nat} (hlen : len < 2 ^ 32)
    (hstart : luaStrIdx (atBits 32 c).target i len = some start)
    (hstop : luaStrEnd (atBits 32 c).target j len = some stop)
    (hstart' : luaStrIdx (atBits 64 c).target i len = some start')
    (hstop' : luaStrEnd (atBits 64 c).target j len = some stop') (hne : start' < stop') :
    start' ≤ start ∧ stop ≤ stop' ∧ stop' ≤ len := by
  rw [luaStrIdx_eq (by simp [atBits]), magnitude_narrow] at hstart
  rw [luaStrIdx_eq (by simp [atBits]), magnitude_wide] at hstart'
  rw [luaStrEnd_eq (by simp [atBits]), magnitude_narrow] at hstop
  rw [luaStrEnd_eq (by simp [atBits]), magnitude_wide] at hstop'
  have hstop_le : stop' ≤ len := by
    split_ifs at hstop' <;> simp only [Option.some.injEq] at hstop' <;> omega
  have hstart_le : start' ≤ start := by
    by_cases hi : 0 ≤ i.toInt
    · rw [if_pos hi, Option.some.injEq] at hstart hstart'
      omega
    · rw [if_neg hi] at hstart hstart'
      split_ifs at hstart hstart'
      rw [Option.some.injEq] at hstart hstart'
      omega
  refine ⟨hstart_le, ?_, hstop_le⟩
  by_cases hj : 0 ≤ j.toInt
  · rw [if_pos hj, Option.some.injEq] at hstop hstop'
    omega
  · rw [if_neg hj] at hstop hstop'
    split_ifs at hstop hstop' <;> simp only [Option.some.injEq] at hstop hstop' <;> omega

theorem length_slice {s bytes : Bytes} {start stop : Nat} (h : slice s start stop = some bytes) :
    bytes.length = stop - start := by
  unfold slice at h
  split_ifs at h with hin
  rw [← Option.some.inj h, List.length_take, List.length_drop]
  omega

section Outcomes

variable {stops : Nat → Option Stop} {render : Bytes → List LuaValue} {s : Bytes}

theorem rangeOutcome_empty {a b : Nat} (h : b ≤ a) :
    rangeOutcome stops render s (some a) (some b) = .ok (render []) := by
  simp [rangeOutcome, h]

theorem rangeOutcome_stops {a b : Nat} (h : a < b) {e : Stop} (he : stops (b - a) = some e) :
    rangeOutcome stops render s (some a) (some b) = .error e := by
  simp [rangeOutcome, not_le.mpr h, he]

theorem rangeOutcome_cut {a b : Nat} (h : a < b) (he : stops (b - a) = none) :
    rangeOutcome stops render s (some a) (some b) =
      match slice s a b with
      | some bytes => .ok (render bytes)
      | none => .error .panicked := by
  simp [rangeOutcome, not_le.mpr h, he]

/-- A range that is not empty never looks like an empty one. -/
theorem rangeOutcome_ne_empty (hrender : ∀ b b', render b = render b' → b.length = b'.length)
    {a b : Nat} (h : a < b) : rangeOutcome stops render s (some a) (some b) ≠ .ok (render []) := by
  cases he : stops (b - a) with
  | some e => simp [rangeOutcome_stops h he]
  | none =>
    rw [rangeOutcome_cut h he]
    cases hs : slice s a b with
    | none => simp
    | some bytes =>
      have hlen := length_slice hs
      intro heq
      have hzero := hrender _ _ (Except.ok.inj heq)
      rw [List.length_nil] at hzero
      omega

theorem rangeOutcome_eq_iff (hrender : ∀ b b', render b = render b' → b.length = b'.length) {a b a' b' : Nat}
    (hsubset : a' < b' → a' ≤ a ∧ b ≤ b' ∧ b' ≤ s.length) :
    rangeOutcome stops render s (some a) (some b) =
        rangeOutcome stops render s (some a') (some b') ↔
      RangesAgree stops (some a) (some b) (some a') (some b') := by
  constructor
  · intro heq
    by_cases hab : a < b
    · by_cases hab' : a' < b'
      · obtain ⟨hleft, hright, hlen⟩ := hsubset hab'
        cases he : stops (b - a) with
        | some e =>
          cases he' : stops (b' - a') with
          | some e' =>
            rw [rangeOutcome_stops hab he, rangeOutcome_stops hab' he'] at heq
            refine Or.inr (Or.inr
              ⟨a, b, a', b', ⟨rfl, rfl⟩, ⟨rfl, rfl⟩, Or.inr ⟨hab, hab', ?_, ?_⟩⟩)
            · rw [he]
              rfl
            · rw [he, he', Except.error.inj heq]
          | none =>
            have hcut : slice s a' b' = some ((s.drop a').take (b' - a')) :=
              if_pos ⟨hab'.le, hlen⟩
            rw [rangeOutcome_stops hab he, rangeOutcome_cut hab' he', hcut] at heq
            simp at heq
        | none =>
          have hcut : slice s a b = some ((s.drop a).take (b - a)) :=
            if_pos ⟨hab.le, hright.trans hlen⟩
          rw [rangeOutcome_cut hab he, hcut] at heq
          cases he' : stops (b' - a') with
          | some e' =>
            rw [rangeOutcome_stops hab' he'] at heq
            simp at heq
          | none =>
            have hcut' : slice s a' b' = some ((s.drop a').take (b' - a')) :=
              if_pos ⟨hab'.le, hlen⟩
            rw [rangeOutcome_cut hab' he', hcut'] at heq
            have hsame := hrender _ _ (Except.ok.inj heq)
            rw [length_slice hcut, length_slice hcut'] at hsame
            have ha : a = a' := by omega
            have hb : b = b' := by omega
            exact Or.inr (Or.inl ⟨by rw [ha], by rw [hb]⟩)
      · rw [rangeOutcome_empty (not_lt.mp hab')] at heq
        exact absurd heq (rangeOutcome_ne_empty hrender hab)
    · by_cases hab' : a' < b'
      · rw [rangeOutcome_empty (not_lt.mp hab)] at heq
        exact absurd heq.symm (rangeOutcome_ne_empty hrender hab')
      · exact Or.inr (Or.inr ⟨a, b, a', b', ⟨rfl, rfl⟩, ⟨rfl, rfl⟩,
          Or.inl ⟨not_lt.mp hab, not_lt.mp hab'⟩⟩)
  · rintro (⟨hnone, -⟩ | ⟨ha, hb⟩ | ⟨_, _, _, _, ⟨ha, hb⟩, ⟨ha', hb'⟩, hcase⟩)
    · simp at hnone
    · rw [ha, hb]
    · obtain rfl := Option.some.inj ha
      obtain rfl := Option.some.inj hb
      obtain rfl := Option.some.inj ha'
      obtain rfl := Option.some.inj hb'
      rcases hcase with ⟨hab, hab'⟩ | ⟨hab, hab', hsome, hsame⟩
      · rw [rangeOutcome_empty hab, rangeOutcome_empty hab']
      · obtain ⟨e, he⟩ := Option.isSome_iff_exists.mp hsome
        rw [rangeOutcome_stops hab he, rangeOutcome_stops hab' (hsame ▸ he)]

/-- The outcomes at the two widths are the same exactly when the ranges agree. -/
theorem rangeOutcome_keepsWord_iff (hrender : ∀ b b', render b = render b' → b.length = b'.length)
    (hs : s.length < 2 ^ 32) (i j : Int64) :
    rangeOutcome stops render s (luaStrIdx (atBits 32 c).target i s.length)
        (luaStrEnd (atBits 32 c).target j s.length) =
      rangeOutcome stops render s (luaStrIdx (atBits 64 c).target i s.length)
        (luaStrEnd (atBits 64 c).target j s.length) ↔
    RangeKeepsWord stops c s i j := by
  unfold RangeKeepsWord
  have hstart := luaStrIdx_isSome_eq (c := c) i s.length
  have hstop := luaStrEnd_isSome_eq (c := c) j s.length
  cases ha : luaStrIdx (atBits 32 c).target i s.length with
  | none =>
    have ha' : luaStrIdx (atBits 64 c).target i s.length = none := by simpa [ha] using hstart.symm
    rw [ha']
    exact ⟨fun _ => Or.inl ⟨Or.inl rfl, Or.inl rfl⟩, fun _ => rfl⟩
  | some a =>
    obtain ⟨a', ha'⟩ : ∃ a', luaStrIdx (atBits 64 c).target i s.length = some a' := by
      simpa [ha, Option.isSome_iff_exists] using hstart.symm
    rw [ha']
    cases hb : luaStrEnd (atBits 32 c).target j s.length with
    | none =>
      have hb' : luaStrEnd (atBits 64 c).target j s.length = none := by simpa [hb] using hstop.symm
      rw [hb']
      exact ⟨fun _ => Or.inl ⟨Or.inr rfl, Or.inr rfl⟩, fun _ => rfl⟩
    | some b =>
      obtain ⟨b', hb'⟩ : ∃ b', luaStrEnd (atBits 64 c).target j s.length = some b' := by
        simpa [hb, Option.isSome_iff_exists] using hstop.symm
      rw [hb']
      exact rangeOutcome_eq_iff hrender fun hne => range_subset hs ha hb ha' hb' hne

end Outcomes

end Ranges

section Calls

def gasStop (c : Core) (n : Nat) : Option Stop :=
  if n > c.gas.remaining then some (.raised .gasExhausted) else none

/-- What keeps a copy of `n` bytes from being made. -/
def copyStop (c : Core) (n : Nat) : Option Stop :=
  if n > c.gas.remaining then some (.raised .gasExhausted)
  else if min (c.mem.allocated + AllocSize.string n) MemoryMeter.u64Max > c.mem.limit then
    some (.raised .memoryExhausted)
  else none

variable {c : Core}

theorem subRange_outcome (s : Bytes) (i j : Int64) :
    ((subRange s i j).run c).1 = rangeOutcome (copyStop c) (fun bytes => [.string bytes]) s
      (luaStrIdx c.target i s.length) (luaStrEnd c.target j s.length) := by
  simp only [subRange, Exec.run_bind, run_getTarget, run_orPanic]
  cases ha : luaStrIdx c.target i s.length with
  | none => rfl
  | some a =>
    cases hb : luaStrEnd c.target j s.length with
    | none => rfl
    | some b =>
      by_cases hab : b ≤ a
      · simp [hab, rangeOutcome]
      · simp only [ge_iff_le, hab, if_false, rangeOutcome, copyStop, Exec.run_bind, run_charge]
        by_cases hgas : b - a > c.gas.remaining
        · simp [hgas]
        · simp only [hgas, if_false, run_trackAlloc]
          split_ifs
          · rfl
          · simp only [run_orPanic]
            cases slice s a b <;> rfl

theorem byteRange_outcome (s : Bytes) (i j : Int64) :
    ((byteRange s i j).run c).1 = rangeOutcome (gasStop c)
      (fun bytes => bytes.map fun b => .integer (Int64.ofNat b.toNat)) s
      (luaStrIdx c.target i s.length) (luaStrEnd c.target j s.length) := by
  simp only [byteRange, Exec.run_bind, run_getTarget, run_orPanic]
  cases ha : luaStrIdx c.target i s.length with
  | none => rfl
  | some a =>
    cases hb : luaStrEnd c.target j s.length with
    | none => rfl
    | some b =>
      by_cases hab : b ≤ a
      · simp [hab, rangeOutcome]
      · simp only [ge_iff_le, hab, if_false, rangeOutcome, gasStop, Exec.run_bind, run_charge]
        by_cases hgas : b - a > c.gas.remaining
        · simp [hgas]
        · simp only [hgas, if_false, run_orPanic]
          cases slice s a b <;> rfl

theorem length_byteValues (b b' : Bytes)
    (h : (b.map fun x => LuaValue.integer (Int64.ofNat x.toNat)) =
      b'.map fun x => LuaValue.integer (Int64.ofNat x.toNat)) : b.length = b'.length := by
  have hlen := congrArg List.length h
  simpa using hlen

theorem agree_subRange_iff {s : Bytes} (hs : s.length ≤ maxStringLen) (i j : Int64) :
    Agree (subRange s i j) (subRange s i j) c ↔ RangeKeepsWord (copyStop c) c s i j := by
  have hmax : maxStringLen < 2 ^ 32 := by decide
  rw [Agree, subRange_outcome, subRange_outcome]
  exact rangeOutcome_keepsWord_iff (fun b b' h => congrArg List.length (by simpa using h))
    (by omega) i j

theorem agree_byteRange_iff {s : Bytes} (hs : s.length ≤ maxStringLen) (i j : Int64) :
    Agree (byteRange s i j) (byteRange s i j) c ↔ RangeKeepsWord (gasStop c) c s i j := by
  have hmax : maxStringLen < 2 ^ 32 := by decide
  rw [Agree, byteRange_outcome, byteRange_outcome]
  exact rangeOutcome_keepsWord_iff length_byteValues (by omega) i j

/-- A count that fits 32 bits, or nothing to repeat, or a result too long even
for the low bits of the count. -/
def RepeatKeepsWord (s : Bytes) (n : Int64) : Prop :=
  n.toInt < 2 ^ 32 ∨ s = [] ∨ maxStringLen < s.length * lowIndex n

def repeatStop (c : Core) (len : Nat) : Option Stop :=
  if len > maxStringLen then some (.raised (runtimeErr (ascii "string length overflow")))
  else copyStop c len

theorem repeated_outcome (s : Bytes) (n : Nat) (hbits : 17 ≤ c.target.wordBits) :
    ((repeated s n).run c).1 =
      match repeatStop c (s.length * n) with
      | some e => .error e
      | none => .ok [.string (List.replicate n s).flatten] := by
  have hcap : maxStringLen < 2 ^ c.target.wordBits - 1 := by
    have hpow := Nat.pow_le_pow_right (by norm_num : 0 < 2) hbits
    have hmax : maxStringLen = 65536 := rfl
    omega
  have hmin : min (s.length * n) (2 ^ c.target.wordBits - 1) > maxStringLen ↔
      s.length * n > maxStringLen := by omega
  simp only [repeated, repeatStop, Exec.run_bind, run_getTarget, run_liftError, checkStringLen,
    hmin]
  by_cases hlen : s.length * n > maxStringLen
  · simp only [if_pos hlen]
  · have hexact : min (s.length * n) (2 ^ c.target.wordBits - 1) = s.length * n := by omega
    simp only [if_neg hlen, copyStop, run_charge, hexact]
    by_cases hgas : s.length * n > c.gas.remaining
    · simp only [if_pos hgas]
    · simp only [if_neg hgas, run_trackAlloc]
      split_ifs <;> rfl

theorem repeatStop_ne_overflow {len : Nat} (h : len ≤ maxStringLen) :
    repeatStop c len ≠ some (.raised (runtimeErr (ascii "string length overflow"))) := by
  rw [repeatStop, if_neg (by omega), copyStop]
  split_ifs <;> simp [runtimeErr]

theorem agree_repeated_iff {s : Bytes} (n : Int64) (hpos : 0 < n.toInt) :
    Agree (repeated s ((atBits 32 c).target.toUsize n))
      (repeated s ((atBits 64 c).target.toUsize n)) c ↔ RepeatKeepsWord s n := by
  have hmax : maxStringLen = 65536 := rfl
  have hlow := lowIndex_lt n
  have hle : lowIndex n ≤ n.toInt.toNat := by
    unfold lowIndex
    omega
  have hnarrow : (atBits 32 c).target.toUsize n = lowIndex n := toUsize_eq_lowIndex rfl n
  have hwide : (atBits 64 c).target.toUsize n = n.toInt.toNat :=
    toUsize_of_wide (by simp [atBits]) hpos.le
  have hstop : ∀ bits len, repeatStop (atBits bits c) len = repeatStop c len := fun _ _ => rfl
  rw [Agree, hnarrow, hwide, repeated_outcome _ _ (by simp [atBits]),
    repeated_outcome _ _ (by simp [atBits]), hstop, hstop]
  constructor
  · intro heq
    by_contra hnot
    simp only [RepeatKeepsWord, not_or, not_lt] at hnot
    obtain ⟨hn, hs, hlen⟩ := hnot
    have hslen : 0 < s.length := List.length_pos_iff.mpr hs
    have hbig : maxStringLen < s.length * n.toInt.toNat :=
      lt_of_lt_of_le (by omega) (Nat.le_mul_of_pos_left n.toInt.toNat hslen)
    have hover : repeatStop c (s.length * n.toInt.toNat) =
        some (.raised (runtimeErr (ascii "string length overflow"))) := if_pos hbig
    have hnever := repeatStop_ne_overflow (c := c) hlen
    rw [hover] at heq
    cases hrep : repeatStop c (s.length * lowIndex n) with
    | none => simp [hrep] at heq
    | some e =>
      rw [hrep] at heq hnever
      exact hnever (congrArg some (Except.error.inj heq))
  · rintro (hn | rfl | hlen)
    · have hfit : lowIndex n = n.toInt.toNat := by
        unfold lowIndex
        omega
      rw [hfit]
    · simp
    · have hbig : maxStringLen < s.length * n.toInt.toNat :=
        lt_of_lt_of_le hlen (Nat.mul_le_mul_left _ hle)
      have hover : ∀ len, maxStringLen < len → repeatStop c len =
          some (.raised (runtimeErr (ascii "string length overflow"))) := fun _ h => if_pos h
      rw [hover _ hlen, hover _ hbig]

/-- The search once its gas is paid. -/
def searchResult (haystack needle : Bytes) (init : Nat) : List LuaValue :=
  if needle = [] then
    [.integer (Int64.ofNat (min init haystack.length + 1)),
      .integer (Int64.ofNat (min init haystack.length))]
  else if init > haystack.length then [.nil, .nil]
  else
    match position needle (haystack.drop init) with
    | some offset => [.integer (Int64.ofNat (init + offset + 1)),
        .integer (Int64.ofNat (init + offset + needle.length))]
    | none => [.nil, .nil]

theorem search_outcome (haystack needle : Bytes) (init : Nat) :
    ((literalSubstringSearch haystack needle init).run c).1 =
      match gasStop c haystack.length with
      | some e => .error e
      | none => .ok (searchResult haystack needle init) := by
  simp only [literalSubstringSearch, searchResult, gasStop, Exec.run_bind, run_charge]
  by_cases hgas : haystack.length > c.gas.remaining
  · simp only [if_pos hgas]
  · simp only [if_neg hgas]
    split_ifs
    · rfl
    · rfl
    · cases position needle (haystack.drop init) <;> rfl

/-- A start that fits 32 bits, or too little gas to search, or a start whose low
bits still lie beyond every occurrence. -/
def FindKeepsWord (c : Core) (s needle : Bytes) (n : Int64) : Prop :=
  n.toInt ≤ 2 ^ 32 ∨ c.gas.remaining < s.length ∨
    (needle = [] ∧ s.length ≤ lowIndex (n - 1)) ∨
    (needle ≠ [] ∧ (s.length < lowIndex (n - 1) ∨
      position needle (s.drop (lowIndex (n - 1))) = none))

/-- The start of the search, from an index that is 0 when it was left out. -/
def findStart (tgt : Target) (n : Int64) : Nat := if n.toInt < 1 then 0 else tgt.toUsize (n - 1)

theorem searchResult_eq_iff {s needle : Bytes} (hs : s.length ≤ maxStringLen) {a b : Nat}
    (hb : s.length < b) :
    searchResult s needle a = searchResult s needle b ↔
      (needle = [] ∧ s.length ≤ a) ∨
      (needle ≠ [] ∧ (s.length < a ∨ position needle (s.drop a) = none)) := by
  have hmax : maxStringLen = 65536 := rfl
  by_cases hneedle : needle = []
  · have hmin : min b s.length = s.length := by omega
    simp only [searchResult, hneedle, if_true, hmin, ne_eq, not_true_eq_false, false_and, or_false,
      true_and, List.cons.injEq, LuaValue.integer.injEq, and_true]
    constructor
    · rintro ⟨-, hval⟩
      have hint := congrArg Int64.toInt hval
      rw [toInt_arrayKey (by omega), toInt_arrayKey (by omega)] at hint
      omega
    · intro ha
      rw [min_eq_right ha]
      exact ⟨rfl, rfl⟩
  · simp only [searchResult, hneedle, if_false, if_pos hb, false_and, false_or, ne_eq,
      not_false_eq_true, true_and]
    by_cases ha : a > s.length
    · simp [ha]
    · simp only [ha, if_false, false_or]
      cases position needle (s.drop a) <;> simp

theorem agree_search_iff {s needle : Bytes} (hs : s.length ≤ maxStringLen) (n : Int64) :
    Agree (literalSubstringSearch s needle (findStart (atBits 32 c).target n))
      (literalSubstringSearch s needle (findStart (atBits 64 c).target n)) c ↔
      FindKeepsWord c s needle n := by
  have hmax : maxStringLen = 65536 := rfl
  have hstop : ∀ bits len, gasStop (atBits bits c) len = gasStop c len := fun _ _ => rfl
  rw [Agree, search_outcome, search_outcome, hstop, hstop, FindKeepsWord]
  by_cases hgas : s.length > c.gas.remaining
  · simp [gasStop, hgas]
  · have hnone : gasStop c s.length = none := if_neg hgas
    have hgas' : ¬c.gas.remaining < s.length := hgas
    simp only [hnone, Except.ok.injEq, hgas', false_or]
    by_cases hpos : n.toInt < 1
    · have hsmall : n.toInt ≤ 2 ^ 32 := by omega
      exact iff_of_true (by simp [findStart, hpos]) (Or.inl hsmall)
    · have hsub : (n - 1).toInt = n.toInt - 1 := by
        have hlt := n.toInt_lt
        have hone : (1 : Int64).toInt = 1 := by decide
        rw [Int64.toInt_sub, hone, Int.bmod_def]
        have hsize : (2 : Int) ^ 64 = 18446744073709551616 := by norm_num
        split_ifs <;> omega
      have hwide : findStart (atBits 64 c).target n = (n.toInt - 1).toNat := by
        rw [findStart, if_neg hpos, toUsize_of_wide (by simp [atBits]) (by omega), hsub]
      have hnarrow : findStart (atBits 32 c).target n = lowIndex (n - 1) := by
        rw [findStart, if_neg hpos, toUsize_eq_lowIndex rfl]
      rw [hwide, hnarrow]
      by_cases hfit : n.toInt ≤ 2 ^ 32
      · have hlow : lowIndex (n - 1) = (n.toInt - 1).toNat := by
          rw [lowIndex, hsub]
          omega
        exact iff_of_true (by rw [hlow]) (Or.inl hfit)
      · rw [searchResult_eq_iff hs (by omega), or_iff_right hfit]

end Calls

section Builtins

/-- Every call on these arguments with the same outcome at both widths. -/
def SameAt (f : List LuaValue → Vm (List LuaValue)) (args : List LuaValue) (c : Core) : Prop :=
  Agree (f args) (f args) c

def SubKeepsWord (args : List LuaValue) (c : Core) : Prop :=
  ∀ s i j, requireString args 0 "string.sub" = .ok s →
    requireInteger args 1 "string.sub" = .ok i →
    optionalInteger args 2 "string.sub" "integer for j" (Int64.ofNat s.length) = .ok j →
    RangeKeepsWord (copyStop c) c s i j

def ByteKeepsWord (args : List LuaValue) (c : Core) : Prop :=
  ∀ s i, requireString args 0 "string.byte" = .ok s →
    (if args.length ≥ 2 then requireInteger args 1 "string.byte" else .ok 1) = .ok i →
    RangeKeepsWord (gasStop c) c s i (byteEnd args i)

def RepKeepsWord (args : List LuaValue) : Prop :=
  ∀ s n, requireString args 0 "string.rep" = .ok s →
    requireInteger args 1 "string.rep" = .ok n → RepeatKeepsWord s n

/-- The `init` argument, 0 when it is left out. -/
def findIndex (args : List LuaValue) (fname : String) : Except VmError Int64 :=
  if args.length < 3 then .ok 0 else optionalInteger args 2 fname "integer for init" 0

def FindArgsKeepWord (args : List LuaValue) (c : Core) : Prop :=
  ∀ s pat n plain, requireString args 0 "string.find" = .ok s →
    requireString args 1 "string.find" = .ok pat → findIndex args "string.find" = .ok n →
    parseFindPlain args "string.find" = .ok plain →
    (plain = false → checkNoPatternMetachar pat = .ok ()) → FindKeepsWord c s pat n

def FindLiteralKeepsWord (args : List LuaValue) (c : Core) : Prop :=
  ∀ s needle n, requireString args 0 "string.find_literal" = .ok s →
    requireString args 1 "string.find_literal" = .ok needle →
    findIndex args "string.find_literal" = .ok n → FindKeepsWord c s needle n

variable {args : List LuaValue} {c : Core}

theorem mem_of_requireString {idx : Nat} {fname : String} {s : Bytes}
    (h : requireString args idx fname = .ok s) : LuaValue.string s ∈ args :=
  List.mem_of_getElem? (requireString_ok.mp h)

theorem parseFindInit_eq (tgt : Target) (fname : String) :
    parseFindInit tgt args fname = (findIndex args fname).map (findStart tgt) := by
  unfold parseFindInit findIndex
  split_ifs with hlen
  · rfl
  · cases optionalInteger args 2 fname "integer for init" 0 with
    | error e => rfl
    | ok n =>
      simp only [bind, Except.bind, Except.map, findStart]
      split_ifs <;> rfl

theorem sameAt_stringSub_iff (hargs : ∀ s, .string s ∈ args → s.length ≤ maxStringLen) :
    SameAt stringSub args c ↔ SubKeepsWord args c := by
  unfold SameAt stringSub SubKeepsWord
  simp only [agree_liftError_bind_iff]
  constructor
  · intro h s i j hs hi hj
    exact (agree_subRange_iff (hargs s (mem_of_requireString hs)) i j).mp (h s hs i hi j hj)
  · intro h s hs i hi j hj
    exact (agree_subRange_iff (hargs s (mem_of_requireString hs)) i j).mpr (h s i j hs hi hj)

theorem sameAt_stringByte_iff (hargs : ∀ s, .string s ∈ args → s.length ≤ maxStringLen) :
    SameAt stringByte args c ↔ ByteKeepsWord args c := by
  unfold SameAt stringByte ByteKeepsWord
  simp only [agree_liftError_bind_iff]
  constructor
  · intro h s i hs hi
    exact (agree_byteRange_iff (hargs s (mem_of_requireString hs)) i _).mp (h s hs i hi)
  · intro h s hs i hi
    exact (agree_byteRange_iff (hargs s (mem_of_requireString hs)) i _).mpr (h s i hs hi)

theorem sameAt_stringRep_iff : SameAt stringRep args c ↔ RepKeepsWord args := by
  unfold SameAt stringRep RepKeepsWord
  simp only [agree_liftError_bind_iff]
  have hcount : ∀ (s : Bytes) (n : Int64),
      Agree (if n.toInt ≤ 0 then pure [.string []] else do repeated s ((← getTarget).toUsize n))
        (if n.toInt ≤ 0 then pure [.string []] else do repeated s ((← getTarget).toUsize n)) c ↔
      RepeatKeepsWord s n := by
    intro s n
    by_cases hn : n.toInt ≤ 0
    · exact iff_of_true (by simp [Agree, hn]) (Or.inl (by omega))
    · rw [← agree_repeated_iff (c := c) n (by omega), if_neg hn]
      rfl
  exact ⟨fun h s n hs hn => (hcount s n).mp (h s hs n hn),
    fun h s hs n hn => (hcount s n).mpr (h s n hs hn)⟩

/-- The common end of both searches, where each width has its own start. -/
theorem agree_findInit_bind_iff {β : Type} (fname : String) (f : Nat → Vm β) :
    Agree (do let tgt ← getTarget; let init ← liftError (parseFindInit tgt args fname); f init)
      (do let tgt ← getTarget; let init ← liftError (parseFindInit tgt args fname); f init) c ↔
    ∀ n, findIndex args fname = .ok n →
      Agree (f (findStart (atBits 32 c).target n)) (f (findStart (atBits 64 c).target n)) c := by
  simp only [Agree, Exec.run_bind, run_getTarget, run_liftError, parseFindInit_eq]
  cases findIndex args fname with
  | error e => simp [Except.map]
  | ok n => simp [Except.map]

theorem sameAt_stringFindLiteral_iff (hargs : ∀ s, .string s ∈ args → s.length ≤ maxStringLen) :
    SameAt stringFindLiteral args c ↔ FindLiteralKeepsWord args c := by
  unfold SameAt stringFindLiteral FindLiteralKeepsWord
  simp only [agree_liftError_bind_iff, agree_findInit_bind_iff]
  constructor
  · intro h s needle n hs hneedle hn
    exact (agree_search_iff (hargs s (mem_of_requireString hs)) n).mp (h s hs needle hneedle n hn)
  · intro h s hs needle hneedle n hn
    exact (agree_search_iff (hargs s (mem_of_requireString hs)) n).mpr (h s needle n hs hneedle hn)

theorem agree_unless_iff {β : Type} (plain : Bool) (e : Except VmError Unit) (m m' : Vm β) :
    Agree (if plain = false then do liftError e; m else m)
      (if plain = false then do liftError e; m' else m') c ↔
    ((plain = false → e = .ok ()) → Agree m m' c) := by
  cases plain with
  | true => simp
  | false =>
    simp only [if_true, agree_liftError_bind_iff, forall_const]
    exact ⟨fun h he => h () he, fun h _ he => h he⟩

theorem sameAt_stringFind_iff (hargs : ∀ s, .string s ∈ args → s.length ≤ maxStringLen) :
    SameAt stringFind args c ↔ FindArgsKeepWord args c := by
  unfold SameAt stringFind FindArgsKeepWord
  simp only [agree_liftError_bind_iff, agree_findInit_bind_iff, Bool.not_eq_true',
    agree_unless_iff]
  constructor
  · intro h s pat n plain hs hpat hn hplain hmeta
    exact (agree_search_iff (hargs s (mem_of_requireString hs)) n).mp
      (h s hs pat hpat n hn plain hplain hmeta)
  · intro h s hs pat hpat n hn plain hplain hmeta
    exact (agree_search_iff (hargs s (mem_of_requireString hs)) n).mpr
      (h s pat n plain hs hpat hn hplain hmeta)

/-- Table runs and string calls do not depend on the width of `usize` exactly
when the integers given to them keep their meaning in 32 bits. -/
theorem wordSize_independent_iff (args : List LuaValue) (c : Core)
    (hargs : ∀ s, .string s ∈ args → s.length ≤ maxStringLen) :
    (∀ ops : List (TableOp LuaValue),
      (new.runAt (atBits 32 c).target ops = new.runAt (atBits 64 c).target ops ↔
        (new : LuaTable LuaValue).KeepsWordRun ops)) ∧
    (SameAt stringSub args c ↔ SubKeepsWord args c) ∧
    (SameAt stringByte args c ↔ ByteKeepsWord args c) ∧
    (SameAt stringRep args c ↔ RepKeepsWord args) ∧
    (SameAt stringFind args c ↔ FindArgsKeepWord args c) ∧
    (SameAt stringFindLiteral args c ↔ FindLiteralKeepsWord args c) :=
  ⟨fun ops => runAt_eq_iff rfl le_rfl wf_new ops, sameAt_stringSub_iff hargs,
    sameAt_stringByte_iff hargs, sameAt_stringRep_iff, sameAt_stringFind_iff hargs,
    sameAt_stringFindLiteral_iff hargs⟩

def releaseTarget : Target := ⟨64, false, 2 ^ 58⟩

def defaultCore : Core := .fresh releaseTarget 200000 (16 * 1024 * 1024) .empty

theorem wordSize_independent_iff_sub :
    (∀ ops : List (TableOp LuaValue),
      (new.runAt (atBits 32 defaultCore).target ops =
          new.runAt (atBits 64 defaultCore).target ops ↔
        (new : LuaTable LuaValue).KeepsWordRun ops)) ∧
    (SameAt stringSub [.string (ascii "abc"), .integer 2] defaultCore ↔
      SubKeepsWord [.string (ascii "abc"), .integer 2] defaultCore) ∧
    (SameAt stringByte [.string (ascii "abc"), .integer 2] defaultCore ↔
      ByteKeepsWord [.string (ascii "abc"), .integer 2] defaultCore) ∧
    (SameAt stringRep [.string (ascii "abc"), .integer 2] defaultCore ↔
      RepKeepsWord [.string (ascii "abc"), .integer 2]) ∧
    (SameAt stringFind [.string (ascii "abc"), .integer 2] defaultCore ↔
      FindArgsKeepWord [.string (ascii "abc"), .integer 2] defaultCore) ∧
    (SameAt stringFindLiteral [.string (ascii "abc"), .integer 2] defaultCore ↔
      FindLiteralKeepsWord [.string (ascii "abc"), .integer 2] defaultCore) :=
  wordSize_independent_iff _ _ fun s hs => by
    simp only [List.mem_cons, LuaValue.string.injEq, reduceCtorEq, List.not_mem_nil,
      or_false] at hs
    rw [hs]
    decide

/-- `t[2^32 + 1] = true` on an empty table, then reading `t[1]`; and
`string.rep("a", 2^32 + 1)`. -/
theorem wordSize_differs :
    (((new : LuaTable LuaValue).applyAt (atBits 32 defaultCore).target
        (.rawset (.integer 4294967297) (.boolean true))).map fun p => p.2.get (.integer 1)) =
      some (some (.boolean true)) ∧
    (((new : LuaTable LuaValue).applyAt (atBits 64 defaultCore).target
        (.rawset (.integer 4294967297) (.boolean true))).map fun p => p.2.get (.integer 1)) =
      some none ∧
    ((stringRep [.string (ascii "a"), .integer 4294967297]).run (atBits 32 defaultCore)).1 =
      .ok [.string (ascii "a")] ∧
    ((stringRep [.string (ascii "a"), .integer 4294967297]).run (atBits 64 defaultCore)).1 =
      .error (.raised (runtimeErr (ascii "string length overflow"))) := by
  decide

end Builtins

end Proveno.Vm
