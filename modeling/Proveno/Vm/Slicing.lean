import Proveno.Vm.WordSize

/-! `string.sub` and `string.byte` against the positions of the Lua manual, computed in
unbounded integers. -/

namespace Proveno.Vm

section Positions

/-- The first position of a slice, counted from one, for an index of this sign and
magnitude. A negative index counts from the end. -/
def firstPosition (len : Nat) (negative : Bool) (m : Nat) : Int :=
  max 1 (if negative then len + 1 - m else m)

def lastPosition (len : Nat) (negative : Bool) (m : Nat) : Int :=
  min len (if negative then len + 1 - m else m)

/-- The bytes from one position to another, none when there is none between them. -/
def bytesBetween (s : Bytes) (first last : Int) : Bytes :=
  if first ≤ last then (s.drop (first - 1).toNat).take (last - first + 1).toNat else []

/-- `s:sub(i, j)` by the manual. -/
def luaSlice (s : Bytes) (i j : Int64) : Bytes :=
  bytesBetween s (firstPosition s.length (i.toInt < 0) i.toInt.natAbs)
    (lastPosition s.length (j.toInt < 0) j.toInt.natAbs)

theorem length_bytesBetween {s : Bytes} {first last : Int} (hfirst : 1 ≤ first)
    (hlast : last ≤ s.length) :
    ((bytesBetween s first last).length : Int) = max 0 (last - first + 1) := by
  unfold bytesBetween
  split_ifs with h
  · rw [List.length_take, List.length_drop]
    omega
  · simp only [List.length_nil]
    omega

end Positions

/-- The bytes as the result of a call, or what keeps the call from paying for them. -/
def sliceOutcome (stops : Nat → Option Stop) (render : Bytes → List LuaValue) (bytes : Bytes) :
    Except Stop (List LuaValue) :=
  if bytes = [] then .ok (render [])
  else
    match stops bytes.length with
    | some e => .error e
    | none => .ok (render bytes)

/-- Both calls deliver the slice of the manual on every host with words of this width,
with and without overflow checks. -/
def Slices (bits : Nat) (s : Bytes) (i j : Int64) : Prop :=
  ∀ c : Core, c.target.wordBits = bits →
    ((stringSub [.string s, .integer i, .integer j]).run c).1 =
      sliceOutcome (copyStop c) (fun bytes => [.string bytes]) (luaSlice s i j) ∧
    ((stringByte [.string s, .integer i, .integer j]).run c).1 =
      sliceOutcome (gasStop c) (fun bytes => bytes.map fun b => .integer (Int64.ofNat b.toNat))
        (luaSlice s i j)

/-- The indices have a negation, and cutting their magnitudes to words of the host leaves
the range of positions as it is, or both ranges empty. -/
structure KeepsRange (bits : Nat) (s : Bytes) (i j : Int64) : Prop where
  first_ne : i ≠ Int64.minValue
  last_ne : j ≠ Int64.minValue
  last_cut : j.toInt < 0 → j.toInt.natAbs % 2 ^ bits ≠ 0
  range :
    (firstPosition s.length (i.toInt < 0) (i.toInt.natAbs % 2 ^ bits) =
        firstPosition s.length (i.toInt < 0) i.toInt.natAbs ∧
      lastPosition s.length (j.toInt < 0) (j.toInt.natAbs % 2 ^ bits) =
        lastPosition s.length (j.toInt < 0) j.toInt.natAbs) ∨
    (lastPosition s.length (j.toInt < 0) (j.toInt.natAbs % 2 ^ bits) <
        firstPosition s.length (i.toInt < 0) (i.toInt.natAbs % 2 ^ bits) ∧
      lastPosition s.length (j.toInt < 0) j.toInt.natAbs <
        firstPosition s.length (i.toInt < 0) i.toInt.natAbs)

/-- With 64-bit words only the least index has no negation. -/
theorem keepsRange_wide (s : Bytes) (i j : Int64) :
    KeepsRange 64 s i j ↔ i ≠ Int64.minValue ∧ j ≠ Int64.minValue := by
  constructor
  · exact fun h => ⟨h.first_ne, h.last_ne⟩
  · rintro ⟨hi, hj⟩
    have hile := i.le_toInt
    have hilt := i.toInt_lt
    have hjle := j.le_toInt
    have hjlt := j.toInt_lt
    have hicut : i.toInt.natAbs % 2 ^ 64 = i.toInt.natAbs := Nat.mod_eq_of_lt (by omega)
    have hjcut : j.toInt.natAbs % 2 ^ 64 = j.toInt.natAbs := Nat.mod_eq_of_lt (by omega)
    refine ⟨hi, hj, fun hneg => ?_, .inl ⟨?_, ?_⟩⟩
    · rw [hjcut]
      omega
    · rw [hicut]
    · rw [hjcut]

section Ranges

variable {tgt : Target} {s : Bytes} {i j : Int64}

theorem magnitude_eq_natAbs (tgt : Target) (i : Int64) :
    magnitude tgt i = i.toInt.natAbs % 2 ^ tgt.wordBits := by
  rw [magnitude, Int.abs_eq_natAbs]
  norm_cast

theorem toInt_eq_min_iff : i.toInt = -2 ^ 63 ↔ i = Int64.minValue := by
  rw [← Int64.toInt_inj]
  rfl

/-- The start of the code's range in terms of positions. -/
theorem luaStrIdx_position (hbits : tgt.wordBits ≤ 64) (hi : i ≠ Int64.minValue) :
    ∃ a, luaStrIdx tgt i s.length = some a ∧ (a : Int) = min (s.length : Int)
      (firstPosition s.length (i.toInt < 0) (i.toInt.natAbs % 2 ^ tgt.wordBits) - 1) := by
  have hpanic : ¬negationPanics tgt i := fun h => hi (toInt_eq_min_iff.mp h.2)
  rw [luaStrIdx_eq hbits, if_neg hpanic, magnitude_eq_natAbs]
  generalize i.toInt.natAbs % 2 ^ tgt.wordBits = m
  by_cases hneg : i.toInt < 0
  · rw [if_neg (by omega)]
    refine ⟨_, rfl, ?_⟩
    simp only [firstPosition, hneg, decide_true, ↓reduceIte]
    omega
  · rw [if_pos (by omega)]
    refine ⟨_, rfl, ?_⟩
    simp only [firstPosition, hneg, decide_false, Bool.false_eq_true, ↓reduceIte]
    omega

theorem luaStrEnd_position (hbits : tgt.wordBits ≤ 64) (hj : j ≠ Int64.minValue)
    (hcut : j.toInt < 0 → j.toInt.natAbs % 2 ^ tgt.wordBits ≠ 0) :
    ∃ b, luaStrEnd tgt j s.length = some b ∧ (b : Int) = max 0
      (lastPosition s.length (j.toInt < 0) (j.toInt.natAbs % 2 ^ tgt.wordBits)) := by
  have hpanic : ¬negationPanics tgt j := fun h => hj (toInt_eq_min_iff.mp h.2)
  rw [luaStrEnd_eq hbits, if_neg hpanic, magnitude_eq_natAbs]
  generalize j.toInt.natAbs % 2 ^ tgt.wordBits = m at hcut
  by_cases hneg : j.toInt < 0
  · have hm := hcut hneg
    rw [if_neg (by omega)]
    refine ⟨_, rfl, ?_⟩
    simp only [lastPosition, hneg, decide_true, ↓reduceIte]
    split_ifs <;> omega
  · rw [if_pos (by omega)]
    refine ⟨_, rfl, ?_⟩
    simp only [lastPosition, hneg, decide_false, Bool.false_eq_true, ↓reduceIte]
    omega

/-- The code cuts out the bytes between the positions of the cut magnitudes. -/
theorem rangeOutcome_positions {stops : Nat → Option Stop} {render : Bytes → List LuaValue}
    {a b : Nat} {first last : Int} (hfirst : 1 ≤ first) (hlast : last ≤ s.length)
    (ha : (a : Int) = min (s.length : Int) (first - 1)) (hb : (b : Int) = max 0 last) :
    rangeOutcome stops render s (some a) (some b) =
      sliceOutcome stops render (bytesBetween s first last) := by
  have hlen := length_bytesBetween hfirst hlast
  by_cases hle : first ≤ last
  · have hab : a < b := by omega
    have hne : bytesBetween s first last ≠ [] := by
      intro hnil
      rw [hnil, List.length_nil] at hlen
      omega
    have hcount : (bytesBetween s first last).length = b - a := by omega
    have hslice : slice s a b = some (bytesBetween s first last) := by
      have hstart : (first - 1).toNat = a := by omega
      have hsize : (last - first + 1).toNat = b - a := by omega
      rw [slice, if_pos ⟨hab.le, by omega⟩, bytesBetween, if_pos hle, hstart, hsize]
    rw [rangeOutcome, if_neg (by omega), sliceOutcome, if_neg hne, hcount, hslice]
    all_goals rfl
  · have hnil : bytesBetween s first last = [] := if_neg hle
    rw [rangeOutcome_empty (by omega), sliceOutcome, if_pos hnil]

theorem one_le_firstPosition (len : Nat) (negative : Bool) (m : Nat) :
    1 ≤ firstPosition len negative m := le_max_left _ _

theorem lastPosition_le (len : Nat) (negative : Bool) (m : Nat) :
    lastPosition len negative m ≤ len := min_le_left _ _

theorem length_luaSlice (s : Bytes) (i j : Int64) : (luaSlice s i j).length ≤ s.length := by
  have hfirst := one_le_firstPosition s.length (i.toInt < 0) i.toInt.natAbs
  have hlast := lastPosition_le s.length (j.toInt < 0) j.toInt.natAbs
  have hlen := length_bytesBetween hfirst hlast
  rw [← luaSlice] at hlen
  omega

theorem KeepsRange.bytesBetween_eq {bits : Nat} (h : KeepsRange bits s i j) :
    bytesBetween s (firstPosition s.length (i.toInt < 0) (i.toInt.natAbs % 2 ^ bits))
      (lastPosition s.length (j.toInt < 0) (j.toInt.natAbs % 2 ^ bits)) = luaSlice s i j := by
  rcases h.range with ⟨hfirst, hlast⟩ | ⟨hcut, hexact⟩
  · rw [hfirst, hlast, luaSlice]
  · rw [luaSlice, bytesBetween, bytesBetween, if_neg (by omega), if_neg (by omega)]

theorem KeepsRange.rangeOutcome_eq (hbits : tgt.wordBits ≤ 64) (h : KeepsRange tgt.wordBits s i j)
    (stops : Nat → Option Stop) (render : Bytes → List LuaValue) :
    rangeOutcome stops render s (luaStrIdx tgt i s.length) (luaStrEnd tgt j s.length) =
      sliceOutcome stops render (luaSlice s i j) := by
  obtain ⟨a, hstart, ha⟩ := luaStrIdx_position hbits (s := s) h.first_ne
  obtain ⟨b, hstop, hb⟩ := luaStrEnd_position hbits (s := s) h.last_ne h.last_cut
  rw [hstart, hstop, rangeOutcome_positions (one_le_firstPosition ..) (lastPosition_le ..) ha hb,
    h.bytesBetween_eq]

theorem stringSub_integers (s : Bytes) (i j : Int64) :
    stringSub [.string s, .integer i, .integer j] = subRange s i j := rfl

theorem stringByte_integers (s : Bytes) (i j : Int64) :
    stringByte [.string s, .integer i, .integer j] = byteRange s i j := rfl

theorem luaStrIdx_none (hcheck : tgt.overflowChecks = true) (hbits : tgt.wordBits ≤ 64)
    (len : Nat) : luaStrIdx tgt Int64.minValue len = none := by
  rw [luaStrIdx_eq hbits, if_neg (by decide), if_pos ⟨hcheck, by decide⟩]

theorem luaStrEnd_none (hcheck : tgt.overflowChecks = true) (hbits : tgt.wordBits ≤ 64)
    (len : Nat) : luaStrEnd tgt Int64.minValue len = none := by
  rw [luaStrEnd_eq hbits, if_neg (by decide), if_pos ⟨hcheck, by decide⟩]

theorem luaStrEnd_past (hbits : tgt.wordBits ≤ 64) (hj : j ≠ Int64.minValue)
    (hneg : j.toInt < 0) (hcut : j.toInt.natAbs % 2 ^ tgt.wordBits = 0) (len : Nat) :
    luaStrEnd tgt j len = some (len + 1) := by
  have hpanic : ¬negationPanics tgt j := fun h => hj (toInt_eq_min_iff.mp h.2)
  rw [luaStrEnd_eq hbits, if_neg (by omega), if_neg hpanic, magnitude_eq_natAbs, hcut]
  simp

/-- Cutting can only shrink a range that is not empty. -/
theorem positions_subset {bits : Nat} (hs : s.length < 2 ^ bits)
    (hne : firstPosition s.length (i.toInt < 0) i.toInt.natAbs ≤
      lastPosition s.length (j.toInt < 0) j.toInt.natAbs) :
    firstPosition s.length (i.toInt < 0) i.toInt.natAbs ≤
        firstPosition s.length (i.toInt < 0) (i.toInt.natAbs % 2 ^ bits) ∧
      lastPosition s.length (j.toInt < 0) (j.toInt.natAbs % 2 ^ bits) ≤
        lastPosition s.length (j.toInt < 0) j.toInt.natAbs := by
  have hile := Nat.mod_le i.toInt.natAbs (2 ^ bits)
  have hjle := Nat.mod_le j.toInt.natAbs (2 ^ bits)
  have hfits : ∀ {m : Nat}, m ≤ s.length → m % 2 ^ bits = m := fun h =>
    Nat.mod_eq_of_lt (h.trans_lt hs)
  have hfirst := one_le_firstPosition s.length (i.toInt < 0) i.toInt.natAbs
  have hlast := lastPosition_le s.length (j.toInt < 0) j.toInt.natAbs
  constructor
  · by_cases hneg : i.toInt < 0
    · simp only [firstPosition, hneg, decide_true, ↓reduceIte]
      omega
    · simp only [firstPosition, hneg, decide_false, Bool.false_eq_true, ↓reduceIte] at hne ⊢
      rw [hfits (by omega)]
  · by_cases hneg : j.toInt < 0
    · simp only [lastPosition, hneg, decide_true, ↓reduceIte] at hne ⊢
      rw [hfits (by omega)]
    · simp only [lastPosition, hneg, decide_false, Bool.false_eq_true, ↓reduceIte]
      omega

end Ranges

/-- Both calls agree with the manual exactly when their indices keep the range. -/
theorem slices_iff {bits : Nat} (hbits : bits ≤ 64) {s : Bytes} (hs : s.length < 2 ^ bits)
    (i j : Int64) : Slices bits s i j ↔ KeepsRange bits s i j := by
  constructor
  · intro h
    let c := Core.fresh ⟨bits, true, 0⟩ (s.length + 1) MemoryMeter.u64Max .empty
    have hstops : ∀ n ≤ s.length + 1, copyStop c n = none := by
      intro n hn
      have hgas : c.gas.remaining = s.length + 1 := rfl
      have hmem : c.mem.limit = MemoryMeter.u64Max := rfl
      rw [copyStop, hgas, hmem, if_neg (by omega), if_neg (by omega)]
    have hpaid : ∀ bytes : Bytes, bytes.length ≤ s.length →
        sliceOutcome (copyStop c) (fun bytes => [.string bytes]) bytes = .ok [.string bytes] := by
      intro bytes hlen
      rw [sliceOutcome, hstops _ (by omega)]
      split_ifs with hnil
      · rw [hnil]
      · rfl
    have hout := (h c rfl).1
    rw [stringSub_integers, subRange_outcome, hpaid _ (length_luaSlice s i j)] at hout
    have hbits' : c.target.wordBits ≤ 64 := hbits
    have hi : i ≠ Int64.minValue := by
      rintro rfl
      simp [luaStrIdx_none rfl hbits', rangeOutcome] at hout
    obtain ⟨a, hstart, ha⟩ := luaStrIdx_position hbits' (s := s) hi
    have hj : j ≠ Int64.minValue := by
      rintro rfl
      simp [luaStrEnd_none rfl hbits', rangeOutcome] at hout
    have hcut : j.toInt < 0 → j.toInt.natAbs % 2 ^ bits ≠ 0 := by
      intro hneg hzero
      have hstop := luaStrEnd_past hbits' hj hneg hzero s.length
      have hlt : a < s.length + 1 := by omega
      rw [hstart, hstop, rangeOutcome_cut hlt (hstops _ (by omega)), slice,
        if_neg (by omega)] at hout
      cases hout
    obtain ⟨b, hstop, hb⟩ := luaStrEnd_position hbits' (s := s) hj hcut
    have hcutlen := length_bytesBetween (s := s)
      (one_le_firstPosition s.length (i.toInt < 0) (i.toInt.natAbs % 2 ^ bits))
      (lastPosition_le s.length (j.toInt < 0) (j.toInt.natAbs % 2 ^ bits))
    rw [hstart, hstop,
      rangeOutcome_positions (one_le_firstPosition ..) (lastPosition_le ..) ha hb,
      show c.target.wordBits = bits from rfl, hpaid _ (by
        have hfirst := one_le_firstPosition s.length (i.toInt < 0) (i.toInt.natAbs % 2 ^ bits)
        have hlast := lastPosition_le s.length (j.toInt < 0) (j.toInt.natAbs % 2 ^ bits)
        omega)] at hout
    have hsame : bytesBetween s (firstPosition s.length (i.toInt < 0) (i.toInt.natAbs % 2 ^ bits))
        (lastPosition s.length (j.toInt < 0) (j.toInt.natAbs % 2 ^ bits)) = luaSlice s i j := by
      simpa using hout
    have hlen := congrArg (fun bytes : Bytes => (bytes.length : Int)) hsame
    simp only [luaSlice] at hlen
    rw [length_bytesBetween (one_le_firstPosition ..) (lastPosition_le ..),
      length_bytesBetween (one_le_firstPosition ..) (lastPosition_le ..)] at hlen
    refine ⟨hi, hj, hcut, ?_⟩
    by_cases hne : firstPosition s.length (i.toInt < 0) i.toInt.natAbs ≤
        lastPosition s.length (j.toInt < 0) j.toInt.natAbs
    · obtain ⟨hfirst, hlast⟩ := positions_subset hs hne
      exact .inl ⟨by omega, by omega⟩
    · exact .inr ⟨by omega, by omega⟩
  · intro h c hc
    subst hc
    rw [stringSub_integers, stringByte_integers, subRange_outcome, byteRange_outcome]
    exact ⟨h.rangeOutcome_eq hbits _ _, h.rangeOutcome_eq hbits _ _⟩

theorem slices_iff_abc : Slices 64 (ascii "abc") (-2) 9 ↔ KeepsRange 64 (ascii "abc") (-2) 9 :=
  slices_iff le_rfl (by decide) (-2) 9

/-- The negation of the least index overflows. -/
theorem minValue_not_slices : ¬Slices 64 (ascii "abc") Int64.minValue 2 := by
  intro h
  have hpanic := (h (Core.fresh ⟨64, true, 0⟩ 100 100 .empty) rfl).1
  have hslice : luaSlice (ascii "abc") Int64.minValue 2 = ascii "ab" := by decide
  rw [stringSub_integers, subRange_outcome, luaStrIdx_none rfl le_rfl, hslice] at hpanic
  have hpaid : sliceOutcome (copyStop (Core.fresh ⟨64, true, 0⟩ 100 100 .empty))
      (fun bytes => [.string bytes]) (ascii "ab") = .ok [.string (ascii "ab")] := rfl
  rw [hpaid] at hpanic
  cases hpanic

end Proveno.Vm
