import Proveno.Vm.JsonText

/-! JSON string literals and the code points they denote, and what `json.decode` makes of
them and of malformed `\u` escapes. -/

namespace Proveno.Vm.Json

def IsHex (b : UInt8) : Prop := (hexValue b).isSome = true

instance (b : UInt8) : Decidable (IsHex b) := inferInstanceAs (Decidable (_ = true))

/-- The two-character escapes other than `\u`. -/
inductive ShortEscape
  | quote
  | backslash
  | slash
  | backspace
  | formFeed
  | lineFeed
  | carriageReturn
  | tab

namespace ShortEscape

def letter : ShortEscape → UInt8
  | quote => 34
  | backslash => 92
  | slash => 47
  | backspace => 98
  | formFeed => 102
  | lineFeed => 110
  | carriageReturn => 114
  | tab => 116

def codePoint : ShortEscape → Nat
  | quote => 0x22
  | backslash => 0x5C
  | slash => 0x2F
  | backspace => 0x08
  | formFeed => 0x0C
  | lineFeed => 0x0A
  | carriageReturn => 0x0D
  | tab => 0x09

end ShortEscape

/-- Four hexadecimal digits, a UTF-16 code unit. -/
structure CodeUnit where
  d₁ : UInt8
  d₂ : UInt8
  d₃ : UInt8
  d₄ : UInt8
  hex₁ : IsHex d₁
  hex₂ : IsHex d₂
  hex₃ : IsHex d₃
  hex₄ : IsHex d₄

namespace CodeUnit

def value (u : CodeUnit) : Nat :=
  (hexValue u.d₁).get u.hex₁ * 4096 + (hexValue u.d₂).get u.hex₂ * 256 +
    (hexValue u.d₃).get u.hex₃ * 16 + (hexValue u.d₄).get u.hex₄

def IsHigh (u : CodeUnit) : Prop := 0xD800 ≤ u.value ∧ u.value ≤ 0xDBFF

def IsLow (u : CodeUnit) : Prop := 0xDC00 ≤ u.value ∧ u.value ≤ 0xDFFF

instance (u : CodeUnit) : Decidable u.IsHigh := inferInstanceAs (Decidable (_ ∧ _))

instance (u : CodeUnit) : Decidable u.IsLow := inferInstanceAs (Decidable (_ ∧ _))

end CodeUnit

/-- A code point that stands for itself in a literal. -/
structure PlainChar where
  code : Nat
  control : 0x20 ≤ code
  quote : code ≠ 34
  backslash : code ≠ 92
  scalar : code < 0xD800 ∨ (0xDFFF < code ∧ code < 0x110000)

inductive LiteralPiece
  | plain (c : PlainChar)
  | short (e : ShortEscape)
  | unicode (u : CodeUnit)

def LiteralPiece.text : LiteralPiece → Bytes
  | plain c => encodeChar c.code
  | short e => [92, e.letter]
  | unicode u => [92, 117, u.d₁, u.d₂, u.d₃, u.d₄]

def literalText (pieces : List LiteralPiece) : Bytes := pieces.flatMap LiteralPiece.text

def quoted (pieces : List LiteralPiece) : Bytes := 34 :: (literalText pieces ++ [34])

/-- The code points of a literal. A high and a low surrogate in succession denote one code
point; a surrogate on its own denotes none. -/
def codePoints : List LiteralPiece → Option (List Nat)
  | [] => some []
  | .plain c :: pieces => (codePoints pieces).map (c.code :: ·)
  | .short e :: pieces => (codePoints pieces).map (e.codePoint :: ·)
  | .unicode u :: .unicode v :: pieces =>
    if u.IsHigh ∧ v.IsLow then
      (codePoints pieces).map
        ((0x10000 + (u.value - 0xD800) * 0x400 + (v.value - 0xDC00)) :: ·)
    else if u.IsHigh ∨ u.IsLow then none
    else (codePoints (.unicode v :: pieces)).map (u.value :: ·)
  | .unicode u :: pieces =>
    if u.IsHigh ∨ u.IsLow then none else (codePoints pieces).map (u.value :: ·)

/-- The bytes that the decoder appends for a piece. -/
def LiteralPiece.decoded : LiteralPiece → Bytes
  | plain c => encodeChar c.code
  | short e => encodeChar e.codePoint
  | unicode u => encodeChar (Json.codePoint u.value)

def decodedText (pieces : List LiteralPiece) : Bytes := pieces.flatMap LiteralPiece.decoded

section Scanning

theorem encodeChar_plain (c : PlainChar) :
    ∀ b ∈ encodeChar c.code, b ≠ 34 ∧ b ≠ 92 := by
  have hquote := c.quote
  have hslash := c.backslash
  have hscalar := c.scalar
  have hsafe : ∀ n, n < 256 → (n ≠ 34 ∧ n ≠ 92) → UInt8.ofNat n ≠ 34 ∧ UInt8.ofNat n ≠ 92 := by
    intro n hlt hne
    have hval : (UInt8.ofNat n).toNat = n := by
      rw [UInt8.toNat_ofNat', Nat.mod_eq_of_lt hlt]
    constructor <;> intro heq <;> rw [heq] at hval
    · exact hne.1 hval.symm
    · exact hne.2 hval.symm
  intro b hb
  unfold encodeChar at hb
  split_ifs at hb <;> simp only [List.mem_cons, List.not_mem_nil, or_false] at hb
  · rw [hb]
    exact hsafe _ (by omega) ⟨hquote, hslash⟩
  · rcases hb with rfl | rfl <;> exact hsafe _ (by omega) (by omega)
  · rcases hb with rfl | rfl | rfl <;> exact hsafe _ (by omega) (by omega)
  · rcases hb with rfl | rfl | rfl | rfl <;> exact hsafe _ (by omega) (by omega)

theorem stringBody_plains {bytes : Bytes} (h : ∀ b ∈ bytes, b ≠ 34 ∧ b ≠ 92)
    (out rest : Bytes) : stringBody out (bytes ++ rest) = stringBody (out ++ bytes) rest := by
  induction bytes generalizing out with
  | nil => simp
  | cons b bytes ih =>
    obtain ⟨hquote, hslash⟩ := h b (by simp)
    rw [List.cons_append, stringBody_plain hquote hslash,
      ih (fun b' hb' => h b' (List.mem_cons_of_mem _ hb')), List.append_assoc,
      List.singleton_append]

theorem shortEscape_letter (e : ShortEscape) :
    shortEscape e.letter = some (UInt8.ofNat e.codePoint) := by
  cases e <;> rfl

theorem encodeChar_short (e : ShortEscape) :
    encodeChar e.codePoint = [UInt8.ofNat e.codePoint] := by
  cases e <;> rfl

theorem stringBody_short (e : ShortEscape) (out rest : Bytes) :
    stringBody out (92 :: e.letter :: rest) =
      stringBody (out ++ encodeChar e.codePoint) rest := by
  rw [stringBody.eq_def]
  simp [shortEscape_letter, encodeChar_short]

/-- The scan at a `\u` escape, whatever the four bytes are. -/
theorem stringBody_unicode (d₁ d₂ d₃ d₄ : UInt8) (out rest : Bytes) :
    stringBody out (92 :: 117 :: d₁ :: d₂ :: d₃ :: d₄ :: rest) =
      match parseHex [d₁, d₂, d₃, d₄] with
      | some code => stringBody (out ++ encodeChar (codePoint code)) rest
      | none => .error (runtimeErr (ascii "json.decode: invalid \\u escape")) := by
  rw [stringBody.eq_def]
  simp only [shortEscape]
  cases parseHex [d₁, d₂, d₃, d₄] <;> rfl

theorem stringBody_cut {after : Bytes} (h : after.length < 4) (out : Bytes) :
    stringBody out (92 :: 117 :: after) =
      .error (runtimeErr (ascii "json.decode: invalid \\u escape")) := by
  rw [stringBody.eq_def]
  rcases after with - | ⟨a, - | ⟨b, - | ⟨d, - | ⟨e, after⟩⟩⟩⟩
  · simp [shortEscape]
  · simp [shortEscape]
  · simp [shortEscape]
  · simp [shortEscape]
  · simp only [List.length_cons] at h
    omega

theorem parseHex_unit (u : CodeUnit) : parseHex [u.d₁, u.d₂, u.d₃, u.d₄] = some u.value := by
  have hplus : u.d₁ ≠ 43 := by
    intro h
    have hex := u.hex₁
    rw [h] at hex
    exact absurd hex (by decide)
  have hget : ∀ {b : UInt8} (h : IsHex b), hexValue b = some ((hexValue b).get h) :=
    fun h => (Option.some_get h).symm
  simp only [parseHex, List.head?_cons, Option.some.injEq, hplus, ↓reduceIte, reduceCtorEq,
    hexDigitsValue]
  rw [hget u.hex₁, hget u.hex₂, hget u.hex₃, hget u.hex₄]
  simp only [CodeUnit.value, Option.some.injEq]
  ring

/-- The integer parser takes four digits, or a plus sign and three digits. -/
theorem parseHex_isSome_iff (d₁ d₂ d₃ d₄ : UInt8) :
    (parseHex [d₁, d₂, d₃, d₄]).isSome = true ↔
      (IsHex d₁ ∨ d₁ = 43) ∧ IsHex d₂ ∧ IsHex d₃ ∧ IsHex d₄ := by
  by_cases hplus : d₁ = 43
  · subst hplus
    simp only [parseHex, List.head?_cons, ↓reduceIte, List.tail_cons, reduceCtorEq,
      hexDigitsValue, IsHex, or_true, true_and]
    cases hexValue d₂ <;> cases hexValue d₃ <;> cases hexValue d₄ <;> simp
  · simp only [parseHex, List.head?_cons, Option.some.injEq, hplus, ↓reduceIte, reduceCtorEq,
      hexDigitsValue, IsHex, or_false]
    cases hexValue d₁ <;> cases hexValue d₂ <;> cases hexValue d₃ <;> cases hexValue d₄ <;> simp

theorem stringBody_piece (piece : LiteralPiece) (out rest : Bytes) :
    stringBody out (piece.text ++ rest) = stringBody (out ++ piece.decoded) rest := by
  cases piece with
  | plain c => exact stringBody_plains (encodeChar_plain c) out rest
  | short e => exact stringBody_short e out rest
  | unicode u =>
    have hscan := stringBody_unicode u.d₁ u.d₂ u.d₃ u.d₄ out rest
    rw [parseHex_unit] at hscan
    exact hscan

/-- The scan decodes the escapes of a literal one at a time. -/
theorem stringBody_literalText (pieces : List LiteralPiece) (out rest : Bytes) :
    stringBody out (literalText pieces ++ rest) = stringBody (out ++ decodedText pieces) rest := by
  induction pieces generalizing out with
  | nil => simp [literalText, decodedText]
  | cons piece pieces ih =>
    have htext : literalText (piece :: pieces) = piece.text ++ literalText pieces := rfl
    have hdecoded : decodedText (piece :: pieces) = piece.decoded ++ decodedText pieces := rfl
    rw [htext, hdecoded, List.append_assoc, stringBody_piece, ih, List.append_assoc]

end Scanning

section Denotation

def HasSurrogate (pieces : List LiteralPiece) : Prop :=
  ∃ u, .unicode u ∈ pieces ∧ (u.IsHigh ∨ u.IsLow)

theorem codePoint_of_not_surrogate {u : CodeUnit} (h : ¬(u.IsHigh ∨ u.IsLow)) :
    codePoint u.value = u.value := by
  refine if_neg fun hrange => h ?_
  simp only [CodeUnit.IsHigh, CodeUnit.IsLow]
  omega

theorem length_encodeChar_surrogate {u : CodeUnit} (h : u.IsHigh ∨ u.IsLow) :
    (encodeChar (codePoint u.value)).length = 3 := by
  have hrange : 0xD800 ≤ u.value ∧ u.value ≤ 0xDFFF := by
    simp only [CodeUnit.IsHigh, CodeUnit.IsLow] at h
    omega
  rw [codePoint, if_pos hrange]
  rfl

theorem length_encodeChar_le (c : Nat) : (encodeChar c).length ≤ 4 := by
  unfold encodeChar
  split_ifs <;> simp

theorem hasSurrogate_cons {piece : LiteralPiece} {pieces : List LiteralPiece}
    (h : ∀ u, piece = .unicode u → ¬(u.IsHigh ∨ u.IsLow)) :
    HasSurrogate (piece :: pieces) ↔ HasSurrogate pieces := by
  constructor
  · rintro ⟨u, hmem, hsur⟩
    rcases List.mem_cons.mp hmem with heq | hmem
    · exact absurd hsur (h u heq.symm)
    · exact ⟨u, hmem, hsur⟩
  · rintro ⟨u, hmem, hsur⟩
    exact ⟨u, List.mem_cons_of_mem _ hmem, hsur⟩

/-- What the decoder makes of a literal against what the literal denotes: the same
without surrogates, and something longer with a pair of them. -/
def Renders (pieces : List LiteralPiece) (cs : List Nat) : Prop :=
  (¬HasSurrogate pieces ∧ decodedText pieces = cs.flatMap encodeChar) ∨
    (HasSurrogate pieces ∧ (cs.flatMap encodeChar).length < (decodedText pieces).length)

theorem Renders.cons {piece : LiteralPiece} {pieces : List LiteralPiece} {c : Nat} {cs : List Nat}
    (h : Renders pieces cs) (hpiece : ∀ u, piece = .unicode u → ¬(u.IsHigh ∨ u.IsLow))
    (hdecoded : piece.decoded = encodeChar c) : Renders (piece :: pieces) (c :: cs) := by
  have htext : decodedText (piece :: pieces) = encodeChar c ++ decodedText pieces := by
    rw [← hdecoded]
    rfl
  unfold Renders
  rw [hasSurrogate_cons hpiece, htext, List.flatMap_cons]
  rcases h with ⟨hno, heq⟩ | ⟨hsur, hlt⟩
  · exact .inl ⟨hno, by rw [heq]⟩
  · refine .inr ⟨hsur, ?_⟩
    rw [List.length_append, List.length_append]
    omega

theorem Renders.pair {u v : CodeUnit} {pieces : List LiteralPiece} {cs : List Nat} (c : Nat)
    (h : Renders pieces cs) (hu : u.IsHigh) (hv : v.IsLow) :
    Renders (.unicode u :: .unicode v :: pieces) (c :: cs) := by
  refine .inr ⟨⟨u, by simp, .inl hu⟩, ?_⟩
  have htext : decodedText (.unicode u :: .unicode v :: pieces) =
      encodeChar (codePoint u.value) ++ (encodeChar (codePoint v.value) ++ decodedText pieces) :=
    rfl
  have hshort := length_encodeChar_le c
  have hle : (cs.flatMap encodeChar).length ≤ (decodedText pieces).length := by
    rcases h with ⟨-, heq⟩ | ⟨-, hlt⟩
    · rw [heq]
    · exact hlt.le
  rw [htext, List.flatMap_cons, List.length_append, List.length_append, List.length_append,
    length_encodeChar_surrogate (.inl hu), length_encodeChar_surrogate (.inr hv)]
  omega

theorem renders_of_codePoints {pieces : List LiteralPiece} {cs : List Nat}
    (h : codePoints pieces = some cs) : Renders pieces cs := by
  induction pieces using codePoints.induct generalizing cs with
  | case1 =>
    obtain rfl : cs = [] := by simpa [codePoints, eq_comm] using h
    exact .inl ⟨by simp [HasSurrogate], rfl⟩
  | case2 c pieces ih =>
    obtain ⟨cs, hcs, rfl⟩ := Option.map_eq_some_iff.mp h
    exact (ih hcs).cons nofun rfl
  | case3 e pieces ih =>
    obtain ⟨cs, hcs, rfl⟩ := Option.map_eq_some_iff.mp h
    exact (ih hcs).cons nofun rfl
  | case4 u v pieces hpair ih =>
    rw [codePoints, if_pos hpair] at h
    obtain ⟨cs, hcs, rfl⟩ := Option.map_eq_some_iff.mp h
    exact (ih hcs).pair _ hpair.1 hpair.2
  | case5 u v pieces hpair hsur =>
    rw [codePoints, if_neg hpair, if_pos hsur] at h
    cases h
  | case6 u v pieces hpair hsur ih =>
    rw [codePoints, if_neg hpair, if_neg hsur] at h
    obtain ⟨cs, hcs, rfl⟩ := Option.map_eq_some_iff.mp h
    refine (ih hcs).cons ?_ (congrArg encodeChar (codePoint_of_not_surrogate hsur))
    rintro u' heq
    cases heq
    exact hsur
  | case7 u pieces hlast hsur =>
    rw [codePoints, if_pos hsur] at h
    · cases h
    · exact hlast
  | case8 u pieces hlast hsur ih =>
    rw [codePoints, if_neg hsur] at h
    · obtain ⟨cs, hcs, rfl⟩ := Option.map_eq_some_iff.mp h
      refine (ih hcs).cons ?_ (congrArg encodeChar (codePoint_of_not_surrogate hsur))
      rintro u' heq
      cases heq
      exact hsur
    · exact hlast

end Denotation

section Runs

variable {s out rest : Bytes} {c : Core}

/-- The memory for a string of this length. -/
def HoldsString (c : Core) (n : Nat) : Prop :=
  min (c.mem.allocated + AllocSize.string n) MemoryMeter.u64Max ≤ c.mem.limit

theorem parseString_quote (total : Nat) (s : Bytes) :
    parseString total (34 :: s) = liftError (stringBody [] s) >>= fun r =>
      trackAlloc (AllocSize.string r.1.length) >>= fun _ => pure r := rfl

theorem run_parseString_error {e : VmError} (h : stringBody [] s = .error e) (total : Nat)
    (c : Core) : ((parseString total (34 :: s)).run c).1 = .error (.raised e) := by
  rw [parseString_quote, h]
  rfl

theorem run_parseString_ok (h : stringBody [] s = .ok (out, rest)) (total : Nat)
    (hmem : HoldsString c out.length) :
    ∃ c', (parseString total (34 :: s)).run c = (.ok (out, rest), c') := by
  have hfits := Nat.not_lt.mpr hmem
  rw [parseString_quote, h, Exec.run_bind, run_liftError]
  simp only [Exec.run_bind, run_trackAlloc, if_neg hfits, Exec.run_pure]
  exact ⟨_, rfl⟩

theorem parseValue_quote (mode : NumberMode) (total fuel : Nat) (s : Bytes) :
    parseValue mode total (fuel + 1) 0 (34 :: s) =
      parseString total (34 :: s) >>= fun r => pure (.string r.1, r.2) := by
  have hskip : skipWs (34 :: s) = 34 :: s := rfl
  rw [parseValue, if_neg (by decide), hskip]
  rfl

theorem jsonDecode_quote (s : Bytes) :
    jsonDecode [.string (34 :: s)] =
      charge (34 :: s).length >>= fun _ =>
        parseValue .integer (34 :: s).length (fuelFor (34 :: s)) 0 (34 :: s) >>= fun r =>
          if skipWs r.2 ≠ [] then
            positionErr (34 :: s).length (ascii "json.decode: trailing characters") (skipWs r.2)
          else pure [r.1] := rfl

theorem run_jsonDecode_error {e : VmError} (h : stringBody [] s = .error e) (c : Core) :
    ∃ e', ((jsonDecode [.string (34 :: s)]).run c).1 = .error e' := by
  rw [jsonDecode_quote, Exec.run_bind, run_charge]
  split_ifs
  · exact ⟨_, rfl⟩
  · have hvalue := run_parseString_error h (34 :: s).length
      { c with gas := { c.gas with remaining := c.gas.remaining - (34 :: s).length } }
    rcases hrun : (parseString (34 :: s).length (34 :: s)).run
      { c with gas := { c.gas with remaining := c.gas.remaining - (34 :: s).length } } with ⟨r, c'⟩
    rw [hrun] at hvalue
    simp only at hvalue
    subst hvalue
    simp only [fuelFor, parseValue_quote, Exec.run_bind, hrun]
    exact ⟨_, rfl⟩

theorem run_jsonDecode_ok (h : stringBody [] s = .ok (out, []))
    (hgas : (34 :: s).length ≤ c.gas.remaining) (hmem : HoldsString c out.length) :
    ((jsonDecode [.string (34 :: s)]).run c).1 = .ok [.string out] := by
  rw [jsonDecode_quote, Exec.run_bind, run_charge, if_neg (Nat.not_lt.mpr hgas)]
  have hmem' : HoldsString { c with
      gas := { c.gas with remaining := c.gas.remaining - (34 :: s).length } } out.length := hmem
  obtain ⟨c', hrun⟩ := run_parseString_ok h (34 :: s).length hmem'
  have hskip : skipWs [] = [] := rfl
  simp only [fuelFor, parseValue_quote, Exec.run_bind, hrun, Exec.run_pure, hskip, ne_eq,
    not_true_eq_false, ↓reduceIte]

end Runs

/-- With the meters to pay for it, the literal is read as these bytes, at the top of the
input and wherever else a string stands in it. -/
structure DecodesAs (pieces : List LiteralPiece) (bytes : Bytes) : Prop where
  nested : ∀ total rest c, HoldsString c bytes.length →
    ((parseString total (quoted pieces ++ rest)).run c).1 = .ok (bytes, rest)
  top : ∀ c : Core, (quoted pieces).length ≤ c.gas.remaining → HoldsString c bytes.length →
    ((jsonDecode [.string (quoted pieces)]).run c).1 = .ok [.string bytes]

/-- A `\u` escape with these bytes after it is refused, whatever else follows. -/
structure Refused (pieces : List LiteralPiece) (after : Bytes) : Prop where
  nested : ∀ total c, ∃ e,
    ((parseString total (34 :: (literalText pieces ++ 92 :: 117 :: after))).run c).1 = .error e
  top : ∀ c, ∃ e,
    ((jsonDecode [.string (34 :: (literalText pieces ++ 92 :: 117 :: after))]).run c).1 = .error e

theorem Refused.of_stringBody {pieces : List LiteralPiece} {after : Bytes} {e : VmError}
    (h : stringBody [] (literalText pieces ++ 92 :: 117 :: after) = .error e) :
    Refused pieces after :=
  ⟨fun total c => ⟨_, run_parseString_error h total c⟩, fun c => run_jsonDecode_error h c⟩

/-- Ample meters for one input. -/
def ampleCore (n : Nat) : Core := Core.fresh ⟨64, true, 0⟩ n MemoryMeter.u64Max .empty

theorem ampleCore_holds (n len : Nat) : HoldsString (ampleCore n) len := min_le_right _ _

/-- The literal is read as the bytes that the decoder appends piece by piece. -/
theorem decodesAs_iff {pieces : List LiteralPiece} {bytes : Bytes} :
    DecodesAs pieces bytes ↔ decodedText pieces = bytes := by
  have hbody : ∀ rest, stringBody [] (literalText pieces ++ 34 :: rest) =
      .ok (decodedText pieces, rest) := by
    intro rest
    rw [stringBody_literalText, stringBody_quote, List.nil_append]
  have hquoted : ∀ rest, quoted pieces ++ rest = 34 :: (literalText pieces ++ 34 :: rest) := by
    intro rest
    simp [quoted]
  constructor
  · intro h
    have hrun := h.nested 0 [] (ampleCore 0) (ampleCore_holds 0 _)
    obtain ⟨c', hdecoded⟩ := run_parseString_ok (hbody []) 0
      (ampleCore_holds 0 (decodedText pieces).length)
    rw [hquoted, hdecoded] at hrun
    exact congrArg Prod.fst (Except.ok.inj hrun)
  · rintro rfl
    refine ⟨fun total rest c hmem => ?_, fun c hgas hmem => run_jsonDecode_ok (hbody []) hgas hmem⟩
    obtain ⟨c', hrun⟩ := run_parseString_ok (hbody rest) total hmem
    rw [hquoted, hrun]

/-- A literal is read as what it denotes exactly when it has no surrogates; a malformed
`\u` escape is refused exactly when it is not a plus sign and three hexadecimal digits. -/
theorem jsonString_iff (pieces : List LiteralPiece) :
    (∀ cs, codePoints pieces = some cs →
      (DecodesAs pieces (cs.flatMap encodeChar) ↔ ¬HasSurrogate pieces)) ∧
    (∀ d₁ d₂ d₃ d₄, ¬(IsHex d₁ ∧ IsHex d₂ ∧ IsHex d₃ ∧ IsHex d₄) →
      ((∀ rest, Refused pieces (d₁ :: d₂ :: d₃ :: d₄ :: rest)) ↔
        ¬(d₁ = 43 ∧ IsHex d₂ ∧ IsHex d₃ ∧ IsHex d₄))) ∧
    ∀ after, after.length < 4 → Refused pieces after := by
  refine ⟨fun cs h => ?_, fun d₁ d₂ d₃ d₄ hmalformed => ?_, fun after hcut => ?_⟩
  · rw [decodesAs_iff]
    rcases renders_of_codePoints h with ⟨hno, heq⟩ | ⟨hsur, hlt⟩
    · exact ⟨fun _ => hno, fun _ => heq⟩
    · refine ⟨fun heq => ?_, fun hno => absurd hsur hno⟩
      rw [heq] at hlt
      exact absurd hlt (lt_irrefl _)
  · constructor
    · rintro h ⟨rfl, hhex⟩
      obtain ⟨e, herror⟩ := (h [34]).nested 0 (ampleCore 0)
      obtain ⟨code, hcode⟩ := Option.isSome_iff_exists.mp
        ((parseHex_isSome_iff 43 d₂ d₃ d₄).mpr ⟨.inr rfl, hhex⟩)
      have hbody : stringBody [] (literalText pieces ++ 92 :: 117 :: 43 :: d₂ :: d₃ :: d₄ :: [34]) =
          .ok (decodedText pieces ++ encodeChar (codePoint code), []) := by
        rw [stringBody_literalText, stringBody_unicode, hcode, List.nil_append]
        exact stringBody_quote _ _
      obtain ⟨c', hrun⟩ := run_parseString_ok hbody 0 (ampleCore_holds 0 _)
      rw [hrun] at herror
      cases herror
    · intro hplus rest
      have hnone : parseHex [d₁, d₂, d₃, d₄] = none := by
        rw [← Option.not_isSome_iff_eq_none, parseHex_isSome_iff]
        rintro ⟨hfirst | hfirst, hhex⟩
        · exact hmalformed ⟨hfirst, hhex⟩
        · exact hplus ⟨hfirst, hhex⟩
      have hbody : stringBody [] (literalText pieces ++ 92 :: 117 :: d₁ :: d₂ :: d₃ :: d₄ :: rest) =
          .error (runtimeErr (ascii "json.decode: invalid \\u escape")) := by
        rw [stringBody_literalText, stringBody_unicode, hnone]
      exact .of_stringBody hbody
  · have hbody : stringBody [] (literalText pieces ++ 92 :: 117 :: after) =
        .error (runtimeErr (ascii "json.decode: invalid \\u escape")) := by
      rw [stringBody_literalText, stringBody_cut hcut]
    exact .of_stringBody hbody

/-- The two code units of U+1F600. -/
def grinning : List LiteralPiece :=
  [.unicode ⟨100, 56, 51, 100, by decide, by decide, by decide, by decide⟩,
    .unicode ⟨100, 101, 48, 48, by decide, by decide, by decide, by decide⟩]

example : quoted grinning = ascii "\"\\ud83d\\ude00\"" := by decide

/-- A pair of surrogates is read as two replacement characters. -/
theorem grinning_not_decoded :
    codePoints grinning = some [0x1F600] ∧
      ¬DecodesAs grinning ([0x1F600].flatMap encodeChar) := by
  refine ⟨by decide, ?_⟩
  rw [decodesAs_iff]
  decide

end Proveno.Vm.Json
