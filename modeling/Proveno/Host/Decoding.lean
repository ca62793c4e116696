import Proveno.Host.Canonicalize
import Proveno.Types.TableRebuild

/-! The decoder run on encoded bytes: strings, keys, scalars, and the loops over
array elements and object entries. -/

namespace Proveno.Canonicalize

open LuaTable

section Strings

theorem hexValue_hexDigit : ∀ d < 16, hexValue (hexDigit d) = some d := by decide

theorem parseHex_unicodeEscape (b : UInt8) :
    parseHex [48, 48, hexDigit (b.toNat / 16), hexDigit (b.toNat % 16)] = some b.toNat := by
  have hb := b.toNat_lt
  have hhigh := hexValue_hexDigit (b.toNat / 16) (by omega)
  have hlow := hexValue_hexDigit (b.toNat % 16) (by omega)
  have hzero : hexValue 48 = some 0 := by decide
  have hsign : ¬(some (48 : UInt8) = some 43) := by decide
  simp only [parseHex, List.head?_cons, if_neg hsign, reduceCtorEq, if_false, hexDigitsValue,
    hzero, hhigh, hlow]
  congr 1
  omega

theorem deserString_quote (out rest : Bytes) : deserString out (34 :: rest) = .ok (out, rest) := by
  rw [deserString.eq_def]
  rfl

theorem deserString_plain {b : UInt8} (hquote : b ≠ 34) (hslash : b ≠ 92) (out rest : Bytes) :
    deserString out (b :: rest) = deserString (out ++ [b]) rest := by
  rw [deserString.eq_def]
  simp [hquote, hslash]

theorem deserString_escapeByte (out : Bytes) (b : UInt8) (rest : Bytes) :
    deserString out (escapeByte b ++ rest) = deserString (out ++ [b]) rest := by
  unfold escapeByte
  split_ifs with h1 h2 h3 h4 h5 h6
  case pos => rw [h1, List.cons_append, deserString.eq_def]; rfl
  case pos => rw [h2, List.cons_append, deserString.eq_def]; rfl
  case pos => rw [h3, List.cons_append, deserString.eq_def]; rfl
  case pos => rw [h4, List.cons_append, deserString.eq_def]; rfl
  case pos => rw [h5, List.cons_append, deserString.eq_def]; rfl
  case pos => exact deserString_plain h1 h2 out rest
  case neg =>
    have hparse := parseHex_unicodeEscape b
    rw [unicodeEscape, List.cons_append, deserString.eq_def]
    simp [hparse]

theorem deserString_flatMap (out s rest : Bytes) :
    deserString out (s.flatMap escapeByte ++ 34 :: rest) = .ok (out ++ s, rest) := by
  induction s generalizing out with
  | nil => rw [List.append_nil]; exact deserString_quote out rest
  | cons b s ih =>
    rw [List.flatMap_cons, List.append_assoc, deserString_escapeByte, ih, List.append_assoc]
    rfl

theorem deserString_serializeString (s rest : Bytes) :
    deserString [] ((serializeString s ++ rest).tail) = .ok (s, rest) := by
  have hflat := deserString_flatMap [] s rest
  simpa [serializeString] using hflat

end Strings

section Keys

def keyText : LuaKey → Bytes
  | .integer n => intText n
  | .string s => s
  | .boolean b => ascii (if b then "true" else "false")

theorem keyBytes_eq (key : LuaKey) : keyBytes key = serializeString (keyText key) := by
  cases key with
  | integer n => rfl
  | string s => rfl
  | boolean b => cases b <;> decide

def CleanKey (key : LuaKey) : Prop := retypeKey (keyText key) = key

theorem cleanKey_integer (n : Int64) : CleanKey (.integer n) := by
  simp [CleanKey, keyText, retypeKey]

theorem cleanKey_boolean (b : Bool) : CleanKey (.boolean b) := by
  cases b <;> rfl

theorem cleanKey_string_iff (s : Bytes) : CleanKey (.string s) ↔
    parseI64 s = none ∧ s ≠ ascii "true" ∧ s ≠ ascii "false" := by
  unfold CleanKey keyText retypeKey
  cases parseI64 s with
  | some n => simp
  | none =>
    by_cases ht : s = ascii "true"
    · simp [ht]
    · by_cases hf : s = ascii "false"
      · simp only [hf, ne_eq, not_true_eq_false, and_false, iff_false]
        decide
      · simp [ht, hf]

theorem cleanKey_retypeKey (text : Bytes) : CleanKey (retypeKey text) := by
  unfold retypeKey
  cases hp : parseI64 text with
  | some n => exact cleanKey_integer n
  | none =>
    simp only
    split_ifs with ht hf
    · exact cleanKey_boolean true
    · exact cleanKey_boolean false
    · exact (cleanKey_string_iff text).mpr ⟨hp, ht, hf⟩

end Keys

section Decode

/-- The bytes decode to the value, whatever follows them. -/
structure Encodes (enc : Bytes) (o : OwnedValue) : Prop where
  start : ∃ b s, enc = b :: s ∧ isWhitespace b = false ∧ b ≠ 93
  decode : ∀ fuel rest, enc.length ≤ fuel → (∀ b ∈ rest.head?, isIntegerByte b = false) →
    deserValue fuel (enc ++ rest) = .ok (o, rest)

theorem trimLeadingWhitespace_cons {b : UInt8} (h : isWhitespace b = false) (s : Bytes) :
    trimLeadingWhitespace (b :: s) = b :: s := by
  simp [trimLeadingWhitespace, h]

theorem encodes_nil : Encodes (ascii "null") .nil := by
  refine ⟨⟨110, ascii "ull", by decide, by decide, by decide⟩, fun fuel rest hfuel _ => ?_⟩
  obtain ⟨fuel, rfl⟩ := Nat.exists_eq_add_of_le' (le_trans (by decide : 1 ≤ _) hfuel)
  rfl

theorem encodes_boolean (b : Bool) :
    Encodes (ascii (if b then "true" else "false")) (.boolean b) := by
  cases b with
  | true =>
    refine ⟨⟨116, ascii "rue", by decide, by decide, by decide⟩, fun fuel rest hfuel _ => ?_⟩
    obtain ⟨fuel, rfl⟩ := Nat.exists_eq_add_of_le' (le_trans (by decide : 1 ≤ _) hfuel)
    rfl
  | false =>
    refine ⟨⟨102, ascii "alse", by decide, by decide, by decide⟩, fun fuel rest hfuel _ => ?_⟩
    obtain ⟨fuel, rfl⟩ := Nat.exists_eq_add_of_le' (le_trans (by decide : 1 ≤ _) hfuel)
    rfl

theorem isIntegerByte_intText (n : Int64) : ∀ b ∈ intText n, isIntegerByte b = true := by
  intro b hb
  unfold intText at hb
  have hdigits := decimal_digits n.toInt.natAbs
  split_ifs at hb
  · rcases List.mem_cons.mp hb with rfl | hb
    · decide
    · simp [isIntegerByte, hdigits b hb]
  · simp [isIntegerByte, hdigits b hb]

theorem intText_ne_nil (n : Int64) : intText n ≠ [] := by
  unfold intText
  split_ifs
  · simp
  · exact decimal_ne_nil _

theorem deserInteger_intText (n : Int64) {rest : Bytes}
    (hrest : ∀ b ∈ rest.head?, isIntegerByte b = false) :
    deserInteger (intText n ++ rest) = .ok (.integer n, rest) := by
  have hall := isIntegerByte_intText n
  have hstop : rest.takeWhile isIntegerByte = [] ∧ rest.dropWhile isIntegerByte = rest := by
    cases rest with
    | nil => simp
    | cons b rest => simp [hrest b (by simp)]
  rw [deserInteger, List.takeWhile_append_of_pos hall, List.dropWhile_append_of_pos hall, hstop.1,
    hstop.2, List.append_nil, parseI64_intText]

theorem not_isIntegerByte_of_start {b : UInt8} (h : isIntegerByte b = true) :
    b ≠ 110 ∧ b ≠ 116 ∧ b ≠ 102 ∧ b ≠ 34 ∧ b ≠ 91 ∧ b ≠ 123 ∧ b ≠ 93 ∧
      isWhitespace b = false := by
  refine ⟨?_, ?_, ?_, ?_, ?_, ?_, ?_, ?_⟩
  any_goals
    rintro rfl
    revert h
    decide
  by_contra hw
  simp only [isWhitespace, Bool.not_eq_false, Bool.or_eq_true, decide_eq_true_eq] at hw
  rcases hw with ((rfl | rfl) | rfl) | rfl <;> revert h <;> decide

theorem encodes_integer (n : Int64) : Encodes (intText n) (.integer n) := by
  obtain ⟨b, s, henc⟩ := List.exists_cons_of_ne_nil (intText_ne_nil n)
  have hb := isIntegerByte_intText n b (by simp [henc])
  obtain ⟨h1, h2, h3, h4, h5, h6, h7, hw⟩ := not_isIntegerByte_of_start hb
  refine ⟨⟨b, s, henc, hw, h7⟩, fun fuel rest hfuel hrest => ?_⟩
  have hdeser := deserInteger_intText n hrest
  rw [henc] at hfuel hdeser ⊢
  obtain ⟨fuel, rfl⟩ := Nat.exists_eq_add_of_le' (le_trans (by simp : 1 ≤ _) hfuel)
  rw [List.cons_append] at hdeser ⊢
  simp only [deserValue, trimLeadingWhitespace_cons hw, if_neg h1, if_neg h2, if_neg h3, if_neg h4,
    if_neg h5, if_neg h6, hb, if_true, hdeser]

theorem encodes_string (s : Bytes) : Encodes (serializeString s) (.string s) := by
  refine ⟨⟨34, s.flatMap escapeByte ++ [34], rfl, by decide, by decide⟩,
    fun fuel rest hfuel _ => ?_⟩
  have hdeser := deserString_serializeString s rest
  rw [serializeString] at hfuel hdeser ⊢
  obtain ⟨fuel, rfl⟩ := Nat.exists_eq_add_of_le' (le_trans (by simp : 1 ≤ _) hfuel)
  rw [List.cons_append, List.tail_cons] at hdeser
  have hq : isWhitespace 34 = false := by decide
  rw [List.cons_append, deserValue, trimLeadingWhitespace_cons hq]
  simp only [hdeser]
  rfl

theorem runOps_cons {V : Type} [HasNil V] {t t' : LuaTable V} {key : LuaKey} {v : V}
    {ops : List (TableOp V)} (h : t.runOps (.rawset key v :: ops) = some t') :
    ∃ t₁, t.rawset key v = (.ok (), t₁) ∧ t₁.runOps ops = some t' := by
  rw [runOps] at h
  split at h
  · rename_i t₁ heq
    exact ⟨t₁, heq, h⟩
  · simp at h

theorem separated_cons_cons (part part' : Bytes) (parts : List Bytes) :
    separated (part :: part' :: parts) = part ++ 44 :: separated (part' :: parts) := by
  simp [separated, List.intercalate]

theorem deserArray_separated {parts : List Bytes} {os : List OwnedValue}
    (h : List.Forall₂ Encodes parts os) (hne : parts ≠ []) (n : Nat)
    {t t' : LuaTable OwnedValue} (hrun : t.runOps (writes (arrayEntries n os)) = some t')
    {fuel : Nat} (hfuel : (separated parts).length + 1 ≤ fuel) (rest : Bytes) :
    deserArray fuel t (n + 1) (separated parts ++ 93 :: rest) = .ok (.table t', rest) := by
  induction h generalizing n t fuel with
  | nil => exact absurd rfl hne
  | @cons part o parts os henc htail ih =>
    obtain ⟨fuel, rfl⟩ := Nat.exists_eq_add_of_le' (le_trans (by omega : 1 ≤ _) hfuel)
    obtain ⟨t₁, hset, hrun⟩ := runOps_cons hrun
    cases htail with
    | nil =>
      have hsep : separated [part] = part := by simp [separated, List.intercalate]
      rw [hsep] at hfuel ⊢
      have hdec := henc.decode fuel (93 :: rest) (by omega) (by simp; decide)
      obtain rfl := Option.some.inj hrun
      simp only [deserArray, hdec, bind, Except.bind, hset]
      rfl
    | @cons part' o' parts os henc' htail =>
      rw [separated_cons_cons] at hfuel ⊢
      rw [List.length_append, List.length_cons] at hfuel
      rw [List.append_assoc, List.cons_append]
      have hdec := henc.decode fuel (44 :: (separated (part' :: parts) ++ 93 :: rest)) (by omega)
        (by simp; decide)
      have hle : (separated (part' :: parts)).length + 1 ≤ fuel := by omega
      have hrest := ih (by simp) (n + 1) hrun hle
      simp only [deserArray, hdec, bind, Except.bind, hset]
      exact hrest

/-- One `"key":value` entry of an object. -/
def EncodesEntry (part : Bytes) (e : LuaKey × OwnedValue) : Prop :=
  CleanKey e.1 ∧ ∃ enc, Encodes enc e.2 ∧ part = keyBytes e.1 ++ 58 :: enc

/-- The loop up to the point where an entry has been stored. -/
theorem deserObject_entry {key : LuaKey} {enc : Bytes} {o : OwnedValue} (hkey : CleanKey key)
    (henc : Encodes enc o) {t t' : LuaTable OwnedValue} (hset : t.rawset key o = (.ok (), t'))
    {fuel : Nat} (hfuel : enc.length ≤ fuel) {b : UInt8} (hb : isIntegerByte b = false)
    (hw : isWhitespace b = false) (rest : Bytes) :
    deserObject (fuel + 1) t (keyBytes key ++ 58 :: (enc ++ b :: rest)) =
      if b = 125 then .ok (.table t', rest)
      else if b = 44 then deserObject fuel t' rest
      else .error .invalidInput := by
  have hstr := deserString_serializeString (keyText key) (58 :: (enc ++ b :: rest))
  have hdec := henc.decode fuel (b :: rest) hfuel (by simpa using hb)
  have hquote : isWhitespace 34 = false := by decide
  have hcolon : isWhitespace 58 = false := by decide
  rw [keyBytes_eq]
  rw [serializeString, List.cons_append] at hstr ⊢
  rw [CleanKey] at hkey
  rw [List.tail_cons] at hstr
  simp only [deserObject, trimLeadingWhitespace_cons hquote, List.head?_cons, if_true,
    List.tail_cons, hstr, bind, Except.bind, trimLeadingWhitespace_cons hcolon, hdec, hkey, hset,
    trimLeadingWhitespace_cons hw, Option.some.injEq]

theorem deserObject_separated {parts : List Bytes} {es : List (LuaKey × OwnedValue)}
    (h : List.Forall₂ EncodesEntry parts es) (hne : parts ≠ [])
    {t t' : LuaTable OwnedValue} (hrun : t.runOps (writes es) = some t')
    {fuel : Nat} (hfuel : (separated parts).length + 1 ≤ fuel) (rest : Bytes) :
    deserObject fuel t (separated parts ++ 125 :: rest) = .ok (.table t', rest) := by
  induction h generalizing t fuel with
  | nil => exact absurd rfl hne
  | @cons part e parts es hentry htail ih =>
    obtain ⟨hkey, enc, henc, rfl⟩ := hentry
    obtain ⟨fuel, rfl⟩ := Nat.exists_eq_add_of_le' (le_trans (by omega : 1 ≤ _) hfuel)
    obtain ⟨t₁, hset, hrun⟩ := runOps_cons hrun
    cases htail with
    | nil =>
      have hsep : ∀ part, separated [part] = part := by simp [separated, List.intercalate]
      rw [hsep] at hfuel ⊢
      rw [List.length_append, List.length_cons] at hfuel
      obtain rfl := Option.some.inj hrun
      rw [List.append_assoc, List.cons_append, deserObject_entry hkey henc hset (by omega)
        (by decide) (by decide)]
      rfl
    | @cons part' e' parts es hentry' htail =>
      rw [separated_cons_cons] at hfuel ⊢
      simp only [List.length_append, List.length_cons] at hfuel
      have hle : (separated (part' :: parts)).length + 1 ≤ fuel := by omega
      have hrest := ih (by simp) hrun hle
      rw [List.append_assoc, List.append_assoc, List.cons_append, List.cons_append,
        deserObject_entry hkey henc hset (by omega) (by decide) (by decide)]
      exact hrest

theorem separated_head {part : Bytes} {parts : List Bytes} {b : UInt8} {s : Bytes}
    (hpart : part = b :: s) : ∃ s', separated (part :: parts) = b :: s' := by
  subst hpart
  cases parts with
  | nil => exact ⟨s, by simp [separated, List.intercalate]⟩
  | cons part' parts => exact ⟨_, separated_cons_cons _ _ _⟩

theorem encodes_array {parts : List Bytes} {os : List OwnedValue}
    (h : List.Forall₂ Encodes parts os) (hne : parts ≠ []) {t : LuaTable OwnedValue}
    (hrun : new.runOps (writes (arrayEntries 0 os)) = some t) :
    Encodes (91 :: (separated parts ++ [93])) (.table t) := by
  have hopen : isWhitespace 91 = false := by decide
  refine ⟨⟨91, _, rfl, hopen, by decide⟩, fun fuel rest hfuel _ => ?_⟩
  have hstart : ∃ b s, separated parts = b :: s ∧ isWhitespace b = false ∧ b ≠ 93 := by
    cases h with
    | nil => exact absurd rfl hne
    | cons hpart htail =>
      obtain ⟨b, s, hb, hw, hclose⟩ := hpart.start
      obtain ⟨s', hs'⟩ := separated_head hb
      exact ⟨b, s', hs', hw, hclose⟩
  obtain ⟨b, s, hsep, hw, hclose⟩ := hstart
  rw [List.length_cons, List.length_append, List.length_singleton] at hfuel
  obtain ⟨fuel, rfl⟩ := Nat.exists_eq_add_of_le' (le_trans (by omega : 1 ≤ _) hfuel)
  have hle : (separated parts).length + 1 ≤ fuel := by omega
  have hloop := deserArray_separated h hne 0 hrun hle rest
  rw [hsep, List.cons_append] at hloop
  rw [hsep, List.cons_append, List.append_assoc, List.cons_append, List.singleton_append, deserValue,
    trimLeadingWhitespace_cons hopen]
  simpa [trimLeadingWhitespace_cons hw, hclose] using hloop

theorem encodes_object {parts : List Bytes} {es : List (LuaKey × OwnedValue)}
    (h : List.Forall₂ EncodesEntry parts es) {t : LuaTable OwnedValue}
    (hrun : new.runOps (writes es) = some t) :
    Encodes (123 :: (separated parts ++ [125])) (.table t) := by
  have hopen : isWhitespace 123 = false := by decide
  refine ⟨⟨123, _, rfl, hopen, by decide⟩, fun fuel rest hfuel _ => ?_⟩
  rw [List.length_cons, List.length_append, List.length_singleton] at hfuel
  obtain ⟨fuel, rfl⟩ := Nat.exists_eq_add_of_le' (le_trans (by omega : 1 ≤ _) hfuel)
  rw [List.cons_append, List.append_assoc, List.singleton_append, deserValue,
    trimLeadingWhitespace_cons hopen]
  cases h with
  | nil =>
    obtain rfl := Option.some.inj hrun
    rfl
  | @cons part e parts es hentry htail =>
    have hquote : isWhitespace 34 = false := by decide
    have hle : (separated (part :: parts)).length + 1 ≤ fuel := by omega
    have hloop := deserObject_separated (.cons hentry htail) (by simp) hrun hle rest
    obtain ⟨hkey, enc, henc, hpart⟩ := hentry
    rw [keyBytes_eq, serializeString, List.cons_append] at hpart
    obtain ⟨s, hsep⟩ := separated_head hpart
    rw [hsep, List.cons_append] at hloop ⊢
    simpa [trimLeadingWhitespace_cons hquote] using hloop

end Decode

end Proveno.Canonicalize
