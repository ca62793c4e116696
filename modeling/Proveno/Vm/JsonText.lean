import Proveno.Host.RoundTrip
import Proveno.Vm.Json

/-! What `json.decode` reads of strings and keys that the canonical encoder wrote. An
escape `\u00xx` stands for a byte in one and for a character in the other. -/

namespace Proveno.Vm.Json

open Canonicalize LuaTable

/-- The bytes that decoding gives for the encoded bytes `s`. -/
def utf8Text (s : Bytes) : Bytes := s.flatMap fun b => encodeChar b.toNat

def utf8Key : LuaKey → LuaKey
  | .string s => .string (utf8Text s)
  | key => key

def Ascii (s : Bytes) : Prop := ∀ b ∈ s, b.toNat < 128

theorem encodeChar_ascii {b : UInt8} (h : b.toNat < 128) : encodeChar b.toNat = [b] := by
  rw [encodeChar, if_pos h, UInt8.ofNat_toNat]

theorem encodeChar_high {b : UInt8} (h : ¬b.toNat < 128) :
    encodeChar b.toNat =
      [UInt8.ofNat (0xC0 + b.toNat / 64), UInt8.ofNat (0x80 + b.toNat % 64)] := by
  have hb := b.toNat_lt
  rw [encodeChar, if_neg h, if_pos (by omega)]

theorem utf8Text_of_ascii {s : Bytes} (h : Ascii s) : utf8Text s = s := by
  induction s with
  | nil => rfl
  | cons b s ih =>
    have htail := ih fun b' hb' => h b' (List.mem_cons_of_mem _ hb')
    rw [utf8Text] at htail ⊢
    rw [List.flatMap_cons, encodeChar_ascii (h b (by simp)), htail]
    rfl

theorem encodeChar_length_pos (b : UInt8) : 1 ≤ (encodeChar b.toNat).length := by
  by_cases hb : b.toNat < 128
  · rw [encodeChar_ascii hb]
    simp
  · rw [encodeChar_high hb]
    simp

theorem length_le_utf8Text (s : Bytes) : s.length ≤ (utf8Text s).length := by
  induction s with
  | nil => exact le_rfl
  | cons b s ih =>
    have hpos := encodeChar_length_pos b
    rw [utf8Text] at ih ⊢
    rw [List.flatMap_cons, List.length_append, List.length_cons]
    omega

/-- Text with a byte above 127 becomes longer and keeps such a byte. -/
theorem utf8Text_of_not_ascii {s : Bytes} (h : ¬Ascii s) :
    s.length < (utf8Text s).length ∧ ¬Ascii (utf8Text s) := by
  simp only [Ascii, not_forall] at h
  obtain ⟨b, hb, hhigh⟩ := h
  obtain ⟨before, after, rfl⟩ := List.append_of_mem hb
  have hsplit : utf8Text (before ++ b :: after) =
      utf8Text before ++ (encodeChar b.toNat ++ utf8Text after) := by
    simp [utf8Text]
  have hbefore := length_le_utf8Text before
  have hafter := length_le_utf8Text after
  rw [hsplit, encodeChar_high hhigh]
  refine ⟨by simp only [List.length_append, List.length_cons, List.length_nil]; omega, ?_⟩
  intro hascii
  have hbound := b.toNat_lt
  have hfirst := hascii (UInt8.ofNat (0xC0 + b.toNat / 64)) (by simp)
  rw [UInt8.toNat_ofNat'] at hfirst
  omega

theorem encodeChar_append_inj {a b : UInt8} {r s : Bytes}
    (h : encodeChar a.toNat ++ r = encodeChar b.toNat ++ s) : a = b ∧ r = s := by
  have ha := a.toNat_lt
  have hb := b.toNat_lt
  have hhead {m n : Nat} (hm : m < 256) (hn : n < 256) (h : UInt8.ofNat m = UInt8.ofNat n) :
      m = n := by
    have hnat := congrArg UInt8.toNat h
    rwa [UInt8.toNat_ofNat', UInt8.toNat_ofNat', Nat.mod_eq_of_lt hm, Nat.mod_eq_of_lt hn] at hnat
  have hself (c : UInt8) : c = UInt8.ofNat c.toNat := UInt8.ofNat_toNat.symm
  by_cases hlow : a.toNat < 128 <;> by_cases hlow' : b.toNat < 128
  · rw [encodeChar_ascii hlow, encodeChar_ascii hlow'] at h
    exact List.cons.inj h
  · rw [encodeChar_ascii hlow, encodeChar_high hlow', hself a] at h
    have heq := hhead (by omega) (by omega) (List.cons.inj h).1
    omega
  · rw [encodeChar_high hlow, encodeChar_ascii hlow', hself b] at h
    have heq := hhead (by omega) (by omega) (List.cons.inj h).1
    omega
  · rw [encodeChar_high hlow, encodeChar_high hlow'] at h
    obtain ⟨hfirst, hrest⟩ := List.cons.inj h
    obtain ⟨hsecond, hr⟩ := List.cons.inj hrest
    have hdiv := hhead (by omega) (by omega) hfirst
    have hmod := hhead (by omega) (by omega) hsecond
    exact ⟨UInt8.toNat_inj.mp (by omega), hr⟩

theorem utf8Text_injective : Function.Injective utf8Text := by
  intro s
  induction s with
  | nil =>
    intro s' h
    have hlen := length_le_utf8Text s'
    rw [← h] at hlen
    exact (List.length_eq_zero_iff.mp (Nat.le_zero.mp hlen)).symm
  | cons b s ih =>
    intro s' h
    cases s' with
    | nil =>
      have hlen := length_le_utf8Text (b :: s)
      rw [h] at hlen
      simp [utf8Text] at hlen
    | cons b' s' =>
      simp only [utf8Text, List.flatMap_cons] at h
      obtain ⟨rfl, htail⟩ := encodeChar_append_inj h
      rw [ih htail]

theorem utf8Key_injective : Function.Injective utf8Key := by
  intro a b h
  cases a <;> cases b <;> simp only [utf8Key, reduceCtorEq, LuaKey.integer.injEq,
    LuaKey.string.injEq, LuaKey.boolean.injEq] at h ⊢
  · exact h
  · exact utf8Text_injective h
  · exact h

theorem stringBody_quote (out rest : Bytes) : stringBody out (34 :: rest) = .ok (out, rest) := by
  rw [stringBody.eq_def]
  rfl

theorem stringBody_plain {b : UInt8} (hquote : b ≠ 34) (hslash : b ≠ 92) (out rest : Bytes) :
    stringBody out (b :: rest) = stringBody (out ++ [b]) rest := by
  rw [stringBody.eq_def]
  simp [hquote, hslash]

theorem codePoint_byte (b : UInt8) : codePoint b.toNat = b.toNat := by
  have hb := b.toNat_lt
  exact if_neg (by omega)

theorem stringBody_escapeByte (out : Bytes) (b : UInt8) (rest : Bytes) :
    stringBody out (escapeByte b ++ rest) = stringBody (out ++ encodeChar b.toNat) rest := by
  unfold escapeByte
  split_ifs with h1 h2 h3 h4 h5 h6
  case pos => rw [h1, List.cons_append, stringBody.eq_def]; rfl
  case pos => rw [h2, List.cons_append, stringBody.eq_def]; rfl
  case pos => rw [h3, List.cons_append, stringBody.eq_def]; rfl
  case pos => rw [h4, List.cons_append, stringBody.eq_def]; rfl
  case pos => rw [h5, List.cons_append, stringBody.eq_def]; rfl
  case pos =>
    have hle : b.toNat ≤ 126 := UInt8.le_iff_toNat_le.mp h6.2
    rw [encodeChar_ascii (by omega)]
    exact stringBody_plain h1 h2 out rest
  case neg =>
    have hparse := parseHex_unicodeEscape b
    have hescape : shortEscape 117 = none := by decide
    rw [unicodeEscape, List.cons_append, stringBody.eq_def]
    simp [hparse, hescape, codePoint_byte]

theorem stringBody_flatMap (out s rest : Bytes) :
    stringBody out (s.flatMap escapeByte ++ 34 :: rest) = .ok (out ++ utf8Text s, rest) := by
  induction s generalizing out with
  | nil =>
    rw [List.flatMap_nil, List.nil_append, stringBody_quote, utf8Text, List.flatMap_nil,
      List.append_nil]
  | cons b s ih =>
    rw [List.flatMap_cons, List.append_assoc, stringBody_escapeByte, ih, List.append_assoc]
    rfl

end Proveno.Vm.Json
