import Proveno.Parser.LongBrackets

/-! How far each part of the lexer goes, with all newlines on the way counted, and that it ends
with a value or with an error of its own: it reads nothing outside the source. -/

namespace Proveno

theorem lossyChars_ascii (s : Bytes) (h : ∀ b ∈ s, b < 128) :
    lossyChars s.length s = s.map UInt8.toNat := by
  induction s with
  | nil => rfl
  | cons b s ih =>
    have hb : decodeChar b s = (b.toNat, 1) := if_pos (h b List.mem_cons_self)
    rw [List.length_cons, lossyChars, hb, List.drop_one, List.tail_cons,
      ih fun c hc => h c (List.mem_cons_of_mem b hc)]
    rfl

theorem fromUtf8Lossy_ascii {s : Bytes} (h : ∀ b ∈ s, b < 128) : fromUtf8Lossy s = s := by
  rw [fromUtf8Lossy, lossyChars_ascii s h]
  induction s with
  | nil => rfl
  | cons b s ih =>
    have hb : encodeChar b.toNat = [b] := by
      have hlt : b.toNat < 0x80 := UInt8.lt_iff_toNat_lt.mp (h b List.mem_cons_self)
      rw [encodeChar, if_pos hlt, UInt8.ofNat_toNat]
    rw [List.map_cons, List.flatMap_cons, hb, ih fun c hc => h c (List.mem_cons_of_mem b hc)]
    rfl

namespace Lexer

open Exec (Meets Raised)

/-- From `l` the computation goes on by some bytes of the source, or fails with an error. -/
def Goes {α : Type} (l : Lexer) (m : Lex α) (post : α → Nat → Prop) : Prop :=
  Meets (· = l) m (fun a s => ∃ n, n ≤ l.rest.length ∧ s = l.past n ∧ post a n) Raised

namespace Goes

variable {α β : Type} {l : Lexer} {m : Lex α} {f : α → Lex β} {a : α} {post : α → Nat → Prop}
  {post' : β → Nat → Prop}

theorem mono (h : Goes l m post) {post₂ : α → Nat → Prop}
    (hpost : ∀ a n, n ≤ l.rest.length → post a n → post₂ a n) : Goes l m post₂ := by
  refine Meets.mono h (fun _ h => h) ?_ fun _ _ h => h
  rintro a s ⟨n, hn, rfl, ha⟩
  exact ⟨n, hn, rfl, hpost a n hn ha⟩

theorem pure (h : post a 0) : Goes l (pure a) post := by
  rintro _ rfl
  exact ⟨0, Nat.zero_le _, (past_zero _).symm, h⟩

theorem raise {e : ParseError} : Goes l (Lexer.raise e : Lex α) post := by
  rintro _ rfl
  exact ⟨e, rfl⟩

theorem failAt {e : Span → ParseError} {start : Nat} {line : UInt32} :
    Goes l (Lexer.failAt e start line : Lex α) post := by
  rintro _ rfl
  exact ⟨_, rfl⟩

theorem bind (hm : Goes l m post)
    (hf : ∀ a n, n ≤ l.rest.length → post a n →
      Goes (l.past n) (f a) fun b k => post' b (n + k)) : Goes l (m >>= f) post' := by
  refine Meets.bind hm fun a => ?_
  rintro s ⟨n, hn, rfl, ha⟩
  have h := hf a n hn ha _ rfl
  rcases hrun : (f a).run (l.past n) with ⟨e | b, s'⟩
  · rw [hrun] at h
    exact h
  · rw [hrun] at h
    obtain ⟨k, hk, rfl, hb⟩ := h
    rw [rest_past, List.length_drop] at hk
    exact ⟨n + k, by omega, past_past l n k, hb⟩

theorem get_bind {f : Lexer → Lex β} (h : Goes l (f l) post') : Goes l (Exec.get >>= f) post' := by
  rintro _ rfl
  exact h _ rfl

theorem of_run {n : Nat} (hn : n ≤ l.rest.length) (hrun : m.run l = (.ok a, l.past n))
    (ha : post a n) : Goes l m post := by
  rintro _ rfl
  rw [hrun]
  exact ⟨n, hn, rfl, ha⟩

theorem skip {n : Nat} (hn : n ≤ l.rest.length) (h : newline ∉ l.rest.take n) :
    Goes l (Lexer.skip n) fun _ k => k = n :=
  of_run hn (run_skip h) rfl

theorem skip_one {c : UInt8} (hc : l.rest.head? = some c) (hne : c ≠ newline) :
    Goes l (Lexer.skip 1) fun _ k => k = 1 := by
  obtain ⟨t, ht⟩ := List.head?_eq_some_iff.mp hc
  refine skip (by simp [ht]) ?_
  rw [ht]
  simpa using hne.symm

theorem run_le (l : Lexer) (p : UInt8 → Bool) : l.run p ≤ l.rest.length :=
  (List.takeWhile_prefix p).length_le

theorem skipWhile {p : UInt8 → Bool} (hp : p newline = false) :
    Goes l (Lexer.skipWhile p) fun k n => k = n ∧ n = l.run p :=
  of_run (run_le l p) (run_skipWhile hp) ⟨rfl, rfl⟩

theorem advance {c : UInt8} (hc : l.rest.head? = some c) :
    Goes l Lexer.advance fun b n => b = c ∧ n = 1 := by
  obtain ⟨t, ht⟩ := List.head?_eq_some_iff.mp hc
  exact of_run (by simp [ht]) (run_advance ht) ⟨rfl, rfl⟩

/-- A loop each turn of which goes on by a byte at least. -/
theorem loop {γ : Type} {turn : α → Lex (α ⊕ γ)} (inv : α → Nat → Prop) (post : γ → Nat → Prop)
    (hinit : inv a 0)
    (hturn : ∀ a n, n ≤ l.rest.length → inv a n → Goes (l.past n) (turn a) fun r k =>
      match r with
      | .inl next => 0 < k ∧ inv next (n + k)
      | .inr result => post result (n + k)) : Goes l (Lexer.loop turn a) post := by
  refine get_bind ?_
  have hstep (a : α) (bound : Nat) : Meets
      (fun s => (∃ n, n ≤ l.rest.length ∧ s = l.past n ∧ inv a n) ∧ s.rest.length ≤ bound)
      (turn a)
      (fun r s => match r with
        | .inl next =>
          (∃ n, n ≤ l.rest.length ∧ s = l.past n ∧ inv next n) ∧ s.rest.length < bound
        | .inr result => ∃ n, n ≤ l.rest.length ∧ s = l.past n ∧ post result n) Raised := by
    rintro s ⟨⟨n, hn, rfl, ha⟩, hbound⟩
    have h := hturn a n hn ha _ rfl
    rcases hrun : (turn a).run (l.past n) with ⟨e | (next | result), s'⟩
    · rw [hrun] at h
      exact h
    · rw [hrun] at h
      obtain ⟨k, hk, rfl, hpos, hnext⟩ := h
      rw [rest_past, List.length_drop] at hk hbound
      refine ⟨⟨n + k, by omega, past_past l n k, hnext⟩, ?_⟩
      rw [past_past, rest_past, List.length_drop]
      omega
    · rw [hrun] at h
      obtain ⟨k, hk, rfl, hresult⟩ := h
      rw [rest_past, List.length_drop] at hk
      exact ⟨n + k, by omega, past_past l n k, hresult⟩
  have hloop := Meets.loop hstep (l.src.length + 1) a
  rintro _ rfl
  refine hloop _ ⟨⟨0, Nat.zero_le _, (past_zero _).symm, hinit⟩, ?_⟩
  rw [rest, List.length_drop]
  omega

end Goes

section Text

variable {l : Lexer}

theorem head?_rest {b : UInt8} (hcur : l.cur = b) (hb : b ≠ 0) : l.rest.head? = some b := by
  cases hrest : l.rest with
  | nil =>
    rw [cur, List.getD_eq_getElem?_getD, List.getElem?_eq_none (List.drop_eq_nil_iff.mp hrest)]
      at hcur
    exact absurd hcur.symm hb
  | cons c t => rw [← hcur, cur_eq hrest]; rfl

theorem begins_pair {b d : UInt8} (hcur : l.cur = b) (hb : b ≠ 0) (hpeek : l.peek = d)
    (hd : d ≠ 0) : [b, d] <+: l.rest := by
  obtain ⟨t, ht⟩ := List.head?_eq_some_iff.mp (head?_rest hcur hb)
  rw [peek, List.getD_eq_getElem?_getD, getElem?_rest, ht] at hpeek
  cases t with
  | nil => exact absurd hpeek.symm hd
  | cons e t => exact ⟨t, by rw [ht, ← hpeek]; rfl⟩

/-- The text between a place and a later one is all ASCII. -/
theorem Goes.textFrom {n : Nat} (hpos : l.pos ≤ l.src.length) (hn : n ≤ l.rest.length)
    (hascii : ∀ b ∈ l.rest.take n, b < 128) :
    Goes (l.past n) (Lexer.textFrom l.pos) fun text k => k = 0 ∧ text = l.rest.take n := by
  have hlen : l.rest.length = l.src.length - l.pos := List.length_drop
  have htext : ((l.past n).src.take (l.past n).pos).drop l.pos = l.rest.take n := by
    rw [past_src, past_pos, rest, List.take_drop]
  refine of_run (Nat.zero_le _) ?_ ⟨rfl, rfl⟩
  rw [Lexer.textFrom, Exec.run_bind_ok (Exec.run_get _), htext, if_pos, past_zero]
  · rfl
  · refine ⟨Nat.le_add_right _ _, ?_, fromUtf8Lossy_ascii hascii⟩
    rw [past_src, past_pos]
    omega

theorem take_run_ascii {p : UInt8 → Bool} (hp : ∀ b, p b = true → b < 128) :
    ∀ b ∈ l.rest.take (l.run p), b < 128 := by
  intro b hb
  rw [take_run] at hb
  exact hp b (List.mem_takeWhile_imp hb)

end Text

theorem head?_of_not_atEnd {l : Lexer} (h : ¬l.atEnd) : l.rest.head? = some l.cur := by
  obtain ⟨c, t, hrest⟩ := List.exists_cons_of_ne_nil (mt atEnd_iff.mpr h)
  rw [cur_eq hrest, hrest]
  rfl

theorem pos_lt_of_head? {l : Lexer} {b : UInt8} (h : l.rest.head? = some b) :
    l.pos < l.src.length := by
  obtain ⟨t, ht⟩ := List.head?_eq_some_iff.mp h
  by_contra hge
  rw [rest, List.drop_eq_nil_iff.mpr (not_lt.mp hge)] at ht
  cases ht

/-- A token that begins at `start` and ends where the lexer then stands. -/
def Emits (l : Lexer) (start : Nat) (line : UInt32) (m : Lex SpannedToken) : Prop :=
  Goes l m fun t n => t.token ≠ .eof ∧ t.span = ⟨start, l.pos + n, line⟩ ∧ start < l.pos + n

namespace Emits

variable {α : Type} {l : Lexer} {start : Nat} {line : UInt32}

theorem tok {token : Token} (htoken : token ≠ .eof) (hstart : start < l.pos) :
    Emits l start line (Lexer.tok token start line) :=
  Goes.of_run (Nat.zero_le _) (by rw [past_zero]; rfl) ⟨htoken, rfl, hstart⟩

theorem bind {m : Lex α} {f : α → Lex SpannedToken} {post : α → Nat → Prop} (hm : Goes l m post)
    (hf : ∀ a n, n ≤ l.rest.length → post a n → Emits (l.past n) start line (f a)) :
    Emits l start line (m >>= f) := by
  refine Goes.bind hm fun a n hn ha => Goes.mono (hf a n hn ha) fun t k _ ht => ?_
  rw [past_pos, Nat.add_assoc] at ht
  exact ht

theorem get_bind {f : Lexer → Lex SpannedToken} (h : Emits l start line (f l)) :
    Emits l start line (Exec.get >>= f) := Goes.get_bind h

theorem failAt {e : Span → ParseError} {start' : Nat} {line' : UInt32} :
    Emits l start line (Lexer.failAt e start' line') := Goes.failAt

theorem fixedError {e : Span → ParseError} :
    Emits l start line (Lexer.fixedError e start line) := by
  rintro _ rfl
  exact ⟨_, rfl⟩

/-- A token of fixed text. -/
theorem fixedToken {token : Token} (text : Bytes) (hbegins : text <+: l.rest)
    (hno : newline ∉ text) (hne : text ≠ []) (htoken : token ≠ .eof) :
    Emits l l.pos line (Lexer.fixedToken text.length token l.pos line) := by
  have htake : l.rest.take text.length = text := (List.prefix_iff_eq_take.mp hbegins).symm
  refine bind (Goes.skip hbegins.length_le (by rwa [htake])) fun _ n _ hn => ?_
  have hpos := List.length_pos_iff.mpr hne
  refine tok htoken ?_
  rw [past_pos, hn]
  omega

end Emits

section Literals

variable {l : Lexer} {start : Nat} {line : UInt32}

theorem isDigit_lt {b : UInt8} (h : isDigit b = true) : b < 128 := by
  simp only [isDigit, Bool.and_eq_true, decide_eq_true_eq] at h
  exact UInt8.lt_of_le_of_lt h.2 (by decide)

theorem isHexDigit_lt {b : UInt8} (h : isHexDigit b = true) : b < 128 := by
  unfold isHexDigit hexValue at h
  split_ifs at h with hdigit hlower hupper
  · exact UInt8.lt_of_le_of_lt hdigit.2 (by decide)
  · exact UInt8.lt_of_le_of_lt hlower.2 (by decide)
  · exact UInt8.lt_of_le_of_lt hupper.2 (by decide)
  · cases h

theorem isIdentByte_lt {b : UInt8} (h : isIdentByte b = true) : b < 128 := by
  simp only [isIdentByte, isIdentStart, Bool.or_eq_true, Bool.and_eq_true, decide_eq_true_eq] at h
  rcases h with ((h | h) | h) | h
  · exact UInt8.lt_of_le_of_lt h.2 (by decide)
  · exact UInt8.lt_of_le_of_lt h.2 (by decide)
  · rw [h]
    decide
  · exact isDigit_lt h

/-- A byte that passes a test which a newline fails is skipped. -/
theorem Goes.skip_test {p : UInt8 → Bool} (hp : p newline = false) (hend : ¬l.atEnd)
    (hcur : p l.cur = true) : Goes l (Lexer.skip 1) fun _ k => k = 1 := by
  refine skip_one (head?_of_not_atEnd hend) fun hne => ?_
  rw [hne, hp] at hcur
  cases hcur

theorem hexEscape_goes (escStart : Nat) (escLine : UInt32) (count val : Nat) (l : Lexer) :
    Goes l (hexEscape escStart escLine count val) fun _ _ => True := by
  induction count generalizing val l with
  | zero => exact Goes.pure trivial
  | succ count ih =>
    rw [hexEscape]
    refine Goes.get_bind ?_
    split_ifs with h
    · exact Goes.failAt
    · rw [not_or, Bool.not_eq_false] at h
      exact (Goes.skip_test (p := isHexDigit) (by decide) h.1 h.2).bind fun _ _ _ _ => ih _ _

theorem decimalEscape_goes (escStart : Nat) (escLine : UInt32) (count val : Nat) (l : Lexer) :
    Goes l (decimalEscape escStart escLine count val) fun _ _ => True := by
  have hdone (l : Lexer) : Goes l (if 255 < val then failAt .badEscape escStart escLine
      else pure (UInt8.ofNat val)) fun _ _ => True := by
    split_ifs
    · exact Goes.failAt
    · exact Goes.pure trivial
  induction count generalizing val l with
  | zero => exact hdone l
  | succ count ih =>
    rw [decimalEscape]
    refine Goes.get_bind ?_
    by_cases h : ¬l.atEnd ∧ isDigit l.cur = true
    · rw [if_pos h]
      refine (Goes.skip_test (p := isDigit) (by decide) h.1 h.2).bind fun _ _ _ _ => ih _ _ ?_
      intro l
      split_ifs
      · exact Goes.failAt
      · exact Goes.pure trivial
    · rw [if_neg h]
      exact hdone l

theorem readEscape_goes (l : Lexer) (start : Nat) (line : UInt32) :
    Goes l (readEscape start line) fun _ _ => True := by
  unfold readEscape
  refine Goes.get_bind ?_
  split_ifs with hend
  · exact Goes.failAt
  · refine (Goes.advance (head?_of_not_atEnd hend)).bind fun c n _ _ => ?_
    cases plainEscape c with
    | some b => exact Goes.pure trivial
    | none =>
      dsimp only
      split_ifs
      · exact hexEscape_goes _ _ _ _ _
      · exact decimalEscape_goes _ _ _ _ _
      · exact Goes.failAt

theorem readShortStringTurn_goes (l : Lexer) (quote : UInt8) (start : Nat) (line : UInt32)
    (buf : Bytes) :
    Goes l (readShortStringTurn quote start line buf) fun r n =>
      match r with
      | .inl _ => 0 < n
      | .inr _ => True := by
  unfold readShortStringTurn
  refine Goes.get_bind ?_
  split_ifs with hstop hclose hescape
  · exact Goes.failAt
  · rw [not_or] at hstop
    exact (Goes.skip_one (head?_of_not_atEnd hstop.1) hstop.2).bind fun _ _ _ _ =>
      Goes.pure trivial
  · rw [not_or] at hstop
    refine (Goes.skip_one (head?_of_not_atEnd hstop.1) hstop.2).bind fun _ n _ hn => ?_
    refine (readEscape_goes _ start line).bind fun b k _ _ => Goes.pure ?_
    show 0 < n + (k + 0)
    omega
  · rw [not_or] at hstop
    refine (Goes.skip_one (head?_of_not_atEnd hstop.1) hstop.2).bind fun _ n _ hn => Goes.pure ?_
    show 0 < n + 0
    omega

theorem readShortString_emits (hhead : l.rest.head? = some l.cur) (hquote : l.cur ≠ newline) :
    Emits l l.pos line (readShortString l.pos line) := by
  unfold readShortString
  refine Emits.get_bind (Emits.bind (Goes.skip_one hhead hquote) fun _ n _ hn => ?_)
  refine Emits.bind (Goes.loop (fun _ _ => True) (fun _ _ => True) trivial fun buf k _ _ => ?_) fun buf k _ _ => ?_
  · refine (readShortStringTurn_goes _ l.cur l.pos line buf).mono fun r _ _ h => ?_
    cases r with
    | inl buf => exact ⟨h, trivial⟩
    | inr buf => trivial
  · split_ifs
    · exact Emits.failAt
    · refine Emits.tok nofun ?_
      rw [past_pos, past_pos, hn]
      omega

theorem readHex_emits {x : UInt8} (hbegins : [byte '0', x] <+: l.rest) (hx : x ≠ newline) :
    Emits l l.pos line (readHex l.pos line) := by
  obtain ⟨t, ht⟩ := hbegins
  have hlen : l.rest.length = l.src.length - l.pos := List.length_drop
  have hskip : newline ∉ l.rest.take 2 := by
    rw [← ht]
    simp only [List.cons_append, List.nil_append, List.take_succ_cons, List.take_zero,
      List.mem_cons, List.not_mem_nil, or_false, not_or]
    exact ⟨by decide, hx.symm⟩
  have hlong : 2 ≤ l.rest.length := by simp [← ht]
  unfold readHex
  refine Emits.bind (Goes.skip hlong hskip) fun _ n hn hskipped => Emits.get_bind ?_
  subst hskipped
  refine Emits.bind (Goes.skipWhile (p := isHexDigit) (by decide)) fun k m hm hrun => ?_
  obtain ⟨rfl, rfl⟩ := hrun
  refine Emits.get_bind ?_
  have hpos : l.pos < (l.past (2 + (l.past 2).run isHexDigit)).pos := by
    rw [past_pos]
    omega
  split_ifs with hfloat
  · obtain ⟨hend, hcur⟩ := hfloat
    refine Emits.bind (Goes.skip_one (head?_of_not_atEnd hend) ?_) fun _ _ _ _ => Emits.failAt
    rcases hcur with hcur | hcur | hcur <;> rw [hcur] <;> decide
  · refine Emits.bind (Goes.textFrom ?_ hm (take_run_ascii fun _ => isHexDigit_lt))
      fun text k _ htext => ?_
    · rw [past_src, past_pos]
      omega
    · rw [htext.1, past_zero]
      split_ifs
      · exact Emits.failAt
      · split
        · exact Emits.tok nofun (by rw [past_past]; exact hpos)
        · exact Emits.failAt

theorem readNumber_emits (hhead : l.rest.head? = some l.cur) (hdigit : isDigit l.cur = true) :
    Emits l l.pos line (readNumber l.pos line) := by
  have hend : ¬l.atEnd := by
    rw [atEnd_iff]
    intro hnil
    rw [hnil] at hhead
    cases hhead
  unfold readNumber
  refine Emits.get_bind ?_
  split_ifs with hhex
  · obtain ⟨hzero, hx⟩ := hhex
    rcases hx with hx | hx
    · exact readHex_emits (begins_pair hzero (by decide) hx (by decide)) (by decide)
    · exact readHex_emits (begins_pair hzero (by decide) hx (by decide)) (by decide)
  · refine Emits.bind (Goes.skipWhile (p := isDigit) (by decide)) fun k n hn hrun => ?_
    obtain ⟨rfl, rfl⟩ := hrun
    have hpos : l.pos < (l.past (l.run isDigit)).pos := by
      obtain ⟨t, ht⟩ := List.head?_eq_some_iff.mp hhead
      rw [past_pos, run_eq, ht, List.takeWhile_cons_of_pos hdigit, List.length_cons]
      omega
    refine Emits.get_bind ?_
    split_ifs with hfloat
    · obtain ⟨hend, hcur⟩ := hfloat
      refine Emits.bind (Goes.skip_one (head?_of_not_atEnd hend) ?_) fun _ _ _ _ => Emits.failAt
      rcases hcur with hcur | hcur | hcur <;> rw [hcur] <;> decide
    · refine Emits.bind (Goes.textFrom (Nat.le_of_lt (pos_lt_of_head? hhead)) hn
        (take_run_ascii fun _ => isDigit_lt)) fun text k _ htext => ?_
      rw [htext.1, past_zero]
      split
      · exact Emits.tok nofun hpos
      · exact Emits.failAt

theorem keywords_ne_eof : ∀ entry ∈ keywords, entry.2 ≠ .eof := by decide

theorem wordToken_ne_eof (text : Bytes) : wordToken text ≠ .eof := by
  unfold wordToken
  split
  · next entry hfind => exact keywords_ne_eof entry (List.mem_of_find?_eq_some hfind)
  · nofun

theorem readIdentOrKeyword_emits (hhead : l.rest.head? = some l.cur)
    (hident : isIdentByte l.cur = true) : Emits l l.pos line (readIdentOrKeyword l.pos line) := by
  unfold readIdentOrKeyword
  refine Emits.bind (Goes.skipWhile (p := isIdentByte) (by decide)) fun k n hn hrun => ?_
  obtain ⟨rfl, rfl⟩ := hrun
  refine Emits.bind (Goes.textFrom (Nat.le_of_lt (pos_lt_of_head? hhead)) hn
    (take_run_ascii fun _ => isIdentByte_lt)) fun text k _ htext => ?_
  rw [htext.1, past_zero]
  refine Emits.tok (wordToken_ne_eof text) ?_
  obtain ⟨t, ht⟩ := List.head?_eq_some_iff.mp hhead
  rw [past_pos, run_eq, ht, List.takeWhile_cons_of_pos hident, List.length_cons]
  omega

end Literals

section Brackets

variable {l : Lexer} {level : Nat} {body : Bytes}

theorem afterBracket_le {i : Nat} (h : l.rest = opening level ++ body)
    (hi : LeftmostAt (closing level) body i) : level + 2 + (i + (level + 2)) ≤ l.rest.length := by
  have hle : i + (closing level).length ≤ body.length := hi.lt_length
  rw [length_closing] at hle
  rw [h, List.length_append, length_opening]
  omega

theorem readLongStringCollect_goes (start : Nat) (line : UInt32)
    (h : l.rest = opening level ++ body) :
    Goes l (readLongStringCollect level start line) fun _ n =>
      ∃ i, LeftmostAt (closing level) body i ∧ n = level + 2 + (i + (level + 2)) := by
  rw [readLongStringCollect_eq]
  rintro _ rfl
  rcases run_longBracket true (failAt .unterminatedString start line) (fun buf =>
      if maxStringLen < buf.length then failAt .stringTooLong start line else pure buf) h with
    ⟨i, hleft, hrun⟩ | ⟨-, hrun⟩
  · rw [hrun, if_pos rfl]
    split_ifs
    · exact ⟨_, rfl⟩
    · exact ⟨_, afterBracket_le h hleft, rfl, i, hleft, rfl⟩
  · rw [hrun]
    exact ⟨_, rfl⟩

theorem skipLongString_goes (discard : Bool) (hpos : 2 ≤ l.pos)
    (h : l.rest = opening level ++ body) :
    Goes l (skipLongString level discard) fun _ n =>
      ∃ i, LeftmostAt (closing level) body i ∧ n = level + 2 + (i + (level + 2)) := by
  rintro s rfl
  rw [run_skipLongString discard hpos]
  rcases run_longBracket (!discard) (Exec.get >>= fun l' =>
      failAt .unterminatedComment (s.pos - 2) l'.line) pure h with ⟨i, hleft, hrun⟩ | ⟨-, hrun⟩
  · rw [hrun]
    exact ⟨_, afterBracket_le h hleft, rfl, i, hleft, rfl⟩
  · rw [hrun]
    exact ⟨_, rfl⟩

end Brackets

section Dispatch

variable {l : Lexer} {line : UInt32}

theorem eq_or_of_ite {c b : UInt8} {token token' : Token} {other : Option Token}
    (h : (if c = b then some token else other) = some token') :
    (c = b ∧ token = token') ∨ other = some token' := by
  split_ifs at h with hc
  · exact .inl ⟨hc, Option.some.inj h⟩
  · exact .inr h

theorem punctuation_spec {c : UInt8} {token : Token} (h : punctuation c = some token) :
    token ≠ .eof ∧ c ≠ newline ∧ c ≠ 0 := by
  unfold punctuation at h
  iterate 13
    rcases eq_or_of_ite h with ⟨rfl, rfl⟩ | h
    · exact ⟨nofun, by decide, by decide⟩
  cases h

/-- The token of the single byte at hand. -/
theorem Emits.fixed_one {token : Token} {b : UInt8} (hcur : l.cur = b) (hb : b ≠ 0)
    (hne : b ≠ newline) (htoken : token ≠ .eof) :
    Emits l l.pos line (Lexer.fixedToken 1 token l.pos line) := by
  obtain ⟨t, ht⟩ := List.head?_eq_some_iff.mp (head?_rest hcur hb)
  exact fixedToken [b] ⟨t, ht.symm⟩ (by simpa using hne.symm) nofun htoken

theorem Emits.fixed_two {token : Token} {b d : UInt8} (hcur : l.cur = b) (hb : b ≠ 0)
    (hpeek : l.peek = d) (hd : d ≠ 0) (hne : newline ∉ [b, d]) (htoken : token ≠ .eof) :
    Emits l l.pos line (Lexer.fixedToken 2 token l.pos line) :=
  fixedToken [b, d] (begins_pair hcur hb hpeek hd) hne nofun htoken

theorem readDots_emits (hcur : l.cur = byte '.') : Emits l l.pos line (readDots l.pos line) := by
  unfold readDots
  refine Emits.get_bind ?_
  split_ifs with hpeek hthird hdigit
  · obtain ⟨t, ht⟩ := begins_pair hcur (by decide) hpeek (by decide)
    rw [getElem?_rest, ← ht] at hthird
    cases t with
    | nil => cases hthird
    | cons e t =>
      obtain rfl : e = byte '.' := Option.some.inj hthird
      exact Emits.fixedToken [byte '.', byte '.', byte '.'] ⟨t, ht⟩ (by decide) nofun nofun
  · exact Emits.fixed_two hcur (by decide) hpeek (by decide) (by decide) nofun
  · exact Emits.fixedError
  · exact Emits.fixed_one hcur (by decide) (by decide) nofun

theorem readBracket_emits (hcur : l.cur = byte '[') :
    Emits l l.pos line (readBracket l.pos line) := by
  unfold readBracket
  refine Emits.get_bind ?_
  cases hlevel : l.countLongBracketOpen with
  | none => exact Emits.fixed_one hcur (by decide) (by decide) nofun
  | some level =>
    obtain ⟨body, hbody⟩ := countLongBracketOpen_eq_some_iff.mp hlevel
    refine Emits.bind (readLongStringCollect_goes l.pos line hbody.symm) fun _ n _ hn => ?_
    obtain ⟨i, -, rfl⟩ := hn
    refine Emits.tok nofun ?_
    rw [past_pos]
    omega

theorem isIdentStart_newline : isIdentStart newline = false := by decide

theorem nextToken_emits (hend : ¬l.atEnd) : Emits l l.pos l.line nextToken := by
  have hhead := head?_of_not_atEnd hend
  unfold nextToken
  refine Emits.get_bind ?_
  dsimp only
  cases hpunctuation : punctuation l.cur with
  | some token =>
    obtain ⟨htoken, hne, hzero⟩ := punctuation_spec hpunctuation
    exact Emits.fixed_one rfl hzero hne htoken
  | none =>
    dsimp only
    by_cases hslash : l.cur = byte '/'
    · rw [if_pos hslash]
      split_ifs with hpeek
      · exact Emits.fixed_two hslash (by decide) hpeek (by decide) (by decide) nofun
      · exact Emits.fixedError
    rw [if_neg hslash]
    by_cases heq : l.cur = byte '='
    · rw [if_pos heq]
      split_ifs with hpeek
      · exact Emits.fixed_two heq (by decide) hpeek (by decide) (by decide) nofun
      · exact Emits.fixed_one heq (by decide) (by decide) nofun
    rw [if_neg heq]
    by_cases htilde : l.cur = byte '~'
    · rw [if_pos htilde]
      split_ifs with hpeek
      · exact Emits.fixed_two htilde (by decide) hpeek (by decide) (by decide) nofun
      · exact Emits.fixedError
    rw [if_neg htilde]
    by_cases hlt : l.cur = byte '<'
    · rw [if_pos hlt]
      split_ifs with hpeek
      · exact Emits.fixed_two hlt (by decide) hpeek (by decide) (by decide) nofun
      · exact Emits.fixed_one hlt (by decide) (by decide) nofun
    rw [if_neg hlt]
    by_cases hgt : l.cur = byte '>'
    · rw [if_pos hgt]
      split_ifs with hpeek
      · exact Emits.fixed_two hgt (by decide) hpeek (by decide) (by decide) nofun
      · exact Emits.fixed_one hgt (by decide) (by decide) nofun
    rw [if_neg hgt]
    split_ifs with hdot hbracket hquote hdigit hident
    · exact readDots_emits hdot
    · exact readBracket_emits hbracket
    · refine readShortString_emits hhead ?_
      rcases hquote with hquote | hquote <;> rw [hquote] <;> decide
    · exact readNumber_emits hhead hdigit
    · exact readIdentOrKeyword_emits hhead (by rw [isIdentByte, hident]; rfl)
    · exact Emits.fixedError

end Dispatch

end Lexer

end Proveno
