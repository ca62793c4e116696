import Proveno.Parser.LexerRuns

/-! The tokens of a source stand one after the other with nothing but whitespace and whole
comments between them. Their lines are exact as long as the line counter does not wrap. -/

namespace Proveno.Lexer

section Trivia

/-- The text of a comment that ends with its line. -/
structure IsShortComment (text : Bytes) : Prop where
  oneLine : newline ∉ text
  notLong : ∀ level, ¬opening level <+: text

/-- Whitespace and whole comments; only at the end of the source a comment lacks its newline. -/
inductive Trivia (last : Bool) : Bytes → Prop
  | nil : Trivia last []
  | space {b : UInt8} {t : Bytes} (hb : isSpace b = true) (ht : Trivia last t) :
      Trivia last (b :: t)
  | comment {text t : Bytes} (htext : IsShortComment text) (ht : Trivia last t) :
      Trivia last (ascii "--" ++ text ++ newline :: t)
  | lastComment {text : Bytes} (hlast : last = true) (htext : IsShortComment text) :
      Trivia last (ascii "--" ++ text)
  | longComment {level : Nat} {text t : Bytes}
      (hclose : LeftmostAt (closing level) (text ++ closing level) text.length)
      (ht : Trivia last t) :
      Trivia last (ascii "--" ++ (opening level ++ (text ++ closing level)) ++ t)

namespace Trivia

variable {last : Bool} {s t : Bytes}

theorem append (hs : Trivia false s) (ht : Trivia last t) : Trivia last (s ++ t) := by
  induction hs with
  | nil => exact ht
  | space hb _ ih => exact ih.space hb
  | @comment text t' htext _ ih =>
    rw [List.append_assoc, List.cons_append]
    exact ih.comment htext
  | lastComment hlast => cases hlast
  | @longComment level text t' hclose _ ih =>
    rw [List.append_assoc]
    exact ih.longComment hclose

theorem mono (hs : Trivia false s) : Trivia last s := by
  rw [← List.append_nil s]
  exact hs.append .nil

theorem spaces (hs : ∀ b ∈ s, isSpace b = true) : Trivia last s := by
  induction s with
  | nil => exact .nil
  | cons b s ih =>
    exact (ih fun c hc => hs c (List.mem_cons_of_mem b hc)).space (hs b List.mem_cons_self)

end Trivia

/-- What has been read is trivia, but for the newline of a comment that may be yet to come. -/
def Passed (read left : Bytes) : Prop :=
  Trivia false read ∨
    ∃ before text, read = before ++ (ascii "--" ++ text) ∧ Trivia false before ∧
      IsShortComment text ∧ ∀ b, left.head? = some b → b = newline

/-- Once the spaces that follow are read, only the end of the source can be missing. -/
theorem Passed.spaces {read left : Bytes} (h : Passed read left) :
    Trivia false (read ++ left.takeWhile isSpace) ∨ (left = [] ∧ Trivia true read) := by
  have hspaces : ∀ b ∈ left.takeWhile isSpace, isSpace b = true :=
    fun b hb => List.mem_takeWhile_imp hb
  rcases h with h | ⟨before, text, rfl, hbefore, htext, hnext⟩
  · exact .inl (h.append (.spaces hspaces))
  · cases left with
    | nil => exact .inr ⟨rfl, hbefore.append (.lastComment rfl htext)⟩
    | cons b left =>
      left
      obtain rfl := hnext b rfl
      rw [List.takeWhile_cons_of_pos (by decide), List.append_assoc]
      refine hbefore.append (.comment htext (.spaces fun c hc => ?_))
      exact List.mem_takeWhile_imp hc

end Trivia

section Whitespace

variable {l : Lexer}

theorem advanced_iterate {k : Nat} (hk : k ≤ l.rest.length) : advanced^[k] l = l.past k := by
  induction k with
  | zero => simp
  | succ k ih =>
    have hrest : (l.past k).rest ≠ [] := by
      rw [rest_past, ne_eq, List.drop_eq_nil_iff]
      omega
    obtain ⟨c, t, hct⟩ := List.exists_cons_of_ne_nil hrest
    rw [Function.iterate_succ_apply', ih (by omega), advanced_eq hct, past_past]

theorem Goes.advanceWhile (p : UInt8 → Bool) :
    Goes l (Lexer.advanceWhile p) fun _ n => n = l.run p := by
  have hrun : (Lexer.advanceWhile p).run l = (.ok (), l.past (l.run p)) := by
    rw [← advanced_iterate (run_le l p)]
    rfl
  exact of_run (run_le l p) hrun rfl

theorem dashes_eq : ascii "--" = [byte '-', byte '-'] := by decide

/-- From where the whitespace ends, a comment begins. -/
theorem dashes_prefix (h : l.pos + 1 < l.src.length ∧ l.cur = byte '-' ∧ l.peek = byte '-') :
    ascii "--" <+: l.rest := by
  rw [dashes_eq]
  exact begins_pair h.2.1 (by decide) h.2.2 (by decide)

theorem head?_drop_run (p : UInt8 → Bool) (b : UInt8)
    (h : (l.rest.drop (l.run p)).head? = some b) : p b = false := by
  have hdrop : l.rest.drop (l.run p) = l.rest.dropWhile p := by
    calc l.rest.drop (l.run p)
        = (l.rest.takeWhile p ++ l.rest.dropWhile p).drop (l.run p) := by
          rw [List.takeWhile_append_dropWhile]
      _ = l.rest.dropWhile p := List.drop_left' rfl
  rw [hdrop] at h
  simpa [h] using List.head?_dropWhile_not p l.rest

/-- A comment to the end of the line has been read up to its newline. -/
theorem passed_shortComment {before : Bytes} (hbefore : Trivia false before)
    (hnone : l.countLongBracketOpen = none) :
    Passed (before ++ (ascii "--" ++ l.rest.take (l.run (· != newline))))
      (l.rest.drop (l.run (· != newline))) := by
  refine .inr ⟨before, _, rfl, hbefore, ⟨?_, fun level hbegins => ?_⟩, fun b hb => ?_⟩
  · rw [take_run]
    intro hmem
    exact absurd (List.mem_takeWhile_imp hmem) (by decide)
  · have hsome := countLongBracketOpen_eq_some_iff.mpr (hbegins.trans (List.take_prefix _ _))
    rw [hnone] at hsome
    cases hsome
  · simpa using head?_drop_run (· != newline) b hb

/-- A comment in long brackets has been read. -/
theorem trivia_longComment {before body : Bytes} {level i : Nat} (hbefore : Trivia false before)
    (hi : LeftmostAt (closing level) body i) :
    Trivia false (before ++
      (ascii "--" ++ (opening level ++ body).take (level + 2 + (i + (level + 2))))) := by
  obtain ⟨htake, hclose⟩ := hi.take
  have hlen : (body.take i).length = i := by
    have hle : i + (closing level).length ≤ body.length := hi.lt_length
    rw [List.length_take]
    omega
  have htext : (opening level ++ body).take (level + 2 + (i + (level + 2))) =
      opening level ++ (body.take i ++ closing level) := by
    calc _ = (opening level ++ body).take ((opening level).length +
          (i + (closing level).length)) := by rw [length_opening, length_closing]
      _ = _ := by rw [List.take_length_add_append, htake]
  rw [htext, ← List.append_nil (ascii "--" ++ _)]
  exact hbefore.append (.longComment (hlen.symm ▸ hclose) .nil)

theorem skipTurn_goes {n : Nat} (hn : n ≤ l.rest.length)
    (hpassed : Passed (l.rest.take n) (l.rest.drop n)) :
    Goes (l.past n) (skipWhitespaceAndCommentsTurn ()) fun r k =>
      match r with
      | .inl _ => 0 < k ∧ Passed (l.rest.take (n + k)) (l.rest.drop (n + k))
      | .inr _ => Trivia (decide (n + k = l.rest.length)) (l.rest.take (n + k)) := by
  unfold skipWhitespaceAndCommentsTurn
  refine (Goes.advanceWhile isSpace).bind fun _ w hw hrun => Goes.get_bind ?_
  have hread : l.rest.take (n + w) = l.rest.take n ++ (l.rest.drop n).takeWhile isSpace := by
    rw [List.take_add, hrun, ← rest_past, take_run]
  have hspaces := hpassed.spaces
  rw [← hread] at hspaces
  rw [past_past]
  by_cases hcomment : (l.past (n + w)).pos + 1 < (l.past (n + w)).src.length ∧
      (l.past (n + w)).cur = byte '-' ∧ (l.past (n + w)).peek = byte '-'
  · obtain ⟨left, hleft⟩ := dashes_prefix hcomment
    have hbefore : Trivia false (l.rest.take (n + w)) := by
      rcases hspaces with hspaces | ⟨hnil, -⟩
      · exact hspaces
      · rw [rest_past, ← List.drop_drop, hnil, List.drop_nil, dashes_eq] at hleft
        cases hleft
    have hrest : ((l.past (n + w)).past 2).rest = left := by rw [rest_past, ← hleft]; rfl
    have htake (m : Nat) : l.rest.take (n + (w + (2 + m))) =
        l.rest.take (n + w) ++ (ascii "--" ++ left.take m) := by
      rw [← Nat.add_assoc, List.take_add, ← rest_past, ← hleft, dashes_eq, Nat.add_comm 2 m]
      rfl
    have hdrop (m : Nat) : l.rest.drop (n + (w + (2 + m))) = left.drop m := by
      rw [← hrest, past_past, rest_past, List.drop_drop]
      congr 1
      omega
    have hskip : Goes (l.past (n + w)) (skip 2) fun _ k => k = 2 :=
      Goes.skip (by simp [← hleft, dashes_eq]) (by simp [← hleft, dashes_eq, byte, newline])
    rw [if_pos hcomment]
    refine hskip.bind fun _ k _ hk => Goes.get_bind ?_
    subst hk
    cases hlevel : ((l.past (n + w)).past 2).countLongBracketOpen with
    | some level =>
      obtain ⟨body, hbody⟩ := countLongBracketOpen_eq_some_iff.mp hlevel
      have hpos : 2 ≤ ((l.past (n + w)).past 2).pos := Nat.le_add_left _ _
      refine (skipLongString_goes true hpos hbody.symm).bind fun _ m _ hm => Goes.pure ?_
      obtain ⟨i, hi, rfl⟩ := hm
      rw [hrest] at hbody
      refine ⟨by omega, .inl ?_⟩
      rw [Nat.add_zero, htake, ← hbody]
      exact trivia_longComment hbefore hi
    | none =>
      refine (Goes.skipWhile (p := (· != newline)) (by decide)).bind fun _ m _ hm => Goes.pure ?_
      rw [hm.2, Nat.add_zero, htake, hdrop, ← hrest]
      exact ⟨by omega, passed_shortComment hbefore hlevel⟩
  · rw [if_neg hcomment]
    refine Goes.pure ?_
    show Trivia (decide (n + (w + 0) = l.rest.length)) (l.rest.take (n + (w + 0)))
    rw [Nat.add_zero]
    rcases hspaces with hspaces | ⟨hnil, htrivia⟩
    · exact hspaces.mono
    · have hlen := List.drop_eq_nil_iff.mp hnil
      have hzero : w = 0 := by
        rw [rest_past, List.length_drop] at hw
        omega
      rw [hzero, Nat.add_zero, decide_eq_true (by omega)]
      exact htrivia

theorem skipWhitespaceAndComments_goes (l : Lexer) :
    Goes l skipWhitespaceAndComments fun _ n =>
      Trivia (decide (n = l.rest.length)) (l.rest.take n) :=
  Goes.loop (fun _ n => Passed (l.rest.take n) (l.rest.drop n)) _ (.inl .nil)
    fun _ _ hn hpassed => (skipTurn_goes hn hpassed).mono fun r _ _ h => by
      cases r <;> exact h

end Whitespace

section Tokens

variable {src : Bytes}

def slice (src : Bytes) (start stop : Nat) : Bytes := (src.take stop).drop start

/-- The line counter at a place of the source. -/
def lineAt (src : Bytes) (p : Nat) : UInt32 := ((new src).past p).line

/-- Tokens one after the other from the beginning of the source, the last of them up to `n`. -/
inductive Laid (src : Bytes) : List SpannedToken → Nat → Prop
  | nil : Laid src [] 0
  | snoc {tokens : List SpannedToken} {n start stop : Nat} {token : Token}
      (h : Laid src tokens n) (hstart : n ≤ start) (hstop : start < stop)
      (hend : stop ≤ src.length) (hgap : Trivia false (slice src n start))
      (htoken : token ≠ .eof) :
      Laid src (tokens ++ [⟨token, ⟨start, stop, lineAt src start⟩⟩]) stop

/-- All of the source, with the token at its end. -/
def Tokenized (src : Bytes) (result : List SpannedToken) : Prop :=
  ∃ tokens n, Laid src tokens n ∧ n ≤ src.length ∧ Trivia true (slice src n src.length) ∧
    result = tokens ++ [⟨.eof, ⟨src.length, src.length, lineAt src src.length⟩⟩]

theorem rest_new : (new src).rest = src := rfl

theorem tokenizeTurn_goes (src : Bytes) {tokens : List SpannedToken} {n : Nat} (hn : n ≤ src.length)
    (h : Laid src tokens n) :
    Goes ((new src).past n) (tokenizeTurn tokens) fun r k =>
      match r with
      | .inl next => 0 < k ∧ Laid src next (n + k)
      | .inr result => Tokenized src result := by
  unfold tokenizeTurn
  refine (skipWhitespaceAndComments_goes _).bind fun _ k hk htrivia => Goes.get_bind ?_
  rw [rest_past, rest_new] at hk htrivia
  rw [List.length_drop] at hk
  have hgap : (src.drop n).take k = slice src n (n + k) := List.take_drop
  rw [hgap, List.length_drop] at htrivia
  rw [past_past]
  have hpos : ((new src).past (n + k)).pos = n + k := Nat.zero_add _
  by_cases hend : ((new src).past (n + k)).atEnd
  · have hlen : n + k = src.length := by
      have hge : src.length ≤ ((new src).past (n + k)).pos := hend
      omega
    rw [if_pos hend]
    refine Goes.pure ⟨tokens, n, h, hn, ?_, ?_⟩
    · rw [decide_eq_true (by omega), hlen] at htrivia
      exact htrivia
    · rw [spanFrom, hpos, hlen]
      rfl
  · have hlt : n + k < src.length := by
      have hlt : ¬src.length ≤ ((new src).past (n + k)).pos := hend
      omega
    rw [if_neg hend]
    refine Goes.bind (nextToken_emits hend) fun token m hm htoken => Goes.pure ?_
    obtain ⟨hne, hspan, hnonempty⟩ := htoken
    rw [hpos] at hspan hnonempty
    rw [rest_past, rest_new, List.length_drop] at hm
    rw [decide_eq_false (by omega)] at htrivia
    refine ⟨by omega, ?_⟩
    have hlaid := h.snoc (Nat.le_add_right n k) hnonempty (by omega) htrivia hne
    obtain ⟨token, span⟩ := token
    obtain rfl : span = _ := hspan
    rw [Nat.add_zero, ← Nat.add_assoc]
    exact hlaid

theorem tokenize_goes (src : Bytes) :
    Goes (new src) (loop tokenizeTurn []) fun result _ => Tokenized src result :=
  Goes.loop (fun tokens n => Laid src tokens n) _ .nil fun _ _ hn h =>
    (tokenizeTurn_goes src hn h).mono fun r _ _ h => by cases r <;> exact h

/-- The lexer ends with tokens that cover the source, or with an error of its own. -/
theorem tokenize_cases (src : Bytes) :
    (∃ tokens, tokenize src = .ok tokens ∧ Tokenized src tokens) ∨
      ∃ e, tokenize src = .error (.raised e) := by
  have h := tokenize_goes src (new src) rfl
  unfold tokenize
  rcases hrun : (loop tokenizeTurn []).run (new src) with ⟨e | tokens, s⟩
  · rw [hrun] at h
    obtain ⟨err, rfl⟩ := h
    exact .inr ⟨err, rfl⟩
  · rw [hrun] at h
    obtain ⟨n, -, -, htokens⟩ := h
    exact .inl ⟨tokens, rfl, htokens⟩

end Tokens

section Exactness

variable {src : Bytes} {tokens : List SpannedToken} {n : Nat}

structure SpansExact (src : Bytes) (tokens : List SpannedToken) : Prop where
  within : ∀ t ∈ tokens, t.span.start ≤ t.span.stop ∧ t.span.stop ≤ src.length
  ordered : tokens.Pairwise fun a b => a.span.stop ≤ b.span.start
  gaps : tokens.IsChain fun a b =>
    Trivia (decide (b.token = .eof)) (slice src a.span.stop b.span.start)
  nonempty : ∀ t ∈ tokens, t.token ≠ .eof → t.span.start < t.span.stop
  lines : ∀ t ∈ tokens, t.span.line.toNat = 1 + (src.take t.span.start).count newline

theorem lineAt_toNat (src : Bytes) (p : Nat) :
    (lineAt src p).toNat = (1 + (src.take p).count newline) % 2 ^ 32 := by
  show ((1 : UInt32) + UInt32.ofNat ((src.take p).count newline)).toNat = _
  rw [UInt32.toNat_add, UInt32.toNat_ofNat']
  exact (Nat.add_mod _ _ _).symm

theorem Laid.mem (h : Laid src tokens n) : ∀ t ∈ tokens,
    t.span.start < t.span.stop ∧ t.span.stop ≤ n ∧ t.span.stop ≤ src.length ∧
      t.token ≠ .eof ∧ t.span.line = lineAt src t.span.start := by
  induction h with
  | nil => exact List.forall_mem_nil _
  | snoc h hstart hstop hend _ htoken ih =>
    intro t ht
    rcases List.mem_append.mp ht with ht | ht
    · obtain ⟨hlt, hn, hrest⟩ := ih t ht
      exact ⟨hlt, by omega, hrest⟩
    · obtain rfl := List.mem_singleton.mp ht
      exact ⟨hstop, le_rfl, hend, htoken, rfl⟩

theorem Laid.ordered (h : Laid src tokens n) :
    tokens.Pairwise fun a b => a.span.stop ≤ b.span.start := by
  induction h with
  | nil => exact .nil
  | snoc h hstart _ _ _ _ ih =>
    refine List.pairwise_append.mpr ⟨ih, List.pairwise_singleton _ _, fun a ha b hb => ?_⟩
    obtain rfl := List.mem_singleton.mp hb
    exact (h.mem a ha).2.1.trans hstart

theorem Laid.getLast? (h : Laid src tokens n) : ∀ t ∈ tokens.getLast?, t.span.stop = n := by
  cases h with
  | nil => simp
  | snoc => simp

theorem Laid.gaps (h : Laid src tokens n) : tokens.IsChain fun a b =>
    Trivia (decide (b.token = .eof)) (slice src a.span.stop b.span.start) := by
  induction h with
  | nil => exact .nil
  | snoc h _ _ _ hgap _ ih =>
    refine List.isChain_append.mpr ⟨ih, .singleton _, fun a ha b hb => ?_⟩
    obtain rfl := Option.some.inj hb
    rw [h.getLast? a ha]
    exact hgap.mono

theorem lines_iff (h : Tokenized src tokens) :
    (∀ t ∈ tokens, t.span.line.toNat = 1 + (src.take t.span.start).count newline) ↔
      src.count newline + 1 < 2 ^ 32 := by
  obtain ⟨before, n, hlaid, -, -, rfl⟩ := h
  constructor
  · intro hlines
    have heof := hlines _ (List.mem_append_right _ List.mem_cons_self)
    rw [lineAt_toNat, List.take_length] at heof
    omega
  · intro hcount t ht
    have hline : t.span.line = lineAt src t.span.start := by
      rcases List.mem_append.mp ht with ht | ht
      · exact (hlaid.mem t ht).2.2.2.2
      · rw [List.mem_singleton.mp ht]
    have hle : (src.take t.span.start).count newline ≤ src.count newline :=
      (List.take_sublist _ _).count_le _
    rw [hline, lineAt_toNat, Nat.mod_eq_of_lt (by omega)]

theorem Tokenized.spansExact (h : Tokenized src tokens)
    (hlines : ∀ t ∈ tokens, t.span.line.toNat = 1 + (src.take t.span.start).count newline) :
    SpansExact src tokens := by
  obtain ⟨before, n, hlaid, hn, hgap, rfl⟩ := h
  refine ⟨fun t ht => ?_, ?_, ?_, fun t ht htoken => ?_, hlines⟩
  · rcases List.mem_append.mp ht with ht | ht
    · obtain ⟨hlt, -, hle, -⟩ := hlaid.mem t ht
      exact ⟨hlt.le, hle⟩
    · rw [List.mem_singleton.mp ht]
      exact ⟨le_rfl, le_rfl⟩
  · refine List.pairwise_append.mpr ⟨hlaid.ordered, List.pairwise_singleton _ _, fun a ha b hb => ?_⟩
    rw [List.mem_singleton.mp hb]
    exact (hlaid.mem a ha).2.2.1
  · refine List.isChain_append.mpr ⟨hlaid.gaps, .singleton _, fun a ha b hb => ?_⟩
    obtain rfl := Option.some.inj hb
    rw [hlaid.getLast? a ha]
    exact hgap
  · rcases List.mem_append.mp ht with ht | ht
    · exact (hlaid.mem t ht).1
    · rw [List.mem_singleton.mp ht] at htoken
      exact absurd rfl htoken

theorem tokenized_of_ok (h : tokenize src = .ok tokens) : Tokenized src tokens := by
  rcases tokenize_cases src with ⟨tokens', hok, htokens⟩ | ⟨e, herror⟩
  · rw [hok] at h
    exact Except.ok.inj h ▸ htokens
  · rw [herror] at h
    cases h

/-- Spans and gaps are always exact, and the lines as long as they fit in the counter. -/
theorem spansExact_iff (h : tokenize src = .ok tokens) :
    SpansExact src tokens ↔ src.count newline + 1 < 2 ^ 32 :=
  ⟨fun hexact => (lines_iff (tokenized_of_ok h)).mp hexact.lines,
    fun hcount => (tokenized_of_ok h).spansExact ((lines_iff (tokenized_of_ok h)).mpr hcount)⟩

theorem spansExact_iff_name :
    SpansExact [120] [⟨.ident [120], ⟨0, 1, 1⟩⟩, ⟨.eof, ⟨1, 1, 1⟩⟩] ↔
      ([120] : Bytes).count newline + 1 < 2 ^ 32 :=
  spansExact_iff (by rfl)

/-- A source of whitespace has one token. -/
theorem tokenize_spaces (hspaces : ∀ b ∈ src, isSpace b = true) :
    tokenize src = .ok [⟨.eof, ⟨src.length, src.length, lineAt src src.length⟩⟩] := by
  have hrun : (new src).run isSpace = src.length := by
    rw [run_eq, rest_new, List.takeWhile_eq_self_iff.mpr hspaces]
  have hpos : ((new src).past src.length).pos = src.length := Nat.zero_add _
  have hspace : (advanceWhile isSpace).run (new src) = (.ok (), (new src).past src.length) := by
    rw [← advanced_iterate (by rw [rest_new]), ← hrun]
    rfl
  have hturn : (skipWhitespaceAndCommentsTurn ()).run (new src) =
      (.ok (.inr ()), (new src).past src.length) := by
    unfold skipWhitespaceAndCommentsTurn
    rw [Exec.run_bind_ok hspace, Exec.run_bind_ok (Exec.run_get _), if_neg]
    · rfl
    · rw [hpos]
      exact fun h => absurd h.1 (by rw [past_src]; exact Nat.not_succ_le_self _ ∘ Nat.le_of_succ_le)
  have hskip : skipWhitespaceAndComments.run (new src) =
      (.ok (), (new src).past src.length) := by
    rw [skipWhitespaceAndComments, loop, Exec.run_bind_ok (Exec.run_get _),
      Exec.loop_run_inr hturn]
  have htokens : (tokenizeTurn []).run (new src) = (.ok (.inr
      [⟨.eof, ⟨src.length, src.length, lineAt src src.length⟩⟩]), (new src).past src.length) := by
    have hend : ((new src).past src.length).atEnd := hpos.ge
    rw [tokenizeTurn, Exec.run_bind_ok hskip, Exec.run_bind_ok (Exec.run_get _), if_pos hend,
      spanFrom, hpos]
    rfl
  rw [tokenize, loop, Exec.run_bind_ok (Exec.run_get _), Exec.loop_run_inr htokens]

/-- The counter is back at 0 after the last of these newlines. -/
theorem newlines_not_exact :
    ∃ tokens, tokenize (List.replicate (2 ^ 32 - 1) newline) = .ok tokens ∧
      ¬SpansExact (List.replicate (2 ^ 32 - 1) newline) tokens := by
  have hspaces : ∀ b ∈ List.replicate (2 ^ 32 - 1) newline, isSpace b = true := by
    intro b hb
    rw [List.eq_of_mem_replicate hb]
    decide
  have hok := tokenize_spaces hspaces
  refine ⟨_, hok, fun hexact => ?_⟩
  have hcount := (lines_iff (tokenized_of_ok hok)).mp hexact.lines
  rw [List.count_replicate_self] at hcount
  omega

end Exactness

end Proveno.Lexer
