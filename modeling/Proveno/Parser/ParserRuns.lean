import Proveno.Parser.Precedence
import Proveno.Parser.Spans

/-! Every production moves on through the tokens up to the last of them, or fails with an error of
its own. A recursive call comes after a token that has been passed, and so does each turn of a
loop. -/

namespace Proveno.Parser

open Exec (Meets Raised)

/-- The tokens of a source: the last of them marks its end. -/
def EndsInEof (tokens : List SpannedToken) : Prop :=
  ∃ span, tokens.getLast? = some ⟨.eof, span⟩

def TokenAt (tokens : List SpannedToken) (pos : Nat) (token : Token) : Prop :=
  ∃ t, tokens[pos]? = some t ∧ t.token = token

theorem TokenAt.unique {tokens : List SpannedToken} {pos : Nat} {a b : Token}
    (ha : TokenAt tokens pos a) (hb : TokenAt tokens pos b) : a = b := by
  obtain ⟨t, ht, rfl⟩ := ha
  obtain ⟨t', ht', rfl⟩ := hb
  rw [ht] at ht'
  rw [Option.some.inj ht']

theorem EndsInEof.lt {tokens : List SpannedToken} (h : EndsInEof tokens) {pos : Nat}
    {token : Token} (ht : TokenAt tokens pos token) (hne : token ≠ .eof) :
    pos + 1 < tokens.length := by
  obtain ⟨span, hlast⟩ := h
  obtain ⟨t, hget, rfl⟩ := ht
  have hlt := (List.getElem?_eq_some_iff.mp hget).1
  by_contra hge
  rw [List.getLast?_eq_getElem?] at hlast
  obtain rfl : pos = tokens.length - 1 := by omega
  rw [hlast] at hget
  exact hne (by rw [← Option.some.inj hget])

/-- From `pos` the production goes on to some token, which it does not pass, or fails. -/
def Parses {α : Type} (tokens : List SpannedToken) (pos : Nat) (m : Parse α)
    (post : α → Nat → Prop) : Prop :=
  Meets (· = ⟨tokens, pos⟩) m
    (fun a s => ∃ q, s = ⟨tokens, q⟩ ∧ pos ≤ q ∧ q < tokens.length ∧ post a q) Raised

/-- A turn of a loop from `k`, where only the moving on counts. -/
def Passing {α β : Type} (k : Nat) : α ⊕ β → Nat → Prop
  | .inl _, q => k < q
  | .inr _, _ => True

namespace Parses

variable {α β : Type} {tokens : List SpannedToken} {pos : Nat} {m : Parse α} {a : α}
  {post : α → Nat → Prop} {post' : β → Nat → Prop}

theorem mono (h : Parses tokens pos m post) {post₂ : α → Nat → Prop}
    (hpost : ∀ a q, pos ≤ q → q < tokens.length → post a q → post₂ a q) :
    Parses tokens pos m post₂ := by
  refine Meets.mono h (fun _ h => h) ?_ fun _ _ h => h
  rintro a s ⟨q, rfl, hle, hlt, ha⟩
  exact ⟨q, rfl, hle, hlt, hpost a q hle hlt ha⟩

/-- The run itself is part of what is known after it. -/
theorem with_run (h : Parses tokens pos m post) : Parses tokens pos m fun a q =>
    post a q ∧ m.run ⟨tokens, pos⟩ = (.ok a, ⟨tokens, q⟩) := by
  rintro _ rfl
  have h := h _ rfl
  rcases hrun : m.run ⟨tokens, pos⟩ with ⟨e | a, s⟩
  · rw [hrun] at h
    exact h
  · rw [hrun] at h
    obtain ⟨q, rfl, hle, hlt, ha⟩ := h
    exact ⟨q, rfl, hle, hlt, ha, rfl⟩

theorem pure (hpos : pos < tokens.length) (h : post a pos) :
    Parses tokens pos (pure a) post := by
  rintro _ rfl
  exact ⟨pos, rfl, le_rfl, hpos, h⟩

theorem raise {e : ParseError} : Parses tokens pos (Parser.raise e : Parse α) post := by
  rintro _ rfl
  exact ⟨e, rfl⟩

theorem bind {f : α → Parse β} (hm : Parses tokens pos m post)
    (hf : ∀ a q, pos ≤ q → q < tokens.length → post a q → Parses tokens q (f a) post') :
    Parses tokens pos (m >>= f) post' := by
  refine Meets.bind hm fun a => ?_
  rintro s ⟨q, rfl, hle, hlt, ha⟩
  have h := hf a q hle hlt ha _ rfl
  rcases hrun : (f a).run ⟨tokens, q⟩ with ⟨e | b, s'⟩
  · rw [hrun] at h
    exact h
  · rw [hrun] at h
    obtain ⟨q', rfl, hle', hlt', hb⟩ := h
    exact ⟨q', rfl, hle.trans hle', hlt', hb⟩

theorem of_run {q : Nat} (hrun : m.run ⟨tokens, pos⟩ = (.ok a, ⟨tokens, q⟩)) (hle : pos ≤ q)
    (hlt : q < tokens.length) (h : post a q) : Parses tokens pos m post := by
  rintro _ rfl
  rw [hrun]
  exact ⟨q, rfl, hle, hlt, h⟩

theorem peek_eq {t : SpannedToken} (ht : tokens[pos]? = some t) :
    Parses tokens pos peek fun a q => a = t ∧ q = pos := by
  refine of_run ?_ le_rfl (List.getElem?_eq_some_iff.mp ht).1 ⟨rfl, rfl⟩
  rw [peek, Exec.run_bind_ok (Exec.run_get _), ht]
  rfl

theorem peek_bind {f : SpannedToken → Parse β} (hpos : pos < tokens.length)
    (h : ∀ t, tokens[pos]? = some t → Parses tokens pos (f t) post') :
    Parses tokens pos (peek >>= f) post' := by
  have ht := List.getElem?_eq_getElem hpos
  refine (peek_eq ht).bind ?_
  rintro _ _ - - ⟨rfl, rfl⟩
  exact h _ ht

theorem peek2_bind {f : Option SpannedToken → Parse β} (hpos : pos < tokens.length)
    (h : Parses tokens pos (f tokens[pos + 1]?) post') :
    Parses tokens pos (peek2 >>= f) post' := by
  have hpeek : Parses tokens pos peek2 fun a q => a = tokens[pos + 1]? ∧ q = pos := by
    refine of_run ?_ le_rfl hpos ⟨rfl, rfl⟩
    rw [peek2, Exec.run_bind_ok (Exec.run_get _)]
    rfl
  refine hpeek.bind ?_
  rintro a q - - ⟨ha, hq⟩
  rw [ha, hq]
  exact h

theorem check_bind {token : Token} {f : Bool → Parse β} (hpos : pos < tokens.length)
    (h : ∀ b, (b = true ↔ TokenAt tokens pos token) → Parses tokens pos (f b) post') :
    Parses tokens pos (check token >>= f) post' := by
  have hcheck : Parses tokens pos (check token) fun b q =>
      q = pos ∧ (b = true ↔ TokenAt tokens pos token) := by
    refine peek_bind hpos fun t ht => pure hpos ⟨rfl, ?_⟩
    rw [decide_eq_true_iff]
    refine ⟨fun htoken => ⟨t, ht, htoken⟩, ?_⟩
    rintro ⟨t', hget, htoken⟩
    rw [ht] at hget
    rw [Option.some.inj hget, htoken]
  refine hcheck.bind ?_
  rintro b q - - ⟨hq, hb⟩
  rw [hq]
  exact h b hb

theorem check_ite {token : Token} {f g : Parse β} (hpos : pos < tokens.length)
    (hf : TokenAt tokens pos token → Parses tokens pos f post')
    (hg : ¬TokenAt tokens pos token → Parses tokens pos g post') :
    Parses tokens pos (check token >>= fun b => if b = true then f else g) post' := by
  refine check_bind hpos fun b hb => ?_
  by_cases htoken : TokenAt tokens pos token
  · rw [if_pos (hb.mpr htoken)]
    exact hf htoken
  · rw [if_neg (mt hb.mp htoken)]
    exact hg htoken

theorem currentSpan_bind {f : Span → Parse β} (hpos : pos < tokens.length)
    (h : ∀ span, Parses tokens pos (f span) post') :
    Parses tokens pos (currentSpan >>= f) post' := by
  have hspan : Parses tokens pos currentSpan fun _ q => q = pos :=
    peek_bind hpos fun t _ => pure hpos rfl
  refine hspan.bind ?_
  rintro span q - - hq
  rw [hq]
  exact h span

/-- What depends on the token at hand alone. -/
theorem look_bind {γ : Type} {g : Token → γ} {f : γ → Parse β} (hpos : pos < tokens.length)
    (h : ∀ t, tokens[pos]? = some t → Parses tokens pos (f (g t.token)) post') :
    Parses tokens pos ((peek >>= fun t => Pure.pure (g t.token)) >>= f) post' := by
  have ht := List.getElem?_eq_getElem hpos
  have hlook : Parses tokens pos (peek >>= fun t => Pure.pure (g t.token)) fun r q =>
      q = pos ∧ r = g tokens[pos].token := by
    refine peek_bind hpos fun t ht' => pure hpos ⟨rfl, ?_⟩
    rw [ht] at ht'
    rw [Option.some.inj ht']
  refine hlook.bind ?_
  rintro r q - - ⟨hq, hr⟩
  rw [hq, hr]
  exact h _ ht

theorem atBlockEnd_bind {f : Bool → Parse β} (hpos : pos < tokens.length)
    (h : ∀ t, tokens[pos]? = some t → Parses tokens pos (f (isBlockEnd t.token)) post') :
    Parses tokens pos (atBlockEnd >>= f) post' :=
  look_bind hpos h

theorem peekBinop_bind {f : Option (BinOpKind × Nat × Bool) → Parse β}
    (hpos : pos < tokens.length)
    (h : ∀ t, tokens[pos]? = some t → Parses tokens pos (f (binOpOf t.token)) post') :
    Parses tokens pos (peekBinop >>= f) post' :=
  look_bind hpos h

theorem advance_bind (hend : EndsInEof tokens) {token : Token} {f : SpannedToken → Parse β}
    (ht : TokenAt tokens pos token) (hne : token ≠ .eof)
    (h : pos + 1 < tokens.length → ∀ t, tokens[pos]? = some t →
      Parses tokens (pos + 1) (f t) post') :
    Parses tokens pos (advance >>= f) post' := by
  have hlt := hend.lt ht hne
  obtain ⟨t, hget, -⟩ := ht
  have hadvance : Parses tokens pos advance fun a q => a = t ∧ q = pos + 1 := by
    refine of_run ?_ (Nat.le_succ pos) hlt ⟨rfl, rfl⟩
    have hpeek : peek.run ⟨tokens, pos⟩ = (.ok t, ⟨tokens, pos⟩) := by
      rw [peek, Exec.run_bind_ok (Exec.run_get _), hget]
      rfl
    rw [advance, Exec.run_bind_ok hpeek, Exec.run_bind_ok (Exec.run_modify _ _), if_pos hlt]
    rfl
  refine hadvance.bind ?_
  rintro a q - - ⟨ha, hq⟩
  rw [ha, hq]
  exact h hlt t hget

theorem unexpected (hpos : pos < tokens.length) {expected : String} :
    Parses tokens pos (Parser.unexpected expected : Parse α) post :=
  peek_bind hpos fun _ _ => raise

theorem expect_bind (hend : EndsInEof tokens) (hpos : pos < tokens.length) {token : Token}
    (hne : token ≠ .eof) {label : String} {f : Span → Parse β}
    (h : pos + 1 < tokens.length → ∀ span, Parses tokens (pos + 1) (f span) post') :
    Parses tokens pos (expect token label >>= f) post' := by
  have hexpect : Parses tokens pos (expect token label) fun _ q => q = pos + 1 := by
    refine peek_bind hpos fun t ht => ?_
    split_ifs with htoken
    · refine advance_bind hend ⟨t, ht, htoken⟩ hne fun hlt _ _ => pure hlt rfl
    · exact unexpected hpos
  refine hexpect.bind ?_
  rintro span _ - hlt rfl
  exact h hlt span

theorem expectIdent_eq (hend : EndsInEof tokens) (hpos : pos < tokens.length) :
    Parses tokens pos expectIdent fun _ q => q = pos + 1 := by
  refine peek_bind hpos fun t ht => ?_
  split
  · next name htoken =>
    exact advance_bind hend ⟨t, ht, htoken⟩ (by nofun) fun hlt _ _ => pure hlt rfl
  · exact unexpected hpos

theorem expectIdent_bind (hend : EndsInEof tokens) (hpos : pos < tokens.length)
    {f : Bytes × Span → Parse β}
    (h : pos + 1 < tokens.length → ∀ name, Parses tokens (pos + 1) (f name) post') :
    Parses tokens pos (expectIdent >>= f) post' := by
  refine (expectIdent_eq hend hpos).bind ?_
  rintro name _ - hlt rfl
  exact h hlt name

/-- A loop each turn of which passes a token at least. -/
theorem loop {γ : Type} {turn : α → Parse (α ⊕ γ)} (inv : α → Nat → Prop) {post : γ → Nat → Prop}
    (hpos : pos < tokens.length) (hinit : inv a pos)
    (hturn : ∀ a k, pos ≤ k → k < tokens.length → inv a k →
      Parses tokens k (turn a) fun r q =>
        match r with
        | .inl next => k < q ∧ inv next q
        | .inr result => post result q) :
    Parses tokens pos (Parser.loop turn a) post := by
  have hstep (a : α) (bound : Nat) : Meets
      (fun s => (∃ k, s = ⟨tokens, k⟩ ∧ pos ≤ k ∧ k < tokens.length ∧ inv a k) ∧
        tokens.length - s.pos ≤ bound)
      (turn a)
      (fun r s => match r with
        | .inl next =>
          (∃ k, s = ⟨tokens, k⟩ ∧ pos ≤ k ∧ k < tokens.length ∧ inv next k) ∧
            tokens.length - s.pos < bound
        | .inr result => ∃ q, s = ⟨tokens, q⟩ ∧ pos ≤ q ∧ q < tokens.length ∧ post result q)
      Raised := by
    rintro _ ⟨⟨k, rfl, hle, hlt, ha⟩, hbound⟩
    have h := hturn a k hle hlt ha _ rfl
    rcases hrun : (turn a).run ⟨tokens, k⟩ with ⟨e | (next | result), s'⟩
    · rw [hrun] at h
      exact h
    · rw [hrun] at h
      obtain ⟨q, rfl, hkq, hq, hlt', hnext⟩ := h
      dsimp only at hbound
      exact ⟨⟨q, rfl, hle.trans hkq, hq, hnext⟩, by dsimp only; omega⟩
    · rw [hrun] at h
      obtain ⟨q, rfl, hkq, hq, hresult⟩ := h
      exact ⟨q, rfl, hle.trans hkq, hq, hresult⟩
  have hloop := Meets.loop hstep (tokens.length + 1) a
  rintro _ rfl
  exact hloop _ ⟨⟨pos, rfl, le_rfl, hpos, hinit⟩, by dsimp only; omega⟩

theorem loop_passing {γ : Type} {turn : α → Parse (α ⊕ γ)} (hpos : pos < tokens.length)
    (hturn : ∀ a k, pos ≤ k → k < tokens.length → Parses tokens k (turn a) (Passing k)) :
    Parses tokens pos (Parser.loop turn a) fun _ _ => True := by
  refine loop (fun _ _ => True) hpos trivial fun a k hle hlt _ => ?_
  refine (hturn a k hle hlt).mono fun r q _ _ h => ?_
  cases r with
  | inl next => exact ⟨h, trivial⟩
  | inr result => trivial

theorem commaSeparated (hend : EndsInEof tokens) (hpos : pos < tokens.length) {item : Parse α}
    {items : List α} (hitem : ∀ k, pos < k → k < tokens.length →
      Parses tokens k item fun _ _ => True) :
    Parses tokens pos (Parser.commaSeparated item items) fun _ _ => True := by
  refine loop_passing hpos fun items k hle hlt => check_ite hlt (fun hcomma => ?_) fun _ => ?_
  · refine advance_bind hend hcomma (by nofun) fun hlt _ _ => ?_
    refine (hitem (k + 1) (by omega) hlt).bind fun next q hq hlt' _ => pure hlt' ?_
    exact hq
  · exact pure hlt trivial

end Parses

/-- The recursive productions, called after `pos`. -/
structure Works (tokens : List SpannedToken) (depth pos : Nat) : Prop where
  block : ∀ q, pos < q → q < tokens.length →
    Parses tokens q (productions depth).block fun _ _ => True
  binop : ∀ q minPrec, pos < q → q < tokens.length →
    Parses tokens q ((productions depth).binop minPrec) (BinopPost tokens minPrec q)
  unop : ∀ q, pos < q → q < tokens.length →
    Parses tokens q (productions depth).unop (UnopPost tokens q)

section Expressions

variable {tokens : List SpannedToken} {depth pos k : Nat}

theorem Works.expr (hw : Works tokens depth pos) (hk : pos < k) (hlt : k < tokens.length) :
    Parses tokens k (parseExpr (productions depth)) fun _ q => k < q :=
  (hw.binop k 0 hk hlt).mono fun _ _ _ _ h => h.1

theorem Works.exprs (hend : EndsInEof tokens) (hw : Works tokens depth pos) (hk : pos ≤ k)
    (hlt : k < tokens.length) {items : List Expr} :
    Parses tokens k (commaSeparated (parseExpr (productions depth)) items) fun _ _ => True :=
  Parses.commaSeparated hend hlt fun _ hq hlt =>
    (hw.expr (by omega) hlt).mono fun _ _ _ _ _ => trivial

theorem parseParams_parses (hend : EndsInEof tokens) (hlt : k < tokens.length) :
    Parses tokens k parseParams fun _ _ => True := by
  unfold parseParams
  refine Parses.check_ite hlt (fun _ => Parses.pure hlt trivial) fun _ => ?_
  refine Parses.loop_passing hlt fun params q _ hlt => ?_
  unfold parseParamTurn
  refine Parses.check_ite hlt (fun hdots => ?_) fun _ => ?_
  · exact Parses.advance_bind hend hdots (by nofun) fun _ _ _ => Parses.raise
  · refine Parses.expectIdent_bind hend hlt fun hlt param => ?_
    refine Parses.check_ite hlt (fun hcomma => ?_) fun _ => Parses.pure hlt trivial
    refine Parses.advance_bind hend hcomma (by nofun) fun hlt _ _ => Parses.pure hlt ?_
    exact Nat.lt_succ_of_lt (Nat.lt_succ_self q)

theorem parseFuncBody_parses (hend : EndsInEof tokens) (hw : Works tokens depth pos)
    (hk : pos ≤ k) (hlt : k < tokens.length) :
    Parses tokens k (parseFuncBody (productions depth)) fun _ q => k < q := by
  unfold parseFuncBody
  refine Parses.currentSpan_bind hlt fun span => ?_
  refine Parses.expect_bind hend hlt (by nofun) fun hlt _ => ?_
  refine (parseParams_parses hend hlt).bind fun params q hq hlt _ => ?_
  refine Parses.expect_bind hend hlt (by nofun) fun hlt _ => ?_
  refine (hw.block (q + 1) (by omega) hlt).bind fun block r hr hlt _ => ?_
  refine Parses.expect_bind hend hlt (by nofun) fun hlt _ => Parses.pure hlt ?_
  omega

theorem parseTableField_parses (hend : EndsInEof tokens) (hw : Works tokens depth pos)
    (hk : pos < k) (hlt : k < tokens.length) :
    Parses tokens k (parseTableField (productions depth)) fun _ q => k < q := by
  unfold parseTableField
  refine Parses.currentSpan_bind hlt fun span => ?_
  refine Parses.check_ite hlt (fun hbracket => ?_) fun _ => ?_
  · refine Parses.advance_bind hend hbracket (by nofun) fun hlt _ _ => ?_
    refine (hw.expr (by omega) hlt).bind fun key q hq hlt _ => ?_
    refine Parses.expect_bind hend hlt (by nofun) fun hlt _ => ?_
    refine Parses.expect_bind hend hlt (by nofun) fun hlt _ => ?_
    refine (hw.expr (by omega) hlt).bind fun value r hr hlt _ => Parses.pure hlt ?_
    omega
  · refine Parses.peek_bind hlt fun t ht => ?_
    refine Parses.peek2_bind hlt ?_
    split
    · next name hname hassign =>
      refine Parses.advance_bind hend ⟨t, ht, hname⟩ (by nofun) fun hlt _ _ => ?_
      obtain ⟨t', ht', htoken⟩ := Option.map_eq_some_iff.mp hassign
      refine Parses.advance_bind hend ⟨t', ht', htoken⟩ (by nofun) fun hlt _ _ => ?_
      refine (hw.expr (by omega) hlt).bind fun value r hr hlt _ => Parses.pure hlt ?_
      omega
    · refine (hw.expr hk hlt).bind fun value r hr hlt hkr => Parses.pure hlt ?_
      exact hkr

theorem parseTableConstructor_parses (hend : EndsInEof tokens) (hw : Works tokens depth pos)
    (hk : pos ≤ k) (hlt : k < tokens.length) :
    Parses tokens k (parseTableConstructor (productions depth)) fun _ q => k < q := by
  unfold parseTableConstructor
  refine Parses.currentSpan_bind hlt fun span => ?_
  refine Parses.expect_bind hend hlt (by nofun) fun hlt _ => ?_
  have hfields : Parses tokens (k + 1) (loop (parseFieldTurn (productions depth)) [])
      fun _ _ => True := by
    refine Parses.loop_passing hlt fun fields q hq hlt => ?_
    unfold parseFieldTurn
    refine Parses.check_ite hlt (fun _ => Parses.pure hlt trivial) fun _ => ?_
    refine (parseTableField_parses hend hw (by omega) hlt).bind fun field r _ hlt hqr => ?_
    refine Parses.check_ite hlt (fun hcomma => ?_) fun _ => ?_
    · refine Parses.advance_bind hend hcomma (by nofun) fun hlt _ _ => Parses.pure hlt ?_
      exact Nat.lt_succ_of_lt hqr
    refine Parses.check_ite hlt (fun hsemicolon => ?_) fun _ => Parses.pure hlt trivial
    refine Parses.advance_bind hend hsemicolon (by nofun) fun hlt _ _ => Parses.pure hlt ?_
    exact Nat.lt_succ_of_lt hqr
  refine hfields.bind fun fields q hq hlt _ => ?_
  refine Parses.expect_bind hend hlt (by nofun) fun hlt _ => Parses.pure hlt ?_
  omega

theorem parseCallArgs_parses (hend : EndsInEof tokens) (hw : Works tokens depth pos)
    (hk : pos ≤ k) (hlt : k < tokens.length) :
    Parses tokens k (parseCallArgs (productions depth)) fun _ q => k < q := by
  unfold parseCallArgs
  refine Parses.peek_bind hlt fun t ht => ?_
  split
  · next hparen =>
    refine Parses.advance_bind hend ⟨t, ht, hparen⟩ (by nofun) fun hlt _ _ => ?_
    have hargs : Parses tokens (k + 1) (parseArgList (productions depth)) fun _ _ => True := by
      unfold parseArgList
      refine Parses.check_ite hlt (fun _ => Parses.pure hlt trivial) fun _ => ?_
      refine (hw.expr (by omega) hlt).bind fun first q hq hlt _ => ?_
      exact hw.exprs hend (by omega) hlt
    refine hargs.bind fun args q hq hlt _ => ?_
    refine Parses.expect_bind hend hlt (by nofun) fun hlt _ => Parses.pure hlt ?_
    omega
  · next b hstring =>
    exact Parses.advance_bind hend ⟨t, ht, hstring⟩ (by nofun) fun hlt _ _ =>
      Parses.pure hlt (Nat.lt_succ_self k)
  · refine (parseTableConstructor_parses hend hw hk hlt).bind fun table q _ hlt hkq => ?_
    exact Parses.pure hlt hkq
  · exact Parses.unexpected hlt

theorem parseToolOrError_parses (hend : EndsInEof tokens) (hw : Works tokens depth pos)
    (hk : pos ≤ k) (hlt : k < tokens.length) {toolSpan : Span} :
    Parses tokens k (parseToolOrError (productions depth) toolSpan) fun _ _ => True := by
  unfold parseToolOrError
  refine Parses.check_ite hlt (fun hdot => ?_) fun _ => Parses.raise
  refine Parses.advance_bind hend hdot (by nofun) fun hlt _ _ => ?_
  refine Parses.peek_bind hlt fun t ht => ?_
  split
  · next name hname =>
    split_ifs
    · refine Parses.advance_bind hend ⟨t, ht, hname⟩ (by nofun) fun hlt _ _ => ?_
      refine Parses.check_ite hlt (fun _ => ?_) fun _ => Parses.pure hlt trivial
      refine (parseCallArgs_parses hend hw (by omega) hlt).bind fun args q _ hlt _ => ?_
      exact Parses.pure hlt trivial
    · exact Parses.raise
  · exact Parses.raise

theorem parsePrimaryAtom_parses (hend : EndsInEof tokens) (hw : Works tokens depth pos)
    (hk : pos ≤ k) (hlt : k < tokens.length) :
    Parses tokens k (parsePrimaryAtom (productions depth)) fun _ q => k < q := by
  unfold parsePrimaryAtom
  refine Parses.peek_bind hlt fun t ht => ?_
  have hliteral {token : Token} {e : Expr} (htoken : t.token = token) (hne : token ≠ .eof) :
      Parses tokens k (advance >>= fun _ => pure e) fun _ q => k < q :=
    Parses.advance_bind hend ⟨t, ht, htoken⟩ hne fun hlt _ _ =>
      Parses.pure hlt (Nat.lt_succ_self k)
  cases htoken : t.token
  case kwNil => exact hliteral htoken (by nofun)
  case kwTrue => exact hliteral htoken (by nofun)
  case kwFalse => exact hliteral htoken (by nofun)
  case integer => exact hliteral htoken (by nofun)
  case stringLit => exact hliteral htoken (by nofun)
  case dotDotDot =>
    exact Parses.advance_bind hend ⟨t, ht, htoken⟩ (by nofun) fun _ _ _ => Parses.raise
  case ident name =>
    refine Parses.advance_bind hend ⟨t, ht, htoken⟩ (by nofun) fun hlt _ _ => ?_
    split_ifs
    · exact (parseToolOrError_parses hend hw (by omega) hlt).mono fun _ q hq _ _ => hq
    · exact Parses.raise
    · exact Parses.pure hlt (Nat.lt_succ_self k)
  case lParen =>
    refine Parses.advance_bind hend ⟨t, ht, htoken⟩ (by nofun) fun hlt _ _ => ?_
    refine (hw.expr (by omega) hlt).bind fun expr q hq hlt _ => ?_
    refine Parses.expect_bind hend hlt (by nofun) fun hlt _ => Parses.pure hlt ?_
    omega
  case kwFunction =>
    refine Parses.advance_bind hend ⟨t, ht, htoken⟩ (by nofun) fun hlt _ _ => ?_
    refine (parseFuncBody_parses hend hw (by omega) hlt).bind fun body q hq hlt _ => ?_
    exact Parses.pure hlt hq
  case lBrace => exact parseTableConstructor_parses hend hw hk hlt
  all_goals exact Parses.raise

theorem parseSuffixTurn_parses (hend : EndsInEof tokens) (hw : Works tokens depth pos)
    (hk : pos ≤ k) (hlt : k < tokens.length) {expr : Expr} :
    Parses tokens k (parseSuffixTurn (productions depth) expr) fun r q =>
      match r with
      | .inl _ => k < q
      | .inr _ => NoSuffix tokens q := by
  unfold parseSuffixTurn
  refine Parses.peek_bind hlt fun t ht => ?_
  have hcall : Parses tokens k (parseCallArgs (productions depth) >>= fun args =>
      pure (Sum.inl (.call expr args expr.span) : Expr ⊕ Expr)) fun r q =>
        match r with
        | .inl _ => k < q
        | .inr _ => NoSuffix tokens q :=
    (parseCallArgs_parses hend hw hk hlt).bind fun args q _ hlt hkq => Parses.pure hlt hkq
  split
  · next htoken =>
    refine Parses.advance_bind hend ⟨t, ht, htoken⟩ (by nofun) fun hlt _ _ => ?_
    refine Parses.expectIdent_bind hend hlt fun hlt field => Parses.pure hlt ?_
    show k < k + 1 + 1
    omega
  · next htoken =>
    refine Parses.advance_bind hend ⟨t, ht, htoken⟩ (by nofun) fun hlt _ _ => ?_
    refine (hw.expr (by omega) hlt).bind fun key q hq hlt _ => ?_
    refine Parses.expect_bind hend hlt (by nofun) fun hlt _ => Parses.pure hlt ?_
    show k < q + 1
    omega
  · next htoken =>
    refine Parses.advance_bind hend ⟨t, ht, htoken⟩ (by nofun) fun hlt _ _ => ?_
    refine Parses.expectIdent_bind hend hlt fun hlt method => ?_
    refine (parseCallArgs_parses hend hw (by omega) hlt).bind fun args q hq hlt _ => ?_
    refine Parses.pure hlt ?_
    show k < q
    omega
  · exact hcall
  · exact hcall
  · exact hcall
  · next hdot hbracket hcolon hparen hstring hbrace =>
    refine Parses.pure hlt fun t' ht' => ?_
    rw [ht] at ht'
    obtain rfl := Option.some.inj ht'
    unfold startsSuffix
    split
    · next h => exact (hdot h).elim
    · next h => exact (hbracket h).elim
    · next h => exact (hcolon h).elim
    · next h => exact (hparen h).elim
    · next b h => exact (hstring b h).elim
    · next h => exact (hbrace h).elim
    · rfl

/-- A suffixed expression is an operand, and no suffix follows it. -/
theorem parseSuffixedExpr_parses (hend : EndsInEof tokens) (hw : Works tokens depth pos)
    (hk : pos ≤ k) (hlt : k < tokens.length) :
    Parses tokens k (parseSuffixedExpr (productions depth)) fun e q =>
      k < q ∧ NoSuffix tokens q ∧ IsOperand tokens k q e := by
  have hpasses : Parses tokens k (parseSuffixedExpr (productions depth)) fun _ q =>
      k < q ∧ NoSuffix tokens q := by
    unfold parseSuffixedExpr
    refine (parsePrimaryAtom_parses hend hw hk hlt).bind fun expr q hq hlt hkq => ?_
    refine Parses.loop (fun _ r => k < r) hlt hkq fun expr r hr hlt hkr => ?_
    refine (parseSuffixTurn_parses hend hw (by omega) hlt).mono fun res u hu _ hres => ?_
    cases res with
    | inl next => exact ⟨hres, by omega⟩
    | inr result => exact ⟨by omega, hres⟩
  refine hpasses.with_run.mono fun e q _ _ h => ⟨h.1.1, h.1.2, ?_⟩
  exact ⟨depth, h.2⟩

theorem parseUnop_parses (hend : EndsInEof tokens) (hw : Works tokens depth pos)
    (hk : pos ≤ k) (hlt : k < tokens.length) :
    Parses tokens k (parseUnop (productions depth)) (UnopPost tokens k) := by
  unfold parseUnop
  refine Parses.peek_bind hlt fun t ht => ?_
  split
  · next op hop =>
    refine Parses.advance_bind hend ⟨t, ht, rfl⟩ (unOpOf_ne_eof hop) fun hlt _ _ => ?_
    refine (hw.unop (k + 1) (by omega) hlt).bind fun operand q _ hlt hpost => ?_
    obtain ⟨hkq, hsuffix, x, hexpr, hreads, hshaped, hroot⟩ := hpost
    refine Parses.pure hlt ⟨by omega, hsuffix, .unary op t.span x, ?_, .unary ht hop hreads,
      ⟨hroot, hshaped⟩, rfl⟩
    rw [OpTree.expr, hexpr]
  · refine (parseSuffixedExpr_parses hend hw hk hlt).mono fun e q _ _ h => ?_
    obtain ⟨hkq, hsuffix, hoperand⟩ := h
    exact ⟨hkq, hsuffix, .operand e, rfl, .operand hoperand, trivial, rfl⟩

theorem parseBinopTurn_parses (hend : EndsInEof tokens) (hw : Works tokens depth pos)
    {p minPrec : Nat} {left : Expr} (hk : pos ≤ k) (hlt : k < tokens.length)
    (hleft : LeftPost tokens minPrec p left k) :
    Parses tokens k (parseBinopTurn (productions depth) minPrec left) fun r q =>
      match r with
      | .inl next => k < q ∧ LeftPost tokens minPrec p next q
      | .inr result => BinopPost tokens minPrec p result q := by
  unfold parseBinopTurn
  refine Parses.peekBinop_bind hlt fun t ht => ?_
  split
  · next hnone =>
    refine Parses.pure hlt (hleft.stop fun t' op pr assoc ht' hop => ?_)
    rw [ht] at ht'
    rw [← Option.some.inj ht', hnone] at hop
    cases hop
  · next op pr assoc hop =>
    by_cases hprec : pr < minPrec
    · rw [if_pos hprec]
      refine Parses.pure hlt (hleft.stop fun t' op' pr' assoc' ht' hop' => ?_)
      rw [ht] at ht'
      rw [← Option.some.inj ht', hop] at hop'
      cases hop'
      exact hprec
    · rw [if_neg hprec]
      refine Parses.advance_bind hend ⟨t, ht, rfl⟩ (binOpOf_ne_eof hop) fun hlt t' ht' => ?_
      rw [ht] at ht'
      obtain rfl := Option.some.inj ht'
      refine (hw.binop (k + 1) _ (by omega) hlt).bind fun right q hq hlt hright => ?_
      exact Parses.pure hlt ⟨by omega, hleft.extend ht hop (by omega) hright⟩

/-- Precedence climbing. -/
theorem parseBinop_parses (hend : EndsInEof tokens) (hw : Works tokens depth pos)
    {minPrec : Nat} (hk : pos ≤ k) (hlt : k < tokens.length) :
    Parses tokens k (parseBinop (productions depth) minPrec) (BinopPost tokens minPrec k) := by
  unfold parseBinop
  refine (parseUnop_parses hend hw hk hlt).bind fun left q hq hlt hleft => ?_
  refine Parses.loop (LeftPost tokens minPrec k) hlt hleft.leftPost fun left r hr hlt hleft => ?_
  refine (parseBinopTurn_parses hend hw (by omega) hlt hleft).mono fun res u _ _ hres => ?_
  cases res with
  | inl next => exact hres
  | inr result => exact hres

end Expressions

section Statements

variable {tokens : List SpannedToken} {depth pos k : Nat}

theorem parseReturn_parses (hend : EndsInEof tokens) (hw : Works tokens depth pos)
    (hk : pos ≤ k) (hlt : k < tokens.length) (ht : TokenAt tokens k .kwReturn) :
    Parses tokens k (parseReturn (productions depth)) fun _ _ => True := by
  unfold parseReturn
  refine Parses.currentSpan_bind hlt fun span => ?_
  refine Parses.advance_bind hend ht (by nofun) fun hlt _ _ => ?_
  refine Parses.atBlockEnd_bind hlt fun t _ => ?_
  split_ifs
  · exact Parses.pure hlt trivial
  refine Parses.check_ite hlt (fun _ => Parses.pure hlt trivial) fun _ => ?_
  exact (hw.expr (by omega) hlt).bind fun value q _ hlt _ => Parses.pure hlt trivial

theorem names_parses (hend : EndsInEof tokens) (hlt : k < tokens.length)
    {names : List (Bytes × Span)} :
    Parses tokens k (commaSeparated expectIdent names) fun _ _ => True :=
  Parses.commaSeparated hend hlt fun _ _ hlt =>
    (Parses.expectIdent_eq hend hlt).mono fun _ _ _ _ _ => trivial

theorem parseLocal_parses (hend : EndsInEof tokens) (hw : Works tokens depth pos)
    (hk : pos ≤ k) (ht : TokenAt tokens k .kwLocal) :
    Parses tokens k (parseLocal (productions depth)) fun _ q => k < q := by
  unfold parseLocal
  refine Parses.advance_bind hend ht (by nofun) fun hlt _ _ => ?_
  refine Parses.check_ite hlt (fun hfunction => ?_) fun _ => ?_
  · refine Parses.advance_bind hend hfunction (by nofun) fun hlt _ _ => ?_
    refine Parses.expectIdent_bind hend hlt fun hlt name => ?_
    refine (parseFuncBody_parses hend hw (by omega) hlt).bind fun func q hq hlt _ => ?_
    exact Parses.pure hlt (by omega)
  · refine Parses.expectIdent_bind hend hlt fun hlt first => ?_
    refine (names_parses hend hlt).bind fun names q hq hlt _ => ?_
    refine Parses.check_ite hlt (fun hassign => ?_) fun _ => Parses.pure hlt (by omega)
    refine Parses.advance_bind hend hassign (by nofun) fun hlt _ _ => ?_
    refine (hw.expr (by omega) hlt).bind fun value r hr hlt _ => ?_
    refine (hw.exprs hend (by omega) hlt).bind fun values u hu hlt _ => ?_
    exact Parses.pure hlt (by omega)

theorem parseElseTurn_parses (hend : EndsInEof tokens) (hw : Works tokens depth pos)
    (hk : pos ≤ k) (hlt : k < tokens.length) {clauses : List ElseifClause} :
    Parses tokens k (parseElseTurn (productions depth) clauses) (Passing k) := by
  unfold parseElseTurn
  refine Parses.check_ite hlt (fun helseif => ?_) fun _ => ?_
  · refine Parses.advance_bind hend helseif (by nofun) fun hlt _ _ => ?_
    refine (hw.expr (by omega) hlt).bind fun cond q hq hlt _ => ?_
    refine Parses.expect_bind hend hlt (by nofun) fun hlt _ => ?_
    refine (hw.block (q + 1) (by omega) hlt).bind fun block r hr hlt _ => Parses.pure hlt ?_
    show k < r
    omega
  refine Parses.check_ite hlt (fun helse => ?_) fun _ => Parses.pure hlt trivial
  refine Parses.advance_bind hend helse (by nofun) fun hlt _ _ => ?_
  exact (hw.block (k + 1) (by omega) hlt).bind fun block r _ hlt _ => Parses.pure hlt trivial

theorem parseIf_parses (hend : EndsInEof tokens) (hw : Works tokens depth pos)
    (hk : pos ≤ k) (ht : TokenAt tokens k .kwIf) :
    Parses tokens k (parseIf (productions depth)) fun _ q => k < q := by
  unfold parseIf
  refine Parses.advance_bind hend ht (by nofun) fun hlt _ _ => ?_
  refine (hw.expr (by omega) hlt).bind fun condition q hq hlt _ => ?_
  refine Parses.expect_bind hend hlt (by nofun) fun hlt _ => ?_
  refine (hw.block (q + 1) (by omega) hlt).bind fun thenBlock r hr hlt _ => ?_
  have hclauses : Parses tokens r (loop (parseElseTurn (productions depth)) []) fun _ _ => True :=
    Parses.loop_passing hlt fun clauses u hu hlt => parseElseTurn_parses hend hw (by omega) hlt
  refine hclauses.bind fun rest u hu hlt _ => ?_
  refine Parses.expect_bind hend hlt (by nofun) fun hlt _ => Parses.pure hlt ?_
  omega

theorem parseWhile_parses (hend : EndsInEof tokens) (hw : Works tokens depth pos)
    (hk : pos ≤ k) (ht : TokenAt tokens k .kwWhile) :
    Parses tokens k (parseWhile (productions depth)) fun _ q => k < q := by
  unfold parseWhile
  refine Parses.advance_bind hend ht (by nofun) fun hlt _ _ => ?_
  refine (hw.expr (by omega) hlt).bind fun condition q hq hlt _ => ?_
  refine Parses.expect_bind hend hlt (by nofun) fun hlt _ => ?_
  refine (hw.block (q + 1) (by omega) hlt).bind fun block r hr hlt _ => ?_
  refine Parses.expect_bind hend hlt (by nofun) fun hlt _ => Parses.pure hlt ?_
  omega

theorem parseStep_parses (hend : EndsInEof tokens) (hw : Works tokens depth pos)
    (hk : pos ≤ k) (hlt : k < tokens.length) :
    Parses tokens k (parseStep (productions depth)) fun _ _ => True := by
  unfold parseStep
  refine Parses.check_ite hlt (fun hcomma => ?_) fun _ => Parses.pure hlt trivial
  refine Parses.advance_bind hend hcomma (by nofun) fun hlt _ _ => ?_
  exact (hw.expr (by omega) hlt).bind fun step q _ hlt _ => Parses.pure hlt trivial

theorem parseFor_parses (hend : EndsInEof tokens) (hw : Works tokens depth pos)
    (hk : pos ≤ k) (ht : TokenAt tokens k .kwFor) :
    Parses tokens k (parseFor (productions depth)) fun _ q => k < q := by
  unfold parseFor
  refine Parses.advance_bind hend ht (by nofun) fun hlt _ _ => ?_
  refine Parses.expectIdent_bind hend hlt fun hlt first => ?_
  refine Parses.check_ite hlt (fun hassign => ?_) fun _ => ?_
  · refine Parses.advance_bind hend hassign (by nofun) fun hlt _ _ => ?_
    refine (hw.expr (by omega) hlt).bind fun start q hq hlt _ => ?_
    refine Parses.expect_bind hend hlt (by nofun) fun hlt _ => ?_
    refine (hw.expr (by omega) hlt).bind fun limit r hr hlt _ => ?_
    refine (parseStep_parses hend hw (by omega) hlt).bind fun step u hu hlt _ => ?_
    refine Parses.expect_bind hend hlt (by nofun) fun hlt _ => ?_
    refine (hw.block (u + 1) (by omega) hlt).bind fun block v hv hlt _ => ?_
    refine Parses.expect_bind hend hlt (by nofun) fun hlt _ => Parses.pure hlt ?_
    omega
  · refine (names_parses hend hlt).bind fun vars q hq hlt _ => ?_
    refine Parses.expect_bind hend hlt (by nofun) fun hlt _ => ?_
    refine (hw.expr (by omega) hlt).bind fun iterator r hr hlt _ => ?_
    refine (hw.exprs hend (by omega) hlt).bind fun iterators u hu hlt _ => ?_
    refine Parses.expect_bind hend hlt (by nofun) fun hlt _ => ?_
    refine (hw.block (u + 1) (by omega) hlt).bind fun block v hv hlt _ => ?_
    refine Parses.expect_bind hend hlt (by nofun) fun hlt _ => Parses.pure hlt ?_
    omega

theorem parseNameTurn_parses (hend : EndsInEof tokens) (hlt : k < tokens.length)
    {parts : List (Bytes × Span)} :
    Parses tokens k (parseNameTurn parts) (Passing k) := by
  unfold parseNameTurn
  refine Parses.check_ite hlt (fun hdot => ?_) fun _ => ?_
  · refine Parses.advance_bind hend hdot (by nofun) fun hlt _ _ => ?_
    refine Parses.expectIdent_bind hend hlt fun hlt part => Parses.pure hlt ?_
    show k < k + 1 + 1
    omega
  refine Parses.check_ite hlt (fun hcolon => ?_) fun _ => Parses.pure hlt trivial
  refine Parses.advance_bind hend hcolon (by nofun) fun hlt _ _ => ?_
  exact Parses.expectIdent_bind hend hlt fun hlt method => Parses.pure hlt trivial

theorem parseFunctionDecl_parses (hend : EndsInEof tokens) (hw : Works tokens depth pos)
    (hk : pos ≤ k) (ht : TokenAt tokens k .kwFunction) :
    Parses tokens k (parseFunctionDecl (productions depth)) fun _ q => k < q := by
  unfold parseFunctionDecl
  refine Parses.advance_bind hend ht (by nofun) fun hlt _ _ => ?_
  refine Parses.expectIdent_bind hend hlt fun hlt first => ?_
  have hname : Parses tokens (k + 1 + 1) (loop parseNameTurn [first]) fun _ _ => True :=
    Parses.loop_passing hlt fun parts q _ hlt => parseNameTurn_parses hend hlt
  refine hname.bind fun name q hq hlt _ => ?_
  refine (parseFuncBody_parses hend hw (by omega) hlt).bind fun func r hr hlt _ => ?_
  exact Parses.pure hlt (by omega)

theorem parseDo_parses (hend : EndsInEof tokens) (hw : Works tokens depth pos)
    (hk : pos ≤ k) (ht : TokenAt tokens k .kwDo) :
    Parses tokens k (parseDo (productions depth)) fun _ q => k < q := by
  unfold parseDo
  refine Parses.advance_bind hend ht (by nofun) fun hlt _ _ => ?_
  refine (hw.block (k + 1) (by omega) hlt).bind fun block q hq hlt _ => ?_
  refine Parses.expect_bind hend hlt (by nofun) fun hlt _ => Parses.pure hlt ?_
  omega

theorem parseExprOrAssign_parses (hend : EndsInEof tokens) (hw : Works tokens depth pos)
    (hk : pos ≤ k) (hlt : k < tokens.length) :
    Parses tokens k (parseExprOrAssign (productions depth)) fun _ q => k < q := by
  unfold parseExprOrAssign
  refine (parseSuffixedExpr_parses hend hw hk hlt).bind fun expr q _ hlt h => ?_
  refine Parses.check_ite hlt (fun _ => ?_) fun _ => ?_
  · exact Parses.currentSpan_bind hlt fun _ => Parses.raise
  refine Parses.check_ite hlt (fun hassign => ?_) fun _ => ?_
  · refine Parses.advance_bind hend hassign (by nofun) fun hlt _ _ => ?_
    refine (hw.expr (by omega) hlt).bind fun value r hr hlt _ => ?_
    split
    · exact Parses.pure hlt (by omega)
    · exact Parses.raise
  · split
    · exact Parses.pure hlt h.1
    · exact Parses.pure hlt h.1
    · exact Parses.raise

theorem parseStat_parses (hend : EndsInEof tokens) (hw : Works tokens depth pos)
    (hk : pos ≤ k) (hlt : k < tokens.length) :
    Parses tokens k (parseStat (productions depth)) fun _ q => k < q := by
  unfold parseStat
  refine Parses.peek_bind hlt fun t ht => ?_
  split
  · next htoken => exact parseLocal_parses hend hw hk ⟨t, ht, htoken⟩
  · next htoken => exact parseIf_parses hend hw hk ⟨t, ht, htoken⟩
  · next htoken => exact parseWhile_parses hend hw hk ⟨t, ht, htoken⟩
  · next htoken => exact parseFor_parses hend hw hk ⟨t, ht, htoken⟩
  · next htoken => exact parseFunctionDecl_parses hend hw hk ⟨t, ht, htoken⟩
  · next htoken => exact parseDo_parses hend hw hk ⟨t, ht, htoken⟩
  · next htoken =>
    exact Parses.advance_bind hend ⟨t, ht, htoken⟩ (by nofun) fun hlt _ _ =>
      Parses.pure hlt (Nat.lt_succ_self k)
  · exact parseExprOrAssign_parses hend hw hk hlt

theorem skipSemicolons_parses (hend : EndsInEof tokens) (hlt : k < tokens.length) :
    Parses tokens k skipSemicolons fun _ _ => True := by
  refine Parses.loop_passing hlt fun _ q _ hlt => ?_
  refine Parses.check_ite hlt (fun hsemicolon => ?_) fun _ => Parses.pure hlt trivial
  exact Parses.advance_bind hend hsemicolon (by nofun) fun hlt _ _ =>
    Parses.pure hlt (Nat.lt_succ_self q)

theorem parseBlockTurn_parses (hend : EndsInEof tokens) (hw : Works tokens depth pos)
    (hk : pos ≤ k) (hlt : k < tokens.length) {stmts : List Stmt} :
    Parses tokens k (parseBlockTurn (productions depth) stmts) (Passing k) := by
  unfold parseBlockTurn
  refine (skipSemicolons_parses hend hlt).bind fun _ q hq hlt _ => ?_
  refine Parses.check_ite hlt (fun hreturn => ?_) fun _ => ?_
  · refine (parseReturn_parses hend hw (by omega) hlt hreturn).bind fun ret r _ hlt _ => ?_
    refine Parses.check_ite hlt (fun hsemicolon => ?_) fun _ => Parses.pure hlt trivial
    exact Parses.advance_bind hend hsemicolon (by nofun) fun hlt _ _ => Parses.pure hlt trivial
  refine Parses.atBlockEnd_bind hlt fun t _ => ?_
  split_ifs
  · exact Parses.pure hlt trivial
  refine (parseStat_parses hend hw (by omega) hlt).bind fun stmt r hr hlt hqr => ?_
  refine Parses.pure hlt ?_
  show k < r
  omega

theorem parseBlock_parses (hend : EndsInEof tokens) (hw : Works tokens depth pos)
    (hk : pos ≤ k) (hlt : k < tokens.length) :
    Parses tokens k (parseBlock (productions depth)) fun _ _ => True := by
  unfold parseBlock
  refine Parses.currentSpan_bind hlt fun span => ?_
  have hstmts : Parses tokens k (loop (parseBlockTurn (productions depth)) []) fun _ _ => True :=
    Parses.loop_passing hlt fun stmts q hq hlt => parseBlockTurn_parses hend hw (by omega) hlt
  exact hstmts.bind fun _ q _ hlt _ => Parses.pure hlt trivial

end Statements

/-- The calls go one level deeper at a later token each time, so the levels never run out. -/
theorem works {tokens : List SpannedToken} (hend : EndsInEof tokens) (depth : Nat) :
    ∀ pos, tokens.length ≤ pos + 1 + depth → Works tokens depth pos := by
  induction depth with
  | zero =>
    intro pos hle
    refine ⟨?_, ?_, ?_⟩
    all_goals
      intros
      omega
  | succ depth ih =>
    intro pos hle
    have hlater (q : Nat) (hq : pos < q) : Works tokens depth q := ih q (by omega)
    refine ⟨fun q hq hlt => ?_, fun q minPrec hq hlt => ?_, fun q hq hlt => ?_⟩
    · exact parseBlock_parses hend (hlater q hq) le_rfl hlt
    · exact parseBinop_parses hend (hlater q hq) le_rfl hlt
    · exact parseUnop_parses hend (hlater q hq) le_rfl hlt

section Results

variable {tokens : List SpannedToken}

theorem peek_run_ok {p q : Parser} {t : SpannedToken} (h : peek.run p = (.ok t, q)) :
    p.pos < p.tokens.length := by
  by_contra hge
  rw [peek, Exec.run_bind_ok (Exec.run_get _),
    List.getElem?_eq_none (Nat.le_of_not_lt hge)] at h
  cases h

theorem parseExpr_run_ok {depth : Nat} {p q : Parser} {e : Expr}
    (h : (parseExpr (productions depth)).run p = (.ok e, q)) : p.pos < p.tokens.length := by
  cases depth with
  | zero => cases h
  | succ depth =>
    obtain ⟨left, p', hleft, -⟩ := Exec.run_bind_eq_ok.mp h
    obtain ⟨t, p'', hpeek, -⟩ := Exec.run_bind_eq_ok.mp hleft
    exact peek_run_ok hpeek

/-- The tokens passed are an expression tree that respects precedence and associativity, and the
token at hand cannot continue it. -/
theorem parseExpr_respects_precedence (hend : EndsInEof tokens) {pos : Nat} {e : Expr}
    {p : Parser}
    (h : (parseExpr (productions tokens.length)).run ⟨tokens, pos⟩ = (.ok e, p)) :
    p.tokens = tokens ∧ ∃ tree : OpTree, tree.expr = e ∧ Reads tokens tree pos p.pos ∧
      tree.WellShaped ∧ Stops tokens 0 p.pos := by
  have hlt : pos < tokens.length := parseExpr_run_ok h
  obtain ⟨depth, hdepth⟩ := Nat.exists_eq_add_of_lt hlt
  have hexpr : Parses tokens pos (parseExpr (productions tokens.length))
      (BinopPost tokens 0 pos) := by
    rw [hdepth]
    exact parseBinop_parses hend (works hend (pos + depth) pos (by omega)) le_rfl hlt
  have hpost := hexpr _ rfl
  rw [h] at hpost
  obtain ⟨q, rfl, -, -, hpost⟩ := hpost
  obtain ⟨-, hstops, tree, htree, hreads, hshaped, -⟩ := hpost
  exact ⟨rfl, tree, htree, hreads, hshaped, hstops⟩

def sumOfProduct : List SpannedToken :=
  [⟨.integer 1, ⟨0, 1, 1⟩⟩, ⟨.plus, ⟨1, 2, 1⟩⟩, ⟨.integer 2, ⟨2, 3, 1⟩⟩, ⟨.star, ⟨3, 4, 1⟩⟩,
    ⟨.integer 3, ⟨4, 5, 1⟩⟩, ⟨.eof, ⟨5, 5, 1⟩⟩]

theorem parseExpr_respects_precedence_sumOfProduct :
    (⟨sumOfProduct, 5⟩ : Parser).tokens = sumOfProduct ∧ ∃ tree : OpTree,
      tree.expr = .binOp .add (.integer 1 ⟨0, 1, 1⟩)
        (.binOp .mul (.integer 2 ⟨2, 3, 1⟩) (.integer 3 ⟨4, 5, 1⟩) ⟨3, 4, 1⟩) ⟨1, 2, 1⟩ ∧
      Reads sumOfProduct tree 0 5 ∧ tree.WellShaped ∧ Stops sumOfProduct 0 5 :=
  parseExpr_respects_precedence ⟨_, rfl⟩ (by rfl)

theorem parseTokens_ends (hend : EndsInEof tokens) :
    (∃ block, parseTokens tokens = .ok block) ∨
      ∃ e, parseTokens tokens = .error (.raised e) := by
  obtain ⟨span, hlast⟩ := hend
  have hlt : 0 < tokens.length := List.length_pos_of_mem (List.mem_of_getLast? hlast)
  obtain ⟨depth, hdepth⟩ := Nat.exists_eq_add_of_lt hlt
  have hend : EndsInEof tokens := ⟨span, hlast⟩
  have hparse : Parses tokens 0 (do
      let block ← (productions tokens.length).block
      expectEof
      pure block) fun _ _ => True := by
    have hblock : Parses tokens 0 (productions tokens.length).block fun _ _ => True := by
      rw [hdepth]
      exact parseBlock_parses hend (works hend (0 + depth) 0 (by omega)) le_rfl hlt
    refine hblock.bind fun block q _ hlt _ => ?_
    have heof : Parses tokens q expectEof fun _ _ => True :=
      Parses.check_ite hlt (fun _ => Parses.pure hlt trivial) fun _ => Parses.unexpected hlt
    exact heof.bind fun _ r _ hlt _ => Parses.pure hlt trivial
  have h := hparse _ rfl
  unfold parseTokens
  rcases hrun : (do
      let block ← (productions tokens.length).block
      expectEof
      pure block : Parse Block).run ⟨tokens, 0⟩ with ⟨e | block, p⟩
  · rw [hrun] at h
    obtain ⟨err, rfl⟩ := h
    exact .inr ⟨err, rfl⟩
  · exact .inl ⟨block, rfl⟩

theorem endsInEof_of_tokenized {src : Bytes} (h : Lexer.Tokenized src tokens) :
    EndsInEof tokens := by
  obtain ⟨before, n, -, -, -, rfl⟩ := h
  exact ⟨_, List.getLast?_concat⟩

/-- Lexing ends with tokens or an error, and so does the parsing of these tokens. -/
theorem lexing_and_parsing_end (source : Bytes) :
    (∃ e, Lexer.tokenize source = .error (.raised e)) ∨
      ∃ tokens, Lexer.tokenize source = .ok tokens ∧
        ((∃ block, parseTokens tokens = .ok block) ∨
          ∃ e, parseTokens tokens = .error (.raised e)) := by
  rcases Lexer.tokenize_cases source with ⟨tokens, hok, htokens⟩ | herror
  · exact .inr ⟨tokens, hok, parseTokens_ends (endsInEof_of_tokenized htokens)⟩
  · exact .inl herror

end Results

end Proveno.Parser
