import Mathlib.Data.List.TakeWhile
import Proveno.Lib.Leftmost
import Proveno.Parser.Lexer

/-! The lexer on the move: a state together with how far it has gone through the source. Long
brackets, of strings and of comments alike, end where their closing bracket first occurs. -/

namespace Proveno.Lexer

section Movement

variable (l : Lexer)

def rest : Bytes := l.src.drop l.pos

/-- `n` bytes further, all newlines among them counted. -/
def past (n : Nat) : Lexer :=
  ⟨l.src, l.pos + n, l.line + UInt32.ofNat ((l.rest.take n).count newline)⟩

@[simp] theorem past_src (n : Nat) : (l.past n).src = l.src := rfl

@[simp] theorem past_pos (n : Nat) : (l.past n).pos = l.pos + n := rfl

@[simp] theorem past_zero : l.past 0 = l := by
  simp [past]

@[simp] theorem rest_past (n : Nat) : (l.past n).rest = l.rest.drop n := by
  rw [rest, rest, List.drop_drop, past_src, past_pos]

theorem past_past (m n : Nat) : (l.past m).past n = l.past (m + n) := by
  have hline : (l.past m).line + UInt32.ofNat (((l.past m).rest.take n).count newline) =
      l.line + UInt32.ofNat ((l.rest.take (m + n)).count newline) := by
    rw [List.take_add, List.count_append, UInt32.ofNat_add, ← UInt32.add_assoc, rest_past]
    rfl
  rw [past, hline, past_src, past_pos, Nat.add_assoc]
  rfl

variable {l}

theorem atEnd_iff : l.atEnd ↔ l.rest = [] := by
  rw [rest, List.drop_eq_nil_iff]
  rfl

theorem getElem?_rest (k : Nat) : l.src[l.pos + k]? = l.rest[k]? := by
  rw [rest, List.getElem?_drop]

theorem cur_eq {c : UInt8} {t : Bytes} (h : l.rest = c :: t) : l.cur = c := by
  rw [cur, List.getD_eq_getElem?_getD, ← Nat.add_zero l.pos, getElem?_rest, h]
  rfl

theorem peek_eq {c d : UInt8} {t : Bytes} (h : l.rest = c :: d :: t) : l.peek = d := by
  rw [peek, List.getD_eq_getElem?_getD, getElem?_rest, h]
  rfl

theorem advanced_eq {c : UInt8} {t : Bytes} (h : l.rest = c :: t) : l.advanced = l.past 1 := by
  rw [advanced, past, h, cur_eq h]
  by_cases hc : c = newline
  · simp [hc]
  · simp [hc]

theorem moved_eq {n : Nat} (h : newline ∉ l.rest.take n) : l.moved n = l.past n := by
  rw [past, List.count_eq_zero_of_not_mem h]
  simp [moved]

theorem run_eq (p : UInt8 → Bool) : l.run p = (l.rest.takeWhile p).length := rfl

theorem take_run (p : UInt8 → Bool) : l.rest.take (l.run p) = l.rest.takeWhile p := by
  exact (List.prefix_iff_eq_take.mp (List.takeWhile_prefix p)).symm

theorem moved_run {p : UInt8 → Bool} (hp : p newline = false) :
    l.moved (l.run p) = l.past (l.run p) := by
  apply moved_eq
  rw [take_run]
  intro hmem
  rw [List.mem_takeWhile_imp hmem] at hp
  cases hp

theorem run_skipWhile {p : UInt8 → Bool} (hp : p newline = false) :
    (skipWhile p).run l = (.ok (l.run p), l.past (l.run p)) := by
  rw [← moved_run hp]
  rfl

theorem run_advance {c : UInt8} {t : Bytes} (h : l.rest = c :: t) :
    advance.run l = (.ok c, l.past 1) := by
  rw [← advanced_eq h, ← cur_eq h]
  rfl

theorem run_skip {n : Nat} (h : newline ∉ l.rest.take n) : (skip n).run l = (.ok (), l.past n) := by
  rw [← moved_eq h]
  rfl

end Movement

section Body

/-- Two of the same bytes around `level` signs. -/
def bracket (b : UInt8) (level : Nat) : Bytes := b :: (List.replicate level (byte '=') ++ [b])

def opening (level : Nat) : Bytes := bracket (byte '[') level

def closing (level : Nat) : Bytes := bracket (byte ']') level

theorem length_opening (level : Nat) : (opening level).length = level + 2 := by
  simp [opening, bracket]

theorem length_closing (level : Nat) : (closing level).length = level + 2 := by
  simp [closing, bracket]

theorem newline_not_mem_opening (level : Nat) : newline ∉ opening level := by
  simp only [opening, bracket, List.mem_cons, List.mem_append, List.mem_replicate,
    List.not_mem_nil, or_false, not_or, not_and]
  exact ⟨by decide, fun _ => by decide, by decide⟩

theorem takeWhile_equals (t : Bytes) :
    t.takeWhile (· == byte '=') =
      List.replicate (t.takeWhile (· == byte '=')).length (byte '=') := by
  refine List.eq_replicate_of_mem fun b hb => ?_
  simpa using List.mem_takeWhile_imp hb

theorem bracket_prefix_iff {b : UInt8} (hb : b ≠ byte '=') {level : Nat} {t : Bytes} :
    bracket b level <+: b :: t ↔
      (t.takeWhile (· == byte '=')).length = level ∧ t[level]? = some b := by
  rw [bracket, List.cons_prefix_cons]
  constructor
  · rintro ⟨-, s, rfl⟩
    constructor
    · rw [List.append_assoc, List.takeWhile_append_of_pos (by simp)]
      simp [hb]
    · simp
  · rintro ⟨hrun, hnext⟩
    refine ⟨rfl, ?_⟩
    obtain ⟨hlt, hget⟩ := List.getElem?_eq_some_iff.mp hnext
    have htake : t.take level = List.replicate level (byte '=') := by
      have htake := takeWhile_equals t
      rw [hrun] at htake
      rw [← htake, ← hrun]
      exact (List.prefix_iff_eq_take.mp (List.takeWhile_prefix _)).symm
    refine ⟨t.drop (level + 1), ?_⟩
    rw [← htake, ← hget, List.append_assoc, List.singleton_append, ← List.drop_eq_getElem_cons,
      List.take_append_drop]

theorem closing_prefix_iff {level : Nat} {t : Bytes} :
    closing level <+: byte ']' :: t ↔
      (t.takeWhile (· == byte '=')).length = level ∧ t[level]? = some (byte ']') :=
  bracket_prefix_iff (by decide)

variable {level : Nat} {keep : Bool} {unterminated : Lex Bytes} {closed : Bytes → Lex Bytes}
  {buf : Bytes} {l : Lexer}

/-- What is kept of the bytes that a turn has read. -/
def collected (keep : Bool) (buf read : Bytes) : Bytes := if keep then buf ++ read else buf

theorem collected_collected (keep : Bool) (buf read read' : Bytes) :
    collected keep (collected keep buf read) read' = collected keep buf (read ++ read') := by
  cases keep with
  | false => rfl
  | true => exact List.append_assoc ..

theorem longBracketTurn_nil (h : l.rest = []) :
    (longBracketTurn level keep unterminated closed buf).run l =
      (unterminated >>= fun result => pure (.inr result)).run l := by
  have hend : l.atEnd := atEnd_iff.mpr h
  rw [longBracketTurn, Exec.run_bind_ok (Exec.run_get l), if_pos hend]

variable (level keep unterminated closed buf) in
theorem longBracketTurn_cons {c : UInt8} {t : Bytes} (h : l.rest = c :: t) (hc : c ≠ byte ']') :
    (longBracketTurn level keep unterminated closed buf).run l =
      (.ok (.inl (collected keep buf [c])), l.past 1) := by
  have hend : ¬l.atEnd := by simp [atEnd_iff, h]
  rw [longBracketTurn, Exec.run_bind_ok (Exec.run_get l), if_neg hend,
    Exec.run_bind_ok (run_advance h), if_neg hc]
  rfl

variable (level keep unterminated closed buf) in
/-- At a closing bracket the turn ends the loop; at any other it goes on after the `=` signs. -/
theorem longBracketTurn_bracket {t : Bytes} (h : l.rest = byte ']' :: t) :
    (longBracketTurn level keep unterminated closed buf).run l =
      if closing level <+: l.rest then
        (closed buf >>= fun result => pure (.inr result)).run (l.past (level + 2))
      else
        (.ok (.inl (collected keep buf (byte ']' ::
            List.replicate (t.takeWhile (· == byte '=')).length (byte '=')))),
          l.past (1 + (t.takeWhile (· == byte '=')).length)) := by
  have hend : ¬l.atEnd := by simp [atEnd_iff, h]
  have hrest : (l.past 1).rest = t := by rw [rest_past, h, List.drop_one, List.tail_cons]
  have hrun : (l.past 1).run (· == byte '=') = (t.takeWhile (· == byte '=')).length := by
    rw [run_eq, hrest]
  have hnext (k : Nat) : (l.past (1 + k)).src[(l.past (1 + k)).pos]? = t[k]? := by
    rw [← Nat.add_zero (l.past (1 + k)).pos, getElem?_rest, ← past_past, rest_past, hrest,
      List.getElem?_drop, Nat.add_zero]
  rw [longBracketTurn, Exec.run_bind_ok (Exec.run_get l), if_neg hend,
    Exec.run_bind_ok (run_advance h), if_pos rfl, Exec.run_bind_ok (run_skipWhile (by decide)),
    Exec.run_bind_ok (Exec.run_get _), past_past, hrun, hnext, h]
  by_cases hclose : closing level <+: byte ']' :: t
  · obtain ⟨heq, hlast⟩ := closing_prefix_iff.mp hclose
    have hskip : newline ∉ (l.past (1 + level)).rest.take 1 := by
      rw [← past_past, rest_past, hrest]
      intro hmem
      obtain ⟨hlt, hget⟩ := List.getElem?_eq_some_iff.mp hlast
      rw [List.drop_eq_getElem_cons hlt, hget] at hmem
      exact absurd (List.mem_singleton.mp hmem) (by decide)
    rw [if_pos hclose, heq, if_pos ⟨rfl, hlast⟩, Exec.run_bind_ok (run_skip hskip), past_past,
      Nat.add_comm 1 level]
  · rw [if_neg hclose, if_neg]
    · simp only [collected, List.append_assoc, List.singleton_append]
      rfl
    · rintro ⟨heq, hlast⟩
      exact hclose (closing_prefix_iff.mpr ⟨heq, heq ▸ hlast⟩)

/-- No closing bracket begins at a bracket that is not one, or at an `=` sign after it. -/
theorem not_occursAt_closing {t : Bytes} (hnot : ¬closing level <+: byte ']' :: t) :
    ∀ j < 1 + (t.takeWhile (· == byte '=')).length,
      ¬OccursAt (closing level) (byte ']' :: t) j := by
  intro j hj
  cases j with
  | zero => exact hnot
  | succ j =>
    refine not_occursAt_of_head ?_
    have hlt : j < (t.takeWhile (· == byte '=')).length := by omega
    have hget : t[j]? = some (t.takeWhile (· == byte '='))[j] := by
      rw [List.IsPrefix.getElem (List.takeWhile_prefix _) hlt, List.getElem?_eq_getElem]
    have hequals : (t.takeWhile (· == byte '='))[j] = byte '=' := by
      simpa using List.mem_takeWhile_imp (List.getElem_mem hlt)
    rw [List.getElem?_cons_succ, hget, hequals]
    decide

/-- The loop through the body goes to the first closing bracket, or to the end of the source. -/
def EndsAtFirst (level : Nat) (keep : Bool) (unterminated : Lex Bytes) (closed : Bytes → Lex Bytes)
    (fuel : Nat) (buf : Bytes) (l : Lexer) : Prop :=
  (∃ i, LeftmostAt (closing level) l.rest i ∧
    (Exec.loop (longBracketTurn level keep unterminated closed) fuel buf).run l =
      (closed (collected keep buf (l.rest.take i))).run (l.past (i + (level + 2)))) ∨
  (∀ i, ¬OccursAt (closing level) l.rest i) ∧
    (Exec.loop (longBracketTurn level keep unterminated closed) fuel buf).run l =
      unterminated.run (l.past l.rest.length)

/-- A turn that passes over `k` bytes at none of which the closing bracket begins. -/
theorem endsAtFirst_of_turn {fuel k : Nat} (hle : k ≤ l.rest.length)
    (hnone : ∀ j < k, ¬OccursAt (closing level) l.rest j)
    (hturn : (longBracketTurn level keep unterminated closed buf).run l =
      (.ok (.inl (collected keep buf (l.rest.take k))), l.past k))
    (hafter : EndsAtFirst level keep unterminated closed fuel
      (collected keep buf (l.rest.take k)) (l.past k)) :
    EndsAtFirst level keep unterminated closed (fuel + 1) buf l := by
  unfold EndsAtFirst at hafter ⊢
  rw [Exec.loop_run_inl hturn]
  rcases hafter with ⟨i, hleft, hrun⟩ | ⟨hnever, hrun⟩
  · left
    rw [rest_past] at hleft hrun
    rw [past_past, collected_collected, ← List.take_add, ← Nat.add_assoc] at hrun
    exact ⟨k + i, hleft.of_drop hnone, hrun⟩
  · right
    rw [rest_past] at hnever hrun
    rw [past_past, List.length_drop, Nat.add_sub_cancel' hle] at hrun
    exact ⟨not_occursAt_of_drop hnone hnever, hrun⟩

theorem longBracketLoop (level : Nat) (keep : Bool) (unterminated : Lex Bytes)
    (closed : Bytes → Lex Bytes) (fuel : Nat) (buf : Bytes) (l : Lexer)
    (hfuel : l.rest.length < fuel) :
    EndsAtFirst level keep unterminated closed fuel buf l := by
  induction fuel generalizing buf l with
  | zero => exact absurd hfuel (Nat.not_lt_zero _)
  | succ fuel ih =>
    have hshort (k : Nat) (hk : 0 < k) (hle : k ≤ l.rest.length) :
        (l.past k).rest.length < fuel := by
      rw [rest_past, List.length_drop]
      omega
    cases hrest : l.rest with
    | nil =>
      right
      refine ⟨fun i hi => ?_, ?_⟩
      · obtain ⟨t, ht⟩ := hi
        simp [closing, bracket, hrest] at ht
      · rw [Exec.loop_run_break (longBracketTurn_nil hrest), hrest, List.length_nil, past_zero]
    | cons c t =>
      by_cases hc : c = byte ']'
      · subst hc
        have hturn := longBracketTurn_bracket level keep unterminated closed buf hrest
        by_cases hclose : closing level <+: l.rest
        · left
          rw [if_pos hclose] at hturn
          refine ⟨0, ⟨hclose, nofun⟩, ?_⟩
          rw [Exec.loop_run_break hturn, Nat.zero_add, List.take_zero]
          cases keep <;> simp [collected]
        · rw [if_neg hclose] at hturn
          have htake : l.rest.take (1 + (t.takeWhile (· == byte '=')).length) =
              byte ']' :: List.replicate (t.takeWhile (· == byte '=')).length (byte '=') := by
            rw [hrest, Nat.add_comm, List.take_succ_cons, ← takeWhile_equals]
            exact congrArg _ (List.prefix_iff_eq_take.mp (List.takeWhile_prefix _)).symm
          rw [← htake] at hturn
          have hle : 1 + (t.takeWhile (· == byte '=')).length ≤ l.rest.length := by
            have := (List.takeWhile_prefix (l := t) (· == byte '=')).length_le
            rw [hrest, List.length_cons]
            omega
          refine endsAtFirst_of_turn hle ?_ hturn (ih _ _ (hshort _ (by omega) hle))
          rw [hrest] at hclose ⊢
          exact not_occursAt_closing hclose
      · have hturn := longBracketTurn_cons level keep unterminated closed buf hrest hc
        have hle : 1 ≤ l.rest.length := by simp [hrest]
        have htake : l.rest.take 1 = [c] := by rw [hrest]; rfl
        rw [← htake] at hturn
        refine endsAtFirst_of_turn hle ?_ hturn (ih _ _ (hshort 1 (by omega) hle))
        intro j hj
        obtain rfl : j = 0 := by omega
        refine not_occursAt_of_head ?_
        rw [hrest]
        exact fun h => hc (Option.some.inj h)

end Body

section Brackets

variable {l : Lexer} {level : Nat} {body : Bytes}

theorem countLongBracketOpen_eq_some_iff :
    l.countLongBracketOpen = some level ↔ opening level <+: l.rest := by
  unfold countLongBracketOpen
  cases hrest : l.rest with
  | nil =>
    have hcur : l.cur = 0 := by
      rw [cur, List.getD_eq_getElem?_getD, List.getElem?_eq_none (List.drop_eq_nil_iff.mp hrest)]
      rfl
    rw [hcur, if_pos (by decide)]
    exact iff_of_false nofun (by simp [opening, bracket])
  | cons c t =>
    rw [cur_eq hrest]
    by_cases hc : c = byte '['
    · subst hc
      have hmoved : (l.moved 1).rest = t := by
        calc (l.moved 1).rest = l.rest.drop 1 := by rw [rest, rest, List.drop_drop]; rfl
          _ = t := by rw [hrest]; rfl
      have hnext (k : Nat) : l.src[l.pos + 1 + k]? = t[k]? := by
        rw [Nat.add_assoc, getElem?_rest, hrest, Nat.add_comm 1 k, List.getElem?_cons_succ]
      rw [if_neg (by simp), run_eq, hmoved, opening, bracket_prefix_iff (by decide)]
      simp only [hnext]
      split_ifs with hlast
      · rw [Option.some.injEq]
        exact ⟨fun heq => ⟨heq, heq ▸ hlast⟩, And.left⟩
      · refine iff_of_false nofun ?_
        rintro ⟨heq, hget⟩
        exact hlast (heq ▸ hget)
    · rw [if_pos hc]
      refine iff_of_false nofun fun hprefix => hc ?_
      exact (List.cons_prefix_cons.mp hprefix).1.symm

/-- The newline, of one byte or of two, that a text begins with. -/
def initialNewline (text : Bytes) : Nat :=
  if text.head? = some newline then 1 else if text.take 2 = [13, newline] then 2 else 0

def withoutInitialNewline (text : Bytes) : Bytes := text.drop (initialNewline text)

theorem initialNewline_cases (text : Bytes) :
    (∃ t, text = newline :: t ∧ initialNewline text = 1) ∨
      (∃ t, text = 13 :: newline :: t ∧ initialNewline text = 2) ∨
      initialNewline text = 0 := by
  unfold initialNewline
  split_ifs with hone htwo
  · left
    obtain ⟨t, ht⟩ := List.head?_eq_some_iff.mp hone
    exact ⟨t, ht, rfl⟩
  · right
    left
    refine ⟨text.drop 2, ?_, rfl⟩
    calc text = text.take 2 ++ text.drop 2 := (List.take_append_drop 2 text).symm
      _ = _ := by rw [htwo]; rfl
  · exact .inr (.inr rfl)

theorem run_skipInitialNewline :
    skipInitialNewline.run l = (.ok (), l.past (initialNewline l.rest)) := by
  have hlen : l.rest.length = l.src.length - l.pos := List.length_drop
  rw [skipInitialNewline, Exec.run_bind_ok (Exec.run_get l)]
  rcases initialNewline_cases l.rest with ⟨t, hrest, hone⟩ | ⟨t, hrest, htwo⟩ | hzero
  · have hend : ¬l.atEnd := by simp [atEnd_iff, hrest]
    rw [if_pos ⟨hend, cur_eq hrest⟩, Exec.run_modify, advanced_eq hrest, hone]
  · have hshort : l.pos + 1 < l.src.length := by
      rw [hrest] at hlen
      simp only [List.length_cons] at hlen
      omega
    have hrest' : (l.past 1).rest = newline :: t := by rw [rest_past, hrest]; rfl
    have hcr : ¬(¬l.atEnd ∧ l.cur = newline) := by
      rw [cur_eq hrest]
      exact fun h => absurd h.2 (by decide)
    rw [if_neg hcr, if_pos ⟨hshort, cur_eq hrest, peek_eq hrest⟩,
      Exec.run_bind_ok (Exec.run_modify advanced l), Exec.run_modify, advanced_eq hrest,
      advanced_eq hrest', past_past, htwo]
  · have hone : ¬(¬l.atEnd ∧ l.cur = newline) := by
      rintro ⟨hend, hcur⟩
      obtain ⟨c, t, hrest⟩ := List.exists_cons_of_ne_nil (mt atEnd_iff.mpr hend)
      rw [cur_eq hrest] at hcur
      rw [hrest, hcur] at hzero
      exact absurd hzero (by simp [initialNewline])
    have htwo : ¬(l.pos + 1 < l.src.length ∧ l.cur = 13 ∧ l.peek = newline) := by
      rintro ⟨hshort, hcur, hpeek⟩
      obtain ⟨c, d, t, hrest⟩ : ∃ c d t, l.rest = c :: d :: t := by
        match hrest : l.rest with
        | [] => rw [hrest] at hlen; simp only [List.length_nil] at hlen; omega
        | [_] => rw [hrest] at hlen; simp only [List.length_singleton] at hlen; omega
        | c :: d :: t => exact ⟨c, d, t, rfl⟩
      rw [cur_eq hrest] at hcur
      rw [peek_eq hrest] at hpeek
      rw [hrest, hcur, hpeek] at hzero
      exact absurd hzero (by simp [initialNewline, newline])
    rw [if_neg hone, if_neg htwo, hzero, past_zero]
    rfl

/-- A closing bracket never begins in the initial newline. -/
theorem not_occursAt_initialNewline :
    ∀ j < initialNewline body, ¬OccursAt (closing level) body j := by
  refine fun j hj => not_occursAt_of_head fun hbracket => ?_
  rcases initialNewline_cases body with ⟨t, rfl, hone⟩ | ⟨t, rfl, htwo⟩ | hzero
  · obtain rfl : j = 0 := by omega
    exact absurd (Option.some.inj hbracket) (by decide)
  · obtain rfl | rfl : j = 0 ∨ j = 1 := by omega
    · exact absurd (Option.some.inj hbracket) (by decide)
    · exact absurd (Option.some.inj hbracket) (by decide)
  · omega

theorem withoutInitialNewline_take {i : Nat} :
    withoutInitialNewline (body.take (initialNewline body + i)) =
      (body.drop (initialNewline body)).take i := by
  have hsame : initialNewline (body.take (initialNewline body + i)) = initialNewline body := by
    rcases initialNewline_cases body with ⟨t, rfl, hone⟩ | ⟨t, rfl, htwo⟩ | hzero
    · rw [hone, Nat.add_comm, List.take_succ_cons]
      rfl
    · rw [htwo, Nat.add_comm, List.take_succ_cons, List.take_succ_cons]
      rfl
    · rw [hzero, Nat.zero_add]
      unfold initialNewline at hzero ⊢
      split_ifs at hzero with hone htwo
      rw [if_neg, if_neg]
      · rw [List.take_take]
        intro htake
        have hlen := congrArg List.length htake
        simp only [List.length_take, List.length_cons, List.length_nil] at hlen
        rw [min_eq_left (by omega)] at htake
        exact htwo htake
      · rw [List.head?_take]
        split_ifs
        · nofun
        · exact hone
  rw [withoutInitialNewline, hsame, List.drop_take, Nat.add_sub_cancel_left]

theorem run_consumeLongBracketOpen (h : l.rest = opening level ++ body) :
    (consumeLongBracketOpen level).run l = (.ok (), l.past (level + 2)) := by
  have htake : l.rest.take (level + 2) = opening level := by
    rw [h, List.take_left' (length_opening level)]
  have hpart (m n : Nat) (hle : m + n ≤ level + 2) : newline ∉ (l.past m).rest.take n := by
    intro hmem
    rw [rest_past, List.take_drop] at hmem
    apply newline_not_mem_opening level
    rw [← htake]
    exact (List.take_prefix_take_left hle).subset (List.mem_of_mem_drop hmem)
  rw [consumeLongBracketOpen, Exec.run_bind_ok (run_skip (by simpa using hpart 0 1 (by omega))),
    Exec.run_bind_ok (run_skip (hpart 1 level (by omega))), past_past,
    run_skip (hpart (1 + level) 1 (by omega)), past_past]
  congr 2
  omega

/-- After an opening bracket, a text of `i` bytes and a closing bracket. -/
def afterBracket (l : Lexer) (level i : Nat) : Lexer := l.past (level + 2 + (i + (level + 2)))

def drained (l : Lexer) : Lexer := l.past l.rest.length

/-- The text of a long bracket, `i` bytes of `body`, has been read and closed. -/
theorem run_longBracket (keep : Bool) (unterminated : Lex Bytes) (closed : Bytes → Lex Bytes)
    (h : l.rest = opening level ++ body) :
    (∃ i, LeftmostAt (closing level) body i ∧
      (consumeLongBracketOpen level >>= fun _ => skipInitialNewline >>= fun _ =>
          loop (longBracketTurn level keep unterminated closed) []).run l =
        (closed (if keep then withoutInitialNewline (body.take i) else [])).run
          (l.afterBracket level i)) ∨
    (∀ i, ¬OccursAt (closing level) body i) ∧
      (consumeLongBracketOpen level >>= fun _ => skipInitialNewline >>= fun _ =>
          loop (longBracketTurn level keep unterminated closed) []).run l =
        unterminated.run l.drained := by
  have hbody : (l.past (level + 2)).rest = body := by
    rw [rest_past, h, List.drop_left' (length_opening level)]
  have hlen : l.rest.length = level + 2 + body.length := by
    rw [h, List.length_append, length_opening]
  have hnewline : initialNewline body ≤ body.length := by
    rcases initialNewline_cases body with ⟨t, rfl, hone⟩ | ⟨t, rfl, htwo⟩ | hzero
    · rw [hone, List.length_cons]
      omega
    · rw [htwo, List.length_cons, List.length_cons]
      omega
    · omega
  rw [Exec.run_bind_ok (run_consumeLongBracketOpen h), Exec.run_bind_ok run_skipInitialNewline,
    hbody, past_past]
  have hrest : (l.past (level + 2 + initialNewline body)).rest =
      body.drop (initialNewline body) := by
    rw [← past_past, rest_past, hbody]
  have hfuel : (l.past (level + 2 + initialNewline body)).rest.length < l.src.length + 1 := by
    rw [rest, List.length_drop, past_src]
    omega
  have hloop := longBracketLoop level keep unterminated closed _ [] _ hfuel
  rw [loop, Exec.run_bind_ok (Exec.run_get _)]
  rw [EndsAtFirst, hrest] at hloop
  rcases hloop with ⟨i, hleft, hrun⟩ | ⟨hnever, hrun⟩
  · left
    refine ⟨initialNewline body + i, hleft.of_drop not_occursAt_initialNewline, ?_⟩
    rw [withoutInitialNewline_take]
    have hpast : (l.past (level + 2 + initialNewline body)).past (i + (level + 2)) =
        l.afterBracket level (initialNewline body + i) := by
      rw [past_past, afterBracket]
      congr 1
      omega
    rw [hpast] at hrun
    exact hrun
  · right
    refine ⟨not_occursAt_of_drop not_occursAt_initialNewline hnever, ?_⟩
    have hpast : (l.past (level + 2 + initialNewline body)).past
        (body.drop (initialNewline body)).length = l.drained := by
      rw [past_past, List.length_drop, drained, hlen]
      congr 1
      omega
    rw [hpast] at hrun
    exact hrun

theorem readLongStringCollect_eq (start : Nat) (line : UInt32) :
    readLongStringCollect level start line =
      consumeLongBracketOpen level >>= fun _ => skipInitialNewline >>= fun _ =>
        loop (longBracketTurn level true (failAt .unterminatedString start line) fun buf =>
          if maxStringLen < buf.length then failAt .stringTooLong start line else pure buf) [] :=
  rfl

theorem run_skipLongString (discard : Bool) (hpos : 2 ≤ l.pos) :
    (skipLongString level discard).run l =
      (consumeLongBracketOpen level >>= fun _ => skipInitialNewline >>= fun _ =>
        loop (longBracketTurn level (!discard)
          (Exec.get >>= fun l' => failAt .unterminatedComment (l.pos - 2) l'.line) pure)
          []).run l := by
  rw [skipLongString, Exec.run_bind_ok (Exec.run_get l), if_neg (by omega)]

end Brackets

/-- The collector and the skipper of the text after an opening bracket. The collector is at the
opening bracket, the skipper at the one of a comment, after its `--`. -/
theorem long_brackets_close (pre body : Bytes) (level start : Nat) (startLine line : UInt32)
    (discard : Bool) :
    let collecting : Lexer := ⟨pre ++ (opening level ++ body), pre.length, line⟩
    let skipping : Lexer := ⟨pre ++ ascii "--" ++ (opening level ++ body), pre.length + 2, line⟩
    (∃ i, LeftmostAt (closing level) body i ∧
      (readLongStringCollect level start startLine).run collecting =
        (if maxStringLen < (withoutInitialNewline (body.take i)).length
          then .error (.raised (.stringTooLong
            ((collecting.afterBracket level i).spanFrom start startLine)))
          else .ok (withoutInitialNewline (body.take i)), collecting.afterBracket level i) ∧
      (skipLongString level discard).run skipping =
        (.ok (if discard then [] else withoutInitialNewline (body.take i)),
          skipping.afterBracket level i)) ∨
    (∀ i, ¬OccursAt (closing level) body i) ∧
      (readLongStringCollect level start startLine).run collecting =
        (.error (.raised (.unterminatedString (collecting.drained.spanFrom start startLine))),
          collecting.drained) ∧
      (skipLongString level discard).run skipping =
        (.error (.raised (.unterminatedComment
          (skipping.drained.spanFrom pre.length skipping.drained.line))), skipping.drained) := by
  intro collecting skipping
  have hcollecting : collecting.rest = opening level ++ body := List.drop_left' rfl
  have hskipping : skipping.rest = opening level ++ body := by
    rw [rest, List.drop_left']
    simp [ascii, skipping]
  rw [readLongStringCollect_eq, run_skipLongString discard (by simp [skipping])]
  rcases run_longBracket true (failAt .unterminatedString start startLine) (fun buf =>
      if maxStringLen < buf.length then failAt .stringTooLong start startLine else pure buf)
      hcollecting with ⟨i, hleft, hrun⟩ | ⟨hnever, hrun⟩
  · rcases run_longBracket (!discard) (Exec.get >>= fun l' =>
        failAt .unterminatedComment (skipping.pos - 2) l'.line) pure hskipping with
      ⟨j, hleft', hrun'⟩ | ⟨hnever', -⟩
    · obtain rfl := hleft.unique hleft'
      refine .inl ⟨i, hleft, ?_, ?_⟩
      · rw [hrun, if_pos rfl]
        split <;> rfl
      · rw [hrun']
        cases discard <;> rfl
    · exact absurd hleft.occurs (hnever' i)
  · rcases run_longBracket (!discard) (Exec.get >>= fun l' =>
        failAt .unterminatedComment (skipping.pos - 2) l'.line) pure hskipping with
      ⟨j, hleft', -⟩ | ⟨-, hrun'⟩
    · exact absurd hleft'.occurs (hnever j)
    · exact .inr ⟨hnever, hrun, hrun'⟩

end Proveno.Lexer
