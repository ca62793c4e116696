import Mathlib.Data.List.TakeWhile
import Proveno.Vm.Composed
import Proveno.Vm.JsonBuilding

/-! `json.decode` and `json.decode_strings` on the same text. What one of them reads is a
document, and either builds its value whose numbers it can read. -/

namespace Proveno.Vm.Json

section Numbers

variable {text after s : Bytes}

theorem splitSign_eq (s : Bytes) : ∃ sign rest, splitSign s = (sign, rest) ∧ s = sign ++ rest ∧
    (sign = [] ∨ sign = [45]) := by
  unfold splitSign
  split_ifs with h
  · obtain ⟨s', rfl⟩ : ∃ s', s = 45 :: s' := by
      cases s with
      | nil => cases h
      | cons b s' => exact ⟨s', by rw [Option.some.inj h]⟩
    exact ⟨_, _, rfl, rfl, .inr rfl⟩
  · exact ⟨_, _, rfl, rfl, .inl rfl⟩

theorem splitSign_run {sign rest : Bytes} (hsign : sign = [] ∨ sign = [45])
    (hrest : ∃ b r, rest = b :: r ∧ isDigit b = true) :
    splitSign (sign ++ rest) = (sign, rest) := by
  obtain ⟨b, r, rfl, hb⟩ := hrest
  rcases hsign with rfl | rfl
  · have hne : (b :: r).head? ≠ some 45 := by
      rintro h
      rw [Option.some.inj h] at hb
      exact absurd hb (by decide)
    rw [List.nil_append, splitSign, if_neg hne]
  · rfl

theorem requireDigits_run {missing : String} {read ds : Bytes} (h : DigitRun ds after) :
    requireDigits missing read (ds ++ after) = .ok (read ++ ds, after) := by
  obtain ⟨htake, hdrop⟩ := takeWhile_run h.2.1 h.2.2
  rw [requireDigits, htake, hdrop, if_neg h.1]

theorem requireDigits_ok {missing : String} {read read' : Bytes}
    (h : requireDigits missing read s = .ok (read', after)) :
    ∃ ds, read' = read ++ ds ∧ s = ds ++ after ∧ DigitRun ds after := by
  unfold requireDigits at h
  dsimp only at h
  split_ifs at h with hne
  obtain ⟨rfl, rfl⟩ := Prod.ext_iff.mp (Except.ok.inj h)
  refine ⟨_, rfl, (List.takeWhile_append_dropWhile).symm, hne, fun b hb => ?_, fun b hb => ?_⟩
  · exact List.mem_takeWhile_imp hb
  · have hstop := List.head?_dropWhile_not isDigit s
    rw [show (s.dropWhile isDigit).head? = some b from hb] at hstop
    simpa using hstop

theorem fractionText_run {read fraction : Bytes} (h : Fraction fraction after) :
    fractionText read (fraction ++ after) = .ok (read ++ fraction, after) := by
  cases h with
  | absent hhead => rw [List.nil_append, fractionText, if_neg hhead, List.append_nil]
  | @present ds _ hds =>
    rw [List.cons_append, fractionText, if_pos (by rfl), List.tail_cons, requireDigits_run hds,
      List.append_assoc]
    rfl

theorem fractionText_ok {read read' : Bytes} (h : fractionText read s = .ok (read', after)) :
    ∃ fraction, read' = read ++ fraction ∧ s = fraction ++ after ∧ Fraction fraction after := by
  unfold fractionText at h
  split_ifs at h with hhead
  · obtain ⟨ds, rfl, hs, hds⟩ := requireDigits_ok h
    cases s with
    | nil => cases hhead
    | cons b s =>
      rw [List.tail_cons] at hs
      rw [Option.some.inj hhead, hs]
      exact ⟨46 :: ds, by rw [List.append_assoc]; rfl, rfl, .present hds⟩
  · obtain ⟨rfl, rfl⟩ := Prod.ext_iff.mp (Except.ok.inj h)
    exact ⟨[], (List.append_nil _).symm, rfl, .absent hhead⟩

theorem exponentText_run {read exponent : Bytes} (h : Exponent exponent after) :
    exponentText read (exponent ++ after) = .ok (read ++ exponent, after) := by
  cases h with
  | absent hlower hupper =>
    rw [List.nil_append, List.append_nil]
    cases after with
    | nil => rfl
    | cons b after =>
      unfold exponentText
      dsimp only
      rw [if_neg]
      rintro (rfl | rfl)
      · exact hlower rfl
      · exact hupper rfl
  | @present e sign ds _ he hsign hds =>
    obtain ⟨d, ds', hhead, hdigit⟩ := hds.head
    have hnot : ¬(d = 43 ∨ d = 45) := by
      rintro (rfl | rfl)
      · exact absurd hdigit (by decide)
      · exact absurd hdigit (by decide)
    rw [List.cons_append, List.append_assoc]
    unfold exponentText
    dsimp only
    rw [if_pos he]
    rcases hsign with rfl | rfl | rfl
    · rw [List.nil_append, List.nil_append, hhead]
      dsimp only
      rw [if_neg hnot, ← hhead, requireDigits_run hds, List.append_assoc]
      rfl
    · rw [List.singleton_append]
      dsimp only
      rw [if_pos (.inl rfl), requireDigits_run hds, List.append_assoc]
      rfl
    · rw [List.singleton_append]
      dsimp only
      rw [if_pos (.inr rfl), requireDigits_run hds, List.append_assoc]
      rfl

theorem exponentText_ok {read read' : Bytes} (h : exponentText read s = .ok (read', after)) :
    ∃ exponent, read' = read ++ exponent ∧ s = exponent ++ after ∧ Exponent exponent after := by
  cases s with
  | nil =>
    obtain ⟨rfl, rfl⟩ := Prod.ext_iff.mp (Except.ok.inj h)
    exact ⟨[], (List.append_nil _).symm, rfl, .absent nofun nofun⟩
  | cons e rest =>
    unfold exponentText at h
    dsimp only at h
    split_ifs at h with he
    · cases rest with
      | nil =>
        obtain ⟨ds, rfl, hs, hds⟩ := requireDigits_ok h
        exact absurd (List.append_eq_nil_iff.mp hs.symm).1 hds.1
      | cons sign rest =>
        dsimp only at h
        split_ifs at h with hsign
        · obtain ⟨ds, rfl, rfl, hds⟩ := requireDigits_ok h
          refine ⟨e :: ([sign] ++ ds), by simp, rfl, .present he ?_ hds⟩
          rcases hsign with rfl | rfl <;> simp
        · obtain ⟨ds, rfl, hs, hds⟩ := requireDigits_ok h
          rw [hs]
          exact ⟨e :: ([] ++ ds), by simp, rfl, .present he (.inl rfl) hds⟩
    · obtain ⟨rfl, rfl⟩ := Prod.ext_iff.mp (Except.ok.inj h)
      refine ⟨[], (List.append_nil _).symm, rfl, .absent ?_ ?_⟩
      · exact fun heq => he (.inl (Option.some.inj heq))
      · exact fun heq => he (.inr (Option.some.inj heq))

theorem numberText_run (h : NumberAt text after) : numberText (text ++ after) = .ok (text, after) := by
  obtain ⟨hsign, hwhole, hfraction, hexponent⟩ := h
  simp only [List.append_assoc]
  rw [numberText, splitSign_run hsign hwhole.head]
  dsimp only [bind, Except.bind]
  rw [requireDigits_run hwhole]
  dsimp only
  rw [fractionText_run hfraction]
  dsimp only
  rw [exponentText_run hexponent]
  simp only [List.append_assoc]

theorem numberText_ok (h : numberText s = .ok (text, after)) :
    s = text ++ after ∧ NumberAt text after := by
  obtain ⟨sign, rest, hsplit, rfl, hsign⟩ := splitSign_eq s
  rw [numberText, hsplit] at h
  dsimp only [bind, Except.bind] at h
  cases hwhole : requireDigits "integer part" sign rest with
  | error e => rw [hwhole] at h; cases h
  | ok r =>
    rw [hwhole] at h
    dsimp only at h
    cases hfraction : fractionText r.1 r.2 with
    | error e => rw [hfraction] at h; cases h
    | ok r' =>
      rw [hfraction] at h
      obtain ⟨whole, hread, rfl, hrun⟩ := requireDigits_ok hwhole
      obtain ⟨fraction, hread', hrest, hfraction⟩ := fractionText_ok hfraction
      obtain ⟨exponent, rfl, hrest', hexponent⟩ := exponentText_ok h
      rw [hread', hread, hrest, hrest']
      rw [hrest, hrest'] at hrun
      rw [hrest'] at hfraction
      refine ⟨by simp only [List.append_assoc], ?_⟩
      simp only [List.append_assoc]
      exact .intro hsign hrun hfraction hexponent

/-- An integer literal is a sign and digits. -/
theorem integer_parts {sign whole fraction exponent : Bytes} (hsign : sign = [] ∨ sign = [45])
    (hwhole : DigitRun whole (fraction ++ (exponent ++ after))) {n : Int64}
    (hn : parseI64 (sign ++ (whole ++ (fraction ++ exponent))) = some n) :
    Digits (whole ++ (fraction ++ exponent)) := by
  have hdigits {ds : Bytes} {m : Option Int64} {f : Nat → Option Int64}
      (h : (parseDigits ds).bind f = m) (hm : m = some n) : Digits ds := by
    unfold parseDigits at h
    split_ifs at h with hall
    · exact List.all_eq_true.mp hall.2
    · rw [hm] at h
      cases h
  rcases hsign with rfl | rfl
  · obtain ⟨b, r, rfl⟩ := List.exists_cons_of_ne_nil hwhole.1
    have hb := hwhole.2.1 b (List.mem_cons_self ..)
    have hne (sign : UInt8) (hsign : isDigit sign = false) : some b ≠ some sign := by
      rintro heq
      rw [Option.some.inj heq, hsign] at hb
      cases hb
    have hhead (x : Bytes) : (b :: r ++ x).head? = some b := rfl
    unfold parseI64 at hn
    rw [List.nil_append, hhead, if_neg (hne 45 (by decide)), if_neg (hne 43 (by decide))] at hn
    exact hdigits rfl hn
  · rw [List.singleton_append, parseI64, if_pos (by rfl), List.tail_cons] at hn
    exact hdigits rfl hn

theorem parseNumber_run {mode : NumberMode} (h : NumberAt text after)
    (hadmits : (Doc.number text).Admits mode) :
    parseNumber mode (text ++ after) =
      (Doc.number text).build mode >>= fun v => pure (v, after) := by
  cases mode with
  | verbatim =>
    rw [parseNumber, parseNumberAsString, numberText_run h, Doc.build]
    dsimp only
    rw [Exec.bind_assoc]
    rfl
  | integer =>
    obtain ⟨n, hn⟩ := hadmits
    have hbuild : (Doc.number text).build .integer = pure (.integer n) := by
      rw [Doc.build]
      simp only [hn]
    rw [hbuild]
    obtain ⟨hsign, hwhole, hfraction, hexponent⟩ := h
    have hdigits := integer_parts hsign hwhole hn
    cases hfraction with
    | present => exact absurd (hdigits 46 (by simp)) (by decide)
    | absent hdot =>
      cases hexponent with
      | @present e _ _ _ he =>
        have he' : isDigit e = false := by rcases he with rfl | rfl <;> decide
        exact absurd (hdigits e (by simp)) (by simp [he'])
      | absent hlower hupper =>
        simp only [List.append_nil, List.nil_append] at hn hwhole ⊢
        obtain ⟨htake, hdrop⟩ := takeWhile_run hwhole.2.1 hwhole.2.2
        have hend : ¬(after.head? = some 46 ∨ after.head? = some 101 ∨ after.head? = some 69) :=
          not_or.mpr ⟨hdot, not_or.mpr ⟨hlower, hupper⟩⟩
        rw [List.append_assoc, parseNumber, parseNumberAsInteger,
          splitSign_run hsign hwhole.head]
        dsimp only
        rw [htake, hdrop, if_neg hend, hn]
        rfl

theorem numberAt_of_yields {mode : NumberMode} {v : LuaValue}
    (h : (parseNumber mode s).Yields (v, after)) :
    ∃ text, s = text ++ after ∧ NumberAt text after ∧ (Doc.number text).Admits mode := by
  cases mode with
  | verbatim =>
    obtain ⟨⟨text, rest⟩, hread, h⟩ := h.of_bind
    obtain ⟨_, -, h⟩ := h.of_bind
    obtain ⟨-, rfl⟩ := Prod.ext_iff.mp h.of_pure
    obtain ⟨rfl, hnumber⟩ := numberText_ok (yields_liftError hread)
    exact ⟨text, rfl, hnumber, trivial⟩
  | integer =>
    obtain ⟨sign, rest, hsplit, rfl, hsign⟩ := splitSign_eq s
    rw [parseNumber, parseNumberAsInteger, hsplit] at h
    dsimp only at h
    split_ifs at h with hend
    · exact (not_yields_raise h).elim
    cases hn : parseI64 (sign ++ rest.takeWhile isDigit) with
    | none =>
      rw [hn] at h
      exact (not_yields_raise h).elim
    | some n =>
      rw [hn] at h
      obtain ⟨-, rfl⟩ := Prod.ext_iff.mp h.of_pure
      obtain ⟨hdot, hexp⟩ := not_or.mp hend
      obtain ⟨hlower, hupper⟩ := not_or.mp hexp
      have hne : rest.takeWhile isDigit ≠ [] := by
        intro hnil
        rw [hnil] at hn
        rcases hsign with rfl | rfl <;> cases hn
      have hrun : DigitRun (rest.takeWhile isDigit) (rest.dropWhile isDigit) := by
        refine ⟨hne, fun b hb => List.mem_takeWhile_imp hb, fun b hb => ?_⟩
        have hstop := List.head?_dropWhile_not isDigit rest
        rw [hb] at hstop
        simpa using hstop
      refine ⟨sign ++ rest.takeWhile isDigit, ?_, ?_, n, hn⟩
      · rw [List.append_assoc, List.takeWhile_append_dropWhile]
      · have hnumber := NumberAt.intro hsign hrun (.absent hdot) (.absent hlower hupper)
        rwa [List.append_nil, List.append_nil] at hnumber

end Numbers

section Steps

variable {total : Nat} {s after : Bytes}

theorem expect_of_yields {b : UInt8} (h : (expect total b s).Yields after) : s = b :: after := by
  unfold expect at h
  split_ifs at h with hhead
  · cases s with
    | nil => cases hhead
    | cons c s => rw [Option.some.inj hhead, ← h.of_pure]; rfl
  · exact (not_yields_raise h).elim

theorem parseString_of_yields {text : Bytes} (h : (parseString total s).Yields (text, after)) :
    ∃ body, s = 34 :: body ∧ stringBody [] body = .ok (text, after) := by
  obtain ⟨body, hquote, h⟩ := h.of_bind
  obtain ⟨⟨_, _⟩, hbody, h⟩ := h.of_bind
  obtain ⟨_, -, h⟩ := h.of_bind
  obtain ⟨rfl, rfl⟩ := Prod.ext_iff.mp h.of_pure
  refine ⟨body, expect_of_yields hquote, yields_liftError hbody⟩

theorem parseString_run {body text : Bytes} (h : stringBody [] body = .ok (text, after)) :
    parseString total (34 :: body) =
      trackAlloc (AllocSize.string text.length) >>= fun _ => pure (text, after) := by
  have hquote : expect total 34 (34 :: body) = pure body := rfl
  rw [parseString, hquote, Exec.pure_bind, h]
  rfl

/-- What the loop over the elements does after it stored one. -/
def afterElement (mode : NumberMode) (total fuel depth : Nat) (t : TableRef) (idx : Nat)
    (after : Bytes) : Vm (LuaValue × Bytes) :=
  if (skipWs after).head? = some 44 then
    parseArray mode total fuel depth t (idx + 1) (skipWs after).tail
  else if (skipWs after).head? = some 93 then pure (.table t, (skipWs after).tail)
  else jsonErr "json.decode: expected ',' or ']' in array"

/-- What the loop over the members does after it stored one. -/
def afterMember (mode : NumberMode) (total fuel depth : Nat) (t : TableRef) (after : Bytes) :
    Vm (LuaValue × Bytes) :=
  if (skipWs after).head? = some 44 then
    parseObject mode total fuel depth t (skipWs after).tail
  else if (skipWs after).head? = some 125 then pure (.table t, (skipWs after).tail)
  else jsonErr "json.decode: expected ',' or '\x7d' in object"

theorem parseArray_step (mode : NumberMode) (fuel depth : Nat) (t : TableRef) (idx : Nat) :
    parseArray mode total (fuel + 1) depth t idx s =
      parseValue mode total fuel depth s >>= fun r =>
        rawsetCharged t (LuaTable.arrayKey idx) r.1 >>= fun _ =>
          afterElement mode total fuel depth t idx r.2 := by
  rw [parseArray]
  rfl

theorem parseObject_step (mode : NumberMode) (fuel depth : Nat) (t : TableRef) :
    parseObject mode total (fuel + 1) depth t s =
      parseString total (skipWs s) >>= fun k => expect total 58 (skipWs k.2) >>= fun value =>
        parseValue mode total fuel depth value >>= fun r =>
          rawsetCharged t (.string k.1) r.1 >>= fun _ =>
            afterMember mode total fuel depth t r.2 := by
  rw [parseObject]
  rfl

end Steps

section Simulation

variable {total : Nat}

/-- The parser reads the document in any mode in which its numbers can be read. -/
def ReadsValue (total fuel depth : Nat) (s : Bytes) (doc : Doc) (rest : Bytes) : Prop :=
  ∀ mode, doc.Admits mode →
    parseValue mode total fuel depth s = doc.build mode >>= fun v => pure (v, rest)

def ReadsArray (total fuel depth idx : Nat) (s : Bytes) (entries : Entries) (rest : Bytes) : Prop :=
  ∀ mode t, entries.Admits mode →
    parseArray mode total fuel depth t idx s =
      entries.fill mode t >>= fun _ => pure (.table t, rest)

def ReadsObject (total fuel depth : Nat) (s : Bytes) (entries : Entries) (rest : Bytes) : Prop :=
  ∀ mode t, entries.Admits mode →
    parseObject mode total fuel depth t s =
      entries.fill mode t >>= fun _ => pure (.table t, rest)

theorem fill_then {α : Type} {mode : NumberMode} {t : TableRef} {key : LuaKey} {doc : Doc}
    {rest : Entries} (f : Unit → Vm α) :
    (Entries.cons key doc rest).fill mode t >>= f = payKey key >>= fun _ =>
      doc.build mode >>= fun v => rawsetCharged t key v >>= fun _ => rest.fill mode t >>= f := by
  rw [Entries.fill]
  simp only [Exec.bind_assoc]

/-- What an element is read with, given what is read after it. -/
theorem readsArray_cons {fuel depth idx : Nat} {s after rest : Bytes} {doc : Doc}
    {entries : Entries} (hdoc : ReadsValue total fuel depth s doc after)
    (hafter : ∀ mode t, entries.Admits mode →
      afterElement mode total fuel depth t idx after =
        entries.fill mode t >>= fun _ => pure (.table t, rest)) :
    ReadsArray total (fuel + 1) depth idx s (.cons (LuaTable.arrayKey idx) doc entries) rest := by
  intro mode t hadmits
  rw [parseArray_step, hdoc mode hadmits.1, fill_then, Exec.bind_assoc]
  simp only [Exec.pure_bind, hafter mode t hadmits.2]
  rfl

theorem readsObject_cons {fuel depth : Nat} {s key value after rest : Bytes} {doc : Doc}
    {entries : Entries} (hkey : KeyAt s key value) (hdoc : ReadsValue total fuel depth value doc after)
    (hafter : ∀ mode t, entries.Admits mode →
      afterMember mode total fuel depth t after =
        entries.fill mode t >>= fun _ => pure (.table t, rest)) :
    ReadsObject total (fuel + 1) depth s (.cons (.string key) doc entries) rest := by
  intro mode t hadmits
  obtain ⟨body, afterKey, hs, hbody, hcolon⟩ := hkey
  have hexpect : expect total 58 (58 :: value) = pure value := rfl
  rw [parseObject_step, hs, parseString_run hbody, Exec.bind_assoc, fill_then]
  simp only [Exec.pure_bind, hcolon, hexpect, hdoc mode hadmits.1, Exec.bind_assoc,
    hafter mode t hadmits.2]
  rfl

/-- What has been read when a literal has. -/
theorem expectLit_of_yields {literal s rest : Bytes} {v w : LuaValue}
    (h : (expectLit total literal v s).Yields (w, rest)) :
    s = literal ++ rest ∧ expectLit total literal v s = pure (v, rest) := by
  unfold expectLit at h ⊢
  split_ifs at h with hprefix
  · obtain ⟨more, rfl⟩ := List.isPrefixOf_iff_prefix.mp hprefix
    obtain ⟨-, hrest⟩ := Prod.ext_iff.mp h.of_pure
    obtain rfl : more = rest := by simpa using hrest
    exact ⟨rfl, by rw [if_pos hprefix]; simp⟩
  · exact (not_yields_raise h).elim

/-- A run of the loops with so much fuel reads entries. -/
structure LoopsRead (total fuel : Nat) : Prop where
  array : ∀ mode depth t idx s v rest,
    (parseArray mode total fuel depth t idx s).Yields (v, rest) →
      ∃ entries, DenotesElements idx s entries rest ∧ entries.Admits mode ∧
        ReadsArray total fuel depth idx s entries rest
  object : ∀ mode depth t s v rest,
    (parseObject mode total fuel depth t s).Yields (v, rest) →
      ∃ entries, DenotesMembers s entries rest ∧ entries.Admits mode ∧
        ReadsObject total fuel depth s entries rest

theorem readsValue_scalar {fuel depth : Nat} {s rest : Bytes} {doc : Doc} {v : LuaValue}
    (hbuild : ∀ mode, doc.build mode = pure v)
    (h : ∀ mode, parseValue mode total fuel depth s = pure (v, rest)) :
    ReadsValue total fuel depth s doc rest := by
  intro mode _
  rw [h mode, hbuild mode]
  rfl

/-- A table, of which the opening bracket has been read. -/
theorem parseValue_table {fuel depth : Nat} {s body rest : Bytes} {close : UInt8}
    (loop : NumberMode → TableRef → Vm (LuaValue × Bytes))
    (hvalue : ∀ m, parseValue m total fuel depth s = newTable >>= fun t =>
      if (skipWs body).head? = some close then pure (.table t, (skipWs body).tail) else loop m t)
    (hempty : ∀ rest, skipWs body = close :: rest → Denotes s (.table .nil) rest)
    (hloop : (skipWs body).head? ≠ some close → ∀ m t v rest, (loop m t).Yields (v, rest) →
      ∃ entries, Denotes s (.table entries) rest ∧ entries.Admits m ∧ ∀ m' t', entries.Admits m' →
        loop m' t' = entries.fill m' t' >>= fun _ => pure (.table t', rest))
    {mode : NumberMode} {v : LuaValue} (h : (parseValue mode total fuel depth s).Yields (v, rest)) :
    ∃ doc, Denotes s doc rest ∧ doc.Admits mode ∧ ReadsValue total fuel depth s doc rest := by
  rw [hvalue] at h
  obtain ⟨t, -, h⟩ := h.of_bind
  split_ifs at h with hclose
  · obtain ⟨more, hmore⟩ : ∃ more, skipWs body = close :: more := by
      cases hbody : skipWs body with
      | nil => rw [hbody] at hclose; cases hclose
      | cons b more => rw [hbody] at hclose; exact ⟨more, by rw [Option.some.inj hclose]⟩
    rw [hmore] at h
    obtain ⟨-, rfl⟩ := Prod.ext_iff.mp h.of_pure
    refine ⟨.table .nil, hempty _ hmore, trivial, fun m _ => ?_⟩
    rw [hvalue, Doc.build, Exec.bind_assoc]
    simp only [hmore, List.head?_cons, ↓reduceIte]
    rfl
  · obtain ⟨entries, hentries, hadmits, hreads⟩ := hloop hclose _ _ _ _ h
    refine ⟨.table entries, hentries, hadmits, fun m hm => ?_⟩
    rw [hvalue, Doc.build, Exec.bind_assoc]
    simp only [if_neg hclose, hreads m _ hm, Exec.bind_assoc]
    rfl

theorem parseValue_literal {fuel depth : Nat} {s s' rest : Bytes} {doc : Doc} {w : LuaValue}
    {literal : Bytes} (hvalue : ∀ m, parseValue m total fuel depth s = expectLit total literal w s')
    (hdoc : ∀ rest, s' = literal ++ rest → Denotes s doc rest) (hadmits : ∀ m, doc.Admits m)
    (hbuild : ∀ m, doc.build m = pure w) {mode : NumberMode} {v : LuaValue}
    (h : (parseValue mode total fuel depth s).Yields (v, rest)) :
    ∃ doc, Denotes s doc rest ∧ doc.Admits mode ∧ ReadsValue total fuel depth s doc rest := by
  rw [hvalue] at h
  obtain ⟨hs', hrun⟩ := expectLit_of_yields h
  refine ⟨doc, hdoc rest hs', hadmits mode, fun m _ => ?_⟩
  rw [hvalue, hrun, hbuild]
  rfl

theorem parseValue_document {fuel : Nat} (hloops : LoopsRead total fuel) {mode : NumberMode}
    {depth : Nat} {s rest : Bytes} {v : LuaValue}
    (h : (parseValue mode total (fuel + 1) depth s).Yields (v, rest)) :
    ∃ doc, Denotes s doc rest ∧ doc.Admits mode ∧ ReadsValue total (fuel + 1) depth s doc rest := by
  by_cases hdepth : depth > maxTableDepth
  · rw [parseValue, if_pos hdepth] at h
    exact (not_yields_raise h).elim
  cases hs : skipWs s with
  | nil =>
    rw [parseValue, if_neg hdepth, hs] at h
    exact (not_yields_raise h).elim
  | cons b body =>
    by_cases hquote : b = 34
    · subst hquote
      have hvalue (m : NumberMode) : parseValue m total (fuel + 1) depth s =
          parseString total (34 :: body) >>= fun r => pure (.string r.1, r.2) := by
        rw [parseValue, if_neg hdepth, hs]
        rfl
      rw [hvalue] at h
      obtain ⟨⟨text, after⟩, hstring, h⟩ := h.of_bind
      obtain ⟨-, rfl⟩ := Prod.ext_iff.mp h.of_pure
      obtain ⟨body', hcons, hbody⟩ := parseString_of_yields hstring
      obtain ⟨-, rfl⟩ := List.cons.inj hcons
      refine ⟨.string text, .string hs hbody, trivial, fun m _ => ?_⟩
      rw [hvalue, parseString_run hbody, Doc.build, Exec.bind_assoc, Exec.bind_assoc]
      rfl
    by_cases hbrace : b = 123
    · subst hbrace
      refine parseValue_table (fun m t => parseObject m total fuel (depth + 1) t (skipWs body))
        (fun m => ?_) (fun rest hclose => .emptyObject hs hclose)
        (fun hopen m t v rest hloop => ?_) h
      · rw [parseValue, if_neg hdepth, hs]
        rfl
      · obtain ⟨entries, hentries, hadmits, hreads⟩ := hloops.object _ _ _ _ _ _ hloop
        exact ⟨entries, .object hs hopen hentries, hadmits, hreads⟩
    by_cases hbracket : b = 91
    · subst hbracket
      refine parseValue_table (fun m t => parseArray m total fuel (depth + 1) t 1 (skipWs body))
        (fun m => ?_) (fun rest hclose => .emptyArray hs hclose)
        (fun hopen m t v rest hloop => ?_) h
      · rw [parseValue, if_neg hdepth, hs]
        rfl
      · obtain ⟨entries, hentries, hadmits, hreads⟩ := hloops.array _ _ _ _ _ _ _ hloop
        exact ⟨entries, .array hs hopen hentries, hadmits, hreads⟩
    by_cases htrue : b = 116
    · subst htrue
      refine parseValue_literal (fun m => ?_) (fun rest h => .boolean true (hs.trans h))
        (fun _ => trivial) (fun _ => rfl) h
      rw [parseValue, if_neg hdepth, hs]
      rfl
    by_cases hfalse : b = 102
    · subst hfalse
      refine parseValue_literal (fun m => ?_) (fun rest h => .boolean false (hs.trans h))
        (fun _ => trivial) (fun _ => rfl) h
      rw [parseValue, if_neg hdepth, hs]
      rfl
    by_cases hnull : b = 110
    · subst hnull
      refine parseValue_literal (fun m => ?_) (fun rest h => .null (hs.trans h))
        (fun _ => trivial) (fun _ => rfl) h
      rw [parseValue, if_neg hdepth, hs]
      rfl
    have hvalue (m : NumberMode) : parseValue m total (fuel + 1) depth s =
        if b = 45 ∨ isDigit b then parseNumber m (b :: body)
        else positionErr total (ascii "json.decode: unexpected character '" ++ byteChar b ++
          ascii "'") (b :: body) := by
      rw [parseValue, if_neg hdepth, hs]
      dsimp only
      rw [if_neg hquote, if_neg hbrace, if_neg hbracket, if_neg htrue, if_neg hfalse, if_neg hnull]
    by_cases hnumber : b = 45 ∨ isDigit b
    · rw [hvalue, if_pos hnumber] at h
      obtain ⟨text, htext, hat, hadmits⟩ := numberAt_of_yields h
      refine ⟨.number text, .number (hs.trans htext) hat, hadmits, fun m hm => ?_⟩
      rw [hvalue, if_pos hnumber, htext]
      exact parseNumber_run hat hm
    · rw [hvalue, if_neg hnumber] at h
      exact (not_yields_raise h).elim

/-- What ends or goes on after an entry. -/
theorem cons_of_head {s : Bytes} {b : UInt8} (h : s.head? = some b) : s = b :: s.tail := by
  cases s with
  | nil => cases h
  | cons c s => rw [Option.some.inj h]; rfl

theorem loops_read (total fuel : Nat) : LoopsRead total fuel ∧
    ∀ mode depth s v rest, (parseValue mode total fuel depth s).Yields (v, rest) →
      ∃ doc, Denotes s doc rest ∧ doc.Admits mode ∧ ReadsValue total fuel depth s doc rest := by
  induction fuel with
  | zero =>
    refine ⟨⟨fun _ _ _ _ _ _ _ h => ?_, fun _ _ _ _ _ _ h => ?_⟩, fun _ _ _ _ _ h => ?_⟩
    · rw [parseArray] at h
      exact (Exec.not_yields_throw h).elim
    · rw [parseObject] at h
      exact (Exec.not_yields_throw h).elim
    · rw [parseValue] at h
      exact (Exec.not_yields_throw h).elim
  | succ fuel ih =>
    obtain ⟨hloops, hvalues⟩ := ih
    refine ⟨⟨fun mode depth t idx s v rest h => ?_, fun mode depth t s v rest h => ?_⟩,
      fun mode depth s v rest h => parseValue_document hloops h⟩
    · rw [parseArray_step] at h
      obtain ⟨⟨w, after⟩, hvalue, h⟩ := h.of_bind
      obtain ⟨_, -, h⟩ := h.of_bind
      obtain ⟨doc, hdoc, hadmits, hreads⟩ := hvalues _ _ _ _ _ hvalue
      unfold afterElement at h
      split_ifs at h with hcomma hclose
      · obtain ⟨entries, hentries, hadmits', hreads'⟩ := hloops.array _ _ _ _ _ _ _ h
        refine ⟨_, .next hdoc (cons_of_head hcomma) hentries, ⟨hadmits, hadmits'⟩,
          readsArray_cons hreads fun m t hm => ?_⟩
        rw [afterElement, if_pos hcomma]
        exact hreads' m t hm
      · obtain ⟨-, rfl⟩ := Prod.ext_iff.mp h.of_pure
        refine ⟨_, .last hdoc (cons_of_head hclose), ⟨hadmits, trivial⟩,
          readsArray_cons hreads fun m t hm => ?_⟩
        rw [afterElement, if_neg hcomma, if_pos hclose]
        rfl
      · exact (not_yields_raise h).elim
    · rw [parseObject_step] at h
      obtain ⟨⟨key, afterKey⟩, hkey, h⟩ := h.of_bind
      obtain ⟨value, hcolon, h⟩ := h.of_bind
      obtain ⟨⟨w, after⟩, hvalue, h⟩ := h.of_bind
      obtain ⟨_, -, h⟩ := h.of_bind
      obtain ⟨doc, hdoc, hadmits, hreads⟩ := hvalues _ _ _ _ _ hvalue
      obtain ⟨body, hs, hbody⟩ := parseString_of_yields hkey
      have hkeyAt : KeyAt s key value := ⟨body, afterKey, hs, hbody, expect_of_yields hcolon⟩
      unfold afterMember at h
      split_ifs at h with hcomma hclose
      · obtain ⟨entries, hentries, hadmits', hreads'⟩ := hloops.object _ _ _ _ _ _ h
        refine ⟨_, .next hkeyAt hdoc (cons_of_head hcomma) hentries, ⟨hadmits, hadmits'⟩,
          readsObject_cons hkeyAt hreads fun m t hm => ?_⟩
        rw [afterMember, if_pos hcomma]
        exact hreads' m t hm
      · obtain ⟨-, rfl⟩ := Prod.ext_iff.mp h.of_pure
        refine ⟨_, .last hkeyAt hdoc (cons_of_head hclose), ⟨hadmits, trivial⟩,
          readsObject_cons hkeyAt hreads fun m t hm => ?_⟩
        rw [afterMember, if_neg hcomma, if_pos hclose]
        rfl
      · exact (not_yields_raise h).elim

end Simulation

section Decoders

/-- The values of a document with its numbers as integers and as texts: the tables of both
have the shape of the document's. -/
inductive Corresponds (h h' : Heap) : Doc → LuaValue → LuaValue → Prop
  | null : Corresponds h h' .null .nil .nil
  | boolean (b : Bool) : Corresponds h h' (.boolean b) (.boolean b) (.boolean b)
  | string (text : Bytes) : Corresponds h h' (.string text) (.string text) (.string text)
  | number {text : Bytes} {n : Int64} (hn : parseI64 text = some n) :
      Corresponds h h' (.number text) (.integer n) (.string text)
  | table {entries : Entries} {r r' : TableRef}
      (hshape : (entries.docs.map fun _ => ()) = (h.table r).map fun _ => ())
      (hshape' : (entries.docs.map fun _ => ()) = (h'.table r').map fun _ => ())
      (hvalues : ∀ key doc v v', entries.docs.get key = some doc → (h.table r).get key = some v →
        (h'.table r').get key = some v' → Corresponds h h' doc v v') :
      Corresponds h h' (.table entries) (.table r) (.table r')

theorem Represents.corresponds {h h' : Heap} {lo lo' : Nat} {doc : Doc} {v v' : LuaValue}
    (hr : Represents .integer h lo doc v) (hr' : Represents .verbatim h' lo' doc v') :
    Corresponds h h' doc v v' := by
  induction hr generalizing v' with
  | null =>
    cases hr'
    exact .null
  | boolean b =>
    cases hr'
    exact .boolean b
  | string text =>
    cases hr'
    exact .string text
  | integer _ hn =>
    cases hr' with
    | integer hmode => cases hmode
    | verbatim => exact .number hn
  | verbatim _ hmode => cases hmode
  | table _ _ hshape _ ih =>
    cases hr' with
    | table _ _ hshape' hvalues' =>
      exact .table hshape hshape' fun key doc v v' hdoc hv hv' =>
        ih key doc v hdoc hv (hvalues' key doc v' hdoc hv')

variable {input : Bytes} {mode : NumberMode} {fname : String}

/-- A text that is decoded is a document, whose value either decoder builds. -/
theorem decode_reads {vs : List LuaValue}
    (h : (jsonDecodeWith mode fname [.string input]).Yields vs) :
    ∃ doc, IsDocument input doc ∧ doc.Admits mode ∧ ∀ m fname, doc.Admits m →
      jsonDecodeWith m fname [.string input] =
        charge input.length >>= fun _ => doc.build m >>= fun v => pure [v] := by
  have hstart (m : NumberMode) (fname : String) : jsonDecodeWith m fname [.string input] =
      charge input.length >>= fun _ =>
        parseValue m input.length (fuelFor input) 0 input >>= fun r =>
          if skipWs r.2 ≠ [] then
            positionErr input.length (ascii fname ++ ascii ": trailing characters") (skipWs r.2)
          else pure [r.1] := rfl
  rw [hstart] at h
  obtain ⟨_, -, h⟩ := h.of_bind
  obtain ⟨⟨v, rest⟩, hvalue, h⟩ := h.of_bind
  obtain ⟨doc, hdoc, hadmits, hreads⟩ := (loops_read input.length _).2 _ _ _ _ _ hvalue
  dsimp only at h
  split_ifs at h with hrest
  · exact (not_yields_raise h).elim
  · rw [not_not] at hrest
    refine ⟨doc, ⟨rest, hdoc, hrest⟩, hadmits, fun m fname hm => ?_⟩
    rw [hstart, hreads m hm]
    simp only [Exec.bind_assoc, Exec.pure_bind, hrest, ne_eq, not_true_eq_false, ↓reduceIte]

/-- One decoder has succeeded, and the other can read the numbers and has the memory. -/
theorem decode_also {c c₁ : Core} {vs : List LuaValue} {doc : Doc} {m : NumberMode}
    (hrun : (jsonDecodeWith mode fname [.string input]).run c = (.ok vs, c₁))
    (hdoc : IsDocument input doc) (hm : doc.Admits m) (fname' : String)
    (hmem : c.mem.allocated + doc.cost m ≤ c.mem.limit) :
    ∃ v v' c₂, vs = [v] ∧ (jsonDecodeWith m fname' [.string input]).run c = (.ok [v'], c₂) ∧
      Represents mode c₁.heap c.heap.tables.length doc v ∧
      Represents m c₂.heap c.heap.tables.length doc v' := by
  obtain ⟨doc', hdoc', hadmits, hbuild⟩ := decode_reads ⟨c, congrArg Prod.fst hrun⟩
  obtain rfl := hdoc.unique hdoc'
  rw [hbuild mode fname hadmits] at hrun
  rw [hbuild m fname' hm]
  obtain ⟨_, paid, hcharge, hrun⟩ := Exec.run_bind_eq_ok.mp hrun
  obtain ⟨v, c', hv, hrun⟩ := Exec.run_bind_eq_ok.mp hrun
  cases hrun
  have hpaid : paid.mem = c.mem ∧ paid.heap = c.heap := by
    rw [run_charge] at hcharge
    split_ifs at hcharge
    · cases hcharge
    · rw [← (Prod.mk.inj hcharge).2]
      exact ⟨rfl, rfl⟩
  have hbuilt := build_meets doc hadmits paid
  rw [Meets, hv] at hbuilt
  obtain ⟨hfits, -, hr⟩ := hbuilt
  have hother := build_meets doc hm paid
  rw [Exec.run_bind_ok hcharge]
  rcases hv' : (doc.build m).run paid with ⟨e | v', c₂⟩
  · rw [Meets, hv'] at hother
    have hshort : paid.mem.limit < paid.mem.allocated + doc.cost m := hother hfits
    rw [hpaid.1] at hshort
    exact absurd hmem (not_le.mpr hshort)
  · rw [Meets, hv'] at hother
    obtain ⟨-, -, hr'⟩ := hother
    rw [hpaid.2] at hr hr'
    exact ⟨v, v', c₂, rfl, Exec.run_bind_ok hv', hr, hr'⟩

/-- What each decoder makes of a text that the other decodes. -/
structure DecodersAgree (input : Bytes) (c : Core) : Prop where
  integers : ∀ vs c₁, (jsonDecode [.string input]).run c = (.ok vs, c₁) →
    ∃ doc v v' c₂, vs = [v] ∧ IsDocument input doc ∧
      (jsonDecodeStrings [.string input]).run c = (.ok [v'], c₂) ∧
      Corresponds c₁.heap c₂.heap doc v v'
  strings : ∀ vs c₂, (jsonDecodeStrings [.string input]).run c = (.ok vs, c₂) →
    ∃ doc, IsDocument input doc ∧ (doc.Admits .integer → ∃ v v' c₁, vs = [v'] ∧
      (jsonDecode [.string input]).run c = (.ok [v], c₁) ∧ Corresponds c₁.heap c₂.heap doc v v')

/-- With memory for both values of its document, the decoders agree on a text. -/
theorem decoders_agree (input : Bytes) : ∃ need, ∀ c : Core,
    c.mem.allocated + need ≤ c.mem.limit → DecodersAgree input c := by
  by_cases hex : ∃ doc, IsDocument input doc
  · obtain ⟨doc, hdoc⟩ := hex
    refine ⟨doc.cost .integer + doc.cost .verbatim, fun c hmem => ⟨fun vs c₁ hrun => ?_,
      fun vs c₂ hrun => ⟨doc, hdoc, fun hintegral => ?_⟩⟩⟩
    · obtain ⟨v, v', c₂, rfl, hrun', hr, hr'⟩ :=
        decode_also hrun hdoc doc.admits_verbatim "json.decode_strings" (by omega)
      exact ⟨doc, v, v', c₂, rfl, hdoc, hrun', hr.corresponds hr'⟩
    · obtain ⟨v', v, c₁, rfl, hrun', hr', hr⟩ :=
        decode_also hrun hdoc hintegral "json.decode" (by omega)
      exact ⟨v, v', c₁, rfl, hrun', hr.corresponds hr'⟩
  · refine ⟨0, fun c _ => ⟨fun vs c₁ hrun => ?_, fun vs c₂ hrun => ?_⟩⟩
    · obtain ⟨doc, hdoc, -⟩ := decode_reads ⟨c, congrArg Prod.fst hrun⟩
      exact absurd ⟨doc, hdoc⟩ hex
    · obtain ⟨doc, hdoc, -⟩ := decode_reads ⟨c, congrArg Prod.fst hrun⟩
      exact absurd ⟨doc, hdoc⟩ hex

end Decoders

end Proveno.Vm.Json
