import Proveno.Types.Digits
import Proveno.Types.TableRelated
import Proveno.Vm.Json

/-! What a JSON text says before its numbers are read: its document, which the text
determines, and the values that stand for the document when numbers are read as integers
or kept as their texts. -/

namespace Proveno.Vm.Json

mutual

inductive Doc
  | null
  | boolean (b : Bool)
  | string (text : Bytes)
  /-- The number as it is written. -/
  | number (text : Bytes)
  | table (entries : Entries)

/-- The elements of an array or the members of an object, in the order of the text. -/
inductive Entries
  | nil
  | cons (key : LuaKey) (doc : Doc) (rest : Entries)

end

section Grammar

/-- All the digits that there are, and there is one. -/
def DigitRun (ds after : Bytes) : Prop :=
  ds ≠ [] ∧ Digits ds ∧ ∀ b, after.head? = some b → isDigit b = false

inductive Fraction : Bytes → Bytes → Prop
  | absent {after : Bytes} (h : after.head? ≠ some 46) : Fraction [] after
  | present {ds after : Bytes} (h : DigitRun ds after) : Fraction (46 :: ds) after

inductive Exponent : Bytes → Bytes → Prop
  | absent {after : Bytes} (hlower : after.head? ≠ some 101) (hupper : after.head? ≠ some 69) :
      Exponent [] after
  | present {e : UInt8} {sign ds after : Bytes} (he : e = 101 ∨ e = 69)
      (hsign : sign = [] ∨ sign = [43] ∨ sign = [45]) (h : DigitRun ds after) :
      Exponent (e :: (sign ++ ds)) after

/-- A number, which ends where `after` begins. -/
inductive NumberAt : Bytes → Bytes → Prop
  | intro {sign whole fraction exponent after : Bytes} (hsign : sign = [] ∨ sign = [45])
      (hwhole : DigitRun whole (fraction ++ (exponent ++ after)))
      (hfraction : Fraction fraction (exponent ++ after)) (hexponent : Exponent exponent after) :
      NumberAt (sign ++ (whole ++ (fraction ++ exponent))) after

/-- A member's name and its colon. -/
def KeyAt (s key after : Bytes) : Prop :=
  ∃ body afterKey, skipWs s = 34 :: body ∧ stringBody [] body = .ok (key, afterKey) ∧
    skipWs afterKey = 58 :: after

mutual

/-- The text begins with the document, and `rest` is what follows it. -/
inductive Denotes : Bytes → Doc → Bytes → Prop
  | null {s rest : Bytes} (h : skipWs s = ascii "null" ++ rest) : Denotes s .null rest
  | boolean {s rest : Bytes} (b : Bool)
      (h : skipWs s = ascii (if b then "true" else "false") ++ rest) : Denotes s (.boolean b) rest
  | string {s body text rest : Bytes} (h : skipWs s = 34 :: body)
      (hbody : stringBody [] body = .ok (text, rest)) : Denotes s (.string text) rest
  | number {s text rest : Bytes} (h : skipWs s = text ++ rest) (hnumber : NumberAt text rest) :
      Denotes s (.number text) rest
  | emptyArray {s body rest : Bytes} (h : skipWs s = 91 :: body) (hclose : skipWs body = 93 :: rest) :
      Denotes s (.table .nil) rest
  | array {s body rest : Bytes} {entries : Entries} (h : skipWs s = 91 :: body)
      (hopen : (skipWs body).head? ≠ some 93)
      (hentries : DenotesElements 1 (skipWs body) entries rest) : Denotes s (.table entries) rest
  | emptyObject {s body rest : Bytes} (h : skipWs s = 123 :: body)
      (hclose : skipWs body = 125 :: rest) : Denotes s (.table .nil) rest
  | object {s body rest : Bytes} {entries : Entries} (h : skipWs s = 123 :: body)
      (hopen : (skipWs body).head? ≠ some 125)
      (hentries : DenotesMembers (skipWs body) entries rest) : Denotes s (.table entries) rest

/-- The elements from the one with this index on, and the closing bracket. -/
inductive DenotesElements : Nat → Bytes → Entries → Bytes → Prop
  | last {idx : Nat} {s after rest : Bytes} {doc : Doc} (hdoc : Denotes s doc after)
      (hclose : skipWs after = 93 :: rest) :
      DenotesElements idx s (.cons (LuaTable.arrayKey idx) doc .nil) rest
  | next {idx : Nat} {s after more rest : Bytes} {doc : Doc} {entries : Entries}
      (hdoc : Denotes s doc after) (hcomma : skipWs after = 44 :: more)
      (hentries : DenotesElements (idx + 1) more entries rest) :
      DenotesElements idx s (.cons (LuaTable.arrayKey idx) doc entries) rest

/-- The members, and the closing brace. -/
inductive DenotesMembers : Bytes → Entries → Bytes → Prop
  | last {s key value after rest : Bytes} {doc : Doc} (hkey : KeyAt s key value)
      (hdoc : Denotes value doc after) (hclose : skipWs after = 125 :: rest) :
      DenotesMembers s (.cons (.string key) doc .nil) rest
  | next {s key value after more rest : Bytes} {doc : Doc} {entries : Entries}
      (hkey : KeyAt s key value) (hdoc : Denotes value doc after) (hcomma : skipWs after = 44 :: more)
      (hentries : DenotesMembers more entries rest) :
      DenotesMembers s (.cons (.string key) doc entries) rest

end

/-- The text is the document and nothing more. -/
def IsDocument (input : Bytes) (doc : Doc) : Prop :=
  ∃ rest, Denotes input doc rest ∧ skipWs rest = []

end Grammar

section Uniqueness

theorem DigitRun.unique {ds ds' after after' : Bytes} (h : DigitRun ds after)
    (h' : DigitRun ds' after') (heq : ds ++ after = ds' ++ after') : ds = ds' ∧ after = after' := by
  obtain ⟨htake, hdrop⟩ := takeWhile_run h.2.1 h.2.2
  obtain ⟨htake', hdrop'⟩ := takeWhile_run h'.2.1 h'.2.2
  rw [heq] at htake hdrop
  exact ⟨htake.symm.trans htake', hdrop.symm.trans hdrop'⟩

theorem Fraction.unique {text text' after after' : Bytes} (h : Fraction text after)
    (h' : Fraction text' after') (heq : text ++ after = text' ++ after') :
    text = text' ∧ after = after' := by
  cases h with
  | absent hhead =>
    cases h' with
    | absent => exact ⟨rfl, heq⟩
    | present => exact absurd (by rw [← List.nil_append after, heq]; rfl) hhead
  | present hds =>
    cases h' with
    | absent hhead => exact absurd (by rw [← List.nil_append after', ← heq]; rfl) hhead
    | present hds' =>
      obtain ⟨rfl, rfl⟩ := hds.unique hds' (List.cons.inj heq).2
      exact ⟨rfl, rfl⟩

/-- A sign is not a digit, so that it is part of the text or is not. -/
theorem sign_unique {signs : List UInt8} (hsigns : ∀ b ∈ signs, isDigit b = false)
    {sign sign' s s' : Bytes} (h : sign = [] ∨ ∃ b ∈ signs, sign = [b])
    (h' : sign' = [] ∨ ∃ b ∈ signs, sign' = [b]) (hs : ∃ b r, s = b :: r ∧ isDigit b = true)
    (hs' : ∃ b r, s' = b :: r ∧ isDigit b = true) (heq : sign ++ s = sign' ++ s') :
    sign = sign' ∧ s = s' := by
  obtain ⟨d, r, rfl, hd⟩ := hs
  obtain ⟨d', r', rfl, hd'⟩ := hs'
  rcases h with rfl | ⟨b, hb, rfl⟩ <;> rcases h' with rfl | ⟨b', hb', rfl⟩
  · exact ⟨rfl, heq⟩
  · obtain ⟨rfl, -⟩ := List.cons.inj heq
    exact absurd hd (by simp [hsigns _ hb'])
  · obtain ⟨rfl, -⟩ := List.cons.inj heq
    exact absurd hd' (by simp [hsigns _ hb])
  · obtain ⟨rfl, htail⟩ := List.cons.inj heq
    exact ⟨rfl, htail⟩

theorem DigitRun.head {ds after : Bytes} (h : DigitRun ds after) :
    ∃ b r, ds ++ after = b :: r ∧ isDigit b = true := by
  obtain ⟨b, r, rfl⟩ := List.exists_cons_of_ne_nil h.1
  exact ⟨b, r ++ after, rfl, h.2.1 b (List.mem_cons_self ..)⟩

theorem Exponent.unique {text text' after after' : Bytes} (h : Exponent text after)
    (h' : Exponent text' after') (heq : text ++ after = text' ++ after') :
    text = text' ∧ after = after' := by
  have hsigns : ∀ b ∈ ([43, 45] : List UInt8), isDigit b = false := by
    intro b hb
    rcases List.mem_pair.mp hb with rfl | rfl <;> decide
  have hcases {sign : Bytes} (hsign : sign = [] ∨ sign = [43] ∨ sign = [45]) :
      sign = [] ∨ ∃ b ∈ ([43, 45] : List UInt8), sign = [b] := by
    rcases hsign with rfl | rfl | rfl <;> simp
  have hnone {e : UInt8} {rest : Bytes} {after : Bytes} (hlower : after.head? ≠ some 101)
      (hupper : after.head? ≠ some 69) (he : e = 101 ∨ e = 69) (heq : after = e :: rest) : False := by
    rcases he with rfl | rfl
    · exact hlower (by rw [heq]; rfl)
    · exact hupper (by rw [heq]; rfl)
  cases h with
  | absent hlower hupper =>
    cases h' with
    | absent => exact ⟨rfl, heq⟩
    | present he => exact (hnone hlower hupper he heq).elim
  | @present _ sign ds _ he hsign hds =>
    cases h' with
    | absent hlower hupper => exact (hnone hlower hupper he heq.symm).elim
    | @present _ sign' ds' _ he' hsign' hds' =>
      obtain ⟨rfl, htail⟩ := List.cons.inj heq
      have htail : sign ++ (ds ++ after) = sign' ++ (ds' ++ after') := by
        rw [← List.append_assoc, ← List.append_assoc]
        exact htail
      obtain ⟨rfl, hrun⟩ := sign_unique hsigns (hcases hsign) (hcases hsign') hds.head hds'.head htail
      obtain ⟨rfl, rfl⟩ := hds.unique hds' hrun
      exact ⟨rfl, rfl⟩

theorem NumberAt.unique {text text' after after' : Bytes} (h : NumberAt text after)
    (h' : NumberAt text' after') (heq : text ++ after = text' ++ after') :
    text = text' ∧ after = after' := by
  have hcases {sign : Bytes} (hsign : sign = [] ∨ sign = [45]) :
      sign = [] ∨ ∃ b ∈ ([45] : List UInt8), sign = [b] := by
    rcases hsign with rfl | rfl <;> simp
  obtain ⟨hsign, hwhole, hfraction, hexponent⟩ := h
  obtain ⟨hsign', hwhole', hfraction', hexponent'⟩ := h'
  simp only [List.append_assoc] at heq
  have hminus : ∀ b ∈ ([45] : List UInt8), isDigit b = false := by
    intro b hb
    rw [List.mem_singleton.mp hb]
    decide
  obtain ⟨rfl, hunsigned⟩ := sign_unique hminus (hcases hsign) (hcases hsign') hwhole.head
    hwhole'.head heq
  obtain ⟨rfl, hdotted⟩ := hwhole.unique hwhole' hunsigned
  obtain ⟨rfl, hscaled⟩ := hfraction.unique hfraction' hdotted
  obtain ⟨rfl, rfl⟩ := hexponent.unique hexponent' hscaled
  exact ⟨rfl, rfl⟩

theorem NumberAt.head {text after : Bytes} (h : NumberAt text after) :
    ∃ b r, text = b :: r ∧ (b = 45 ∨ isDigit b = true) := by
  obtain ⟨hsign, hwhole, -, -⟩ := h
  rcases hsign with rfl | rfl
  · obtain ⟨b, r, rfl⟩ := List.exists_cons_of_ne_nil hwhole.1
    exact ⟨b, _, rfl, .inr (hwhole.2.1 b (List.mem_cons_self ..))⟩
  · exact ⟨45, _, rfl, .inl rfl⟩

theorem KeyAt.unique {s key key' after after' : Bytes} (h : KeyAt s key after)
    (h' : KeyAt s key' after') : key = key' ∧ after = after' := by
  obtain ⟨body, afterKey, hs, hbody, hafter⟩ := h
  obtain ⟨body', afterKey', hs', hbody', hafter'⟩ := h'
  obtain ⟨-, rfl⟩ := List.cons.inj (hs.symm.trans hs')
  obtain ⟨rfl, rfl⟩ := Prod.ext_iff.mp (Except.ok.inj (hbody.symm.trans hbody'))
  obtain ⟨-, rfl⟩ := List.cons.inj (hafter.symm.trans hafter')
  exact ⟨rfl, rfl⟩

inductive Kind
  | null
  | boolean
  | string
  | number
  | table

def Doc.kind : Doc → Kind
  | .null => .null
  | .boolean _ => .boolean
  | .string _ => .string
  | .number _ => .number
  | .table _ => .table

/-- The kind of the documents that begin with the byte. -/
def kindOf (b : UInt8) : Kind :=
  if b = 110 then .null
  else if b = 116 ∨ b = 102 then .boolean
  else if b = 34 then .string
  else if b = 91 ∨ b = 123 then .table
  else .number

theorem kindOf_number {b : UInt8} (h : b = 45 ∨ isDigit b = true) : kindOf b = .number := by
  have hnot (n : UInt8) (hn : ¬(n = 45 ∨ isDigit n = true)) : b ≠ n := by
    rintro rfl
    exact hn h
  rw [kindOf, if_neg (hnot 110 (by decide)), if_neg (not_or.mpr ⟨hnot 116 (by decide),
    hnot 102 (by decide)⟩), if_neg (hnot 34 (by decide)), if_neg (not_or.mpr
    ⟨hnot 91 (by decide), hnot 123 (by decide)⟩)]

theorem Denotes.kind_eq_kindOf {s rest : Bytes} {doc : Doc} (h : Denotes s doc rest) :
    ∃ b r, skipWs s = b :: r ∧ doc.kind = kindOf b := by
  cases h with
  | null h => exact ⟨_, _, h, rfl⟩
  | boolean b h => cases b <;> exact ⟨_, _, h, rfl⟩
  | string h => exact ⟨_, _, h, rfl⟩
  | number h hnumber =>
    obtain ⟨b, r, rfl, hb⟩ := hnumber.head
    exact ⟨b, _, h, (kindOf_number hb).symm⟩
  | emptyArray h => exact ⟨_, _, h, rfl⟩
  | array h => exact ⟨_, _, h, rfl⟩
  | emptyObject h => exact ⟨_, _, h, rfl⟩
  | object h => exact ⟨_, _, h, rfl⟩

/-- The first byte tells the kind of a document. -/
theorem Denotes.kind_eq {s rest rest' : Bytes} {doc doc' : Doc} (h : Denotes s doc rest)
    (h' : Denotes s doc' rest') : doc.kind = doc'.kind := by
  obtain ⟨b, r, hs, hkind⟩ := h.kind_eq_kindOf
  obtain ⟨b', r', hs', hkind'⟩ := h'.kind_eq_kindOf
  obtain ⟨rfl, -⟩ := List.cons.inj (hs.symm.trans hs')
  rw [hkind, hkind']

/-- A text is one document only. -/
theorem Denotes.unique {doc doc' : Doc} {s rest rest' : Bytes} (h : Denotes s doc rest)
    (h' : Denotes s doc' rest') : doc = doc' ∧ rest = rest' := by
  have hother {s r r' : Bytes} {b b' : UInt8} (h : s = b :: r) (h' : s = b' :: r')
      (hne : b ≠ b') : False :=
    hne (List.cons.inj (h.symm.trans h')).1
  refine @Denotes.rec
    (fun s doc rest _ => ∀ doc' rest', Denotes s doc' rest' → doc = doc' ∧ rest = rest')
    (fun idx s entries rest _ => ∀ entries' rest', DenotesElements idx s entries' rest' →
      entries = entries' ∧ rest = rest')
    (fun s entries rest _ => ∀ entries' rest', DenotesMembers s entries' rest' →
      entries = entries' ∧ rest = rest')
    ?null ?boolean ?string ?number ?emptyArray ?array ?emptyObject ?object ?lastElement
    ?nextElement ?lastMember ?nextMember s doc rest h doc' rest' h'
  case null =>
    intro s rest hs doc' rest' h'
    have hkind := (Denotes.null hs).kind_eq h'
    cases h' with
    | null hs' => exact ⟨rfl, List.append_cancel_left (hs.symm.trans hs')⟩
    | _ => cases hkind
  case boolean =>
    intro s rest b hs doc' rest' h'
    have hkind := (Denotes.boolean b hs).kind_eq h'
    cases h' with
    | boolean b' hs' =>
      cases b <;> cases b'
      · exact ⟨rfl, List.append_cancel_left (hs.symm.trans hs')⟩
      · exact (hother hs hs' (by decide)).elim
      · exact (hother hs hs' (by decide)).elim
      · exact ⟨rfl, List.append_cancel_left (hs.symm.trans hs')⟩
    | _ => cases hkind
  case string =>
    intro s body text rest hs hbody doc' rest' h'
    have hkind := (Denotes.string hs hbody).kind_eq h'
    cases h' with
    | string hs' hbody' =>
      obtain ⟨-, rfl⟩ := List.cons.inj (hs.symm.trans hs')
      obtain ⟨rfl, rfl⟩ := Prod.ext_iff.mp (Except.ok.inj (hbody.symm.trans hbody'))
      exact ⟨rfl, rfl⟩
    | _ => cases hkind
  case number =>
    intro s text rest hs hnumber doc' rest' h'
    have hkind := (Denotes.number hs hnumber).kind_eq h'
    cases h' with
    | number hs' hnumber' =>
      obtain ⟨rfl, rfl⟩ := hnumber.unique hnumber' (hs.symm.trans hs')
      exact ⟨rfl, rfl⟩
    | _ => cases hkind
  case emptyArray =>
    intro s body rest hs hclose doc' rest' h'
    have hkind := (Denotes.emptyArray hs hclose).kind_eq h'
    cases h' with
    | emptyArray hs' hclose' =>
      obtain ⟨-, rfl⟩ := List.cons.inj (hs.symm.trans hs')
      exact ⟨rfl, (List.cons.inj (hclose.symm.trans hclose')).2⟩
    | array hs' hopen' =>
      obtain ⟨-, rfl⟩ := List.cons.inj (hs.symm.trans hs')
      exact absurd (by rw [hclose]; rfl) hopen'
    | emptyObject hs' => exact (hother hs hs' (by decide)).elim
    | object hs' => exact (hother hs hs' (by decide)).elim
    | _ => cases hkind
  case array =>
    intro s body rest entries hs hopen hentries ih doc' rest' h'
    have hkind := (Denotes.array hs hopen hentries).kind_eq h'
    cases h' with
    | emptyArray hs' hclose' =>
      obtain ⟨-, rfl⟩ := List.cons.inj (hs.symm.trans hs')
      exact absurd (by rw [hclose']; rfl) hopen
    | array hs' hopen' hentries' =>
      obtain ⟨-, rfl⟩ := List.cons.inj (hs.symm.trans hs')
      obtain ⟨rfl, rfl⟩ := ih _ _ hentries'
      exact ⟨rfl, rfl⟩
    | emptyObject hs' => exact (hother hs hs' (by decide)).elim
    | object hs' => exact (hother hs hs' (by decide)).elim
    | _ => cases hkind
  case emptyObject =>
    intro s body rest hs hclose doc' rest' h'
    have hkind := (Denotes.emptyObject hs hclose).kind_eq h'
    cases h' with
    | emptyObject hs' hclose' =>
      obtain ⟨-, rfl⟩ := List.cons.inj (hs.symm.trans hs')
      exact ⟨rfl, (List.cons.inj (hclose.symm.trans hclose')).2⟩
    | object hs' hopen' =>
      obtain ⟨-, rfl⟩ := List.cons.inj (hs.symm.trans hs')
      exact absurd (by rw [hclose]; rfl) hopen'
    | emptyArray hs' => exact (hother hs hs' (by decide)).elim
    | array hs' => exact (hother hs hs' (by decide)).elim
    | _ => cases hkind
  case object =>
    intro s body rest entries hs hopen hentries ih doc' rest' h'
    have hkind := (Denotes.object hs hopen hentries).kind_eq h'
    cases h' with
    | emptyObject hs' hclose' =>
      obtain ⟨-, rfl⟩ := List.cons.inj (hs.symm.trans hs')
      exact absurd (by rw [hclose']; rfl) hopen
    | object hs' hopen' hentries' =>
      obtain ⟨-, rfl⟩ := List.cons.inj (hs.symm.trans hs')
      obtain ⟨rfl, rfl⟩ := ih _ _ hentries'
      exact ⟨rfl, rfl⟩
    | emptyArray hs' => exact (hother hs hs' (by decide)).elim
    | array hs' => exact (hother hs hs' (by decide)).elim
    | _ => cases hkind
  case lastElement =>
    intro idx s after rest doc hdoc hclose ih entries' rest' h'
    cases h' with
    | last hdoc' hclose' =>
      obtain ⟨rfl, rfl⟩ := ih _ _ hdoc'
      exact ⟨rfl, (List.cons.inj (hclose.symm.trans hclose')).2⟩
    | next hdoc' hcomma' =>
      obtain ⟨rfl, rfl⟩ := ih _ _ hdoc'
      exact (hother hclose hcomma' (by decide)).elim
  case nextElement =>
    intro idx s after more rest doc entries hdoc hcomma hentries ih ihrest entries' rest' h'
    cases h' with
    | last hdoc' hclose' =>
      obtain ⟨rfl, rfl⟩ := ih _ _ hdoc'
      exact (hother hclose' hcomma (by decide)).elim
    | next hdoc' hcomma' hentries' =>
      obtain ⟨rfl, rfl⟩ := ih _ _ hdoc'
      obtain ⟨-, rfl⟩ := List.cons.inj (hcomma.symm.trans hcomma')
      obtain ⟨rfl, rfl⟩ := ihrest _ _ hentries'
      exact ⟨rfl, rfl⟩
  case lastMember =>
    intro s key value after rest doc hkey hdoc hclose ih entries' rest' h'
    cases h' with
    | last hkey' hdoc' hclose' =>
      obtain ⟨rfl, rfl⟩ := hkey.unique hkey'
      obtain ⟨rfl, rfl⟩ := ih _ _ hdoc'
      exact ⟨rfl, (List.cons.inj (hclose.symm.trans hclose')).2⟩
    | next hkey' hdoc' hcomma' =>
      obtain ⟨rfl, rfl⟩ := hkey.unique hkey'
      obtain ⟨rfl, rfl⟩ := ih _ _ hdoc'
      exact (hother hclose hcomma' (by decide)).elim
  case nextMember =>
    intro s key value after more rest doc entries hkey hdoc hcomma hentries ih ihrest entries'
      rest' h'
    cases h' with
    | last hkey' hdoc' hclose' =>
      obtain ⟨rfl, rfl⟩ := hkey.unique hkey'
      obtain ⟨rfl, rfl⟩ := ih _ _ hdoc'
      exact (hother hclose' hcomma (by decide)).elim
    | next hkey' hdoc' hcomma' hentries' =>
      obtain ⟨rfl, rfl⟩ := hkey.unique hkey'
      obtain ⟨rfl, rfl⟩ := ih _ _ hdoc'
      obtain ⟨-, rfl⟩ := List.cons.inj (hcomma.symm.trans hcomma')
      obtain ⟨rfl, rfl⟩ := ihrest _ _ hentries'
      exact ⟨rfl, rfl⟩

theorem IsDocument.unique {input : Bytes} {doc doc' : Doc} (h : IsDocument input doc)
    (h' : IsDocument input doc') : doc = doc' := by
  obtain ⟨_, h, -⟩ := h
  obtain ⟨_, h', -⟩ := h'
  exact (h.unique h').1

end Uniqueness

end Proveno.Vm.Json
