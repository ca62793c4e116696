import Proveno.Host.EncodedSize
import Proveno.Vm.Composed
import Proveno.Vm.JsonDecoding

/-! Decoding with `json.decode` what `json.encode` wrote: the value comes back exactly when
its texts are ASCII. -/

namespace Proveno.Vm.Json

open Canonicalize LuaTable

section Texts

/-- The texts that make up a value, keys included. -/
inductive TextWithin (h : Heap) : LuaValue → Bytes → Prop
  | self (s : Bytes) : TextWithin h (.string s) s
  | key {r : TableRef} {s : Bytes} (hget : (h.table r).get (.string s) ≠ none) :
      TextWithin h (.table r) s
  | child {r : TableRef} {key : LuaKey} {v : LuaValue} {s : Bytes}
      (hget : (h.table r).get key = some v) (hv : TextWithin h v s) : TextWithin h (.table r) s

/-- Same scalars, and in tables the same keys with structurally equal values. -/
inductive SameValue (h h' : Heap) : LuaValue → LuaValue → Prop
  | nil : SameValue h h' .nil .nil
  | boolean (b : Bool) : SameValue h h' (.boolean b) (.boolean b)
  | integer (n : Int64) : SameValue h h' (.integer n) (.integer n)
  | string (s : Bytes) : SameValue h h' (.string s) (.string s)
  | table {r r' : TableRef}
      (hkeys : ∀ key, (h.table r).get key = none ↔ (h'.table r').get key = none)
      (hvalues : ∀ key v v', (h.table r).get key = some v → (h'.table r').get key = some v' →
        SameValue h h' v v') :
      SameValue h h' (.table r) (.table r')

variable {h h' : Heap} {lo : Nat}

theorem utf8Key_of_ascii {key : LuaKey} (hascii : ∀ s, key = .string s → Ascii s) :
    utf8Key key = key := by
  cases key with
  | string s => rw [utf8Key, utf8Text_of_ascii (hascii s rfl)]
  | _ => rfl

theorem sameValue_of_ascii {v v' : LuaValue} (ha : Alike h h' lo v v')
    (hascii : ∀ s, TextWithin h v s → Ascii s) : SameValue h h' v v' := by
  induction ha with
  | nil => exact .nil
  | boolean b => exact .boolean b
  | integer n => exact .integer n
  | string s =>
    rw [utf8Text_of_ascii (hascii s (.self s))]
    exact .string s
  | @table r r' hlo hlt hwritten honly _ ih =>
    have hkey : ∀ key, (h.table r).get key ≠ none → utf8Key key = key := fun key hget =>
      utf8Key_of_ascii fun s hs => hascii s (.key (hs ▸ hget))
    refine .table (fun key => ?_) fun key v v' hv hv' => ?_
    · rw [← not_iff_not]
      constructor
      · intro hget
        rw [← hkey key hget]
        exact hwritten key hget
      · intro hget
        obtain ⟨key', rfl, hget'⟩ := honly key hget
        rwa [hkey key' hget']
    · have hget : (h.table r).get key ≠ none := by simp [hv]
      rw [← hkey key hget] at hv'
      exact ih key v v' hv hv' fun s hs => hascii s (.child hv hs)

/-- Decoding makes the longest key that is not ASCII longer. -/
theorem ascii_keys {r r' : TableRef} (hwf : (h.table r).Wf)
    (hwritten : ∀ key, (h.table r).get key ≠ none → (h'.table r').get (utf8Key key) ≠ none)
    (hkeys : ∀ key, (h.table r).get key = none ↔ (h'.table r').get key = none) {s : Bytes}
    (hget : (h.table r).get (.string s) ≠ none) : Ascii s := by
  by_contra hbad
  have hall : ∀ n : Nat, ∃ s, (h.table r).get (.string s) ≠ none ∧ ¬Ascii s ∧ n ≤ s.length := by
    intro n
    induction n with
    | zero => exact ⟨s, hget, hbad, Nat.zero_le _⟩
    | succ n ih =>
      obtain ⟨s, hs, hnot, hlen⟩ := ih
      obtain ⟨hlonger, hnot'⟩ := utf8Text_of_not_ascii hnot
      exact ⟨utf8Text s, fun hnone => hwritten _ hs ((hkeys _).mp hnone), hnot', by omega⟩
  obtain ⟨s, hs, -, hlen⟩ :=
    hall (((h.table r).entries.map fun e => (keyText e.1).length).sum + 1)
  obtain ⟨v, hv⟩ := Option.ne_none_iff_exists'.mp hs
  have hmem := List.mem_map_of_mem (f := fun e : LuaKey × LuaValue => (keyText e.1).length)
    (mem_entries_of_get hwf hv)
  have hle : s.length ≤ ((h.table r).entries.map fun e => (keyText e.1).length).sum :=
    List.single_le_sum (fun _ _ => Nat.zero_le _) _ hmem
  omega

theorem ascii_of_sameValue (hh : h.Reachable) {v v' : LuaValue} {s : Bytes}
    (hs : TextWithin h v s) (ha : Alike h h' lo v v') (hsame : SameValue h h' v v') : Ascii s := by
  induction hs generalizing v' with
  | self s =>
    cases ha with
    | string =>
      by_contra hbad
      have hlonger := (utf8Text_of_not_ascii hbad).1
      generalize utf8Text s = text at hsame hlonger
      cases hsame
      omega
  | @key r s hget =>
    cases ha with
    | table hlo hlt hwritten honly hvalues =>
      cases hsame with
      | table hkeys hvalues' => exact ascii_keys (hh.table r).wf hwritten hkeys hget
  | @child r key v s hget hv ih =>
    cases ha with
    | @table _ r' hlo hlt hwritten honly hvalues =>
      cases hsame with
      | table hkeys hvalues' =>
        have hsome : (h.table r).get key ≠ none := by simp [hget]
        have hkey : utf8Key key = key := utf8Key_of_ascii fun s hs =>
          ascii_keys (hh.table r).wf hwritten hkeys (hs ▸ hsome)
        obtain ⟨w, hw⟩ := Option.ne_none_iff_exists'.mp (hwritten key hsome)
        exact ih (hvalues key v w hget hw) (hvalues' key v w hget (hkey ▸ hw))

end Texts

/-- With ample gas and memory the text decodes to the value. -/
def ReadsBack (h : Heap) (v : LuaValue) (text : Bytes) : Prop :=
  ∃ gas memory, ∀ c : Core, gas ≤ c.gas.remaining → c.mem.allocated + memory ≤ c.mem.limit →
    ∃ v' c', (jsonDecode [.string text]).run c = (.ok [v'], c') ∧ SameValue h c'.heap v v'

theorem run_jsonEncode (v : LuaValue) (c : Core) :
    (jsonEncode [v]).run c = (match canonicalSerialize c.heap v with
      | .error e => raise (.ofCanonError e)
      | .ok result => do
        liftError (checkStringLen result.length)
        charge result.length
        trackAlloc (AllocSize.string result.length)
        pure [.string result] : Vm (List LuaValue)).run c :=
  rfl

theorem canonicalSerialize_of_jsonEncode {c c' : Core} {v : LuaValue} {text : Bytes}
    (henc : (jsonEncode [v]).run c = (.ok [.string text], c')) :
    canonicalSerialize c.heap v = .ok text ∧ text.length ≤ Vm.maxStringLen := by
  rw [run_jsonEncode] at henc
  cases hser : canonicalSerialize c.heap v with
  | error e =>
    rw [hser] at henc
    cases henc
  | ok result =>
    rw [hser] at henc
    have hyields : (do
      liftError (checkStringLen result.length)
      charge result.length
      trackAlloc (AllocSize.string result.length)
      pure [.string result] : Vm (List LuaValue)).Yields [.string text] := ⟨c, by rw [henc]⟩
    obtain ⟨_, hlen, hyields⟩ := hyields.of_bind
    obtain ⟨_, -, hyields⟩ := hyields.of_bind
    obtain ⟨_, -, hyields⟩ := hyields.of_bind
    have hlen := yields_liftError hlen
    obtain rfl : result = text := by simpa using hyields.of_pure
    unfold checkStringLen at hlen
    split_ifs at hlen with hover
    exact ⟨rfl, not_lt.mp hover⟩

theorem jsonDecode_meets {h : Heap} {v : LuaValue} {text : Bytes} {need : Nat}
    (hdec : Decodes h 0 text v need) {c : Core} (hgas : text.length ≤ c.gas.remaining) :
    Meets (Fits h v) need c.heap.tables.length c (jsonDecode [.string text]) fun out c' =>
      ∃ v', out = [v'] ∧ Alike h c'.heap c.heap.tables.length v v' := by
  have hcharge := run_charge (c := c) text.length
  rw [if_neg (by omega)] at hcharge
  have hvalue := hdec.decode text.length (fuelFor text) []
    { c with gas := { c.gas with remaining := c.gas.remaining - text.length } }
    (by rw [fuelFor]; omega) (by simp [Closing])
  rw [List.append_nil] at hvalue
  have hrun : (jsonDecode [.string text]).run c = (parseValue .integer text.length (fuelFor text) 0
      text >>= fun r => if skipWs r.2 ≠ [] then
        positionErr text.length (ascii "json.decode" ++ ascii ": trailing characters") (skipWs r.2)
        else pure [r.1]).run
      { c with gas := { c.gas with remaining := c.gas.remaining - text.length } } :=
    (Exec.run_bind_ok rfl).trans (Exec.run_bind_ok hcharge)
  have hdone : Meets (Fits h v) need c.heap.tables.length
      { c with gas := { c.gas with remaining := c.gas.remaining - text.length } }
      (parseValue .integer text.length (fuelFor text) 0 text >>= fun r => if skipWs r.2 ≠ [] then
        positionErr text.length (ascii "json.decode" ++ ascii ": trailing characters") (skipWs r.2)
        else pure [r.1]) fun out c' =>
          ∃ v', out = [v'] ∧ Alike h c'.heap c.heap.tables.length v v' := by
    refine hvalue.finish fun r c' _ hmid => ?_
    obtain ⟨hrest, ha⟩ := hmid
    rw [hrest]
    exact .pure trivial ⟨_, rfl, ha⟩
  unfold Meets at hdone ⊢
  rw [hrun]
  split at hdone
  · obtain ⟨hfits, hkept, hpost⟩ := hdone
    exact ⟨hfits, ⟨hkept.limit, hkept.allocated, hkept.grows, hkept.frame⟩, hpost⟩
  · exact hdone

/-- What was encoded decodes, and fits the tables: its text is too short for more. -/
theorem decodes_of_jsonEncode {c c' : Core} (hh : c.heap.Reachable) {v : LuaValue}
    {text : Bytes} (henc : (jsonEncode [v]).run c = (.ok [.string text], c'))
    (hshape : Shaped c.heap v) :
    Fits c.heap v ∧ ∃ need, Decodes c.heap 0 text v need := by
  obtain ⟨hser, hlen⟩ := canonicalSerialize_of_jsonEncode henc
  unfold canonicalSerialize at hser
  cases hval : serializeValue c.heap (Canonicalize.maxTableDepth + 1) v with
  | error e => simp [hval, bind, Except.bind] at hser
  | ok enc =>
    simp only [hval, bind, Except.bind, limitLength] at hser
    split_ifs at hser
    obtain rfl := Except.ok.inj hser
    refine ⟨fun r hr => ?_, decodes_serialized hh (by decide) hval hshape⟩
    have hsize := length_of_within hh hr hval
    have hmax : Vm.maxStringLen ≤ 2 * maxTableEntries := by decide
    omega

section Ends

variable {h : Heap} {v : LuaValue} {text : Bytes} {need : Nat}

theorem readsBack_of_ascii (hdec : Decodes h 0 text v need) (hfits : Fits h v)
    (hascii : ∀ s, TextWithin h v s → Ascii s) : ReadsBack h v text := by
  refine ⟨text.length, need, fun c hgas hmem => ?_⟩
  have hmeets := jsonDecode_meets hdec hgas
  unfold Meets at hmeets
  rcases hrun : (jsonDecode [.string text]).run c with ⟨out, c'⟩
  rw [hrun] at hmeets
  cases out with
  | error e => exact absurd (hmeets hfits) (by omega)
  | ok out =>
    obtain ⟨-, -, v', rfl, ha⟩ := hmeets
    exact ⟨v', c', rfl, sameValue_of_ascii ha hascii⟩

theorem ascii_of_readsBack (hh : h.Reachable) (hdec : Decodes h 0 text v need)
    (hback : ReadsBack h v text) {s : Bytes} (hs : TextWithin h v s) : Ascii s := by
  obtain ⟨gas, memory, hback⟩ := hback
  let ample := Core.fresh ⟨64, true, 0⟩ (gas + text.length) (memory + need) .empty
  have hmeets := jsonDecode_meets hdec (c := ample) (by simp [ample, Core.fresh, GasMeter.new])
  obtain ⟨v', c', hrun, hsame⟩ := hback ample (by simp [ample, Core.fresh, GasMeter.new])
    (by simp [ample, Core.fresh, MemoryMeter.new])
  rw [Meets, hrun] at hmeets
  obtain ⟨-, -, w, hw, ha⟩ := hmeets
  obtain rfl : v' = w := by simpa using hw
  exact ascii_of_sameValue hh hs ha hsame

end Ends

/-- The value comes back exactly when all its texts are ASCII. -/
theorem jsonDecode_jsonEncode_iff {c c' : Core} (hh : c.heap.Reachable) {v : LuaValue}
    {text : Bytes} (henc : (jsonEncode [v]).run c = (.ok [.string text], c'))
    (hshape : Shaped c.heap v) :
    ReadsBack c.heap v text ↔ ∀ s, TextWithin c.heap v s → Ascii s := by
  obtain ⟨hfits, need, hdec⟩ := decodes_of_jsonEncode hh henc hshape
  exact ⟨fun hback s => ascii_of_readsBack hh hdec hback, readsBack_of_ascii hdec hfits⟩

def coreOf (h : Heap) : Core := .fresh ⟨64, true, 0⟩ 1000 1000 h

theorem shaped_tenTwenty : Shaped (heapOf tenTwenty) (.table 0) := by
  have htable : tenTwenty = ⟨[.integer 10, .integer 20], [], 2, 0⟩ := rfl
  have hget (i : Int64) (hin : 1 ≤ i.toInt ∧ i.toInt ≤ 2) :
      tenTwenty.get (.integer i) ≠ none := by
    rw [htable, get_integer_of_mem hin]
    simp only [ne_eq, List.getElem?_eq_none_iff, List.length_cons, List.length_nil]
    omega
  intro r hr
  cases hr with
  | self =>
    refine Or.inl ⟨2, by decide, fun key => ⟨fun hsome => ?_, ?_⟩⟩
    · change tenTwenty.get key ≠ none at hsome
      rw [htable] at hsome
      cases key with
      | string s => exact absurd rfl hsome
      | boolean b => exact absurd rfl hsome
      | integer i =>
        refine ⟨i, rfl, ?_⟩
        by_contra hout
        exact hsome (get_integer_of_not_mem hout)
    · rintro ⟨i, rfl, hin⟩
      exact hget i hin
  | @child _ _ key v hv hr =>
    have hmem := get_mem_values hv
    change v ∈ tenTwenty.values at hmem
    rw [htable] at hmem
    simp only [values, List.map_nil, List.append_nil, List.mem_cons, List.not_mem_nil,
      or_false] at hmem
    rcases hmem with rfl | rfl <;> cases hr

theorem jsonDecode_jsonEncode_iff_tenTwenty :
    ReadsBack (heapOf tenTwenty) (.table 0) (ascii "[10,20]") ↔
      ∀ s, TextWithin (heapOf tenTwenty) (.table 0) s → Ascii s :=
  jsonDecode_jsonEncode_iff (c := coreOf (heapOf tenTwenty))
    (reachable_heapOf tenTwenty_reachable) rfl shaped_tenTwenty

/-- The one byte 233 comes back as two. -/
theorem highByte_not_readsBack :
    ((jsonEncode [.string [233]]).run (coreOf .empty)).1 = .ok [.string (ascii "\"\\u00e9\"")] ∧
      (coreOf .empty).heap.Reachable ∧ Shaped (coreOf .empty).heap (.string [233]) ∧
      ¬ReadsBack (coreOf .empty).heap (.string [233]) (ascii "\"\\u00e9\"") := by
  have hreach : (coreOf .empty).heap.Reachable := fun t ht => by cases ht
  have hshape : Shaped (coreOf .empty).heap (.string [233]) := fun r hr => by cases hr
  have henc : (jsonEncode [.string [233]]).run (coreOf .empty) =
      (.ok [.string (ascii "\"\\u00e9\"")], ((jsonEncode [.string [233]]).run (coreOf .empty)).2) :=
    rfl
  refine ⟨rfl, hreach, hshape, fun hback => ?_⟩
  obtain ⟨-, need, hdec⟩ := decodes_of_jsonEncode hreach henc hshape
  have hascii := ascii_of_readsBack hreach hdec hback (.self [233]) 233 (by simp)
  exact absurd hascii (by decide)

end Proveno.Vm.Json
