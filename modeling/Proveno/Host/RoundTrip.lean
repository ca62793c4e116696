import Proveno.Host.Decoding

/-! What decoding gives back of an encoded value. The result is structurally
equal exactly when no table has a string key that reads as another key type or
more entries than a table may hold. -/

namespace Proveno.Canonicalize

open LuaTable

section Tables

/-- A present key that the decoder would read as another one, or more entries
than a table accepts, is what keeps a table from coming back. -/
def RoundTrips (t : LuaTable LuaValue) : Prop :=
  (∀ s, t.get (.string s) ≠ none →
    parseI64 s = none ∧ s ≠ ascii "true" ∧ s ≠ ascii "false") ∧
  t.entryCount ≤ maxTableEntries

/-- The tables that make up a value. -/
inductive Within (h : Heap) : LuaValue → TableRef → Prop
  | self (r : TableRef) : Within h (.table r) r
  | child {r r' : TableRef} {key : LuaKey} {v : LuaValue} (hget : (h.table r).get key = some v)
      (hv : Within h v r') : Within h (.table r) r'

def rebuilt {V : Type} (t : LuaTable V) : LuaTable V :=
  { t with hashCapacity := nextPowerOfTwoCapacity t.hash.length }

/-- The value that decoding the bytes of `v` gives. -/
def decoded (h : Heap) : Nat → LuaValue → OwnedValue
  | 0, _ => .nil
  | levels + 1, v =>
    match v with
    | .nil => .nil
    | .boolean b => .boolean b
    | .integer n => .integer n
    | .string s => .string s
    | .table r => .table (rebuilt ((h.table r).map (decoded h levels)))
    | .function f => .live (.function f)
    | .builtin id => .live (.builtin id)

variable {encode : LuaValue → Except CanonError Bytes} {t : LuaTable LuaValue}

theorem serializeElements_forall₂ {n : Nat} {vs : List LuaValue} {parts : List Bytes}
    (hget : ∀ e ∈ arrayEntries n vs, t.get e.1 = some e.2)
    (h : serializeElements encode t (n + 1) vs.length = .ok parts) :
    List.Forall₂ (fun v part => encode v = .ok part) vs parts := by
  induction vs generalizing n parts with
  | nil =>
    obtain rfl := Except.ok.inj h
    exact .nil
  | cons v vs ih =>
    have hv := hget (arrayKey (n + 1), v) (by simp [arrayEntries_cons])
    rw [List.length_cons, serializeElements, hv, Option.getD_some] at h
    cases henc : encode v with
    | error e => simp [henc, bind, Except.bind] at h
    | ok part =>
      cases hrest : serializeElements encode t (n + 1 + 1) vs.length with
      | error e => simp [henc, hrest, bind, Except.bind] at h
      | ok others =>
        simp only [henc, hrest, bind, Except.bind] at h
        obtain rfl := Except.ok.inj h
        exact .cons henc (ih (fun e he => hget e (by simp [arrayEntries_cons, he])) hrest)

theorem serializeEntries_forall₂ {es : List (LuaKey × LuaValue)} {parts : List Bytes}
    (hget : ∀ e ∈ es, t.get e.1 = some e.2 ∧ HasNil.isNil e.2 = false)
    (h : serializeEntries encode t (es.map Prod.fst) = .ok parts) :
    List.Forall₂ (fun e part => ∃ enc, encode e.2 = .ok enc ∧ part = keyBytes e.1 ++ 58 :: enc)
      es parts := by
  induction es generalizing parts with
  | nil =>
    obtain rfl := Except.ok.inj h
    exact .nil
  | cons e es ih =>
    obtain ⟨hv, hnil⟩ := hget e (by simp)
    rw [List.map_cons, serializeEntries, hv] at h
    simp only [hnil, Bool.false_eq_true, if_false] at h
    cases henc : encode e.2 with
    | error e => simp [henc, bind, Except.bind] at h
    | ok part =>
      cases hrest : serializeEntries encode t (es.map Prod.fst) with
      | error e => simp [henc, hrest, bind, Except.bind] at h
      | ok others =>
        simp only [henc, hrest, bind, Except.bind] at h
        obtain rfl := Except.ok.inj h
        exact .cons ⟨part, henc, rfl⟩ (ih (fun e he => hget e (by simp [he])) hrest)

theorem isNil_of_mem_values {V : Type} [HasNil V] {t : LuaTable V} (h : t.Wf) {v : V}
    (hv : v ∈ t.values) : HasNil.isNil v = false := by
  rcases List.mem_append.mp hv with hv | hv
  · exact h.arrayNotNil v hv
  · obtain ⟨e, he, rfl⟩ := List.mem_map.mp hv
    exact h.hashNotNil e he

theorem values_of_entries {e : LuaKey × LuaValue} (h : t.Wf) (he : e ∈ t.entries) :
    e.2 ∈ t.values :=
  get_mem_values (get_of_mem_entries h he)

/-- No key is filtered out: a table holds no nil. -/
theorem filter_sortedKeys (h : t.Wf) : t.sortedKeys.filter (hasValue t) = t.entries.map Prod.fst := by
  rw [← entries_keys, List.filter_eq_self]
  intro key hkey
  obtain ⟨e, he, rfl⟩ := List.mem_map.mp hkey
  simp [hasValue, get_of_mem_entries h he, isNil_of_mem_values h (values_of_entries h he)]

theorem length_arrayEntries {V : Type} (n : Nat) (vs : List V) :
    (arrayEntries n vs).length = vs.length := by
  induction vs generalizing n with
  | nil => rfl
  | cons v vs ih => rw [arrayEntries_cons, List.length_cons, List.length_cons, ih]

theorem length_entries {V : Type} (t : LuaTable V) :
    t.entries.length = t.array.length + t.hash.length := by
  rw [entries, List.length_append, length_arrayEntries]

/-- The two forms of an encoded table. -/
theorem serializeTable_cases (h : t.Wf) {bytes : Bytes}
    (hser : serializeTable encode t = .ok bytes) :
    (t.hash = [] ∧ ∃ parts, parts ≠ [] ∧ bytes = 91 :: (separated parts ++ [93]) ∧
      List.Forall₂ (fun v part => encode v = .ok part) t.array parts) ∨
    ((t.array = [] ∨ t.hash ≠ []) ∧ ∃ parts, bytes = 123 :: (separated parts ++ [125]) ∧
      List.Forall₂ (fun e part => ∃ enc, encode e.2 = .ok enc ∧ part = keyBytes e.1 ++ 58 :: enc)
        t.entries parts) := by
  unfold serializeTable at hser
  simp only [filter_sortedKeys h, List.length_map, length_entries, LuaTable.length] at hser
  split_ifs at hser with harray
  · left
    cases hparts : serializeElements encode t 1 t.array.length with
    | error e => simp [hparts, bind, Except.bind] at hser
    | ok parts =>
      simp only [hparts, bind, Except.bind] at hser
      have hforall := serializeElements_forall₂ (n := 0)
        (fun e he => get_of_mem_entries h (List.mem_append_left _ he)) hparts
      refine ⟨List.length_eq_zero_iff.mp (by omega), parts, ?_, (Except.ok.inj hser).symm, hforall⟩
      rintro rfl
      have hlen := hforall.length_eq
      rw [List.length_nil] at hlen
      omega
  · right
    cases hparts : serializeEntries encode t (t.entries.map Prod.fst) with
    | error e => simp [hparts, bind, Except.bind] at hser
    | ok parts =>
      simp only [hparts, bind, Except.bind] at hser
      refine ⟨?_, parts, (Except.ok.inj hser).symm,
        serializeEntries_forall₂ (fun e he => ?_) hparts⟩
      · by_contra hform
        rw [not_or, not_not] at hform
        exact harray ⟨List.length_pos_iff.mpr hform.1, by rw [hform.2]; rfl⟩
      exact ⟨get_of_mem_entries h he, isNil_of_mem_values h (values_of_entries h he)⟩

/-- A table is encoded only if all its values are. -/
theorem encode_ok_of_mem (h : t.Wf) {bytes : Bytes} (hser : serializeTable encode t = .ok bytes)
    {v : LuaValue} (hv : v ∈ t.values) : ∃ enc, encode v = .ok enc := by
  rcases serializeTable_cases h hser with ⟨hhash, parts, -, -, hforall⟩ | ⟨-, parts, -, hforall⟩
  · rw [values, hhash, List.map_nil, List.append_nil] at hv
    obtain ⟨i, hi, rfl⟩ := List.getElem_of_mem hv
    exact ⟨_, hforall.get hi (hforall.length_eq ▸ hi)⟩
  · rw [← entries_values] at hv
    obtain ⟨e, he, rfl⟩ := List.mem_map.mp hv
    obtain ⟨i, hi, rfl⟩ := List.getElem_of_mem he
    obtain ⟨enc, henc, -⟩ := hforall.get hi (hforall.length_eq ▸ hi)
    exact ⟨enc, henc⟩

end Tables

section Forward

variable {h : Heap}

theorem isNil_decoded {levels : Nat} {v : LuaValue} {enc : Bytes}
    (hser : serializeValue h levels v = .ok enc) (hnil : HasNil.isNil v = false) :
    HasNil.isNil (decoded h levels v) = false := by
  cases levels with
  | zero => cases hser
  | succ levels =>
    cases v with
    | nil => simp [HasNil.isNil] at hnil
    | _ => rfl

theorem wf_map_decoded {levels : Nat} {r : TableRef} (hwf : (h.table r).Wf) {bytes : Bytes}
    (hser : serializeTable (serializeValue h levels) (h.table r) = .ok bytes) :
    ((h.table r).map (decoded h levels)).Wf := by
  refine wf_map hwf fun v hv => ?_
  obtain ⟨enc, henc⟩ := encode_ok_of_mem hwf hser hv
  exact isNil_decoded henc (isNil_of_mem_values hwf hv)

theorem cleanKey_of_roundTrips {t : LuaTable LuaValue} (hwf : t.Wf) (hrt : RoundTrips t)
    {e : LuaKey × LuaValue} (he : e ∈ t.entries) : CleanKey e.1 := by
  have hget := get_of_mem_entries hwf he
  cases hkey : e.1 with
  | integer n => exact cleanKey_integer n
  | boolean b => exact cleanKey_boolean b
  | string s =>
    rw [hkey] at hget
    exact (cleanKey_string_iff s).mpr (hrt.1 s (by simp [hget]))

theorem encodes_table {levels : Nat} {r : TableRef} (hwf : (h.table r).Wf) {bytes : Bytes}
    (hser : serializeTable (serializeValue h levels) (h.table r) = .ok bytes)
    (hrt : RoundTrips (h.table r))
    (hvalues : ∀ v ∈ (h.table r).values, ∀ enc, serializeValue h levels v = .ok enc →
      Encodes enc (decoded h levels v)) :
    Encodes bytes (.table (rebuilt ((h.table r).map (decoded h levels)))) := by
  have hrun := runOps_entries (wf_map_decoded hwf hser) hrt.2
  rw [entries_map] at hrun
  rcases serializeTable_cases hwf hser with
    ⟨hhash, parts, hne, rfl, hforall⟩ | ⟨-, parts, rfl, hforall⟩
  · have hencs : List.Forall₂ Encodes parts ((h.table r).array.map (decoded h levels)) := by
      rw [List.forall₂_map_right_iff]
      refine ((List.forall₂_and_left _ _).mpr ⟨fun v hv => hv, hforall⟩).flip.imp ?_
      rintro part v ⟨hv, henc⟩
      exact hvalues v (List.mem_append_left _ hv) part henc
    have hentries : (h.table r).entries.map (fun e => (e.1, decoded h levels e.2)) =
        arrayEntries 0 ((h.table r).array.map (decoded h levels)) := by
      rw [entries, hhash, List.append_nil, map_arrayEntries]
    rw [hentries] at hrun
    exact encodes_array hencs hne hrun
  · refine encodes_object ?_ hrun
    rw [List.forall₂_map_right_iff]
    refine ((List.forall₂_and_left _ _).mpr ⟨fun e he => he, hforall⟩).flip.imp ?_
    rintro part e ⟨he, enc, henc, hpart⟩
    exact ⟨cleanKey_of_roundTrips hwf hrt he, enc,
      hvalues e.2 (values_of_entries hwf he) enc henc, hpart⟩

/-- The bytes of a value decode to `decoded`, by induction on the levels left. -/
theorem encodes_decoded {levels : Nat} {v : LuaValue} {enc : Bytes}
    (hwf : ∀ r, Within h v r → (h.table r).Wf) (hser : serializeValue h levels v = .ok enc)
    (hrt : ∀ r, Within h v r → RoundTrips (h.table r)) : Encodes enc (decoded h levels v) := by
  induction levels generalizing v enc with
  | zero => cases hser
  | succ levels ih =>
    cases v with
    | nil =>
      obtain rfl := Except.ok.inj hser
      exact encodes_nil
    | boolean b =>
      obtain rfl := Except.ok.inj hser
      exact encodes_boolean b
    | integer n =>
      obtain rfl := Except.ok.inj hser
      exact encodes_integer n
    | string s =>
      obtain rfl := Except.ok.inj hser
      exact encodes_string s
    | function f => cases hser
    | builtin id => cases hser
    | table r =>
      refine encodes_table (hwf r (.self r)) hser (hrt r (.self r)) fun v hv enc henc => ?_
      rw [← entries_values] at hv
      obtain ⟨e, he, rfl⟩ := List.mem_map.mp hv
      have hget := get_of_mem_entries (hwf r (.self r)) he
      exact ih (fun r' hr' => hwf r' (.child hget hr')) henc fun r' hr' => hrt r' (.child hget hr')

theorem serializeValue_of_canonicalSerialize {v : LuaValue} {bytes : Bytes}
    (hser : canonicalSerialize h v = .ok bytes) :
    serializeValue h (maxTableDepth + 1) v = .ok bytes := by
  cases henc : serializeValue h (maxTableDepth + 1) v with
  | error e => simp [canonicalSerialize, henc, bind, Except.bind] at hser
  | ok enc =>
    simp only [canonicalSerialize, henc, bind, Except.bind, limitLength] at hser
    split_ifs at hser
    exact hser

theorem canonicalDeserialize_eq_decoded {v : LuaValue} {bytes : Bytes}
    (hwf : ∀ r, Within h v r → (h.table r).Wf) (hser : canonicalSerialize h v = .ok bytes)
    (hrt : ∀ r, Within h v r → RoundTrips (h.table r)) :
    canonicalDeserialize bytes = .ok (decoded h (maxTableDepth + 1) v) := by
  have henc := serializeValue_of_canonicalSerialize hser
  have hdec := (encodes_decoded hwf henc hrt).decode bytes.length [] le_rfl (by simp)
  rw [List.append_nil] at hdec
  simp [canonicalDeserialize, hdec, bind, Except.bind, trimLeadingWhitespace]

/-- Same scalars, and in tables the same keys with structurally equal values. -/
inductive StructEq (h : Heap) : LuaValue → OwnedValue → Prop
  | nil : StructEq h .nil .nil
  | boolean (b : Bool) : StructEq h (.boolean b) (.boolean b)
  | integer (n : Int64) : StructEq h (.integer n) (.integer n)
  | string (s : Bytes) : StructEq h (.string s) (.string s)
  | table {r : TableRef} {t : LuaTable OwnedValue}
      (hkeys : ∀ key, (h.table r).get key = none ↔ t.get key = none)
      (hvalues : ∀ key v o, (h.table r).get key = some v → t.get key = some o → StructEq h v o) :
      StructEq h (.table r) (.table t)

theorem structEq_decoded {levels : Nat} {v : LuaValue} {enc : Bytes}
    (hwf : ∀ r, Within h v r → (h.table r).Wf) (hser : serializeValue h levels v = .ok enc) : StructEq h v (decoded h levels v) := by
  induction levels generalizing v enc with
  | zero => cases hser
  | succ levels ih =>
    cases v with
    | nil => exact .nil
    | boolean b => exact .boolean b
    | integer n => exact .integer n
    | string s => exact .string s
    | function f => cases hser
    | builtin id => cases hser
    | table r =>
      have hget : ∀ key, (rebuilt ((h.table r).map (decoded h levels))).get key =
          ((h.table r).get key).map (decoded h levels) := get_map _ _
      refine .table (fun key => ?_) fun key v o hv ho => ?_
      · rw [hget, Option.map_eq_none_iff]
      · rw [hget, hv, Option.map_some, Option.some.injEq] at ho
        subst ho
        obtain ⟨enc, henc⟩ := encode_ok_of_mem (hwf r (.self r)) hser (get_mem_values hv)
        exact ih (fun r' hr' => hwf r' (.child hv hr')) henc

end Forward

section Backward

/-- What the decoder can produce. -/
inductive Decoded : OwnedValue → Prop
  | nil : Decoded .nil
  | boolean (b : Bool) : Decoded (.boolean b)
  | integer (n : Int64) : Decoded (.integer n)
  | string (s : Bytes) : Decoded (.string s)
  | table {t : LuaTable OwnedValue} (hwf : t.Wf) (hcap : t.entryCount ≤ maxTableEntries)
      (hclean : ∀ e ∈ t.hash, CleanKey e.1) (hvalues : ∀ o ∈ t.values, Decoded o) :
      Decoded (.table t)

def DecodedTable (t : LuaTable OwnedValue) : Prop :=
  t.Wf ∧ t.entryCount ≤ maxTableEntries ∧ (∀ e ∈ t.hash, CleanKey e.1) ∧
    ∀ o ∈ t.values, Decoded o

theorem decodedTable_new : DecodedTable new :=
  ⟨wf_new, by simp [new], by simp [new], by simp [new, values]⟩

theorem Decoded.of_table {t : LuaTable OwnedValue} (h : DecodedTable t) : Decoded (.table t) :=
  .table h.1 h.2.1 h.2.2.1 h.2.2.2

theorem decodedTable_rawset {t t' : LuaTable OwnedValue} (h : DecodedTable t) {key : LuaKey}
    (hkey : CleanKey key) {o : OwnedValue} (ho : Decoded o)
    (hset : t.rawset key o = (.ok (), t')) : DecodedTable t' := by
  obtain ⟨hwf, hcap, hclean, hvalues⟩ := h
  have hwf' := wf_apply hwf (.rawset key o)
  rw [apply, hset] at hwf'
  refine ⟨hwf', entryCount_of_rawset_ok hcap hset, ?_⟩
  have happly : t.apply (.rawset key o) = (.ok (), t') := hset
  rcases apply_ok_cases happly with ⟨-, rfl⟩ | ⟨value, hop, -, -, hmin, rfl⟩
  · obtain ⟨hhash, hvals⟩ := rawremove_subset t key
    exact ⟨fun e he => hclean e (hhash e he), fun v hv => hvalues v (hvals v hv)⟩
  · obtain ⟨hhash, hvals⟩ := store_subset t value hmin
    injection hop with _ hvalue
    subst hvalue
    refine ⟨fun e he => ?_, fun v hv => ?_⟩
    · rcases hhash e he with rfl | he
      · exact hkey
      · exact hclean e he
    · rcases hvals v hv with rfl | hv
      · exact ho
      · exact hvalues v hv

theorem decoded_literal {literal s rest : Bytes} {v o : OwnedValue} (hv : Decoded v)
    (h : deserLiteral literal v s = .ok (o, rest)) : Decoded o := by
  unfold deserLiteral at h
  split_ifs at h
  obtain ⟨rfl, -⟩ := Prod.mk.inj (Except.ok.inj h)
  exact hv

theorem decoded_integer {s rest : Bytes} {o : OwnedValue} (h : deserInteger s = .ok (o, rest)) :
    Decoded o := by
  unfold deserInteger at h
  split at h
  · obtain ⟨rfl, -⟩ := Prod.mk.inj (Except.ok.inj h)
    exact .integer _
  · simp at h

/-- Every value decoded is clean, by induction on the bytes left to look at,
with the table under construction as the invariant of both loops. -/
theorem decoded_of_deser (fuel : Nat) :
    (∀ s o rest, deserValue fuel s = .ok (o, rest) → Decoded o) ∧
    (∀ t idx s o rest, DecodedTable t → deserArray fuel t idx s = .ok (o, rest) → Decoded o) ∧
    (∀ t s o rest, DecodedTable t → deserObject fuel t s = .ok (o, rest) → Decoded o) := by
  induction fuel with
  | zero => simp [deserValue, deserArray, deserObject]
  | succ fuel ih =>
    obtain ⟨ihValue, ihArray, ihObject⟩ := ih
    refine ⟨fun s o rest h => ?_, fun t idx s o rest ht h => ?_, fun t s o rest ht h => ?_⟩
    · rw [deserValue] at h
      split at h
      · simp at h
      · rename_i b s' _
        split_ifs at h
        · exact decoded_literal .nil h
        · exact decoded_literal (.boolean true) h
        · exact decoded_literal (.boolean false) h
        · cases hs : deserString [] s' with
          | error e => simp [hs, bind, Except.bind] at h
          | ok p =>
            simp only [hs, bind, Except.bind] at h
            obtain ⟨rfl, -⟩ := Prod.mk.inj (Except.ok.inj h)
            exact .string _
        · simp only at h
          split_ifs at h
          · obtain ⟨rfl, -⟩ := Prod.mk.inj (Except.ok.inj h)
            exact .of_table decodedTable_new
          · exact ihArray _ _ _ _ _ decodedTable_new h
        · simp only at h
          split_ifs at h
          · obtain ⟨rfl, -⟩ := Prod.mk.inj (Except.ok.inj h)
            exact .of_table decodedTable_new
          · exact ihObject _ _ _ _ decodedTable_new h
        · exact decoded_integer h
    · rw [deserArray] at h
      cases hv : deserValue fuel s with
      | error e => simp [hv, bind, Except.bind] at h
      | ok p =>
        simp only [hv, bind, Except.bind] at h
        split at h
        · simp at h
        · rename_i t' hset
          have ht' := decodedTable_rawset ht (cleanKey_integer _) (ihValue _ _ _ hv) hset
          split_ifs at h
          · obtain ⟨rfl, -⟩ := Prod.mk.inj (Except.ok.inj h)
            exact .of_table ht'
          · exact ihArray _ _ _ _ _ ht' h
    · rw [deserObject] at h
      simp only [bind, Except.bind] at h
      split_ifs at h
      cases hs : deserString [] (trimLeadingWhitespace s).tail with
      | error e => simp [hs] at h
      | ok q =>
        simp only [hs] at h
        split_ifs at h
        cases hv : deserValue fuel (trimLeadingWhitespace q.2).tail with
        | error e => simp [hv] at h
        | ok p =>
          simp only [hv] at h
          split at h
          · simp at h
          · rename_i t' hset
            have ht' := decodedTable_rawset ht (cleanKey_retypeKey _) (ihValue _ _ _ hv) hset
            split_ifs at h
            · obtain ⟨rfl, -⟩ := Prod.mk.inj (Except.ok.inj h)
              exact .of_table ht'
            · exact ihObject _ _ _ _ ht' h

theorem decoded_of_canonicalDeserialize {bytes : Bytes} {o : OwnedValue}
    (h : canonicalDeserialize bytes = .ok o) : Decoded o := by
  unfold canonicalDeserialize at h
  cases hv : deserValue bytes.length bytes with
  | error e => simp [hv, bind, Except.bind] at h
  | ok p =>
    simp only [hv, bind, Except.bind] at h
    split_ifs at h
    obtain rfl := Except.ok.inj h
    exact (decoded_of_deser bytes.length).1 _ _ _ hv

variable {h : Heap}

theorem roundTrips_of_within {v : LuaValue} {r : TableRef} (hr : Within h v r)
    (hwf : ∀ r, Within h v r → (h.table r).Wf) {o : OwnedValue} (heq : StructEq h v o) (ho : Decoded o) :
    RoundTrips (h.table r) := by
  induction hr generalizing o with
  | self r =>
    cases heq with
    | @table _ t hkeys hvalues =>
      cases ho with
      | table hwf' hcap hclean _ =>
        refine ⟨fun s hs => ?_, entryCount_eq_of_keys (hwf r (.self r)) hwf' hkeys ▸ hcap⟩
        have hs' : t.get (.string s) ≠ none := fun hnone => hs ((hkeys _).mpr hnone)
        obtain ⟨o, hfind⟩ := Option.ne_none_iff_exists'.mp hs'
        exact (cleanKey_string_iff s).mp (hclean _ (SortedAssoc.mem_of_find hfind))
  | @child r r' key v hget _ ih =>
    cases heq with
    | @table _ t hkeys hvalues =>
      cases ho with
      | table _ _ _ hdec =>
        have hsome : t.get key ≠ none := fun hnone => by
          rw [(hkeys key).mpr hnone] at hget
          simp at hget
        obtain ⟨o, ho⟩ := Option.ne_none_iff_exists'.mp hsome
        exact ih (fun r' hr' => hwf r' (.child hget hr')) (hvalues key v o hget ho)
          (hdec o (get_mem_values ho))

end Backward

/-- Encoding and decoding give back a structurally equal value exactly when all
its tables round-trip. -/
theorem canonicalDeserialize_structEq_iff {h : Heap} (hh : h.Reachable) {v : LuaValue}
    {bytes : Bytes} (hser : canonicalSerialize h v = .ok bytes) :
    (∃ o, canonicalDeserialize bytes = .ok o ∧ StructEq h v o) ↔
      ∀ r, Within h v r → RoundTrips (h.table r) := by
  constructor
  · rintro ⟨o, hdec, heq⟩ r hr
    exact roundTrips_of_within hr (fun r _ => (hh.table r).wf) heq
      (decoded_of_canonicalDeserialize hdec)
  · intro hrt
    have hwf : ∀ r, Within h v r → (h.table r).Wf := fun r _ => (hh.table r).wf
    refine ⟨_, canonicalDeserialize_eq_decoded hwf hser hrt, ?_⟩
    exact structEq_decoded hwf (serializeValue_of_canonicalSerialize hser)

def heapOf (t : LuaTable LuaValue) : Heap := ⟨[t], []⟩

theorem reachable_heapOf {t : LuaTable LuaValue} (h : t.Reachable) : (heapOf t).Reachable := by
  intro t' ht'
  rw [List.mem_singleton.mp ht']
  exact h

/-- `{"1": true}` with the string key `"1"`. -/
def stringOne : LuaTable LuaValue := (new.rawset (.string (ascii "1")) (.boolean true)).2

theorem stringOne_reachable : stringOne.Reachable :=
  Reachable.rawset (.string (ascii "1")) (LuaValue.boolean true) .new

def stringOneBytes : Bytes := ascii "\x7b\"1\":true\x7d"

theorem canonicalSerialize_stringOne :
    canonicalSerialize (heapOf stringOne) (.table 0) = .ok stringOneBytes := by
  decide

theorem canonicalDeserialize_structEq_iff_stringOne :
    (∃ o, canonicalDeserialize stringOneBytes = .ok o ∧
      StructEq (heapOf stringOne) (.table 0) o) ↔
      ∀ r, Within (heapOf stringOne) (.table 0) r → RoundTrips ((heapOf stringOne).table r) :=
  canonicalDeserialize_structEq_iff (reachable_heapOf stringOne_reachable)
    canonicalSerialize_stringOne

/-- The string key `"1"` comes back as the integer key 1. -/
theorem stringOne_not_structEq :
    (heapOf stringOne).Reachable ∧
    canonicalSerialize (heapOf stringOne) (.table 0) = .ok stringOneBytes ∧
    ¬∃ o, canonicalDeserialize stringOneBytes = .ok o ∧
      StructEq (heapOf stringOne) (.table 0) o := by
  have hreach := reachable_heapOf stringOne_reachable
  refine ⟨hreach, canonicalSerialize_stringOne, ?_⟩
  rintro ⟨o, hdec, heq⟩
  have hrt := roundTrips_of_within (.self 0) (fun r _ => (hreach.table r).wf) heq
    (decoded_of_canonicalDeserialize hdec)
  have hparse := (hrt.1 (ascii "1") (by decide)).1
  exact absurd hparse (by decide)

end Proveno.Canonicalize
