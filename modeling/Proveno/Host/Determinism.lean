import Proveno.Host.RoundTrip

/-! Canonical bytes leak nothing of a table's history: tables with the same
entries have the same array and hash part, so the encoder cannot tell them apart. -/

namespace Proveno.Canonicalize

open LuaTable

section Congruence

variable {encode encode' : LuaValue → Except CanonError Bytes} {t t' : LuaTable LuaValue}

/-- Under every key the tables have values that are encoded alike. -/
def SameEncoding (encode encode' : LuaValue → Except CanonError Bytes)
    (t t' : LuaTable LuaValue) : Prop :=
  ∀ key, Option.Rel (fun v v' => encode v = encode' v' ∧ HasNil.isNil v = HasNil.isNil v')
    (t.get key) (t'.get key)

theorem serializeElements_same (hsame : SameEncoding encode encode' t t')
    (hnil : encode .nil = encode' .nil) (i count : Nat) :
    serializeElements encode t i count = serializeElements encode' t' i count := by
  induction count generalizing i with
  | zero => rfl
  | succ count ih =>
    have helement : encode ((t.get (arrayKey i)).getD .nil) =
        encode' ((t'.get (arrayKey i)).getD .nil) := by
      have hkey := hsame (arrayKey i)
      generalize t.get (arrayKey i) = v at hkey ⊢
      generalize t'.get (arrayKey i) = v' at hkey ⊢
      cases hkey with
      | some hv => exact hv.1
      | none => exact hnil
    rw [serializeElements, serializeElements, helement, ih]

theorem serializeEntries_same (hsame : SameEncoding encode encode' t t') (keys : List LuaKey) :
    serializeEntries encode t keys = serializeEntries encode' t' keys := by
  induction keys with
  | nil => rfl
  | cons key keys ih =>
    rw [serializeEntries, serializeEntries, ih]
    have hkey := hsame key
    generalize t.get key = v at hkey ⊢
    generalize t'.get key = v' at hkey ⊢
    cases hkey with
    | some hv =>
      dsimp only
      rw [hv.1, hv.2]
    | none => rfl

theorem serializeTable_same (hlength : t.length = t'.length)
    (hkeys : t.sortedKeys = t'.sortedKeys) (hsame : SameEncoding encode encode' t t')
    (hnil : encode .nil = encode' .nil) : serializeTable encode t = serializeTable encode' t' := by
  have hfilter : hasValue t = hasValue t' := by
    funext key
    have hkey := hsame key
    rw [hasValue, hasValue]
    generalize t.get key = v at hkey ⊢
    generalize t'.get key = v' at hkey ⊢
    cases hkey with
    | some hv => exact congrArg not hv.2
    | none => rfl
  simp only [serializeTable, hfilter, hlength, hkeys, serializeElements_same hsame hnil,
    serializeEntries_same hsame]

theorem serializeTable_congr (hget : ∀ key, t.get key = t'.get key)
    (hlength : t.length = t'.length) (hkeys : t.sortedKeys = t'.sortedKeys)
    (encode : LuaValue → Except CanonError Bytes) :
    serializeTable encode t = serializeTable encode t' := by
  refine serializeTable_same hlength hkeys (fun key => ?_) rfl
  rw [hget key]
  cases t'.get key with
  | none => exact .none
  | some v => exact .some ⟨rfl, rfl⟩

/-- What the encoder sees of two tables in the same place of a heap. -/
def SameTable (t t' : LuaTable LuaValue) : Prop :=
  (∀ key, t.get key = t'.get key) ∧ t.length = t'.length ∧ t.sortedKeys = t'.sortedKeys

theorem serializeValue_congr {h h' : Heap} (hsame : ∀ r, SameTable (h.table r) (h'.table r))
    (levels : Nat) (v : LuaValue) : serializeValue h levels v = serializeValue h' levels v := by
  induction levels generalizing v with
  | zero => rfl
  | succ levels ih =>
    cases v with
    | table r =>
      obtain ⟨hget, hlength, hkeys⟩ := hsame r
      have hencode : serializeValue h levels = serializeValue h' levels := funext ih
      rw [serializeValue, serializeValue, hencode]
      exact serializeTable_congr hget hlength hkeys _
    | _ => rfl

end Congruence

theorem sameTable_of_runOps {ops ops' : List (TableOp LuaValue)} {t t' : LuaTable LuaValue}
    (hrun : new.runOps ops = some t) (hrun' : new.runOps ops' = some t')
    (hget : ∀ key, t.get key = t'.get key) : SameTable t t' := by
  have hwf := wf_runOps wf_new hrun
  have hwf' := wf_runOps wf_new hrun'
  have harray := array_eq_of_get hwf hwf' hget
  have hhash := hash_eq_of_get hwf hwf' hget
  exact ⟨hget, by rw [LuaTable.length, LuaTable.length, harray],
    by rw [sortedKeys, sortedKeys, harray, hhash]⟩

/-- Two histories with the same outcome are indistinguishable, for the table
itself and for every value that reaches it. -/
theorem canonicalSerialize_of_get_eq {ops ops' : List (TableOp LuaValue)}
    {t t' : LuaTable LuaValue} (hrun : new.runOps ops = some t)
    (hrun' : new.runOps ops' = some t') (hget : ∀ key, t.get key = t'.get key) (h : Heap)
    (r : TableRef) :
    t.length = t'.length ∧ t.sortedKeys = t'.sortedKeys ∧
      canonicalSerializeTable h t = canonicalSerializeTable h t' ∧
      ∀ v, canonicalSerialize (h.setTable r t) v = canonicalSerialize (h.setTable r t') v := by
  obtain ⟨-, hlength, hkeys⟩ := sameTable_of_runOps hrun hrun' hget
  refine ⟨hlength, hkeys, ?_, fun v => ?_⟩
  · rw [canonicalSerializeTable, canonicalSerializeTable, serializeTable_congr hget hlength hkeys]
  · have hsame : ∀ r', SameTable ((h.setTable r t).table r') ((h.setTable r t').table r') := by
      intro r'
      rw [Heap.table_setTable, Heap.table_setTable]
      split_ifs
      · exact ⟨hget, hlength, hkeys⟩
      · exact ⟨fun _ => rfl, rfl, rfl⟩
    rw [canonicalSerialize, canonicalSerialize, serializeValue_congr hsame]

/-- `{10, 20}` written backwards, with an entry added and removed on the way. -/
def tenTwentyDetour : List (TableOp LuaValue) :=
  [.rawset (.integer 2) (.integer 20), .rawset (.string (ascii "x")) (.boolean true),
    .rawset (.integer 1) (.integer 10), .rawremove (.string (ascii "x"))]

def tenTwentyDirect : List (TableOp LuaValue) :=
  [.rawset (.integer 1) (.integer 10), .rawset (.integer 2) (.integer 20)]

theorem canonicalSerialize_of_get_eq_tenTwenty :
    (⟨[.integer 10, .integer 20], [], 2, 4⟩ : LuaTable LuaValue).length =
        (⟨[.integer 10, .integer 20], [], 2, 0⟩ : LuaTable LuaValue).length ∧
      (⟨[.integer 10, .integer 20], [], 2, 4⟩ : LuaTable LuaValue).sortedKeys =
        (⟨[.integer 10, .integer 20], [], 2, 0⟩ : LuaTable LuaValue).sortedKeys ∧
      canonicalSerializeTable (heapOf new) ⟨[.integer 10, .integer 20], [], 2, 4⟩ =
        canonicalSerializeTable (heapOf new) ⟨[.integer 10, .integer 20], [], 2, 0⟩ ∧
      ∀ v, canonicalSerialize ((heapOf new).setTable 0 ⟨[.integer 10, .integer 20], [], 2, 4⟩) v =
        canonicalSerialize ((heapOf new).setTable 0 ⟨[.integer 10, .integer 20], [], 2, 0⟩) v :=
  @canonicalSerialize_of_get_eq tenTwentyDetour tenTwentyDirect _ _ rfl rfl (fun _ => rfl)
    (heapOf new) 0

end Proveno.Canonicalize
