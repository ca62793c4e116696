import Proveno.Host.Determinism

/-! What the decoder accepts has canonical bytes of its own: once a value is decoded and
encoded, decoding and encoding again change nothing. -/

namespace Proveno

/-- The tables of the first heap are where they were in the second. -/
structure Heap.Keeps (h h' : Heap) : Prop where
  length : h.tables.length ≤ h'.tables.length
  table : ∀ r < h.tables.length, h'.table r = h.table r

namespace Heap.Keeps

variable {h h' h'' : Heap}

theorem refl (h : Heap) : h.Keeps h := ⟨le_rfl, fun _ _ => rfl⟩

theorem trans (hk : h.Keeps h') (hk' : h'.Keeps h'') : h.Keeps h'' :=
  ⟨hk.length.trans hk'.length, fun r hr =>
    (hk'.table r (hr.trans_le hk.length)).trans (hk.table r hr)⟩

theorem allocTable (h : Heap) (t : LuaTable LuaValue) : h.Keeps (h.allocTable t).2 := by
  refine ⟨by simp [Heap.allocTable], fun r hr => ?_⟩
  simp [Heap.table, Heap.allocTable, List.getD_eq_getElem?_getD, List.getElem?_append_left hr]

end Heap.Keeps

theorem Heap.table_allocTable (h : Heap) (t : LuaTable LuaValue) :
    (h.allocTable t).2.table h.tables.length = t := by
  simp [Heap.table, Heap.allocTable, List.getD_eq_getElem?_getD]

namespace Canonicalize

open LuaTable

/-- A value stands in the heap for an owned one, with well-formed tables. -/
structure Placed (h : Heap) (v : LuaValue) (o : OwnedValue) : Prop where
  structEq : StructEq h v o
  tables : ∀ r, Within h v r → r < h.tables.length ∧ (h.table r).Wf

theorem within_of_keeps {h h' : Heap} (hk : h.Keeps h') {v : LuaValue} {r : TableRef}
    (hr : Within h' v r) (hin : ∀ r, Within h v r → r < h.tables.length) : Within h v r := by
  induction hr with
  | self r => exact .self r
  | @child r r' key v hget _ ih =>
    rw [hk.table r (hin r (.self r))] at hget
    exact .child hget (ih fun r'' hr'' => hin r'' (.child hget hr''))

theorem structEq_of_keeps {h h' : Heap} (hk : h.Keeps h') {v : LuaValue} {o : OwnedValue}
    (heq : StructEq h v o) (hin : ∀ r, Within h v r → r < h.tables.length) : StructEq h' v o := by
  induction heq with
  | nil => exact .nil
  | boolean b => exact .boolean b
  | integer n => exact .integer n
  | string s => exact .string s
  | @table r t hkeys hvalues ih =>
    have htable := hk.table r (hin r (.self r))
    refine .table (htable ▸ hkeys) fun key v o hv ho => ?_
    rw [htable] at hv
    exact ih key v o hv ho fun r' hr' => hin r' (.child hv hr')

theorem Placed.mono {h h' : Heap} {v : LuaValue} {o : OwnedValue} (hp : Placed h v o)
    (hk : h.Keeps h') : Placed h' v o := by
  have hin : ∀ r, Within h v r → r < h.tables.length := fun r hr => (hp.tables r hr).1
  refine ⟨structEq_of_keeps hk hp.structEq hin, fun r hr => ?_⟩
  obtain ⟨hlt, hwf⟩ := hp.tables r (within_of_keeps hk hr hin)
  exact ⟨hlt.trans_le hk.length, (hk.table r hlt).symm ▸ hwf⟩

theorem StructEq.isNil {h : Heap} {v : LuaValue} {o : OwnedValue} (heq : StructEq h v o) :
    HasNil.isNil v = HasNil.isNil o := by
  cases heq <;> rfl

/-- Installing a table places it, once it is itself in the heap. -/
theorem placed_table {h : Heap} {t' : LuaTable LuaValue} {t : LuaTable OwnedValue}
    (hwf : t.Wf) (hrel : Rel (Placed h) t' t) :
    Placed (h.allocTable t').2 (.table h.tables.length) (.table t) := by
  have htable := h.table_allocTable t'
  have hk := Heap.Keeps.allocTable h t'
  have hwf' : t'.Wf := by
    refine hrel.wf hwf fun v hv => ?_
    obtain ⟨o, ho, hp⟩ := hrel.values hv
    rw [hp.structEq.isNil]
    exact isNil_of_mem_values hwf ho
  have hvalue {key : LuaKey} {v : LuaValue} (hv : t'.get key = some v) :
      ∃ o, t.get key = some o ∧ Placed (h.allocTable t').2 v o := by
    have hget := hrel.get key
    rw [hv] at hget
    cases hto : t.get key with
    | none => rw [hto] at hget; cases hget
    | some o =>
      rw [hto] at hget
      cases hget with
      | some hp => exact ⟨o, rfl, hp.mono hk⟩
  constructor
  · refine .table (fun key => ?_) fun key v o hv ho => ?_
    · rw [htable]
      exact hrel.get_eq_none_iff key
    · rw [htable] at hv
      obtain ⟨o', ho', hp⟩ := hvalue hv
      rw [ho, Option.some.injEq] at ho'
      exact ho' ▸ hp.structEq
  · intro r hr
    cases hr with
    | self => exact ⟨by simp [Heap.allocTable], htable.symm ▸ hwf'⟩
    | child hget hr =>
      rw [htable] at hget
      obtain ⟨o, -, hp⟩ := hvalue hget
      exact hp.tables r hr

mutual

theorem placed_install : ∀ (o : OwnedValue) (h : Heap), Decoded o →
    h.Keeps (o.install h).2 ∧ Placed (o.install h).2 (o.install h).1 o
  | .nil, h, _ => ⟨.refl h, .nil, nofun⟩
  | .boolean b, h, _ => ⟨.refl h, .boolean b, nofun⟩
  | .integer n, h, _ => ⟨.refl h, .integer n, nofun⟩
  | .string s, h, _ => ⟨.refl h, .string s, nofun⟩
  | .live v, h, hd => nomatch hd
  | .table t, h, .table hwf hcap hclean hvalues => by
    obtain ⟨hk, hrel⟩ := placed_installTable t h hvalues
    exact ⟨hk.trans (.allocTable _ _), placed_table hwf hrel⟩

theorem placed_installTable : ∀ (t : LuaTable OwnedValue) (h : Heap),
    (∀ o ∈ t.values, Decoded o) →
    h.Keeps (installTable t h).2 ∧ Rel (Placed (installTable t h).2) (installTable t h).1 t
  | ⟨array, entries, _, _⟩, h, hvalues => by
    obtain ⟨hk, harray⟩ := placed_installArray array h fun o ho =>
      hvalues o (List.mem_append_left _ ho)
    obtain ⟨hk', hhash⟩ := placed_installHash entries (installArray array h).2 fun e he =>
      hvalues e.2 (List.mem_append_right _ (List.mem_map_of_mem he))
    exact ⟨hk.trans hk', harray.imp fun _ _ hp => hp.mono hk', hhash, rfl, rfl⟩

theorem placed_installArray : ∀ (vs : List OwnedValue) (h : Heap), (∀ o ∈ vs, Decoded o) →
    h.Keeps (installArray vs h).2 ∧
      List.Forall₂ (Placed (installArray vs h).2) (installArray vs h).1 vs
  | [], h, _ => ⟨.refl h, .nil⟩
  | v :: vs, h, hvalues => by
    obtain ⟨hk, hv⟩ := placed_install v h (hvalues v (.head _))
    obtain ⟨hk', hvs⟩ := placed_installArray vs (v.install h).2 fun o ho =>
      hvalues o (.tail _ ho)
    exact ⟨hk.trans hk', .cons (hv.mono hk') hvs⟩

theorem placed_installHash : ∀ (entries : List (LuaKey × OwnedValue)) (h : Heap),
    (∀ e ∈ entries, Decoded e.2) →
    h.Keeps (installHash entries h).2 ∧
      List.Forall₂ (fun e e' => e.1 = e'.1 ∧ Placed (installHash entries h).2 e.2 e'.2)
        (installHash entries h).1 entries
  | [], h, _ => ⟨.refl h, .nil⟩
  | (_, v) :: entries, h, hvalues => by
    obtain ⟨hk, hv⟩ := placed_install v h (hvalues _ (.head _))
    obtain ⟨hk', hentries⟩ := placed_installHash entries (v.install h).2 fun e he =>
      hvalues e (.tail _ he)
    exact ⟨hk.trans hk', .cons ⟨rfl, hv.mono hk'⟩ hentries⟩

end

section Congruence

variable {h h' : Heap}

/-- Values that are structurally equal to one and the same are encoded alike. -/
theorem serializeValue_of_structEq {v v' : LuaValue} {o : OwnedValue}
    (hv : StructEq h v o) (hv' : StructEq h' v' o)
    (hwf : ∀ r, Within h v r → (h.table r).Wf) (hwf' : ∀ r, Within h' v' r → (h'.table r).Wf)
    (levels : Nat) : serializeValue h levels v = serializeValue h' levels v' := by
  induction levels generalizing v v' o with
  | zero => rfl
  | succ levels ih =>
    cases hv with
    | @table r t hkeys hvalues =>
      cases hv' with
      | @table r' _ hkeys' hvalues' =>
        rw [serializeValue, serializeValue]
        have hboth (key : LuaKey) :
            (h.table r).get key = none ↔ (h'.table r').get key = none :=
          (hkeys key).trans (hkeys' key).symm
        have ht := hwf r (.self r)
        have ht' := hwf' r' (.self r')
        refine serializeTable_same (length_eq_of_keys ht ht' hboth)
          (sortedKeys_eq_of_keys ht ht' hboth) (fun key => ?_) (by cases levels <;> rfl)
        cases hv : (h.table r).get key with
        | none =>
          rw [(hboth key).mp hv]
          exact .none
        | some v =>
          obtain ⟨o, ho⟩ := Option.ne_none_iff_exists'.mp fun hnone => by
            rw [(hkeys key).mpr hnone] at hv
            cases hv
          obtain ⟨v', hv'⟩ := Option.ne_none_iff_exists'.mp fun hnone => by
            rw [(hboth key).mpr hnone] at hv
            cases hv
          have heq := hvalues key v o hv ho
          have heq' := hvalues' key v' o hv' ho
          rw [hv']
          exact .some ⟨ih heq heq' (fun r hr => hwf r (.child hv hr))
            (fun r hr => hwf' r (.child hv' hr)), heq.isNil.trans heq'.isNil.symm⟩
    | _ =>
      cases hv'
      rfl

end Congruence

/-- Encoding what was decoded gives bytes that decode and encode to the same again. -/
theorem canonicalSerialize_stable {b b' : Bytes} {o : OwnedValue} {h : Heap}
    (hdec : canonicalDeserialize b = .ok o)
    (hser : canonicalSerialize (o.install h).2 (o.install h).1 = .ok b') :
    ∃ o', canonicalDeserialize b' = .ok o' ∧ StructEq (o.install h).2 (o.install h).1 o' ∧
      ∀ h' : Heap, canonicalSerialize (o'.install h').2 (o'.install h').1 = .ok b' := by
  have hdecoded := decoded_of_canonicalDeserialize hdec
  obtain ⟨-, heq, htables⟩ := placed_install o h hdecoded
  have hwf : ∀ r, Within (o.install h).2 (o.install h).1 r → ((o.install h).2.table r).Wf :=
    fun r hr => (htables r hr).2
  have hdec' := canonicalDeserialize_eq_decoded hwf hser fun r hr =>
    roundTrips_of_within hr hwf heq hdecoded
  have heq' := structEq_decoded hwf (serializeValue_of_canonicalSerialize hser)
  refine ⟨_, hdec', heq', fun h' => ?_⟩
  obtain ⟨-, hplaced⟩ := placed_install _ h' (decoded_of_canonicalDeserialize hdec')
  rw [canonicalSerialize, ← serializeValue_of_structEq heq' hplaced.structEq hwf
    fun r hr => (hplaced.tables r hr).2]
  exact hser

/-- An array of one element, and its place in an empty heap. -/
def seven : OwnedValue := .table ⟨[.integer 7], [], 1, 0⟩

theorem canonicalSerialize_stable_seven :
    ∃ o', canonicalDeserialize (ascii "[7]") = .ok o' ∧
      StructEq (seven.install Heap.empty).2 (seven.install Heap.empty).1 o' ∧
      ∀ h' : Heap, canonicalSerialize (o'.install h').2 (o'.install h').1 = .ok (ascii "[7]") :=
  canonicalSerialize_stable (b := ascii " [ 7]") (o := seven) rfl (by decide)

end Canonicalize

end Proveno
