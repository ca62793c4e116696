import Proveno.Types.TableWordSize
import Proveno.Vm.Tables

/-! `table.insert` and `table.remove` as insertion into a list and removal from one. Every
write of their loops is to an element that is there, but for the one that makes the list
longer. -/

namespace Proveno

namespace LuaTable

theorem arrayKey_inj {m n : Nat} (hm : m < 2 ^ 63) (hn : n < 2 ^ 63) :
    arrayKey m = arrayKey n ↔ m = n := by
  refine ⟨fun h => ?_, fun h => h ▸ rfl⟩
  have hint := congrArg Int64.toInt (LuaKey.integer.inj h)
  rw [toInt_arrayKey hm, toInt_arrayKey hn] at hint
  omega

theorem arrayKey_ne_minValue {n : Nat} (hn : n < 2 ^ 63) :
    arrayKey n ≠ .integer Int64.minValue := by
  intro h
  have hint := congrArg Int64.toInt (LuaKey.integer.inj h)
  rw [toInt_arrayKey hn] at hint
  have hmin : Int64.minValue.toInt = -2 ^ 63 := by decide
  omega

section Writes

variable {V : Type} [HasNil V] {t : LuaTable V} {value : V}

/-- What a write of an element that is there leaves. -/
structure Overwrites (t : LuaTable V) (n : Nat) (value : V) (t' : LuaTable V) : Prop where
  wf : t'.Wf
  length : t'.length = t.length
  entryCount : t'.entryCount = t.entryCount
  get : ∀ key, t'.get key = if key = arrayKey n then some value else t.get key

/-- A write of an element that is there changes the element, whether it fails or not. -/
theorem rawsetTracked_set (h : t.Wf) {n : Nat} (h1 : 1 ≤ n) (hn : n ≤ t.length)
    (hvalue : HasNil.isNil value = false) :
    t.rawsetTracked (arrayKey n) value =
      (if t.entryCount > maxTableEntries then .error .memory else .ok .updated,
        { t with array := t.array.set (n - 1) value }) := by
  have hbound := h.bound
  change n ≤ t.array.length at hn
  have hint : (Int64.ofNat n).toInt = n := toInt_arrayKey (by omega)
  have hmin := arrayKey_ne_minValue (n := n) (by omega)
  have hnear : 1 ≤ (n : Int) ∧ (n : Int) ≤ t.array.length + 1 := by omega
  have hin : (n : Int) ≤ t.array.length := by omega
  have hstore : t.store (arrayKey n) value =
      (.updated, { t with array := t.array.set (n - 1) value }) := by
    simp only [store, arrayKey, hint, if_pos hnear, if_pos hin, Int.toNat_natCast]
  simp only [rawsetTracked, if_neg hmin, hvalue, Bool.false_eq_true, if_false, hstore]
  split_ifs <;> rfl

/-- A write of an element that is there. -/
theorem rawsetTracked_element (h : t.Wf) (hcap : t.entryCount ≤ maxTableEntries) {n : Nat}
    (h1 : 1 ≤ n) (hn : n ≤ t.length) (hvalue : HasNil.isNil value = false) :
    ∃ t', t.rawsetTracked (arrayKey n) value = (.ok .updated, t') ∧ t.Overwrites n value t' := by
  have hbound := h.bound
  have hin : n ≤ t.array.length := hn
  have hint : (Int64.ofNat n).toInt = n := toInt_arrayKey (by omega)
  refine ⟨{ t with array := t.array.set (n - 1) value }, ?_, wf_set h _ hvalue,
    List.length_set, rfl, fun key => ?_⟩
  · rw [rawsetTracked_set h h1 hn hvalue, if_neg (not_lt.mpr hcap)]
  · have hrange : 1 ≤ (Int64.ofNat n).toInt ∧ (Int64.ofNat n).toInt ≤ t.array.length := by
      omega
    have hget := get_set hrange value key
    rwa [hint] at hget

/-- What a write of the element after the last leaves. -/
structure Appends (t : LuaTable V) (value : V) (t' : LuaTable V) : Prop where
  wf : t'.Wf
  length : t.length + 1 ≤ t'.length
  entryCount : t'.entryCount = t.entryCount + 1
  get : ∀ key, t'.get key = if key = arrayKey (t.length + 1) then some value else t.get key

/-- A write of the element after the last. -/
theorem rawsetTracked_append (h : t.Wf) (hcap : t.entryCount < maxTableEntries)
    (hvalue : HasNil.isNil value = false) :
    ∃ t', t.rawsetTracked (arrayKey (t.length + 1)) value =
        (.ok (.inserted false t.hashCapacity), t') ∧ t.Appends value t' := by
  have hcount := h.count
  have hmax : maxTableEntries = 50000 := rfl
  have hlength : t.length = t.array.length := rfl
  have hint : (Int64.ofNat (t.length + 1)).toInt = (t.length + 1 : Nat) :=
    toInt_arrayKey (by omega)
  have hmin := arrayKey_ne_minValue (n := t.length + 1) (by omega)
  have hnear : 1 ≤ ((t.length + 1 : Nat) : Int) ∧
      ((t.length + 1 : Nat) : Int) ≤ t.array.length + 1 := by omega
  have hout : ¬((t.length + 1 : Nat) : Int) ≤ t.array.length := by omega
  have hstore : t.store (arrayKey (t.length + 1)) value =
      (.inserted false t.hashCapacity, t.append value) := by
    simp only [store, arrayKey, hint, if_pos hnear, if_neg hout]
  have hentries : (t.append value).entryCount = t.entryCount + 1 :=
    (consolidate_counts t.hash.length (t.pushed value)).1
  refine ⟨t.append value, ?_, ?_, length_lt_append t value, hentries, fun key => ?_⟩
  · simp only [rawsetTracked, if_neg hmin, hvalue, Bool.false_eq_true, if_false, hstore, hentries,
      if_neg (show ¬t.entryCount + 1 > maxTableEntries by omega)]
  · have hwf := wf_store h hmin hvalue
    rwa [hstore] at hwf
  · have hget := get_store h hmin hvalue key
    rwa [hstore] at hget

theorem length_le_of_capped (h : t.Wf) (hcap : t.entryCount ≤ maxTableEntries) :
    t.length ≤ 50000 := by
  have hcount := h.count
  have hmax : maxTableEntries = 50000 := rfl
  change t.array.length ≤ 50000
  omega

/-- A table holds no nil. -/
theorem isNil_of_get (h : t.Wf) {key : LuaKey} {v : V} (hget : t.get key = some v) :
    HasNil.isNil v = false := by
  rcases List.mem_append.mp (get_mem_values hget) with hv | hv
  · exact h.arrayNotNil v hv
  · obtain ⟨e, he, rfl⟩ := List.mem_map.mp hv
    exact h.hashNotNil e he

theorem get_element (h : t.Wf) {n : Nat} (h1 : 1 ≤ n) (hn : n ≤ t.length) :
    ∃ v, t.get (arrayKey n) = some v ∧ HasNil.isNil v = false := by
  have hget := get_arrayKey_eq h h1 hn
  have hlt : n - 1 < t.array.length := by
    change n ≤ t.array.length at hn
    omega
  rw [List.getElem?_eq_getElem hlt] at hget
  exact ⟨_, hget, isNil_of_get h hget⟩

end Writes

/-- The table is the list with a value put in at a position. -/
structure Inserted (t : LuaTable LuaValue) (pos : Nat) (v : LuaValue)
    (t' : LuaTable LuaValue) : Prop where
  here : t'.get (arrayKey pos) = some v
  moved : ∀ k, pos ≤ k → k ≤ t.length → t'.get (arrayKey (k + 1)) = t.get (arrayKey k)
  others : ∀ key, (∀ k, pos ≤ k → k ≤ t.length + 1 → key ≠ arrayKey k) → t'.get key = t.get key
  length : t.length + 1 ≤ t'.length

/-- The table is the list with the value at a position taken out. -/
structure Removed (t : LuaTable LuaValue) (pos : Nat) (t' : LuaTable LuaValue) : Prop where
  moved : ∀ k, pos ≤ k → k < t.length → t'.get (arrayKey k) = t.get (arrayKey (k + 1))
  cleared : t'.get (arrayKey t.length) = none
  others : ∀ key, (∀ k, pos ≤ k → k ≤ t.length → key ≠ arrayKey k) → t'.get key = t.get key

end LuaTable

open LuaTable

theorem Heap.setTable_setTable (h : Heap) (r : TableRef) (t t' : LuaTable LuaValue) :
    (h.setTable r t).setTable r t' = h.setTable r t' := by
  simp [setTable]

theorem Heap.table_setTable_self {h : Heap} {r : TableRef} (hr : r < h.tables.length)
    (t : LuaTable LuaValue) : (h.setTable r t).table r = t := by
  rw [table_setTable, if_pos ⟨rfl, hr⟩]

theorem Heap.setTable_table {h : Heap} {r : TableRef} (hr : r < h.tables.length) :
    h.setTable r (h.table r) = h := by
  have hget : h.table r = h.tables[r] := by simp [table, hr]
  rw [setTable, hget, List.set_getElem_self]

@[simp] theorem Heap.length_tables_setTable (h : Heap) (r : TableRef) (t : LuaTable LuaValue) :
    (h.setTable r t).tables.length = h.tables.length := by
  simp [setTable]

namespace Vm

section Loops

variable {c : Core} {r : TableRef}

theorem run_getOrNil (r : TableRef) (key : LuaKey) (c : Core) :
    (getOrNil r key).run c = (.ok (((c.heap.table r).get key).getD .nil), c) := rfl

theorem run_rawsetTracked_ok {key : LuaKey} {value : LuaValue} {result : RawsetResult}
    {t' : LuaTable LuaValue}
    (h : (c.heap.table r).rawsetTracked key value = (.ok result, t')) :
    ∃ grown, (rawsetTracked r key value).run c =
      (.ok result, { c with heap := c.heap.setTable r t', grown }) := by
  simp only [rawsetTracked, h]
  exact ⟨_, rfl⟩

/-- What a computation leaves behind that changes one table only, and neither meter. -/
structure Rewrites (c : Core) (r : TableRef) (t' : LuaTable LuaValue) (c' : Core) : Prop where
  heap : c'.heap = c.heap.setTable r t'
  gas : c'.gas = c.gas
  mem : c'.mem = c.mem

theorem Rewrites.refl (hr : r < c.heap.tables.length) : Rewrites c r (c.heap.table r) c :=
  ⟨(Heap.setTable_table hr).symm, rfl, rfl⟩

theorem Rewrites.table {t' : LuaTable LuaValue} {c' : Core} (h : Rewrites c r t' c')
    (hr : r < c.heap.tables.length) : c'.heap.table r = t' := by
  rw [h.heap, Heap.table_setTable_self hr]

theorem Rewrites.live {t' : LuaTable LuaValue} {c' : Core} (h : Rewrites c r t' c')
    (hr : r < c.heap.tables.length) : r < c'.heap.tables.length := by
  rwa [h.heap, Heap.length_tables_setTable]

theorem Rewrites.trans {t₁ t₂ : LuaTable LuaValue} {c₁ c₂ : Core} (h : Rewrites c r t₁ c₁)
    (h' : Rewrites c₁ r t₂ c₂) : Rewrites c r t₂ c₂ := by
  refine ⟨?_, h'.gas.trans h.gas, h'.mem.trans h.mem⟩
  rw [h'.heap, h.heap, Heap.setTable_setTable]

theorem rawsetCharged_element (h : (c.heap.table r).Wf)
    (hcap : (c.heap.table r).entryCount ≤ maxTableEntries) {n : Nat} (h1 : 1 ≤ n)
    (hn : n ≤ (c.heap.table r).length) {value : LuaValue} (hvalue : HasNil.isNil value = false) :
    ∃ t' c', (rawsetCharged r (arrayKey n) value).run c = (.ok (), c') ∧ Rewrites c r t' c' ∧
      (c.heap.table r).Overwrites n value t' := by
  obtain ⟨t', hset, hover⟩ := rawsetTracked_element h hcap h1 hn hvalue
  obtain ⟨grown, hrun⟩ := run_rawsetTracked_ok hset
  have hread : (getTable r).run c = (.ok (c.heap.table r), c) := rfl
  refine ⟨t', { c with heap := c.heap.setTable r t', grown }, ?_, ⟨rfl, rfl, rfl⟩, hover⟩
  unfold rawsetCharged
  rw [Exec.run_bind_ok hread, Exec.run_bind_ok hrun]
  rfl

theorem rawset_element (h : (c.heap.table r).Wf)
    (hcap : (c.heap.table r).entryCount ≤ maxTableEntries) {n : Nat} (h1 : 1 ≤ n)
    (hn : n ≤ (c.heap.table r).length) {value : LuaValue} (hvalue : HasNil.isNil value = false) :
    ∃ t' c', (rawset r (arrayKey n) value).run c = (.ok (), c') ∧ Rewrites c r t' c' ∧
      (c.heap.table r).Overwrites n value t' := by
  obtain ⟨t', hset, hover⟩ := rawsetTracked_element h hcap h1 hn hvalue
  have hrecord : (do record (.store (← getTable r) (arrayKey n) value) : Vm Unit).run c =
    (.ok (), c.record (.store (c.heap.table r) (arrayKey n) value)) := rfl
  obtain ⟨grown, hrun⟩ := run_rawsetTracked_ok
    (c := c.record (.store (c.heap.table r) (arrayKey n) value)) hset
  refine ⟨t', { c.record (.store (c.heap.table r) (arrayKey n) value) with
    heap := c.heap.setTable r t', grown }, ?_, ⟨rfl, rfl, rfl⟩, hover⟩
  unfold rawset
  change ((do record (.store (← getTable r) (arrayKey n) value) : Vm Unit) >>= fun _ =>
    rawsetTracked r (arrayKey n) value >>= fun _ => pure ()).run c = _
  rw [Exec.run_bind_ok hrecord, Exec.run_bind_ok hrun]
  rfl

/-- The elements from `pos` to `k` have moved one place up. -/
structure ShiftedUp (t : LuaTable LuaValue) (pos k : Nat) (t' : LuaTable LuaValue) : Prop where
  wf : t'.Wf
  length : t'.length = t.length
  entryCount : t'.entryCount = t.entryCount
  moved : ∀ j, pos ≤ j → j ≤ k → t'.get (arrayKey (j + 1)) = t.get (arrayKey j)
  others : ∀ key, (∀ j, pos ≤ j → j ≤ k → key ≠ arrayKey (j + 1)) → t'.get key = t.get key

theorem shiftRight_shiftedUp {pos : Nat} (hpos : 1 ≤ pos) (k : Nat) {c : Core}
    (hr : r < c.heap.tables.length) (h : (c.heap.table r).Wf)
    (hcap : (c.heap.table r).entryCount ≤ maxTableEntries) (hk : k < (c.heap.table r).length) :
    ∃ t' c', (shiftRight r pos k).run c = (.ok (), c') ∧ Rewrites c r t' c' ∧
      ShiftedUp (c.heap.table r) pos k t' := by
  induction k generalizing c with
  | zero =>
    exact ⟨_, c, rfl, .refl hr, h, rfl, rfl, fun j hj hjk => by omega, fun _ _ => rfl⟩
  | succ k ih =>
    unfold shiftRight
    by_cases hlt : k + 1 < pos
    · rw [if_pos hlt]
      exact ⟨_, c, rfl, .refl hr, h, rfl, rfl, fun j hj hjk => by omega, fun _ _ => rfl⟩
    rw [if_neg hlt]
    have hbound := length_le_of_capped h hcap
    obtain ⟨v, hv, hnil⟩ := get_element h (n := k + 1) (by omega) (by omega)
    obtain ⟨t₁, c₁, hrun, hrew, hover⟩ :=
      rawsetCharged_element h hcap (n := k + 2) (by omega) (by omega) hnil
    have htable := hrew.table hr
    obtain ⟨t', c', hrun', hrew', hshift⟩ := ih (hrew.live hr) (htable ▸ hover.wf)
      (by rw [htable, hover.entryCount]; exact hcap) (by rw [htable, hover.length]; omega)
    rw [htable] at hshift
    refine ⟨t', c', ?_, hrew.trans hrew', hshift.wf, hshift.length.trans hover.length,
      hshift.entryCount.trans hover.entryCount, fun j hj hjk => ?_, fun key hkey => ?_⟩
    · rw [Exec.run_bind_ok (run_getOrNil r _ c), hv, Option.getD_some, Exec.run_bind_ok hrun, hrun']
    · by_cases hlast : j = k + 1
      · subst hlast
        rw [hshift.others, hover.get, if_pos rfl, hv]
        intro i hi hik heq
        rw [arrayKey_inj (by omega) (by omega)] at heq
        omega
      · rw [hshift.moved j hj (by omega), hover.get, if_neg]
        rw [arrayKey_inj (by omega) (by omega)]
        omega
    · rw [hshift.others key fun j hj hjk => hkey j hj (by omega), hover.get,
        if_neg (hkey (k + 1) (by omega) le_rfl)]

/-- The elements after `pos` have moved one place down, as many as the count says. -/
structure ShiftedDown (t : LuaTable LuaValue) (pos count : Nat) (t' : LuaTable LuaValue) :
    Prop where
  wf : t'.Wf
  length : t'.length = t.length
  entryCount : t'.entryCount = t.entryCount
  moved : ∀ j, pos ≤ j → j < pos + count → t'.get (arrayKey j) = t.get (arrayKey (j + 1))
  others : ∀ key, (∀ j, pos ≤ j → j < pos + count → key ≠ arrayKey j) → t'.get key = t.get key

theorem shiftLeft_shiftedDown (count : Nat) {pos : Nat} (hpos : 1 ≤ pos) {c : Core}
    (hr : r < c.heap.tables.length) (h : (c.heap.table r).Wf)
    (hcap : (c.heap.table r).entryCount ≤ maxTableEntries)
    (hcount : pos + count ≤ (c.heap.table r).length) :
    ∃ t' c', (shiftLeft r pos count).run c = (.ok (), c') ∧ Rewrites c r t' c' ∧
      ShiftedDown (c.heap.table r) pos count t' := by
  induction count generalizing c pos with
  | zero =>
    exact ⟨_, c, rfl, .refl hr, h, rfl, rfl, fun j hj hjk => by omega, fun _ _ => rfl⟩
  | succ count ih =>
    unfold shiftLeft
    have hbound := length_le_of_capped h hcap
    obtain ⟨v, hv, hnil⟩ := get_element h (n := pos + 1) (by omega) (by omega)
    obtain ⟨t₁, c₁, hrun, hrew, hover⟩ := rawset_element h hcap hpos (by omega) hnil
    have htable := hrew.table hr
    obtain ⟨t', c', hrun', hrew', hshift⟩ := ih (show 1 ≤ pos + 1 by omega) (hrew.live hr)
      (htable ▸ hover.wf) (by rw [htable, hover.entryCount]; exact hcap)
      (by rw [htable, hover.length]; omega)
    rw [htable] at hshift
    refine ⟨t', c', ?_, hrew.trans hrew', hshift.wf, hshift.length.trans hover.length,
      hshift.entryCount.trans hover.entryCount, fun j hj hjk => ?_, fun key hkey => ?_⟩
    · rw [Exec.run_bind_ok (run_getOrNil r _ c), hv, Option.getD_some, Exec.run_bind_ok hrun, hrun']
    · by_cases hfirst : j = pos
      · subst hfirst
        rw [hshift.others, hover.get, if_pos rfl, hv]
        intro i hi hik heq
        rw [arrayKey_inj (by omega) (by omega)] at heq
        omega
      · rw [hshift.moved j (by omega) (by omega), hover.get, if_neg]
        rw [arrayKey_inj (by omega) (by omega)]
        omega
    · rw [hshift.others key fun j hj hjk => hkey j (by omega) (by omega), hover.get,
        if_neg (hkey pos le_rfl (by omega))]

end Loops

section Insert

variable {c : Core} {r : TableRef}

theorem run_charge_ok {n : Nat} (h : n ≤ c.gas.remaining) :
    (charge n).run c =
      (.ok (), { c with gas := { c.gas with remaining := c.gas.remaining - n } }) := by
  rw [run_charge, if_neg (not_lt.mpr h)]

theorem rawsetCharged_append (h : (c.heap.table r).Wf)
    (hcap : (c.heap.table r).entryCount < maxTableEntries)
    (hmem : c.mem.allocated + AllocSize.tableArraySlot ≤ c.mem.limit) {value : LuaValue}
    (hvalue : HasNil.isNil value = false) :
    ∃ t' c', (rawsetCharged r (arrayKey ((c.heap.table r).length + 1)) value).run c =
        (.ok (), c') ∧ c'.heap = c.heap.setTable r t' ∧ (c.heap.table r).Appends value t' := by
  obtain ⟨t', hset, happ⟩ := rawsetTracked_append h hcap hvalue
  obtain ⟨grown, hrun⟩ := run_rawsetTracked_ok hset
  have hread : (getTable r).run c = (.ok (c.heap.table r), c) := rfl
  refine ⟨t', { c with
    heap := c.heap.setTable r t'
    grown
    mem := { c.mem with
      allocated := min (c.mem.allocated + AllocSize.tableArraySlot) MemoryMeter.u64Max } },
    ?_, rfl, happ⟩
  unfold rawsetCharged
  rw [Exec.run_bind_ok hread, Exec.run_bind_ok hrun]
  change (trackAlloc AllocSize.tableArraySlot).run _ = _
  rw [run_trackAlloc]
  exact if_neg (not_lt.mpr ((min_le_left _ _).trans hmem))

theorem shiftRight_of_lt {pos k : Nat} (h : k < pos) : shiftRight r pos k = pure () := by
  cases k with
  | zero => rfl
  | succ k => rw [shiftRight, if_pos h]

/-- The writes of an insertion: the shift, and the value at its position. -/
theorem shiftRight_inserted (hr : r < c.heap.tables.length) (h : (c.heap.table r).Wf)
    (hcap : (c.heap.table r).entryCount < maxTableEntries)
    (hmem : c.mem.allocated + AllocSize.tableArraySlot ≤ c.mem.limit) {value : LuaValue}
    (hvalue : HasNil.isNil value = false) {pos : Nat} (hpos : 1 ≤ pos)
    (hlast : pos ≤ (c.heap.table r).length + 1) :
    ∃ t' c', (do
        shiftRight r pos (c.heap.table r).length
        rawsetCharged r (arrayKey pos) value
        pure []).run c = (.ok ([] : List LuaValue), c') ∧
      c'.heap = c.heap.setTable r t' ∧ (c.heap.table r).Inserted pos value t' := by
  have hbound := length_le_of_capped h hcap.le
  by_cases hend : pos = (c.heap.table r).length + 1
  · obtain ⟨t', c', hrun, hheap, happ⟩ := rawsetCharged_append h hcap hmem hvalue
    refine ⟨t', c', ?_, hheap, ?_, fun k hk hkn => by omega, fun key hkey => ?_, happ.length⟩
    · rw [shiftRight_of_lt (by omega), Exec.pure_bind, hend, Exec.run_bind_ok hrun]
      rfl
    · rw [happ.get, hend, if_pos rfl]
    · rw [happ.get, if_neg (hkey _ hlast le_rfl)]
  · obtain ⟨n, hn⟩ : ∃ n, (c.heap.table r).length = n + 1 :=
      ⟨(c.heap.table r).length - 1, by omega⟩
    obtain ⟨v, hv, hnil⟩ := get_element h (n := n + 1) (by omega) (by omega)
    obtain ⟨t₁, c₁, hrun₁, hheap₁, happ⟩ := rawsetCharged_append h hcap hmem hnil
    have hr₁ : r < c₁.heap.tables.length := by rwa [hheap₁, Heap.length_tables_setTable]
    have htable₁ : c₁.heap.table r = t₁ := by rw [hheap₁, Heap.table_setTable_self hr]
    have hlength₁ := happ.length
    have hcap₁ : t₁.entryCount ≤ maxTableEntries := by
      rw [happ.entryCount]
      exact hcap
    obtain ⟨t₂, c₂, hrun₂, hrew₂, hshift⟩ := shiftRight_shiftedUp hpos n hr₁ (htable₁ ▸ happ.wf)
      (htable₁ ▸ hcap₁) (by rw [htable₁]; omega)
    have htable₂ := hrew₂.table hr₁
    rw [htable₁] at hshift
    obtain ⟨t₃, c₃, hrun₃, hrew₃, hover⟩ := rawsetCharged_element (htable₂ ▸ hshift.wf)
      (by rw [htable₂, hshift.entryCount]; exact hcap₁) hpos
      (by rw [htable₂, hshift.length]; omega) hvalue
    rw [htable₂] at hover
    have hget₁ := happ.get
    rw [hn] at hrun₁ hget₁ hlength₁
    refine ⟨t₃, c₃, ?_, ?_, ?_, fun k hk hkn => ?_, fun key hkey => ?_, ?_⟩
    · rw [hn, shiftRight, if_neg (by omega), Exec.bind_assoc, Exec.run_bind_ok (run_getOrNil r _ c),
        hv, Option.getD_some, Exec.bind_assoc, Exec.run_bind_ok hrun₁, Exec.run_bind_ok hrun₂,
        Exec.run_bind_ok hrun₃]
      rfl
    · rw [hrew₃.heap, hrew₂.heap, hheap₁, Heap.setTable_setTable, Heap.setTable_setTable]
    · rw [hover.get, if_pos rfl]
    · rw [hover.get, if_neg (by rw [arrayKey_inj (by omega) (by omega)]; omega)]
      by_cases hk' : k = n + 1
      · subst hk'
        rw [hshift.others, hget₁, if_pos rfl, hv]
        intro i hi hin heq
        rw [arrayKey_inj (by omega) (by omega)] at heq
        omega
      · rw [hshift.moved k hk (by omega), hget₁, if_neg]
        rw [arrayKey_inj (by omega) (by omega)]
        omega
    · rw [hover.get, if_neg (hkey pos le_rfl hlast),
        hshift.others key fun j hj hjn => hkey (j + 1) (by omega) (by omega), hget₁,
        if_neg (hn ▸ hkey _ (by omega) le_rfl)]
    · rw [hover.length, hshift.length, hn]
      exact hlength₁

end Insert

section Remove

variable {c : Core} {r : TableRef}

/-- The writes of a removal: the shift, and the last element taken away. -/
theorem shiftLeft_removed (hr : r < c.heap.tables.length) (h : (c.heap.table r).Wf)
    (hcap : (c.heap.table r).entryCount ≤ maxTableEntries) {pos : Nat} (hpos : 1 ≤ pos)
    (hlast : pos ≤ (c.heap.table r).length) (v : LuaValue) :
    ∃ t' c', (do
        shiftLeft r pos ((c.heap.table r).length - pos)
        rawremove r (arrayKey (c.heap.table r).length)
        pure [v]).run c = (.ok [v], c') ∧
      c'.heap = c.heap.setTable r t' ∧ (c.heap.table r).Removed pos t' := by
  have hbound := length_le_of_capped h hcap
  obtain ⟨t₁, c₁, hrun, hrew, hshift⟩ :=
    shiftLeft_shiftedDown ((c.heap.table r).length - pos) hpos hr h hcap (by omega)
  have htable := hrew.table hr
  have hlength := hshift.length
  have hint : ¬t₁.Interior (arrayKey (c.heap.table r).length) := by
    rintro ⟨-, hlt⟩
    rw [toInt_arrayKey (by omega)] at hlt
    change t₁.array.length = _ at hlength
    omega
  refine ⟨t₁.rawremove (arrayKey (c.heap.table r).length),
    { c₁ with heap := c₁.heap.setTable r (t₁.rawremove (arrayKey (c.heap.table r).length)) },
    ?_, ?_, fun k hk hkn => ?_, ?_, fun key hkey => ?_⟩
  · rw [Exec.run_bind_ok hrun, ← htable]
    rfl
  · rw [hrew.heap, Heap.setTable_setTable]
  · rw [get_rawremove hshift.wf hint, if_neg, hshift.moved k hk (by omega)]
    rw [arrayKey_inj (by omega) (by omega)]
    omega
  · rw [get_rawremove hshift.wf hint, if_pos rfl]
  · rw [get_rawremove hshift.wf hint, if_neg (hkey _ hlast le_rfl),
      hshift.others key fun j hj hjn => hkey j hj (by omega)]

end Remove

/-- A position at which a list of length `n` has an element. -/
def IsPosition (n : Nat) (p : LuaValue) : Prop :=
  ∃ pos, p = .integer pos ∧ 1 ≤ pos.toInt ∧ pos.toInt ≤ n

/-- Insertion into a table and removal from it are those of lists. -/
structure ListSemantics (c : Core) (r : TableRef) : Prop where
  insertAt : ∀ (pos : Int64) (v : LuaValue), v ≠ .nil →
    IsPosition ((c.heap.table r).length + 1) (.integer pos) →
    (c.heap.table r).entryCount < maxTableEntries →
    5 + ((c.heap.table r).length + 1 - pos.toInt.toNat) ≤ c.gas.remaining →
    c.mem.allocated + AllocSize.tableArraySlot ≤ c.mem.limit →
    ∃ t' c', (tableInsert [.table r, .integer pos, v]).run c = (.ok [], c') ∧
      c'.heap = c.heap.setTable r t' ∧ (c.heap.table r).Inserted pos.toInt.toNat v t'
  insertLast : ∀ v : LuaValue, v ≠ .nil → (c.heap.table r).entryCount < maxTableEntries →
    5 ≤ c.gas.remaining → c.mem.allocated + AllocSize.tableArraySlot ≤ c.mem.limit →
    ∃ t' c', (tableInsert [.table r, v]).run c = (.ok [], c') ∧
      c'.heap = c.heap.setTable r t' ∧
      (c.heap.table r).Inserted ((c.heap.table r).length + 1) v t'
  insertInvalid : ∀ (p v : LuaValue) (rest : List LuaValue),
    ¬IsPosition ((c.heap.table r).length + 1) p →
    ∃ e c', (tableInsert (.table r :: p :: v :: rest)).run c = (.error (.raised e), c') ∧
      c'.heap = c.heap
  removeAt : ∀ pos : Int64, IsPosition (c.heap.table r).length (.integer pos) →
    (c.heap.table r).entryCount ≤ maxTableEntries →
    5 + ((c.heap.table r).length - pos.toInt.toNat) ≤ c.gas.remaining →
    ∃ v t' c', (tableRemove [.table r, .integer pos]).run c = (.ok [v], c') ∧
      (c.heap.table r).get (.integer pos) = some v ∧ c'.heap = c.heap.setTable r t' ∧
      (c.heap.table r).Removed pos.toInt.toNat t'
  removeLast : (c.heap.table r).length ≠ 0 →
    (c.heap.table r).entryCount ≤ maxTableEntries → 5 ≤ c.gas.remaining →
    ∃ v t' c', (tableRemove [.table r]).run c = (.ok [v], c') ∧
      (c.heap.table r).get (arrayKey (c.heap.table r).length) = some v ∧
      c'.heap = c.heap.setTable r t' ∧ (c.heap.table r).Removed (c.heap.table r).length t'
  removeInvalid : ∀ (p : LuaValue) (rest : List LuaValue), (c.heap.table r).length ≠ 0 →
    ¬IsPosition (c.heap.table r).length p →
    ∃ e c', (tableRemove (.table r :: p :: rest)).run c = (.error (.raised e), c') ∧
      c'.heap = c.heap
  removeEmpty : ∀ rest : List LuaValue, (c.heap.table r).length = 0 →
    (tableRemove (.table r :: rest)).run c = (.ok [.nil], c)

section Calls

variable {c : Core} {r : TableRef}

theorem liftError_ok {α : Type} (a : α) : liftError (.ok a) = (pure a : Vm α) := rfl

theorem run_liftError_error {α : Type} (e : VmError) (c : Core) :
    (liftError (.error e) : Vm α).run c = (.error (.raised e), c.noteRaise e) := rfl

theorem heap_noteRaise (c : Core) (e : VmError) : (c.noteRaise e).heap = c.heap := by
  unfold Core.noteRaise
  split_ifs <;> rfl

theorem integer_eq_arrayKey_toNat {pos : Int64} (h : 1 ≤ pos.toInt) :
    LuaKey.integer pos = arrayKey pos.toInt.toNat :=
  integer_eq_arrayKey (by have := pos.toInt_lt; omega) (by omega)

theorem tableInsert_insertAt (hr : r < c.heap.tables.length) (h : (c.heap.table r).Wf)
    {args : List LuaValue} {pos : Int64} {v : LuaValue} (hv : v ≠ .nil)
    (hargs : requireTable args 0 "table.insert" = .ok r)
    (hins : insertion args (c.heap.table r).length = .ok (pos, v)) (h1 : 1 ≤ pos.toInt)
    (hlast : pos.toInt ≤ (c.heap.table r).length + 1)
    (hcap : (c.heap.table r).entryCount < maxTableEntries)
    (hgas : 5 + ((c.heap.table r).length + 1 - pos.toInt.toNat) ≤ c.gas.remaining)
    (hmem : c.mem.allocated + AllocSize.tableArraySlot ≤ c.mem.limit) :
    ∃ t' c', (tableInsert args).run c = (.ok [], c') ∧
      c'.heap = c.heap.setTable r t' ∧ (c.heap.table r).Inserted pos.toInt.toNat v t' := by
  have hvalue : HasNil.isNil v = false := by simpa [HasNil.isNil] using hv
  have hread : (getTable r).run c = (.ok (c.heap.table r), c) := rfl
  obtain ⟨t', c', hrun, hheap, hinserted⟩ := shiftRight_inserted
    (c := { c with gas := { c.gas with remaining := c.gas.remaining -
      (5 + ((c.heap.table r).length + 1 - pos.toInt.toNat)) } }) hr h hcap hmem hvalue
    (show 1 ≤ pos.toInt.toNat by omega) (by dsimp only; omega)
  refine ⟨t', c', ?_, hheap, hinserted⟩
  unfold tableInsert
  rw [hargs, liftError_ok, Exec.pure_bind, Exec.run_bind_ok hread]
  dsimp only
  rw [hins, liftError_ok, Exec.pure_bind]
  dsimp only
  rw [if_neg (by omega), Exec.run_bind_ok (run_charge_ok hgas), integer_eq_arrayKey_toNat h1]
  exact hrun

/-- A position that the arguments do not give, or that the list does not have. -/
theorem tableInsert_invalid {args : List LuaValue}
    (hargs : requireTable args 0 "table.insert" = .ok r)
    (hins : ∀ pos v, insertion args (c.heap.table r).length = .ok (pos, v) →
      pos.toInt < 1 ∨ pos.toInt > (c.heap.table r).length + 1) :
    ∃ e c', (tableInsert args).run c = (.error (.raised e), c') ∧ c'.heap = c.heap := by
  have hread : (getTable r).run c = (.ok (c.heap.table r), c) := rfl
  unfold tableInsert
  rw [hargs, liftError_ok, Exec.pure_bind, Exec.run_bind_ok hread]
  dsimp only
  cases hcase : insertion args (c.heap.table r).length with
  | error e =>
    rw [Exec.run_bind_error (run_liftError_error e c)]
    exact ⟨e, _, rfl, heap_noteRaise c e⟩
  | ok result =>
    obtain ⟨pos, v⟩ := result
    rw [liftError_ok, Exec.pure_bind]
    dsimp only
    rw [if_pos (hins pos v hcase)]
    exact ⟨_, _, rfl, heap_noteRaise c _⟩

theorem tableRemove_removeAt (hr : r < c.heap.tables.length) (h : (c.heap.table r).Wf)
    {args : List LuaValue} {pos : Int64} (hargs : requireTable args 0 "table.remove" = .ok r)
    (hpos : trailingInteger args 1 "table.remove" (Int64.ofNat (c.heap.table r).length) = .ok pos)
    (h1 : 1 ≤ pos.toInt) (hlast : pos.toInt ≤ (c.heap.table r).length)
    (hcap : (c.heap.table r).entryCount ≤ maxTableEntries)
    (hgas : 5 + ((c.heap.table r).length - pos.toInt.toNat) ≤ c.gas.remaining) :
    ∃ v t' c', (tableRemove args).run c = (.ok [v], c') ∧
      (c.heap.table r).get (.integer pos) = some v ∧ c'.heap = c.heap.setTable r t' ∧
      (c.heap.table r).Removed pos.toInt.toNat t' := by
  have hread : (getTable r).run c = (.ok (c.heap.table r), c) := rfl
  obtain ⟨v, hv, -⟩ := get_element h (n := pos.toInt.toNat) (by omega) (by omega)
  obtain ⟨t', c', hrun, hheap, hremoved⟩ := shiftLeft_removed
    (c := { c with gas := { c.gas with remaining := c.gas.remaining -
      (5 + ((c.heap.table r).length - pos.toInt.toNat)) } }) hr h hcap
    (show 1 ≤ pos.toInt.toNat by omega) (by dsimp only; omega) v
  rw [← integer_eq_arrayKey_toNat h1] at hv
  refine ⟨v, t', c', ?_, hv, hheap, hremoved⟩
  unfold tableRemove
  rw [hargs, liftError_ok, Exec.pure_bind, Exec.run_bind_ok hread]
  dsimp only
  rw [if_neg (by omega), hpos, liftError_ok, Exec.pure_bind, if_neg (by omega),
    Exec.run_bind_ok (run_getOrNil r _ c), hv, Option.getD_some,
    Exec.run_bind_ok (run_charge_ok hgas)]
  exact hrun

theorem tableRemove_invalid {args : List LuaValue}
    (hargs : requireTable args 0 "table.remove" = .ok r) (hlength : (c.heap.table r).length ≠ 0)
    (hpos : ∀ pos, trailingInteger args 1 "table.remove"
      (Int64.ofNat (c.heap.table r).length) = .ok pos →
        pos.toInt < 1 ∨ pos.toInt > (c.heap.table r).length) :
    ∃ e c', (tableRemove args).run c = (.error (.raised e), c') ∧ c'.heap = c.heap := by
  have hread : (getTable r).run c = (.ok (c.heap.table r), c) := rfl
  unfold tableRemove
  rw [hargs, liftError_ok, Exec.pure_bind, Exec.run_bind_ok hread]
  dsimp only
  rw [if_neg hlength]
  cases hcase : trailingInteger args 1 "table.remove" (Int64.ofNat (c.heap.table r).length) with
  | error e =>
    rw [Exec.run_bind_error (run_liftError_error e c)]
    exact ⟨e, _, rfl, heap_noteRaise c e⟩
  | ok pos =>
    rw [liftError_ok, Exec.pure_bind, if_pos (hpos pos hcase)]
    exact ⟨_, _, rfl, heap_noteRaise c _⟩

end Calls

theorem listSemantics {c : Core} {r : TableRef} (hr : r < c.heap.tables.length)
    (hreach : (c.heap.table r).Reachable) : ListSemantics c r where
  insertAt := by
    rintro pos v hv ⟨_, heq, h1, hlast⟩ hcap hgas hmem
    obtain rfl := LuaValue.integer.inj heq
    exact tableInsert_insertAt hr hreach.wf hv rfl rfl h1 (by push_cast at hlast; exact hlast) hcap
      hgas hmem
  insertLast := by
    intro v hv hcap hgas hmem
    have hbound := length_le_of_capped hreach.wf hcap.le
    have hint : (Int64.ofNat ((c.heap.table r).length + 1)).toInt =
      ((c.heap.table r).length + 1 : Nat) := toInt_arrayKey (by omega)
    have hins := tableInsert_insertAt hr hreach.wf hv
      (show requireTable [.table r, v] 0 "table.insert" = .ok r from rfl) rfl
      (by rw [hint]; omega) (by rw [hint]; omega) hcap (by rw [hint]; omega) hmem
    rwa [hint] at hins
  insertInvalid := by
    intro p v rest hinvalid
    refine tableInsert_invalid rfl fun pos w hins => ?_
    by_contra hvalid
    refine hinvalid ⟨pos, ?_, by omega, by omega⟩
    cases hint : requireInteger (.table r :: p :: v :: rest) 1 "table.insert" with
    | error e =>
      simp only [insertion, hint] at hins
      cases hins
    | ok n =>
      simp only [insertion, hint] at hins
      cases hins
      exact Option.some.inj (requireInteger_ok.mp hint)
  removeAt := by
    rintro pos ⟨_, heq, h1, hlast⟩ hcap hgas
    obtain rfl := LuaValue.integer.inj heq
    exact tableRemove_removeAt hr hreach.wf rfl rfl h1 hlast hcap hgas
  removeLast := by
    intro hlength hcap hgas
    have hbound := length_le_of_capped hreach.wf hcap
    have hint : (Int64.ofNat (c.heap.table r).length).toInt = (c.heap.table r).length :=
      toInt_arrayKey (by omega)
    have hrem := tableRemove_removeAt hr hreach.wf
      (show requireTable [.table r] 0 "table.remove" = .ok r from rfl) rfl
      (by rw [hint]; omega) (by rw [hint]) hcap (by rw [hint]; omega)
    rwa [hint] at hrem
  removeInvalid := by
    intro p rest hlength hinvalid
    refine tableRemove_invalid rfl hlength fun pos hpos => ?_
    by_contra hvalid
    refine hinvalid ⟨pos, ?_, by omega, by omega⟩
    rw [trailingInteger, if_pos (by simp)] at hpos
    exact Option.some.inj (requireInteger_ok.mp hpos)
  removeEmpty := by
    intro rest hlength
    have hread : (getTable r).run c = (.ok (c.heap.table r), c) := rfl
    unfold tableRemove
    rw [show requireTable (.table r :: rest) 0 "table.remove" = .ok r from rfl, liftError_ok,
      Exec.pure_bind, Exec.run_bind_ok hread]
    dsimp only
    rw [if_pos hlength]
    rfl

theorem length_valuesFrom (t : LuaTable LuaValue) (i : Int64) (count : Nat) :
    (valuesFrom t i count).length = count := by
  simp [valuesFrom]

theorem getElem?_valuesFrom (t : LuaTable LuaValue) (i : Int64) {k count : Nat} (h : k < count) :
    (valuesFrom t i count)[k]? =
      some ((t.get (.integer (Int64.ofInt (i.toInt + k)))).getD .nil) := by
  simp [valuesFrom, ← List.map_eq_flatMap, h]

theorem rawset_cases (r : TableRef) (key : LuaKey) (v : LuaValue) (c : Core) :
    (∃ t' c', (c.heap.table r).apply (.rawset key v) = (.ok (), t') ∧
      (rawset r key v).run c = (.ok (), c') ∧ c'.heap = c.heap.setTable r t' ∧
      c'.target = c.target) ∨
    ∃ e t' c', (c.heap.table r).apply (.rawset key v) = (.error e, t') ∧
      (rawset r key v).run c = (.error (.raised (.ofLuaError e)), c') ∧
      c'.heap = c.heap.setTable r t' := by
  have hrun : (rawset r key v).run c =
    (rawsetTracked r key v >>= fun _ => pure ()).run
      (c.record (.store (c.heap.table r) key v)) := rfl
  cases hset : (c.heap.table r).rawsetTracked key v with
  | mk result t' =>
    have happly : (c.heap.table r).apply (.rawset key v) = (result.map fun _ => (), t') := by
      simp only [LuaTable.apply, LuaTable.rawset, hset]
    have htracked : (rawsetTracked r key v).run (c.record (.store (c.heap.table r) key v)) =
        (liftLua result).run { c.record (.store (c.heap.table r) key v) with
          heap := c.heap.setTable r t'
          grown := c.grown + (c.heap.table r).growth key t' } := by
      have hset' : ((c.record (.store (c.heap.table r) key v)).heap.table r).rawsetTracked key v =
        (result, t') := hset
      simp only [rawsetTracked, hset']
      rfl
    rw [hrun, happly]
    cases result with
    | ok result =>
      exact .inl ⟨t', _, rfl, Exec.run_bind_ok htracked, rfl, rfl⟩
    | error e =>
      exact .inr ⟨e, t', _, rfl, Exec.run_bind_error htracked, heap_noteRaise _ _⟩

/-- A heap whose one table is `{10, 20}`. -/
def tenTwentyCore : Core :=
  .fresh ⟨64, true, 1000⟩ 1000 1000 ⟨[tenTwenty], []⟩

theorem listSemantics_tenTwenty : ListSemantics tenTwentyCore 0 :=
  listSemantics (by decide) tenTwenty_reachable

end Vm

end Proveno
