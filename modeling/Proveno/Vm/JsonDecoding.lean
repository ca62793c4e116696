import Proveno.Vm.JsonParsing

/-! The bytes of a value decode with `json.decode` to a value alike, with every string and
every string key turned into the characters that its bytes stand for. -/

namespace Proveno.Vm.Json

open Canonicalize LuaTable

/-- The value read back, in tables from `lo` on. -/
inductive Alike (h h' : Heap) (lo : Nat) : LuaValue → LuaValue → Prop
  | nil : Alike h h' lo .nil .nil
  | boolean (b : Bool) : Alike h h' lo (.boolean b) (.boolean b)
  | integer (n : Int64) : Alike h h' lo (.integer n) (.integer n)
  | string (s : Bytes) : Alike h h' lo (.string s) (.string (utf8Text s))
  | table {r r' : TableRef} (hlo : lo ≤ r') (hlt : r' < h'.tables.length)
      (hwritten : ∀ key, (h.table r).get key ≠ none → (h'.table r').get (utf8Key key) ≠ none)
      (honly : ∀ key', (h'.table r').get key' ≠ none →
        ∃ key, key' = utf8Key key ∧ (h.table r).get key ≠ none)
      (hvalues : ∀ key v v', (h.table r).get key = some v →
        (h'.table r').get (utf8Key key) = some v' → Alike h h' lo v v') :
      Alike h h' lo (.table r) (.table r')

namespace Alike

variable {h h' h'' : Heap} {lo lo' : Nat} {v v' : LuaValue}

theorem not_nil (ha : Alike h h' lo v v') (hv : HasNil.isNil v = false) :
    HasNil.isNil v' = false := by
  cases ha with
  | nil => exact hv
  | _ => rfl

theorem lower (ha : Alike h h' lo v v') (hle : lo' ≤ lo) : Alike h h' lo' v v' := by
  induction ha with
  | nil => exact .nil
  | boolean b => exact .boolean b
  | integer n => exact .integer n
  | string s => exact .string s
  | table hlo hlt hwritten honly _ ih => exact .table (hle.trans hlo) hlt hwritten honly ih

/-- Only the tables from `lo` on matter. -/
theorem frame (ha : Alike h h' lo v v') (hgrows : h'.tables.length ≤ h''.tables.length)
    (hsame : ∀ r, lo ≤ r → r < h'.tables.length → h''.table r = h'.table r) :
    Alike h h'' lo v v' := by
  induction ha with
  | nil => exact .nil
  | boolean b => exact .boolean b
  | integer n => exact .integer n
  | string s => exact .string s
  | @table r r' hlo hlt hwritten honly _ ih =>
    have hr := hsame r' hlo hlt
    refine .table hlo (hlt.trans_le hgrows) ?_ ?_ ?_
    · rwa [hr]
    · rwa [hr]
    · rwa [hr]

end Alike

/-- A table under construction, with the entries stored in it so far. -/
structure Filled (h h' : Heap) (t : TableRef) (done : List (LuaKey × LuaValue)) : Prop where
  lt : t < h'.tables.length
  wf : (h'.table t).Wf
  count : (h'.table t).entryCount = done.length
  capacity : (h'.table t).hashCapacity ≤ nextPowerOfTwoCapacity done.length
  only : ∀ key' v', (h'.table t).get key' = some v' →
    ∃ e ∈ done, key' = utf8Key e.1 ∧ Alike h h' (t + 1) e.2 v'
  written : ∀ e ∈ done, (h'.table t).get (utf8Key e.1) ≠ none

namespace Filled

variable {h h' h'' : Heap} {t : TableRef} {done : List (LuaKey × LuaValue)}

theorem frame (hf : Filled h h' t done) (hgrows : h'.tables.length ≤ h''.tables.length)
    (hsame : ∀ r < h'.tables.length, h''.table r = h'.table r) : Filled h h'' t done := by
  have ht := hsame t hf.lt
  refine ⟨hf.lt.trans_le hgrows, ht ▸ hf.wf, ht ▸ hf.count, ht ▸ hf.capacity, ?_, ht ▸ hf.written⟩
  intro key' v' hget
  rw [ht] at hget
  obtain ⟨e, he, hkey, ha⟩ := hf.only key' v' hget
  exact ⟨e, he, hkey, ha.frame hgrows fun r _ => hsame r⟩

/-- A full table holds what the table it was read from holds. -/
theorem alike {r : TableRef} (hwf : (h.table r).Wf) (hf : Filled h h' t (h.table r).entries) :
    Alike h h' t (.table r) (.table t) := by
  refine .table le_rfl hf.lt (fun key hkey => ?_) (fun key' hkey' => ?_) fun key v v' hv hv' => ?_
  · obtain ⟨v, hv⟩ := Option.ne_none_iff_exists'.mp hkey
    exact hf.written _ (mem_entries_of_get hwf hv)
  · obtain ⟨v', hv'⟩ := Option.ne_none_iff_exists'.mp hkey'
    obtain ⟨e, he, hkey, -⟩ := hf.only key' v' hv'
    exact ⟨e.1, hkey, by simp [get_of_mem_entries hwf he]⟩
  · obtain ⟨e, he, hkey, ha⟩ := hf.only _ v' hv'
    have hget := get_of_mem_entries hwf he
    rw [← utf8Key_injective hkey, hv] at hget
    rw [Option.some.inj hget]
    exact ha.lower (Nat.le_succ t)

theorem empty (ht : t < h'.tables.length) (hnew : h'.table t = LuaTable.new) :
    Filled h h' t [] := by
  refine ⟨ht, hnew ▸ wf_new, hnew ▸ rfl, hnew ▸ le_rfl, ?_, by simp⟩
  intro key' v' hget
  rw [hnew] at hget
  exact absurd (get_mem_values hget) (by simp [new, values])

/-- The table after the entry was stored in it. -/
theorem store {e : LuaKey × LuaValue} {v' : LuaValue} (hf : Filled h h' t done)
    (hmin : utf8Key e.1 ≠ .integer Int64.minValue) (hnil : HasNil.isNil v' = false)
    (habsent : (h'.table t).get (utf8Key e.1) = none) (ha : Alike h h' (t + 1) e.2 v') :
    Filled h (h'.setTable t ((h'.table t).store (utf8Key e.1) v').2) t (done ++ [e]) := by
  obtain ⟨hcount, hcapacity, -⟩ := store_absent hf.wf hmin habsent v'
  have hlength : (h'.setTable t ((h'.table t).store (utf8Key e.1) v').2).tables.length =
      h'.tables.length := List.length_set ..
  have hself : (h'.setTable t ((h'.table t).store (utf8Key e.1) v').2).table t =
      ((h'.table t).store (utf8Key e.1) v').2 := by
    rw [Heap.table_setTable, if_pos ⟨rfl, hf.lt⟩]
  have hother : ∀ r, t + 1 ≤ r → r < h'.tables.length →
      (h'.setTable t ((h'.table t).store (utf8Key e.1) v').2).table r = h'.table r := by
    intro r hr _
    rw [Heap.table_setTable, if_neg fun heq => Nat.ne_of_gt hr heq.1]
  have hlen : (done ++ [e]).length = done.length + 1 := by simp
  refine ⟨hlength ▸ hf.lt, ?_, ?_, ?_, ?_, ?_⟩
  · rw [hself]
    exact wf_store hf.wf hmin hnil
  · rw [hself, hcount, hf.count, hlen]
  · rw [hself, hlen]
    rw [hf.count] at hcapacity
    exact hcapacity.trans (max_le (hf.capacity.trans (nextPowerOfTwoCapacity_mono (by omega))) le_rfl)
  · intro key' w hget
    rw [hself, get_store hf.wf hmin hnil] at hget
    split_ifs at hget with hkey
    · rw [← Option.some.inj hget]
      exact ⟨e, by simp, hkey, ha.frame hlength.ge hother⟩
    · obtain ⟨e', he', hkey', ha'⟩ := hf.only key' w hget
      exact ⟨e', by simp [he'], hkey', ha'.frame hlength.ge hother⟩
  · intro e' he'
    rw [hself, get_store hf.wf hmin hnil]
    split_ifs with hkey
    · simp
    · rcases List.mem_append.mp he' with he' | he'
      · exact hf.written e' he'
      · exact absurd (by rw [List.mem_singleton.mp he']) hkey

/-- What a write may cost, by the number of entries before it. -/
def writeNeed (count : Nat) : Nat :=
  nextPowerOfTwoCapacity (count + 1) * AllocSize.tableHashSlot + AllocSize.tableArraySlot

theorem write {c : Core} (hf : Filled h c.heap t done) {e : LuaKey × LuaValue} {v' : LuaValue}
    (hmin : e.1 ≠ .integer Int64.minValue) (hnil : HasNil.isNil e.2 = false)
    (hfresh : ∀ e' ∈ done, e'.1 ≠ e.1) (ha : Alike h c.heap (t + 1) e.2 v') :
    Meets (done.length + 1 ≤ maxTableEntries) (writeNeed done.length) t c
      (rawsetCharged t (utf8Key e.1) v') fun _ c' => Filled h c'.heap t (done ++ [e]) := by
  have hmin' : utf8Key e.1 ≠ .integer Int64.minValue := by
    cases hkey : e.1 with
    | integer n =>
      rw [hkey] at hmin
      exact hmin
    | _ => nofun
  have habsent : (c.heap.table t).get (utf8Key e.1) = none := by
    by_contra hsome
    obtain ⟨w, hw⟩ := Option.ne_none_iff_exists'.mp hsome
    obtain ⟨e', he', hkey, -⟩ := hf.only _ w hw
    exact hfresh e' he' (utf8Key_injective hkey).symm
  have hnil' := ha.not_nil hnil
  obtain ⟨hcount, -, grew, capacity, hresult, hbound⟩ := store_absent hf.wf hmin' habsent v'
  have htracked : Meets (done.length + 1 ≤ maxTableEntries) 0 t c
      (rawsetTracked t (utf8Key e.1) v') fun result c' =>
        result = .inserted grew capacity ∧ Filled h c'.heap t (done ++ [e]) := by
    obtain ⟨grown, hrun⟩ : ∃ grown, (rawsetTracked t (utf8Key e.1) v').run c =
        (liftLua ((c.heap.table t).rawsetTracked (utf8Key e.1) v').1).run
          { c with
            heap := c.heap.setTable t ((c.heap.table t).rawsetTracked (utf8Key e.1) v').2
            grown } := ⟨_, rfl⟩
    rw [LuaTable.rawsetTracked, if_neg hmin', hnil'] at hrun
    simp only [Bool.false_eq_true, if_false] at hrun
    rw [hcount, hf.count, hresult] at hrun
    split_ifs at hrun with hover
    · exact .of_error hrun fun hle => absurd hle (by omega)
    · refine .of_ok hrun (by omega) ⟨rfl, le_rfl, (List.length_set ..).ge, fun r hr => ?_⟩
        ⟨rfl, hf.store hmin' hnil' habsent ha⟩
      exact (Heap.table_setTable ..).trans (if_neg fun heq => Nat.ne_of_lt hr heq.1)
  have hcharge : ∀ c' : Core, Meets True (writeNeed done.length) t c'
      (chargeRawsetResult (.inserted grew capacity) (c.heap.table t).capacity)
      fun _ c'' => c''.heap = c'.heap := by
    intro c'
    rw [chargeRawsetResult, LuaTable.capacity]
    rw [hf.count] at hbound
    have hgrowth : capacity - (c.heap.table t).hashCapacity ≤
        nextPowerOfTwoCapacity (done.length + 1) := by omega
    have hneed := Nat.mul_le_mul_right AllocSize.tableHashSlot hgrowth
    split_ifs
    · exact (trackAlloc_meets _ t c').mono Iff.rfl (by rw [writeNeed]; omega) le_rfl
        fun _ _ _ h => h
    · exact (trackAlloc_meets _ t c').mono Iff.rfl (by rw [writeNeed]; omega) le_rfl
        fun _ _ _ h => h
  refine .after_run rfl ?_
  rw [← and_true (done.length + 1 ≤ maxTableEntries), ← Nat.zero_add (writeNeed done.length)]
  refine htracked.bind le_rfl fun result c' _ hmid => ?_
  obtain ⟨rfl, hfilled⟩ := hmid
  exact (hcharge c').mono Iff.rfl le_rfl le_rfl fun _ c'' _ hheap => hheap ▸ hfilled

end Filled

/-- No table within the value is over the cap on entries. -/
def Fits (h : Heap) (v : LuaValue) : Prop :=
  ∀ r, Within h v r → (h.table r).entryCount ≤ maxTableEntries

theorem fits_table_iff {h : Heap} {r : TableRef} (hwf : (h.table r).Wf) :
    Fits h (.table r) ↔ (∀ e ∈ (h.table r).entries, Fits h e.2) ∧
      (h.table r).entries.length ≤ maxTableEntries := by
  rw [length_entries, ← hwf.count]
  constructor
  · exact fun hfits => ⟨fun e he r' hr' => hfits r' (.child (get_of_mem_entries hwf he) hr'),
      hfits r (.self r)⟩
  · rintro ⟨hvalues, hcount⟩ r' hr'
    cases hr' with
    | self => exact hcount
    | child hget hr' => exact hvalues _ (mem_entries_of_get hwf hget) r' hr'

theorem fits_scalar {h : Heap} {v : LuaValue} (hv : ∀ r, v ≠ .table r) : Fits h v := by
  intro r hr
  cases hr with
  | self => exact absurd rfl (hv _)
  | child => exact absurd rfl (hv _)

/-- The bytes decode to a value alike, whatever follows them, at some cost in memory. -/
structure Decodes (h : Heap) (depth : Nat) (enc : Bytes) (v : LuaValue) (need : Nat) : Prop where
  start : ∃ b s, enc = b :: s ∧ isWhitespace b = false ∧ b ≠ 93
  decode : ∀ total fuel rest c, enc.length ≤ fuel → Closing rest →
    Meets (Fits h v) need c.heap.tables.length c
      (parseValue .integer total fuel depth (enc ++ rest)) fun r c' =>
        r.2 = rest ∧ Alike h c'.heap c.heap.tables.length v r.1

theorem skipWs_cons {b : UInt8} (h : isWhitespace b = false) (s : Bytes) :
    skipWs (b :: s) = b :: s := by
  simp [skipWs, h]

section Loops

variable {h : Heap} {depth : Nat}

/-- The entries still to be stored, after those of `done`. -/
structure Storable (done es : List (LuaKey × LuaValue)) : Prop where
  nodup : ((done ++ es).map Prod.fst).Nodup
  proper : ∀ e ∈ es, e.1 ≠ .integer Int64.minValue ∧ HasNil.isNil e.2 = false

theorem Storable.fresh {done es : List (LuaKey × LuaValue)} {e : LuaKey × LuaValue}
    (hs : Storable done (e :: es)) : ∀ e' ∈ done, e'.1 ≠ e.1 := by
  intro e' he' heq
  have hnodup := hs.nodup
  rw [List.map_append, List.nodup_append] at hnodup
  exact hnodup.2.2 e'.1 (List.mem_map_of_mem he') e.1 (by simp) heq

theorem Storable.next {done es : List (LuaKey × LuaValue)} {e : LuaKey × LuaValue}
    (hs : Storable done (e :: es)) : Storable (done ++ [e]) es :=
  ⟨by simpa using hs.nodup, fun e' he' => hs.proper e' (List.mem_cons_of_mem _ he')⟩

/-- One value read and stored, and what the loop then does. -/
theorem entry_meets {enc : Bytes} {e : LuaKey × LuaValue} {need : Nat}
    (henc : Decodes h depth enc e.2 need) {es done : List (LuaKey × LuaValue)}
    (hs : Storable done (e :: es)) {t : TableRef} {c : Core} (hf : Filled h c.heap t done)
    (total fuel : Nat) (rest : Bytes) (hfuel : enc.length ≤ fuel) (hrest : Closing rest)
    {f : Bytes → Vm (LuaValue × Bytes)} {fits' : Prop} {need' : Nat}
    {post : LuaValue × Bytes → Core → Prop}
    (hnext : ∀ c', Filled h c'.heap t (done ++ [e]) → Meets fits' need' t c' (f rest) post) :
    Meets (Fits h e.2 ∧ done.length + 1 ≤ maxTableEntries ∧ fits')
      (need + (Filled.writeNeed done.length + need')) t c
      (parseValue .integer total fuel depth (enc ++ rest) >>= fun r =>
        rawsetCharged t (utf8Key e.1) r.1 >>= fun _ => f r.2) post := by
  have hproper := hs.proper e (by simp)
  have hvalue := henc.decode total fuel rest c hfuel hrest
  have hkeep : t ≤ c.heap.tables.length := hf.lt.le
  have hframed : Meets (Fits h e.2) need t c
      (parseValue .integer total fuel depth (enc ++ rest)) fun r c' =>
        r.2 = rest ∧ Filled h c'.heap t done ∧ Alike h c'.heap (t + 1) e.2 r.1 :=
    hvalue.mono Iff.rfl le_rfl hkeep fun r c' hkept hpost =>
      ⟨hpost.1, hf.frame hkept.grows hkept.frame, hpost.2.lower hf.lt⟩
  refine hframed.bind le_rfl fun r c' _ hmid => ?_
  obtain ⟨rfl, hfilled, ha⟩ := hmid
  exact (hfilled.write hproper.1 hproper.2 hs.fresh ha).bind le_rfl fun _ c'' _ hf' => hnext c'' hf'

/-- What the loop over the elements does after it stored one. -/
def arrayRest (total fuel depth : Nat) (t : TableRef) (idx : Nat) (after : Bytes) :
    Vm (LuaValue × Bytes) :=
  if (skipWs after).head? = some 44 then
    parseArray .integer total fuel depth t (idx + 1) (skipWs after).tail
  else if (skipWs after).head? = some 93 then pure (.table t, (skipWs after).tail)
  else jsonErr "json.decode: expected ',' or ']' in array"

theorem parseArray_succ (total fuel depth : Nat) (t : TableRef) (idx : Nat) (s : Bytes) :
    parseArray .integer total (fuel + 1) depth t idx s =
      parseValue .integer total fuel depth s >>= fun r =>
        rawsetCharged t (arrayKey idx) r.1 >>= fun _ =>
          arrayRest total fuel depth t idx r.2 := by
  rw [parseArray]
  rfl

theorem fits_cons (done es : List (LuaKey × LuaValue)) (e : LuaKey × LuaValue) :
    (Fits h e.2 ∧ done.length + 1 ≤ maxTableEntries ∧ (∀ e' ∈ es, Fits h e'.2) ∧
        (done ++ [e] ++ es).length ≤ maxTableEntries) ↔
      (∀ e' ∈ e :: es, Fits h e'.2) ∧ (done ++ e :: es).length ≤ maxTableEntries := by
  simp only [List.length_append, List.length_cons, List.length_nil, List.forall_mem_cons]
  constructor
  · rintro ⟨hfits, -, hrest, hlen⟩
    exact ⟨⟨hfits, hrest⟩, by omega⟩
  · rintro ⟨⟨hfits, hrest⟩, hlen⟩
    exact ⟨hfits, by omega, hrest, by omega⟩

theorem parseArray_meets {parts : List Bytes} {vs : List LuaValue}
    (hparts : List.Forall₂ (fun part v => ∃ need, Decodes h depth part v need) parts vs)
    (hne : parts ≠ []) (n : Nat) (done : List (LuaKey × LuaValue))
    (hs : Storable done (arrayEntries n vs)) :
    ∃ need, ∀ total fuel rest c t, (separated parts).length + 1 ≤ fuel → Filled h c.heap t done →
      Meets ((∀ e ∈ arrayEntries n vs, Fits h e.2) ∧
          (done ++ arrayEntries n vs).length ≤ maxTableEntries) need t c
        (parseArray .integer total fuel depth t (n + 1) (separated parts ++ 93 :: rest))
        fun r c' => r = (.table t, rest) ∧ Filled h c'.heap t (done ++ arrayEntries n vs) := by
  induction hparts generalizing n done with
  | nil => exact absurd rfl hne
  | @cons part v parts vs hpart htail ih =>
    obtain ⟨need, henc⟩ := hpart
    cases htail with
    | nil =>
      refine ⟨need + (Filled.writeNeed done.length + 0), fun total fuel rest c t hfuel hf => ?_⟩
      obtain ⟨fuel, rfl⟩ := Nat.exists_eq_add_of_le' (le_trans (by omega : 1 ≤ _) hfuel)
      have hsep : separated [part] = part := by simp [separated, List.intercalate]
      rw [hsep] at hfuel ⊢
      rw [parseArray_succ]
      have hlast : ∀ c', Filled h c'.heap t (done ++ [(arrayKey (n + 1), v)]) →
          Meets True 0 t c' (arrayRest total fuel depth t (n + 1) (93 :: rest)) fun r c' =>
            r = (.table t, rest) ∧ Filled h c'.heap t (done ++ [(arrayKey (n + 1), v)]) :=
        fun c' hf' => .pure trivial ⟨rfl, hf'⟩
      have hentry := entry_meets henc hs hf total fuel (93 :: rest) (by omega) (by simp [Closing])
        hlast
      refine hentry.mono ?_ le_rfl le_rfl fun _ _ _ hpost => hpost
      simp [arrayEntries_cons]
    | @cons part' v' parts vs hpart' htail =>
      obtain ⟨need', hloop⟩ := ih (by simp) (n + 1) (done ++ [(arrayKey (n + 1), v)]) hs.next
      refine ⟨need + (Filled.writeNeed done.length + need'), fun total fuel rest c t hfuel hf => ?_⟩
      obtain ⟨fuel, rfl⟩ := Nat.exists_eq_add_of_le' (le_trans (by omega : 1 ≤ _) hfuel)
      rw [separated_cons_cons] at hfuel ⊢
      rw [List.length_append, List.length_cons] at hfuel
      rw [List.append_assoc, List.cons_append, parseArray_succ]
      have hentry := entry_meets henc hs hf total fuel
        (44 :: (separated (part' :: parts) ++ 93 :: rest)) (by omega) (by simp [Closing])
        (f := arrayRest total fuel depth t (n + 1))
        fun c' hf' => hloop total fuel rest c' t (by omega) hf'
      refine hentry.mono ?_ le_rfl le_rfl fun _ _ _ hpost => by simpa [arrayEntries_cons] using hpost
      exact fits_cons _ _ _

/-- What the loop over the entries does after it stored one. -/
def objectRest (total fuel depth : Nat) (t : TableRef) (after : Bytes) : Vm (LuaValue × Bytes) :=
  if (skipWs after).head? = some 44 then
    parseObject .integer total fuel depth t (skipWs after).tail
  else if (skipWs after).head? = some 125 then pure (.table t, (skipWs after).tail)
  else jsonErr "json.decode: expected ',' or '\x7d' in object"

theorem parseObject_succ (total fuel depth : Nat) (t : TableRef) (s : Bytes) :
    parseObject .integer total (fuel + 1) depth t s =
      parseString total (skipWs s) >>= fun k => expect total 58 (skipWs k.2) >>= fun after =>
        parseValue .integer total fuel depth after >>= fun r =>
          rawsetCharged t (.string k.1) r.1 >>= fun _ => objectRest total fuel depth t r.2 := by
  rw [parseObject]
  rfl

/-- One `"key":value` entry under a string key. -/
def DecodesEntry (h : Heap) (depth : Nat) (part : Bytes) (e : LuaKey × LuaValue) : Prop :=
  ∃ text enc need, e.1 = .string text ∧ part = keyBytes e.1 ++ 58 :: enc ∧
    Decodes h depth enc e.2 need

/-- The loop up to the point where an entry has been stored. -/
theorem objectEntry_meets {text enc : Bytes} {v : LuaValue} {need : Nat}
    (henc : Decodes h depth enc v need) {es done : List (LuaKey × LuaValue)}
    (hs : Storable done ((.string text, v) :: es)) {t : TableRef} {c : Core}
    (hf : Filled h c.heap t done) (total fuel : Nat) (rest : Bytes) (hfuel : enc.length ≤ fuel)
    (hrest : Closing rest) {fits' : Prop} {need' : Nat} {post : LuaValue × Bytes → Core → Prop}
    (hnext : ∀ c', Filled h c'.heap t (done ++ [(.string text, v)]) →
      Meets fits' need' t c' (objectRest total fuel depth t rest) post) :
    Meets (Fits h v ∧ done.length + 1 ≤ maxTableEntries ∧ fits')
      (AllocSize.string (utf8Text text).length +
        (need + (Filled.writeNeed done.length + need'))) t c
      (parseObject .integer total (fuel + 1) depth t
        (serializeString text ++ 58 :: (enc ++ rest))) post := by
  have hquote : skipWs (serializeString text ++ 58 :: (enc ++ rest)) =
      serializeString text ++ 58 :: (enc ++ rest) := skipWs_cons (by decide) _
  have hcolon : skipWs (58 :: (enc ++ rest)) = 58 :: (enc ++ rest) := skipWs_cons (by decide) _
  rw [parseObject_succ, hquote]
  refine (parseString_meets total text (58 :: (enc ++ rest)) t c).after le_rfl fun k c' _ hmid => ?_
  obtain ⟨rfl, hheap⟩ := hmid
  refine .after_run (a := enc ++ rest) (by rw [hcolon]; rfl) ?_
  exact entry_meets henc hs (hheap ▸ hf) total fuel rest hfuel hrest hnext

theorem parseObject_meets {parts : List Bytes} {es : List (LuaKey × LuaValue)}
    (hparts : List.Forall₂ (DecodesEntry h depth) parts es) (hne : parts ≠ [])
    (done : List (LuaKey × LuaValue)) (hs : Storable done es) :
    ∃ need, ∀ total fuel rest c t, (separated parts).length + 1 ≤ fuel → Filled h c.heap t done →
      Meets ((∀ e ∈ es, Fits h e.2) ∧ (done ++ es).length ≤ maxTableEntries) need t c
        (parseObject .integer total fuel depth t (separated parts ++ 125 :: rest))
        fun r c' => r = (.table t, rest) ∧ Filled h c'.heap t (done ++ es) := by
  induction hparts generalizing done with
  | nil => exact absurd rfl hne
  | @cons part e parts es hpart htail ih =>
    obtain ⟨key, v⟩ := e
    obtain ⟨text, enc, need, rfl, rfl, henc⟩ := hpart
    cases htail with
    | nil =>
      refine ⟨AllocSize.string (utf8Text text).length +
        (need + (Filled.writeNeed done.length + 0)), fun total fuel rest c t hfuel hf => ?_⟩
      obtain ⟨fuel, rfl⟩ := Nat.exists_eq_add_of_le' (le_trans (by omega : 1 ≤ _) hfuel)
      have hsep : ∀ part, separated [part] = part := by simp [separated, List.intercalate]
      rw [hsep] at hfuel ⊢
      rw [List.length_append, List.length_cons] at hfuel
      rw [List.append_assoc, List.cons_append]
      have hlast : ∀ c', Filled h c'.heap t (done ++ [(.string text, v)]) →
          Meets True 0 t c' (objectRest total fuel depth t (125 :: rest)) fun r c' =>
            r = (.table t, rest) ∧ Filled h c'.heap t (done ++ [(.string text, v)]) :=
        fun c' hf' => .pure trivial ⟨rfl, hf'⟩
      have hentry := objectEntry_meets henc hs hf total fuel (125 :: rest) (by omega)
        (by simp [Closing]) hlast
      refine hentry.mono ?_ le_rfl le_rfl fun _ _ _ hpost => hpost
      simp
    | @cons part' e' parts es hpart' htail =>
      obtain ⟨need', hloop⟩ := ih (by simp) (done ++ [(.string text, v)]) hs.next
      refine ⟨AllocSize.string (utf8Text text).length +
        (need + (Filled.writeNeed done.length + need')), fun total fuel rest c t hfuel hf => ?_⟩
      obtain ⟨fuel, rfl⟩ := Nat.exists_eq_add_of_le' (le_trans (by omega : 1 ≤ _) hfuel)
      rw [separated_cons_cons] at hfuel ⊢
      simp only [List.length_append, List.length_cons] at hfuel
      rw [List.append_assoc, List.append_assoc, List.cons_append, List.cons_append]
      have hentry := objectEntry_meets henc hs hf total fuel
        (44 :: (separated (part' :: parts) ++ 125 :: rest)) (by omega) (by simp [Closing])
        fun c' hf' => hloop total fuel rest c' t (by omega) hf'
      refine hentry.mono ?_ le_rfl le_rfl fun _ _ _ hpost => by simpa using hpost
      exact fits_cons _ _ _

end Loops

section Tables

/-- The keys are `1..n`, of which there is at least one. -/
def IsArray (t : LuaTable LuaValue) : Prop :=
  ∃ n : Nat, 1 ≤ n ∧ ∀ key, t.get key ≠ none ↔
    ∃ i : Int64, key = .integer i ∧ 1 ≤ i.toInt ∧ i.toInt ≤ n

def StringKeyed (t : LuaTable LuaValue) : Prop :=
  ∀ key, t.get key ≠ none → ∃ s, key = .string s

variable {t : LuaTable LuaValue}

theorem IsArray.parts (ha : IsArray t) (hwf : t.Wf) : t.array ≠ [] ∧ t.hash = [] := by
  obtain ⟨n, hn, hkeys⟩ := ha
  have hhash : t.hash = [] := by
    by_contra hne
    obtain ⟨⟨key, v⟩, he⟩ := List.exists_mem_of_ne_nil _ hne
    have hget := get_of_mem_entries hwf (List.mem_append_right _ he)
    obtain ⟨i, rfl, h1, hin⟩ := (hkeys key).mp (by simp [hget])
    have hlt := i.toInt_lt
    have hfind := SortedAssoc.find_of_mem hwf.sorted he
    have hout : ¬i.toInt ≤ t.array.length := fun hle => by
      rw [hwf.disjoint i h1 hle] at hfind
      cases hfind
    refine absurd (get_frontier hwf) ((hkeys _).mpr ⟨_, rfl, ?_, ?_⟩)
    · rw [toInt_arrayKey (by omega)]
      omega
    · rw [toInt_arrayKey (by omega)]
      omega
  refine ⟨fun harray => ?_, hhash⟩
  have hone := (hkeys (.integer 1)).mpr ⟨1, rfl, by decide, by
    have h1 : (1 : Int64).toInt = 1 := by decide
    omega⟩
  obtain ⟨v, hv⟩ := Option.ne_none_iff_exists'.mp hone
  have hmem := get_mem_values hv
  simp [values, harray, hhash] at hmem

theorem entries_nodup (hwf : t.Wf) : (t.entries.map Prod.fst).Nodup := by
  have hbound := hwf.bound
  rw [entries, List.map_append, List.nodup_append]
  refine ⟨?_, ?_, ?_⟩
  · rw [arrayEntries_keys]
    refine List.Nodup.map_on ?_ List.nodup_range
    intro i hi j hj heq
    rw [List.mem_range] at hi hj
    have hint := congrArg Int64.toInt (LuaKey.integer.inj heq)
    rw [toInt_arrayKey (by omega), toInt_arrayKey (by omega)] at hint
    omega
  · exact List.pairwise_map.mpr (hwf.sorted.imp fun hlt => ne_of_lt hlt)
  · intro key hkey key' hkey' heq
    obtain ⟨e, he, rfl⟩ := List.mem_map.mp hkey
    obtain ⟨⟨_, v'⟩, he', rfl⟩ := List.mem_map.mp hkey'
    obtain ⟨i, hi, hi', -⟩ := mem_arrayEntries he
    have hfind := SortedAssoc.find_of_mem hwf.sorted he'
    simp only at heq
    rw [← heq, hi', arrayKey, hwf.disjoint _ ?_ ?_] at hfind
    · cases hfind
    · rw [toInt_arrayKey (by omega)]
      omega
    · rw [toInt_arrayKey (by omega)]
      omega

theorem storable_entries (hwf : t.Wf) : Storable [] t.entries := by
  refine ⟨entries_nodup hwf, fun e he => ⟨fun hmin => ?_, ?_⟩⟩
  · have hget := get_of_mem_entries hwf he
    have hmin' : (Int64.minValue).toInt = -2 ^ 63 := by decide
    rw [hmin, get_integer_of_not_mem (by omega), hwf.noMin] at hget
    cases hget
  · exact isNil_of_mem_values hwf (values_of_entries hwf he)

end Tables

section Values

variable {h : Heap} {depth : Nat}

/-- A value that is read at no cost. -/
theorem decodes_scalar {enc : Bytes} {v : LuaValue} (hv : ∀ r, v ≠ .table r)
    (hstart : ∃ b s, enc = b :: s ∧ isWhitespace b = false ∧ b ≠ 93)
    (ha : ∀ h' lo, Alike h h' lo v v)
    (hparse : ∀ total fuel rest, Closing rest →
      parseValue .integer total (fuel + 1) depth (enc ++ rest) = pure (v, rest)) :
    Decodes h depth enc v 0 := by
  refine ⟨hstart, fun total fuel rest c hfuel hrest => ?_⟩
  obtain ⟨b, s, henc, -, -⟩ := hstart
  have hpos : 1 ≤ enc.length := by simp [henc]
  obtain ⟨fuel, rfl⟩ := Nat.exists_eq_add_of_le' (hpos.trans hfuel)
  rw [hparse total fuel rest hrest]
  exact .pure (fits_scalar hv) ⟨rfl, ha _ _⟩

variable (hdepth : ¬depth > maxTableDepth)
include hdepth

theorem decodes_nil : Decodes h depth (ascii "null") .nil 0 := by
  refine decodes_scalar nofun ⟨110, ascii "ull", by decide, by decide, by decide⟩
    (fun _ _ => .nil) fun total fuel rest _ => ?_
  rw [parseValue, if_neg hdepth]
  rfl

theorem decodes_boolean (b : Bool) :
    Decodes h depth (ascii (if b then "true" else "false")) (.boolean b) 0 := by
  cases b with
  | true =>
    refine decodes_scalar (fun r h => by cases h) ⟨116, ascii "rue", by decide, by decide, by decide⟩
      (fun _ _ => .boolean true) fun total fuel rest _ => ?_
    rw [parseValue, if_neg hdepth]
    rfl
  | false =>
    refine decodes_scalar (fun r h => by cases h) ⟨102, ascii "alse", by decide, by decide, by decide⟩
      (fun _ _ => .boolean false) fun total fuel rest _ => ?_
    rw [parseValue, if_neg hdepth]
    rfl

theorem decodes_integer (n : Int64) : Decodes h depth (intText n) (.integer n) 0 := by
  obtain ⟨b, s, henc⟩ := List.exists_cons_of_ne_nil (intText_ne_nil n)
  have hb := isIntegerByte_intText n b (by simp [henc])
  obtain ⟨h1, h2, h3, h4, h5, h6, h7, hw⟩ := not_isIntegerByte_of_start hb
  refine decodes_scalar nofun ⟨b, s, henc, hw, h7⟩ (fun _ _ => .integer n)
    fun total fuel rest hrest => ?_
  have hnumber := parseNumber_intText n hrest
  have hb' : b = 45 ∨ isDigit b = true := by simpa [isIntegerByte] using hb
  rw [henc, List.cons_append] at hnumber ⊢
  simp only [parseValue, if_neg hdepth, skipWs_cons hw, if_neg h1, if_neg h2, if_neg h3, if_neg h4,
    if_neg h5, if_neg h6, if_pos hb', hnumber]

theorem decodes_string (s : Bytes) :
    Decodes h depth (serializeString s) (.string s) (AllocSize.string (utf8Text s).length) := by
  refine ⟨⟨34, s.flatMap escapeByte ++ [34], rfl, by decide, by decide⟩,
    fun total fuel rest c hfuel hrest => ?_⟩
  have hpos : 1 ≤ (serializeString s).length := by simp [serializeString]
  obtain ⟨fuel, rfl⟩ := Nat.exists_eq_add_of_le' (hpos.trans hfuel)
  have hquote : skipWs (serializeString s ++ rest) = serializeString s ++ rest :=
    skipWs_cons (by decide) _
  have hvalue : parseValue .integer total (fuel + 1) depth (serializeString s ++ rest) =
      parseString total (serializeString s ++ rest) >>= fun r => pure (.string r.1, r.2) := by
    rw [parseValue, if_neg hdepth, hquote]
    rfl
  have hfits : Fits h (.string s) := fits_scalar nofun
  rw [hvalue, eq_true hfits]
  refine (parseString_meets total s rest c.heap.tables.length c).finish fun r c' _ hmid => ?_
  obtain ⟨rfl, -⟩ := hmid
  exact .pure trivial ⟨rfl, .string s⟩

omit hdepth in
/-- A fresh table filled with the entries of another is like it. -/
theorem newTable_fill {r : TableRef} (hwf : (h.table r).Wf) {rest : Bytes} {need : Nat}
    {fill : TableRef → Vm (LuaValue × Bytes)} (hfill : ∀ c t, Filled h c.heap t [] →
      Meets (Fits h (.table r)) need t c (fill t) fun r' c' =>
        r' = (.table t, rest) ∧ Filled h c'.heap t (h.table r).entries) (c : Core) :
    Meets (Fits h (.table r)) (AllocSize.tableBase + need) c.heap.tables.length c
      (newTable >>= fill) fun r' c' =>
        r'.2 = rest ∧ Alike h c'.heap c.heap.tables.length (.table r) r'.1 := by
  refine (newTable_meets c).after le_rfl fun t c' _ hmid => ?_
  obtain ⟨rfl, htables⟩ := hmid
  have hempty : Filled h c'.heap c.heap.tables.length [] := by
    refine .empty (by simp [htables]) ?_
    simp [Heap.table, htables]
  refine (hfill c' _ hempty).mono Iff.rfl le_rfl le_rfl fun r' c'' _ hpost => ?_
  obtain ⟨rfl, hfilled⟩ := hpost
  exact ⟨rfl, hfilled.alike hwf⟩

theorem decodes_array {r : TableRef} (hwf : (h.table r).Wf) (hhash : (h.table r).hash = [])
    {parts : List Bytes} (hne : parts ≠ [])
    (hparts : List.Forall₂ (fun part v => ∃ need, Decodes h (depth + 1) part v need) parts
      (h.table r).array) :
    ∃ need, Decodes h depth (91 :: (separated parts ++ [93])) (.table r) need := by
  have hentries : (h.table r).entries = arrayEntries 0 (h.table r).array := by
    rw [entries, hhash, List.append_nil]
  obtain ⟨need, hloop⟩ := parseArray_meets hparts hne 0 [] (hentries ▸ storable_entries hwf)
  rw [← hentries, List.nil_append, ← fits_table_iff hwf] at hloop
  have hopen : isWhitespace 91 = false := by decide
  have hstart : ∃ b s, separated parts = b :: s ∧ isWhitespace b = false ∧ b ≠ 93 := by
    obtain ⟨part, parts, rfl⟩ := List.exists_cons_of_ne_nil hne
    obtain ⟨v, vs, ⟨_, hpart⟩, -, -⟩ := List.forall₂_cons_left_iff.mp hparts
    obtain ⟨b, s, hb, hw, hclose⟩ := hpart.start
    obtain ⟨s', hs'⟩ := separated_head hb
    exact ⟨b, s', hs', hw, hclose⟩
  obtain ⟨b, s, hsep, hw, hclose⟩ := hstart
  refine ⟨AllocSize.tableBase + need, ⟨91, _, rfl, hopen, by decide⟩,
    fun total fuel rest c hfuel _ => ?_⟩
  rw [List.length_cons, List.length_append, List.length_singleton] at hfuel
  obtain ⟨fuel, rfl⟩ := Nat.exists_eq_add_of_le' (le_trans (by omega : 1 ≤ _) hfuel)
  have hvalue : parseValue .integer total (fuel + 1) depth
      (91 :: (separated parts ++ [93]) ++ rest) = newTable >>= fun t =>
        parseArray .integer total fuel (depth + 1) t 1 (separated parts ++ 93 :: rest) := by
    rw [List.cons_append, List.append_assoc, List.singleton_append, hsep, List.cons_append, parseValue,
      if_neg hdepth, skipWs_cons hopen]
    simp [skipWs_cons hw, hclose]
  rw [hvalue]
  exact newTable_fill hwf (fun c t hf => hloop total fuel rest c t (by omega) hf) c

theorem decodes_object {r : TableRef} (hwf : (h.table r).Wf) {parts : List Bytes}
    (hparts : List.Forall₂ (DecodesEntry h (depth + 1)) parts (h.table r).entries) :
    ∃ need, Decodes h depth (123 :: (separated parts ++ [125])) (.table r) need := by
  have hopen : isWhitespace 123 = false := by decide
  by_cases hne : parts = []
  · subst hne
    have hentries : (h.table r).entries = [] := List.forall₂_nil_left_iff.mp hparts
    refine ⟨AllocSize.tableBase + 0, ⟨123, _, rfl, hopen, by decide⟩,
      fun total fuel rest c hfuel _ => ?_⟩
    obtain ⟨fuel, rfl⟩ := Nat.exists_eq_add_of_le' (le_trans (by simp : 1 ≤ _) hfuel)
    have hvalue : parseValue .integer total (fuel + 1) depth
        (123 :: (separated [] ++ [125]) ++ rest) = newTable >>= fun t => pure (.table t, rest) := by
      rw [parseValue, if_neg hdepth]
      rfl
    rw [hvalue]
    refine newTable_fill hwf (fun c t hf => .pure ?_ ⟨rfl, hentries ▸ hf⟩) c
    rw [fits_table_iff hwf, hentries]
    simp
  · obtain ⟨need, hloop⟩ := parseObject_meets hparts hne [] (storable_entries hwf)
    rw [List.nil_append, ← fits_table_iff hwf] at hloop
    have hstart : ∃ s, separated parts = 34 :: s := by
      obtain ⟨part, parts, rfl⟩ := List.exists_cons_of_ne_nil hne
      obtain ⟨e, es, ⟨text, enc, _, hkey, rfl, -⟩, -, -⟩ := List.forall₂_cons_left_iff.mp hparts
      rw [keyBytes_eq]
      exact separated_head rfl
    obtain ⟨s, hsep⟩ := hstart
    refine ⟨AllocSize.tableBase + need, ⟨123, _, rfl, hopen, by decide⟩,
      fun total fuel rest c hfuel _ => ?_⟩
    rw [List.length_cons, List.length_append, List.length_singleton] at hfuel
    obtain ⟨fuel, rfl⟩ := Nat.exists_eq_add_of_le' (le_trans (by omega : 1 ≤ _) hfuel)
    have hvalue : parseValue .integer total (fuel + 1) depth
        (123 :: (separated parts ++ [125]) ++ rest) = newTable >>= fun t =>
          parseObject .integer total fuel (depth + 1) t (separated parts ++ 125 :: rest) := by
      have hquote : isWhitespace 34 = false := by decide
      rw [List.cons_append, List.append_assoc, List.singleton_append, hsep, List.cons_append,
        parseValue, if_neg hdepth, skipWs_cons hopen]
      simp [skipWs_cons hquote]
    rw [hvalue]
    exact newTable_fill hwf (fun c t hf => hloop total fuel rest c t (by omega) hf) c

end Values

/-- Every table within the value is an array or has string keys only. -/
def Shaped (h : Heap) (v : LuaValue) : Prop :=
  ∀ r, Within h v r → IsArray (h.table r) ∨ StringKeyed (h.table r)

theorem decodes_table {h : Heap} {depth : Nat} (hdepth : ¬depth > maxTableDepth)
    {encode : LuaValue → Except CanonError Bytes} {r : TableRef} (hwf : (h.table r).Wf)
    (hshape : IsArray (h.table r) ∨ StringKeyed (h.table r)) {bytes : Bytes}
    (hser : serializeTable encode (h.table r) = .ok bytes)
    (hvalues : ∀ e ∈ (h.table r).entries, ∀ enc, encode e.2 = .ok enc →
      ∃ need, Decodes h (depth + 1) enc e.2 need) :
    ∃ need, Decodes h depth bytes (.table r) need := by
  rcases serializeTable_cases hwf hser with
    ⟨hhash, parts, hne, rfl, hforall⟩ | ⟨hform, parts, rfl, hforall⟩
  · refine decodes_array hdepth hwf hhash hne ?_
    refine ((List.forall₂_and_left _ _).mpr ⟨fun v hv => hv, hforall⟩).flip.imp ?_
    rintro part v ⟨hv, henc⟩
    rw [← arrayEntries_values 0 (h.table r).array] at hv
    obtain ⟨e, he, rfl⟩ := List.mem_map.mp hv
    exact hvalues e (List.mem_append_left _ he) part henc
  · have hstrings : StringKeyed (h.table r) := by
      rcases hshape with harray | hstrings
      · obtain ⟨hne, hnil⟩ := harray.parts hwf
        rcases hform with hform | hform
        · exact absurd hform hne
        · exact absurd hnil hform
      · exact hstrings
    refine decodes_object hdepth hwf ?_
    refine ((List.forall₂_and_left _ _).mpr ⟨fun e he => he, hforall⟩).flip.imp ?_
    rintro part e ⟨he, enc, henc, hpart⟩
    obtain ⟨text, hkey⟩ := hstrings e.1 (by simp [get_of_mem_entries hwf he])
    obtain ⟨need, hdec⟩ := hvalues e he enc henc
    exact ⟨text, enc, need, hkey, hpart, hdec⟩

/-- The bytes of a value decode to a value alike, by induction on the levels left. -/
theorem decodes_serialized {h : Heap} (hh : h.Reachable) {levels depth : Nat}
    (hlevels : depth + levels = maxTableDepth + 1) {v : LuaValue} {enc : Bytes}
    (hser : serializeValue h levels v = .ok enc) (hshape : Shaped h v) :
    ∃ need, Decodes h depth enc v need := by
  induction levels generalizing depth v enc with
  | zero => simp [serializeValue] at hser
  | succ levels ih =>
    have hdepth : ¬depth > maxTableDepth := by omega
    cases v with
    | nil =>
      obtain rfl := Except.ok.inj hser
      exact ⟨_, decodes_nil hdepth⟩
    | boolean b =>
      obtain rfl := Except.ok.inj hser
      exact ⟨_, decodes_boolean hdepth b⟩
    | integer n =>
      obtain rfl := Except.ok.inj hser
      exact ⟨_, decodes_integer hdepth n⟩
    | string s =>
      obtain rfl := Except.ok.inj hser
      exact ⟨_, decodes_string hdepth s⟩
    | function f => simp [serializeValue] at hser
    | builtin id => simp [serializeValue] at hser
    | table r =>
      have hwf := (hh.table r).wf
      refine decodes_table hdepth hwf (hshape r (.self r)) hser fun e he enc henc => ?_
      exact ih (by omega) henc fun r' hr' => hshape r' (.child (get_of_mem_entries hwf he) hr')

end Proveno.Vm.Json
