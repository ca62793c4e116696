import Proveno.Types.TableLaw

/-! Writing the entries of a table into an empty one, in `sortedKeys` order,
gives the table back, with the capacity its present hash part calls for. -/

namespace Proveno.LuaTable

open SortedAssoc

section Map

variable {V W : Type}

def map (f : V → W) (t : LuaTable V) : LuaTable W :=
  ⟨t.array.map f, t.hash.map fun e => (e.1, f e.2), t.entryCount, t.hashCapacity⟩

@[simp] theorem length_array_map (f : V → W) (t : LuaTable V) :
    (t.map f).array.length = t.array.length := by
  simp [map]

theorem get_map (f : V → W) (t : LuaTable V) (key : LuaKey) :
    (t.map f).get key = (t.get key).map f := by
  cases key with
  | string s => exact find_map f _ _
  | boolean b => exact find_map f _ _
  | integer i =>
    by_cases hin : 1 ≤ i.toInt ∧ i.toInt ≤ t.array.length
    · rw [get_integer_of_mem hin, get_integer_of_mem (by simpa using hin), map, List.getElem?_map]
    · rw [get_integer_of_not_mem hin, get_integer_of_not_mem (by simpa using hin), map, find_map]

/-- Every value of the table, in either part. -/
def values (t : LuaTable V) : List V := t.array ++ t.hash.map Prod.snd

theorem get_mem_values {t : LuaTable V} {key : LuaKey} {v : V} (h : t.get key = some v) :
    v ∈ t.values := by
  have hhash : find key t.hash = some v → v ∈ t.values := fun hv =>
    List.mem_append_right _ (List.mem_map.mpr ⟨_, mem_of_find hv, rfl⟩)
  cases key with
  | string s => exact hhash h
  | boolean b => exact hhash h
  | integer i =>
    by_cases hin : 1 ≤ i.toInt ∧ i.toInt ≤ t.array.length
    · rw [get_integer_of_mem hin] at h
      exact List.mem_append_left _ (List.mem_of_getElem? h)
    · rw [get_integer_of_not_mem hin] at h
      exact hhash h

variable [HasNil V] [HasNil W]

theorem wf_map {f : V → W} {t : LuaTable V} (h : t.Wf)
    (hf : ∀ v ∈ t.values, HasNil.isNil (f v) = false) : (t.map f).Wf := by
  constructor
  constructor
  case sorted => exact List.pairwise_map.mpr h.sorted
  case bound => simpa using h.bound
  case disjoint =>
    intro i h1 hi
    rw [map, find_map, h.disjoint i h1 (by simpa using hi)]
    rfl
  case noMin =>
    rw [map, find_map, h.noMin]
    rfl
  case count => simpa [map] using h.count
  case arrayNotNil =>
    intro w hw
    obtain ⟨v, hv, rfl⟩ := List.mem_map.mp hw
    exact hf v (List.mem_append_left _ hv)
  case hashNotNil =>
    intro e he
    obtain ⟨e', he', rfl⟩ := List.mem_map.mp he
    exact hf _ (List.mem_append_right _ (List.mem_map.mpr ⟨e', he', rfl⟩))
  case frontier =>
    rw [length_array_map, map, find_map, h.frontier]
    rfl

/-- Only the keys and the absence of nil decide whether a table is well formed. -/
theorem wf_of_map {f : V → W} {t : LuaTable V} (h : (t.map f).Wf)
    (hnil : ∀ v ∈ t.values, HasNil.isNil v = false) : t.Wf := by
  have hfind {key : LuaKey} (hkey : find key (t.map f).hash = none) : find key t.hash = none := by
    rw [map, find_map, Option.map_eq_none_iff] at hkey
    exact hkey
  constructor
  constructor
  case sorted =>
    have hsorted : (t.hash.map fun e => (e.1, f e.2)).Pairwise fun a b => a.1 < b.1 := h.sorted
    rwa [List.pairwise_map] at hsorted
  case bound => simpa using h.bound
  case disjoint => exact fun i h1 hi => hfind (h.disjoint i h1 (by simpa using hi))
  case noMin => exact hfind h.noMin
  case count => simpa [map] using h.count
  case arrayNotNil => exact fun v hv => hnil v (List.mem_append_left _ hv)
  case hashNotNil =>
    exact fun e he => hnil _ (List.mem_append_right _ (List.mem_map_of_mem he))
  case frontier =>
    have hfrontier := h.frontier
    rw [length_array_map] at hfrontier
    exact hfind hfrontier

theorem get_marked_eq_of_keys {V W : Type} {t : LuaTable V} {t' : LuaTable W}
    (hkeys : ∀ key, t.get key = none ↔ t'.get key = none) (key : LuaKey) :
    (t.map fun _ => ()).get key = (t'.map fun _ => ()).get key := by
  rw [get_map, get_map]
  have hkey := hkeys key
  cases hv : t.get key <;> cases hv' : t'.get key <;> simp_all

section Keys

variable {t : LuaTable V} {t' : LuaTable W} (h : t.Wf) (h' : t'.Wf)
  (hkeys : ∀ key, t.get key = none ↔ t'.get key = none)

include h h' hkeys

theorem length_eq_of_keys : t.length = t'.length := by
  have hmap := wf_map (W := Unit) h (f := fun _ => ()) fun _ _ => rfl
  have hmap' := wf_map (W := Unit) h' (f := fun _ => ()) fun _ _ => rfl
  have harray := array_eq_of_get hmap hmap' (get_marked_eq_of_keys hkeys)
  simpa [map, LuaTable.length] using congrArg List.length harray

theorem hashKeys_eq_of_keys : t.hash.map Prod.fst = t'.hash.map Prod.fst := by
  have hmap := wf_map (W := Unit) h (f := fun _ => ()) fun _ _ => rfl
  have hmap' := wf_map (W := Unit) h' (f := fun _ => ()) fun _ _ => rfl
  have hhash := hash_eq_of_get hmap hmap' (get_marked_eq_of_keys hkeys)
  simpa [map, Function.comp_def] using congrArg (List.map Prod.fst) hhash

theorem entryCount_eq_of_keys : t.entryCount = t'.entryCount := by
  have hlen := congrArg List.length (hashKeys_eq_of_keys h h' hkeys)
  rw [List.length_map, List.length_map] at hlen
  have harray : t.array.length = t'.array.length := length_eq_of_keys h h' hkeys
  rw [h.count, h'.count, hlen, harray]

theorem sortedKeys_eq_of_keys : t.sortedKeys = t'.sortedKeys := by
  have harray : t.array.length = t'.array.length := length_eq_of_keys h h' hkeys
  rw [sortedKeys, sortedKeys, hashKeys_eq_of_keys h h' hkeys, harray]

end Keys

/-- Two tables of the same layout, with related values in the same places. -/
structure Rel (R : V → W → Prop) (t : LuaTable V) (t' : LuaTable W) : Prop where
  array : List.Forall₂ R t.array t'.array
  hash : List.Forall₂ (fun e e' => e.1 = e'.1 ∧ R e.2 e'.2) t.hash t'.hash
  count : t.entryCount = t'.entryCount
  capacity : t.hashCapacity = t'.hashCapacity

section Rel

variable {R : V → W → Prop} {t : LuaTable V} {t' : LuaTable W}

omit [HasNil V] [HasNil W]

theorem find_rel {m : List (LuaKey × V)} {m' : List (LuaKey × W)}
    (h : List.Forall₂ (fun e e' => e.1 = e'.1 ∧ R e.2 e'.2) m m') (key : LuaKey) :
    Option.Rel R (find key m) (find key m') := by
  induction h with
  | nil => exact .none
  | @cons e e' m m' hentry _ ih =>
    obtain ⟨k, v⟩ := e
    obtain ⟨k', w⟩ := e'
    obtain ⟨rfl, hvalue⟩ : k = k' ∧ R v w := hentry
    rw [find_cons, find_cons]
    split_ifs
    · exact .some hvalue
    · exact ih

theorem keys_rel {m : List (LuaKey × V)} {m' : List (LuaKey × W)}
    (h : List.Forall₂ (fun e e' => e.1 = e'.1 ∧ R e.2 e'.2) m m') :
    (m.map fun e => (e.1, ())) = m'.map fun e => (e.1, ()) := by
  induction h with
  | nil => rfl
  | cons hentry _ ih => rw [List.map_cons, List.map_cons, hentry.1, ih]

theorem Rel.get (h : Rel R t t') (key : LuaKey) : Option.Rel R (t.get key) (t'.get key) := by
  have hlen := h.array.length_eq
  cases key with
  | string s => exact find_rel h.hash _
  | boolean b => exact find_rel h.hash _
  | integer i =>
    by_cases hin : 1 ≤ i.toInt ∧ i.toInt ≤ t.array.length
    · have hin' : 1 ≤ i.toInt ∧ i.toInt ≤ t'.array.length := hlen ▸ hin
      rw [get_integer_of_mem hin, get_integer_of_mem hin']
      have hlt : (i.toInt - 1).toNat < t.array.length := by omega
      rw [List.getElem?_eq_getElem hlt, List.getElem?_eq_getElem (hlen ▸ hlt)]
      exact .some (h.array.get hlt (hlen ▸ hlt))
    · have hin' : ¬(1 ≤ i.toInt ∧ i.toInt ≤ t'.array.length) := hlen ▸ hin
      rw [get_integer_of_not_mem hin, get_integer_of_not_mem hin']
      exact find_rel h.hash _

theorem Rel.get_eq_none_iff (h : Rel R t t') (key : LuaKey) :
    t.get key = none ↔ t'.get key = none := by
  have hget := h.get key
  generalize t.get key = v at hget ⊢
  generalize t'.get key = w at hget ⊢
  cases hget <;> simp

theorem Rel.values (h : Rel R t t') {v : V} (hv : v ∈ t.values) : ∃ w ∈ t'.values, R v w := by
  rcases List.mem_append.mp hv with hv | hv
  · obtain ⟨i, hi, rfl⟩ := List.getElem_of_mem hv
    have hi' : i < t'.array.length := h.array.length_eq ▸ hi
    exact ⟨t'.array[i], List.mem_append_left _ (List.getElem_mem hi'), h.array.get hi hi'⟩
  · obtain ⟨e, he, rfl⟩ := List.mem_map.mp hv
    obtain ⟨i, hi, rfl⟩ := List.getElem_of_mem he
    have hi' : i < t'.hash.length := h.hash.length_eq ▸ hi
    have hmem : t'.hash[i].2 ∈ t'.hash.map Prod.snd := List.mem_map_of_mem (List.getElem_mem hi')
    exact ⟨_, List.mem_append_right _ hmem, (h.hash.get hi hi').2⟩

theorem Rel.map_eq (h : Rel R t t') : (t.map fun _ => ()) = t'.map fun _ => () := by
  have harray : (t.array.map fun _ => ()) = t'.array.map fun _ => () := by
    rw [List.map_const', List.map_const', h.array.length_eq]
  rw [map, map, harray, keys_rel h.hash, h.count, h.capacity]

end Rel

theorem Rel.wf {R : V → W → Prop} {t : LuaTable V} {t' : LuaTable W} (h : Rel R t t')
    (hwf : t'.Wf) (hnil : ∀ v ∈ t.values, HasNil.isNil v = false) : t.Wf := by
  have hmap := wf_map (W := Unit) hwf (f := fun _ => ()) fun _ _ => rfl
  rw [← h.map_eq] at hmap
  exact wf_of_map hmap hnil

end Map

section Contents

theorem consolidate_subset {V : Type} (fuel : Nat) (t : LuaTable V) :
    (∀ e ∈ (consolidate fuel t).hash, e ∈ t.hash) ∧
      ∀ v ∈ (consolidate fuel t).values, v ∈ t.values := by
  induction fuel generalizing t with
  | zero => exact ⟨fun _ he => he, fun _ hv => hv⟩
  | succ fuel ih =>
    rw [consolidate]
    cases hfind : find (arrayKey (t.array.length + 1)) t.hash with
    | none => exact ⟨fun _ he => he, fun _ hv => hv⟩
    | some w =>
      obtain ⟨hhash, hvalues⟩ := ih
        { t with
          array := t.array ++ [w]
          hash := erase (arrayKey (t.array.length + 1)) t.hash }
      refine ⟨fun e he => mem_of_mem_erase (hhash e he), fun v hv => ?_⟩
      have hv' := hvalues v hv
      simp only [values, List.append_assoc, List.mem_append, List.mem_singleton,
        List.mem_map] at hv' ⊢
      rcases hv' with hv' | rfl | ⟨e, he, rfl⟩
      · exact Or.inl hv'
      · exact Or.inr ⟨_, mem_of_find hfind, rfl⟩
      · exact Or.inr ⟨e, mem_of_mem_erase he, rfl⟩

theorem store_subset {V : Type} (t : LuaTable V) {key : LuaKey} (value : V)
    (hmin : key ≠ .integer Int64.minValue) :
    (∀ e ∈ (t.store key value).2.hash, e = (key, value) ∨ e ∈ t.hash) ∧
      ∀ v ∈ (t.store key value).2.values, v = value ∨ v ∈ t.values := by
  rcases store_cases t key value hmin with ⟨i, rfl, hin, heq⟩ | ⟨rfl, -, heq⟩ | ⟨-, heq⟩
  · rw [heq]
    refine ⟨fun e he => Or.inr he, fun v hv => ?_⟩
    rcases List.mem_append.mp hv with hv | hv
    · exact (List.mem_or_eq_of_mem_set hv).symm.imp_right (List.mem_append_left _)
    · exact Or.inr (List.mem_append_right _ hv)
  · rw [heq, append_eq]
    obtain ⟨hhash, hvalues⟩ := consolidate_subset t.hash.length (t.pushed value)
    refine ⟨fun e he => Or.inr (hhash e he), fun v hv => ?_⟩
    have hv' := hvalues v hv
    simp only [values, pushed, List.append_assoc, List.mem_append, List.mem_singleton] at hv' ⊢
    tauto
  · rw [heq]
    refine ⟨fun e he => mem_insert (by simpa using he), fun v hv => ?_⟩
    simp only [values, array_storeHash, hash_storeHash, List.mem_append, List.mem_map] at hv ⊢
    rcases hv with hv | ⟨e, he, rfl⟩
    · exact Or.inr (Or.inl hv)
    · rcases mem_insert he with rfl | he
      · exact Or.inl rfl
      · exact Or.inr (Or.inr ⟨e, he, rfl⟩)

theorem rawremove_subset {V : Type} (t : LuaTable V) (key : LuaKey) :
    (∀ e ∈ (t.rawremove key).hash, e ∈ t.hash) ∧
      ∀ v ∈ (t.rawremove key).values, v ∈ t.values := by
  rcases rawremove_cases t key with ⟨i, rfl, hin, heq⟩ | ⟨-, heq⟩
  · rw [heq]
    refine ⟨fun e he => he, fun v hv => ?_⟩
    rcases List.mem_append.mp hv with hv | hv
    · exact List.mem_append_left _ (List.mem_of_mem_eraseIdx hv)
    · exact List.mem_append_right _ hv
  · rw [heq]
    have hhash : ∀ e ∈ (t.removedFromHash key).hash, e ∈ t.hash := by
      intro e he
      rw [hash_removedFromHash] at he
      exact mem_of_mem_erase he
    refine ⟨hhash, fun v hv => ?_⟩
    rcases List.mem_append.mp hv with hv | hv
    · exact List.mem_append_left _ (by simpa using hv)
    · obtain ⟨e, he, rfl⟩ := List.mem_map.mp hv
      exact List.mem_append_right _ (List.mem_map_of_mem (hhash e he))

/-- A successful write stays within the cap. -/
theorem entryCount_of_rawset_ok {V : Type} [HasNil V] {t t' : LuaTable V} {key : LuaKey}
    {value : V} (hcap : t.entryCount ≤ maxTableEntries)
    (h : t.rawset key value = (.ok (), t')) : t'.entryCount ≤ maxTableEntries := by
  simp only [rawset, rawsetTracked] at h
  split_ifs at h with hmin hnil hover
  · simp [Except.map] at h
  · rw [← (Prod.mk.inj h).2]
    rcases rawremove_cases t key with ⟨i, -, -, heq⟩ | ⟨-, heq⟩
    · rw [heq]
      simp only
      omega
    · rw [heq, removedFromHash]
      split_ifs
      · simp only
        omega
      · exact hcap
  · simp [Except.map] at h
  · rw [← (Prod.mk.inj h).2]
    exact not_lt.mp hover

end Contents

section Rebuild

variable {V : Type}

/-- The elements of an array part that starts after key `n`. -/
def arrayEntries : Nat → List V → List (LuaKey × V)
  | _, [] => []
  | n, v :: vs => (arrayKey (n + 1), v) :: arrayEntries (n + 1) vs

def entries (t : LuaTable V) : List (LuaKey × V) := arrayEntries 0 t.array ++ t.hash

@[simp] theorem arrayEntries_nil (n : Nat) : arrayEntries n ([] : List V) = [] := rfl

theorem arrayEntries_cons (n : Nat) (v : V) (vs : List V) :
    arrayEntries n (v :: vs) = (arrayKey (n + 1), v) :: arrayEntries (n + 1) vs := rfl

theorem arrayEntries_keys (n : Nat) (vs : List V) :
    (arrayEntries n vs).map Prod.fst =
      (List.range vs.length).map fun i => arrayKey (n + i + 1) := by
  induction vs generalizing n with
  | nil => rfl
  | cons v vs ih =>
    rw [arrayEntries_cons, List.map_cons, ih, List.length_cons, List.range_succ_eq_map,
      List.map_cons, List.map_map]
    congr 1
    refine List.map_congr_left fun i _ => ?_
    rw [Function.comp_apply, Nat.succ_eq_add_one]
    congr 1
    omega

theorem arrayEntries_values (n : Nat) (vs : List V) :
    (arrayEntries n vs).map Prod.snd = vs := by
  induction vs generalizing n with
  | nil => rfl
  | cons v vs ih => rw [arrayEntries_cons, List.map_cons, ih]

theorem entries_values (t : LuaTable V) : t.entries.map Prod.snd = t.values := by
  rw [entries, values, List.map_append, arrayEntries_values]

theorem entries_keys (t : LuaTable V) : t.entries.map Prod.fst = t.sortedKeys := by
  rw [entries, sortedKeys, List.map_append, arrayEntries_keys]
  simp

theorem mem_arrayEntries {n : Nat} {vs : List V} {e : LuaKey × V}
    (h : e ∈ arrayEntries n vs) :
    ∃ i, i < vs.length ∧ e.1 = arrayKey (n + i + 1) ∧ vs[i]? = some e.2 := by
  induction vs generalizing n with
  | nil => simp at h
  | cons v vs ih =>
    rcases List.mem_cons.mp h with rfl | h
    · exact ⟨0, by simp, rfl, rfl⟩
    · obtain ⟨i, hi, hkey, hval⟩ := ih h
      refine ⟨i + 1, by simpa using hi, ?_, by simpa using hval⟩
      rw [hkey]
      congr 1
      omega

theorem arrayEntries_mem {n i : Nat} {vs : List V} {v : V} (h : vs[i]? = some v) :
    (arrayKey (n + i + 1), v) ∈ arrayEntries n vs := by
  induction vs generalizing n i with
  | nil => simp at h
  | cons w vs ih =>
    rw [arrayEntries_cons]
    cases i with
    | zero =>
      obtain rfl : w = v := by simpa using h
      exact List.mem_cons_self
    | succ i =>
      have hmem := ih (n := n + 1) (i := i) (by simpa using h)
      rw [show n + 1 + i + 1 = n + (i + 1) + 1 by omega] at hmem
      exact List.mem_cons_of_mem _ hmem

theorem map_arrayEntries {W : Type} (f : V → W) (n : Nat) (vs : List V) :
    arrayEntries n (vs.map f) = (arrayEntries n vs).map fun e => (e.1, f e.2) := by
  induction vs generalizing n with
  | nil => rfl
  | cons v vs ih => simp [arrayEntries_cons, ih]

theorem entries_map {W : Type} (f : V → W) (t : LuaTable V) :
    (t.map f).entries = t.entries.map fun e => (e.1, f e.2) := by
  simp [entries, map, map_arrayEntries]

variable [HasNil V]

theorem get_of_mem_entries {t : LuaTable V} (h : t.Wf) {e : LuaKey × V} (he : e ∈ t.entries) :
    t.get e.1 = some e.2 := by
  have hbound := h.bound
  rcases List.mem_append.mp he with he | he
  · obtain ⟨i, hi, hkey, hval⟩ := mem_arrayEntries he
    rw [hkey, get_arrayKey_eq h (by omega) (by omega), ← hval]
    congr 1
    omega
  · obtain ⟨key, v⟩ := e
    have hfind := find_of_mem h.sorted he
    cases key with
    | string s => exact hfind
    | boolean b => exact hfind
    | integer i =>
      rw [get_integer_of_not_mem]
      · exact hfind
      · rintro ⟨h1, hn⟩
        simp [h.disjoint i h1 hn] at hfind

theorem mem_entries_of_get {t : LuaTable V} (h : t.Wf) {key : LuaKey} {v : V}
    (hget : t.get key = some v) : (key, v) ∈ t.entries := by
  have hbound := h.bound
  rw [entries, List.mem_append]
  cases key with
  | string s => exact Or.inr (mem_of_find hget)
  | boolean b => exact Or.inr (mem_of_find hget)
  | integer i =>
    by_cases hin : 1 ≤ i.toInt ∧ i.toInt ≤ t.array.length
    · rw [get_integer_of_mem hin] at hget
      have hmem := arrayEntries_mem (n := 0) hget
      have hkey : LuaKey.integer i = arrayKey (0 + (i.toInt - 1).toNat + 1) :=
        integer_eq_arrayKey (by omega) (by omega)
      rw [hkey]
      exact Or.inl hmem
    · rw [get_integer_of_not_mem hin] at hget
      exact Or.inr (mem_of_find hget)

def writes (es : List (LuaKey × V)) : List (TableOp V) := es.map fun e => .rawset e.1 e.2

theorem runOps_append (t : LuaTable V) (ops ops' : List (TableOp V)) :
    t.runOps (ops ++ ops') = (t.runOps ops).bind fun t' => t'.runOps ops' := by
  induction ops generalizing t with
  | nil => rfl
  | cons op ops ih =>
    rw [List.cons_append, runOps, runOps]
    split
    · exact ih _
    · rfl

theorem apply_rawset_of_store {t : LuaTable V} {key : LuaKey} {value : V}
    (hmin : key ≠ .integer Int64.minValue) (hnil : HasNil.isNil value = false)
    (hcap : (t.store key value).2.entryCount ≤ maxTableEntries) :
    t.apply (.rawset key value) = (.ok (), (t.store key value).2) := by
  simp only [apply, rawset, rawsetTracked, if_neg hmin, hnil, Bool.false_eq_true, if_false,
    if_neg (not_lt.mpr hcap)]
  rfl

theorem nextPowerOfTwoCapacity_mono : Monotone nextPowerOfTwoCapacity := by
  intro m n hmn
  unfold nextPowerOfTwoCapacity
  split_ifs with hm hn
  · exact le_rfl
  · exact Nat.zero_le _
  · omega
  · refine max_le_max_right _ (Nat.pow_le_pow_right (by omega) (Nat.clog_mono_right 2 ?_))
    omega

theorem consolidate_counts {V : Type} (fuel : Nat) (t : LuaTable V) :
    (consolidate fuel t).entryCount = t.entryCount ∧
      (consolidate fuel t).hashCapacity = t.hashCapacity := by
  induction fuel generalizing t with
  | zero => exact ⟨rfl, rfl⟩
  | succ fuel ih =>
    rw [consolidate]
    split
    · exact ih _
    · exact ⟨rfl, rfl⟩

/-- A write under an absent key adds an entry, and grows the hash part no further than
its entries ask for. -/
theorem store_absent {t : LuaTable V} (h : t.Wf) {key : LuaKey}
    (hmin : key ≠ .integer Int64.minValue) (habsent : t.get key = none) (value : V) :
    let bound := max t.hashCapacity (nextPowerOfTwoCapacity (t.entryCount + 1))
    (t.store key value).2.entryCount = t.entryCount + 1 ∧
      (t.store key value).2.hashCapacity ≤ bound ∧
      ∃ grew capacity, (t.store key value).1 = .inserted grew capacity ∧ capacity ≤ bound := by
  rcases store_cases t key value hmin with ⟨i, rfl, hin, -⟩ | ⟨-, -, heq⟩ | ⟨hkey, heq⟩
  · rw [get_integer_of_mem hin, List.getElem?_eq_none_iff] at habsent
    omega
  · obtain ⟨hcount, hcapacity⟩ := consolidate_counts t.hash.length (t.pushed value)
    rw [heq, append_eq]
    exact ⟨hcount, hcapacity.le.trans (le_max_left _ _), _, _, rfl, le_max_left _ _⟩
  · have hfind : SortedAssoc.find key t.hash = none := by
      rw [← habsent]
      cases key with
      | string s => rfl
      | boolean b => rfl
      | integer i =>
        rw [get_integer_of_not_mem]
        rintro ⟨h1, hn⟩
        exact hkey.2 ⟨h1, by omega⟩
    have hlength : (SortedAssoc.insert key value t.hash).length = t.hash.length + 1 := by
      rw [SortedAssoc.length_insert h.sorted, hfind]
      rfl
    have hle : nextPowerOfTwoCapacity (t.hash.length + 1) ≤
        nextPowerOfTwoCapacity (t.entryCount + 1) := by
      refine nextPowerOfTwoCapacity_mono ?_
      have hcount := h.count
      omega
    have hcapacity : (t.storeHash key value).2.hashCapacity =
        max t.hashCapacity (nextPowerOfTwoCapacity (t.hash.length + 1)) := by
      simp [storeHash, hfind, updateHashCapacity, hlength]
    rw [heq]
    refine ⟨by simp [entryCount_storeHash, hfind], ?_, _, _, by simp only [storeHash, hfind]; rfl, ?_⟩
    · rw [hcapacity]
      exact max_le_max_left _ hle
    · simp only [updateHashCapacity, hlength]
      exact max_le_max_left _ hle

theorem runOps_arrayEntries (ys xs : List V) (hcap : ys.length + xs.length ≤ maxTableEntries)
    (hnil : ∀ v ∈ xs, HasNil.isNil v = false) :
    (⟨ys, [], ys.length, 0⟩ : LuaTable V).runOps (writes (arrayEntries ys.length xs)) =
      some ⟨ys ++ xs, [], ys.length + xs.length, 0⟩ := by
  induction xs generalizing ys with
  | nil => simp [writes, runOps]
  | cons x xs ih =>
    have hmax : maxTableEntries = 50000 := rfl
    rw [List.length_cons] at hcap
    have hint : (Int64.ofNat (ys.length + 1)).toInt = ys.length + 1 := by
      rw [toInt_arrayKey (by omega)]
      push_cast
      rfl
    have hmin : arrayKey (ys.length + 1) ≠ .integer Int64.minValue := by
      intro heq
      have hi := congrArg Int64.toInt (LuaKey.integer.inj heq)
      rw [hint] at hi
      have hval : Int64.minValue.toInt = -2 ^ 63 := by decide
      omega
    have hstore : (⟨ys, [], ys.length, 0⟩ : LuaTable V).store (arrayKey (ys.length + 1)) x =
        (.inserted false 0, ⟨ys ++ [x], [], ys.length + 1, 0⟩) := by
      have hnear : 1 ≤ (ys.length : Int) + 1 ∧ (ys.length : Int) + 1 ≤ ys.length + 1 := by omega
      have hout : ¬((ys.length : Int) + 1 ≤ ys.length) := by omega
      simp only [store, arrayKey, hint, if_pos hnear, if_neg hout, append]
      rfl
    have happly := apply_rawset_of_store (t := ⟨ys, [], ys.length, 0⟩) hmin (hnil x (by simp))
      (by rw [hstore]; simp only; omega)
    rw [hstore] at happly
    have hrest := ih (ys ++ [x]) (by rw [List.length_append, List.length_singleton]; omega)
      fun v hv => hnil v (by simp [hv])
    rw [List.length_append, List.length_singleton] at hrest
    rw [arrayEntries_cons, writes, List.map_cons, runOps, happly]
    simp only
    rw [← writes, hrest]
    simp [List.append_assoc, Nat.add_comm 1, Nat.add_assoc]

theorem hashKey_of_find {t : LuaTable V} (h : t.Wf) {key : LuaKey}
    (hkey : (find key t.hash).isSome) : t.HashKey key := by
  cases key with
  | string s => trivial
  | boolean b => trivial
  | integer i =>
    constructor
    · rintro rfl
      simp [h.noMin] at hkey
    · rintro ⟨h1, hn⟩
      simp [not_find_frontier h h1 hn] at hkey

theorem runOps_hash (array : List V) (m p : List (LuaKey × V))
    (hcap : array.length + (p.length + m.length) ≤ maxTableEntries) (hs : Sorted (p ++ m))
    (hkey : ∀ e ∈ m, (⟨array, [], 0, 0⟩ : LuaTable V).HashKey e.1)
    (hnil : ∀ e ∈ m, HasNil.isNil e.2 = false) :
    (⟨array, p, array.length + p.length, nextPowerOfTwoCapacity p.length⟩ : LuaTable V).runOps
        (writes m) =
      some ⟨array, p ++ m, array.length + (p.length + m.length),
        nextPowerOfTwoCapacity (p.length + m.length)⟩ := by
  induction m generalizing p with
  | nil => simp [writes, runOps]
  | cons e m ih =>
    obtain ⟨key, v⟩ := e
    have hbelow : ∀ e ∈ p, e.1 < key := fun e he =>
      (List.pairwise_append.mp hs).2.2 e he (key, v) (by simp)
    have hhash := hkey (key, v) (by simp)
    have hmin : key ≠ .integer Int64.minValue := by
      rintro rfl
      exact hhash.1 rfl
    have hmono := nextPowerOfTwoCapacity_mono (Nat.le_succ p.length)
    have hstore : ((⟨array, p, array.length + p.length,
        nextPowerOfTwoCapacity p.length⟩ : LuaTable V).store key v).2 =
        ⟨array, p ++ [(key, v)], array.length + (p.length + 1),
          nextPowerOfTwoCapacity (p.length + 1)⟩ := by
      have hcases : (⟨array, p, array.length + p.length,
          nextPowerOfTwoCapacity p.length⟩ : LuaTable V).store key v =
          (⟨array, p, array.length + p.length,
          nextPowerOfTwoCapacity p.length⟩ : LuaTable V).storeHash key v := by
        cases key with
        | string s => rfl
        | boolean b => rfl
        | integer i => simp only [store, if_neg hhash.2]
      rw [hcases]
      simp only [storeHash, find_eq_none_of_gt hbelow, Option.isNone_none, if_true,
        updateHashCapacity, insert_eq_append v hbelow, List.length_append, List.length_singleton,
        max_eq_right hmono, Nat.add_assoc]
    rw [List.length_cons] at hcap
    have happly := apply_rawset_of_store (t := ⟨array, p, array.length + p.length,
      nextPowerOfTwoCapacity p.length⟩) hmin (hnil (key, v) (by simp))
      (by rw [hstore]; simp only; omega)
    rw [hstore] at happly
    have hrest := ih (p ++ [(key, v)])
      (by rw [List.length_append, List.length_singleton]; omega)
      (by rw [List.append_assoc]; exact hs)
      (fun e he => hkey e (by simp [he])) fun e he => hnil e (by simp [he])
    rw [List.length_append, List.length_singleton] at hrest
    rw [writes, List.map_cons, runOps, happly]
    simp only
    rw [← writes, hrest]
    simp [List.append_assoc, Nat.add_comm 1, Nat.add_assoc]

theorem runOps_entries {t : LuaTable V} (h : t.Wf) (hcap : t.entryCount ≤ maxTableEntries) :
    new.runOps (writes t.entries) =
      some { t with hashCapacity := nextPowerOfTwoCapacity t.hash.length } := by
  have hcount := h.count
  have harray := runOps_arrayEntries [] t.array (by simp; omega) h.arrayNotNil
  have hhash := runOps_hash t.array t.hash [] (by simp; omega) (by simpa using h.sorted)
    (fun e he => hashKey_of_find h ((find_isSome_iff h.sorted).mpr (List.mem_map_of_mem he)))
    h.hashNotNil
  simp only [List.length_nil, List.nil_append, Nat.zero_add, Nat.add_zero] at harray hhash
  rw [entries, writes, List.map_append, runOps_append, ← writes, ← writes, new, harray,
    Option.bind_some]
  have hzero : nextPowerOfTwoCapacity 0 = 0 := rfl
  rw [hzero] at hhash
  rw [hhash, hcount]

end Rebuild

end Proveno.LuaTable
