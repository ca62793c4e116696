import Proveno.Types.Table

/-! The representation invariant of the hybrid table, kept by every write and
removal, and the exact finite-map behaviour of both. The array part is always
the longest run `1..n` of present keys, so the contents fix the split. -/

namespace Proveno.LuaTable

open SortedAssoc

variable {V : Type}

theorem toInt_arrayKey {n : Nat} (h : n < 2 ^ 63) : (Int64.ofNat n).toInt = n :=
  Int64.toInt_ofNat_of_lt (by simpa using h)

theorem integer_eq_arrayKey {i : Int64} {n : Nat} (hn : n < 2 ^ 63) (h : i.toInt = n) :
    LuaKey.integer i = arrayKey n := by
  rw [arrayKey, LuaKey.integer.injEq, ← Int64.toInt_inj, toInt_arrayKey hn, h]

section Operations

variable {t : LuaTable V}

theorem get_integer_of_mem {i : Int64}
    (h : 1 ≤ i.toInt ∧ i.toInt ≤ t.array.length) :
    t.get (.integer i) = t.array[(i.toInt - 1).toNat]? := by
  simp [get, h]

theorem get_integer_of_not_mem {i : Int64}
    (h : ¬(1 ≤ i.toInt ∧ i.toInt ≤ t.array.length)) :
    t.get (.integer i) = find (.integer i) t.hash := by
  simp only [get, if_neg h]

/-- The table in the middle of `append`, before entries are moved over. -/
def pushed (t : LuaTable V) (value : V) : LuaTable V :=
  { t with array := t.array ++ [value], entryCount := t.entryCount + 1 }

theorem get_pushed (value : V) (hbound : t.array.length + 1 < 2 ^ 63) (key : LuaKey) :
    (t.pushed value).get key =
      if key = arrayKey (t.array.length + 1) then some value else t.get key := by
  have hlen : (t.pushed value).array.length = t.array.length + 1 := by simp [pushed]
  cases key with
  | string s => simp [get, pushed, arrayKey]
  | boolean b => simp [get, pushed, arrayKey]
  | integer i =>
    by_cases hlast : i.toInt = t.array.length + 1
    · have hkey := integer_eq_arrayKey hbound (i := i) (by push_cast; omega)
      have hin : 1 ≤ i.toInt ∧ i.toInt ≤ (t.pushed value).array.length := by
        rw [hlen]; push_cast; omega
      have hidx : (i.toInt - 1).toNat = t.array.length := by omega
      rw [if_pos hkey, get_integer_of_mem hin]
      simp [pushed, hidx]
    · have hne : LuaKey.integer i ≠ arrayKey (t.array.length + 1) := by
        intro heq
        rw [LuaKey.integer.inj heq, toInt_arrayKey hbound] at hlast
        push_cast at hlast
        exact hlast rfl
      rw [if_neg hne]
      by_cases hin : 1 ≤ i.toInt ∧ i.toInt ≤ t.array.length
      · have hin' : 1 ≤ i.toInt ∧ i.toInt ≤ (t.pushed value).array.length := by
          rw [hlen]; push_cast; omega
        rw [get_integer_of_mem hin, get_integer_of_mem hin']
        exact List.getElem?_append_left (by omega)
      · have hout : ¬(1 ≤ i.toInt ∧ i.toInt ≤ (t.pushed value).array.length) := by
          rw [hlen]; push_cast; omega
        rw [get_integer_of_not_mem hin, get_integer_of_not_mem hout, pushed]

theorem append_eq (value : V) :
    t.append value = consolidate t.hash.length (t.pushed value) := rfl

@[simp] theorem array_storeHash (key : LuaKey) (value : V) :
    (t.storeHash key value).2.array = t.array := by
  simp only [storeHash]
  split <;> rfl

@[simp] theorem hash_storeHash (key : LuaKey) (value : V) :
    (t.storeHash key value).2.hash = insert key value t.hash := by
  simp only [storeHash]
  split <;> rfl

theorem entryCount_storeHash (key : LuaKey) (value : V) :
    (t.storeHash key value).2.entryCount =
      if (find key t.hash).isSome then t.entryCount else t.entryCount + 1 := by
  simp only [storeHash]
  cases find key t.hash <;> simp [updateHashCapacity]

/-- A key that belongs to the hash part: not minimal and not adjacent to the array. -/
def HashKey (t : LuaTable V) : LuaKey → Prop
  | .integer i => i ≠ Int64.minValue ∧ ¬(1 ≤ i.toInt ∧ i.toInt ≤ t.array.length + 1)
  | _ => True

theorem get_storeHash {key : LuaKey} (value : V) (hkey : t.HashKey key) (key' : LuaKey) :
    (t.storeHash key value).2.get key' = if key' = key then some value else t.get key' := by
  cases key' with
  | string s => simp [get, find_insert]
  | boolean b => simp [get, find_insert]
  | integer i =>
    by_cases hin : 1 ≤ i.toInt ∧ i.toInt ≤ t.array.length
    · have hne : LuaKey.integer i ≠ key := by
        rintro rfl
        exact hkey.2 ⟨hin.1, by omega⟩
      rw [if_neg hne, get_integer_of_mem hin, get_integer_of_mem (by simpa using hin),
        array_storeHash]
    · rw [get_integer_of_not_mem hin, get_integer_of_not_mem (by simpa using hin), hash_storeHash,
        find_insert]

theorem get_set {i : Int64} (hi : 1 ≤ i.toInt ∧ i.toInt ≤ t.array.length) (value : V)
    (key : LuaKey) :
    ({ t with array := t.array.set (i.toInt.toNat - 1) value } : LuaTable V).get key =
      if key = .integer i then some value else t.get key := by
  cases key with
  | string s => simp [get]
  | boolean b => simp [get]
  | integer j =>
    by_cases hj : 1 ≤ j.toInt ∧ j.toInt ≤ t.array.length
    · rw [get_integer_of_mem hj, get_integer_of_mem (by simpa using hj), List.getElem?_set]
      by_cases heq : j = i
      · subst heq
        have hidx : j.toInt.toNat - 1 = (j.toInt - 1).toNat := by omega
        have hlt : (j.toInt - 1).toNat < t.array.length := by omega
        rw [hidx, if_pos rfl, if_pos hlt, if_pos rfl]
      · have hne : ¬(i.toInt.toNat - 1 = (j.toInt - 1).toNat) := by
          intro hidx
          exact heq (Int64.toInt_inj.mp (by omega))
        rw [if_neg hne, if_neg fun hk => heq (LuaKey.integer.inj hk)]
    · have hne : LuaKey.integer j ≠ .integer i := by
        intro heq
        rw [LuaKey.integer.inj heq] at hj
        exact hj hi
      rw [if_neg hne, get_integer_of_not_mem hj, get_integer_of_not_mem (by simpa using hj)]

/-- The three places a written value can go. -/
theorem store_cases (t : LuaTable V) (key : LuaKey) (value : V)
    (hmin : key ≠ .integer Int64.minValue) :
    (∃ i : Int64, key = .integer i ∧ (1 ≤ i.toInt ∧ i.toInt ≤ t.array.length) ∧
      t.store key value =
        (.updated, { t with array := t.array.set (i.toInt.toNat - 1) value })) ∨
    (key = arrayKey (t.array.length + 1) ∧ t.array.length + 1 < 2 ^ 63 ∧
      t.store key value = (.inserted false t.hashCapacity, t.append value)) ∨
    (t.HashKey key ∧ t.store key value = t.storeHash key value) := by
  cases key with
  | string s => exact Or.inr (Or.inr ⟨trivial, rfl⟩)
  | boolean b => exact Or.inr (Or.inr ⟨trivial, rfl⟩)
  | integer i =>
    have hlt := i.toInt_lt
    by_cases hnear : 1 ≤ i.toInt ∧ i.toInt ≤ t.array.length + 1
    · by_cases hin : i.toInt ≤ t.array.length
      · exact Or.inl ⟨i, rfl, ⟨hnear.1, hin⟩, by simp [store, hnear, hin]⟩
      · have hb : t.array.length + 1 < 2 ^ 63 := by omega
        have hkey := integer_eq_arrayKey hb (i := i) (by push_cast; omega)
        exact Or.inr (Or.inl ⟨hkey, hb, by simp [store, hnear, hin]⟩)
    · have hi : i ≠ Int64.minValue := by
        rintro rfl
        exact hmin rfl
      exact Or.inr (Or.inr ⟨⟨hi, hnear⟩, by simp only [store, if_neg hnear]⟩)

/-- The removals that shift: those of an array element that is not the last. -/
def Interior (t : LuaTable V) : LuaKey → Prop
  | .integer i => 1 ≤ i.toInt ∧ i.toInt < t.array.length
  | _ => False

instance (t : LuaTable V) (key : LuaKey) : Decidable (t.Interior key) := by
  unfold Interior
  split <;> infer_instance

def removedFromHash (t : LuaTable V) (key : LuaKey) : LuaTable V :=
  if (find key t.hash).isSome then
    { t with hash := erase key t.hash, entryCount := t.entryCount - 1 }
  else t

/-- The two ways a key is removed. -/
theorem rawremove_cases (t : LuaTable V) (key : LuaKey) :
    (∃ i : Int64, key = .integer i ∧ (1 ≤ i.toInt ∧ i.toInt ≤ t.array.length) ∧
      t.rawremove key =
        { t with
          array := t.array.eraseIdx (i.toInt - 1).toNat
          entryCount := t.entryCount - 1 }) ∨
    ((∀ i, key = .integer i → ¬(1 ≤ i.toInt ∧ i.toInt ≤ t.array.length)) ∧
      t.rawremove key = t.removedFromHash key) := by
  cases key with
  | string s => exact Or.inr ⟨by simp, rfl⟩
  | boolean b => exact Or.inr ⟨by simp, rfl⟩
  | integer i =>
    by_cases hin : 1 ≤ i.toInt ∧ i.toInt ≤ t.array.length
    · exact Or.inl ⟨i, rfl, hin, by simp [rawremove, hin]⟩
    · refine Or.inr ⟨?_, by simp only [rawremove, if_neg hin, removedFromHash]⟩
      rintro j hj
      rwa [← LuaKey.integer.inj hj]

theorem hash_removedFromHash (key : LuaKey) :
    (t.removedFromHash key).hash = erase key t.hash := by
  unfold removedFromHash
  split_ifs with hsome
  · rfl
  · exact (erase_eq_self (by simpa using hsome)).symm

@[simp] theorem array_removedFromHash (key : LuaKey) :
    (t.removedFromHash key).array = t.array := by
  unfold removedFromHash
  split_ifs <;> rfl

end Operations

variable [HasNil V]

/-- What holds of a table while `consolidate` is still moving entries. -/
structure Sound (t : LuaTable V) : Prop where
  sorted : Sorted t.hash
  bound : t.array.length < 2 ^ 63
  disjoint : ∀ i : Int64, 1 ≤ i.toInt → i.toInt ≤ t.array.length →
    find (.integer i) t.hash = none
  noMin : find (.integer Int64.minValue) t.hash = none
  count : t.entryCount = t.array.length + t.hash.length
  arrayNotNil : ∀ v ∈ t.array, HasNil.isNil v = false
  hashNotNil : ∀ e ∈ t.hash, HasNil.isNil e.2 = false

structure Wf (t : LuaTable V) : Prop extends Sound t where
  frontier : find (arrayKey (t.array.length + 1)) t.hash = none

theorem wf_new : (new : LuaTable V).Wf := by
  constructor
  · constructor <;> simp [new]
  · simp [new]

theorem not_find_frontier {t : LuaTable V} (h : t.Wf) {i : Int64} (h1 : 1 ≤ i.toInt)
    (hn : i.toInt ≤ t.array.length + 1) : find (.integer i) t.hash = none := by
  by_cases hle : i.toInt ≤ t.array.length
  · exact h.disjoint i h1 hle
  · have hlt := i.toInt_lt
    have heq : LuaKey.integer i = arrayKey (t.array.length + 1) :=
      integer_eq_arrayKey (by omega) (by push_cast; omega)
    rw [heq]
    exact h.frontier

section Consolidate

variable {t : LuaTable V} {v : V}

/-- A hash entry just past the array part can only sit at a representable key. -/
theorem bound_of_find (h : t.Sound) (hv : find (arrayKey (t.array.length + 1)) t.hash = some v) :
    t.array.length + 1 < 2 ^ 63 := by
  by_contra hge
  have hbound := h.bound
  have hlen : t.array.length + 1 = 2 ^ 63 := by omega
  have hmin : (arrayKey (t.array.length + 1) : LuaKey) = .integer Int64.minValue := by
    rw [hlen]
    decide
  rw [hmin, h.noMin] at hv
  simp at hv

def moved (t : LuaTable V) (v : V) : LuaTable V :=
  { t with
    array := t.array ++ [v]
    hash := erase (arrayKey (t.array.length + 1)) t.hash }

theorem sound_moved (h : t.Sound) (hv : find (arrayKey (t.array.length + 1)) t.hash = some v) :
    (t.moved v).Sound := by
  have hbound := bound_of_find h hv
  have hmem := mem_of_find hv
  have hpos : 0 < t.hash.length := List.length_pos_of_mem hmem
  constructor
  case sorted => exact h.sorted.erase _
  case bound => simpa [moved] using hbound
  case disjoint =>
    intro i h1 hi
    simp only [moved, List.length_append, List.length_singleton] at hi
    rw [moved, find_erase h.sorted]
    split_ifs with heq
    · rfl
    · refine h.disjoint i h1 ?_
      by_contra hgt
      exact heq (integer_eq_arrayKey hbound (by push_cast at hi ⊢; omega))
  case noMin =>
    rw [moved, find_erase h.sorted]
    split_ifs
    · rfl
    · exact h.noMin
  case count =>
    have hcount := h.count
    simp only [moved, List.length_append, List.length_singleton, length_erase, hv,
      Option.isSome_some, if_true]
    omega
  case arrayNotNil =>
    intro w hw
    simp only [moved, List.mem_append, List.mem_singleton] at hw
    rcases hw with hw | rfl
    · exact h.arrayNotNil w hw
    · exact h.hashNotNil _ hmem
  case hashNotNil => exact fun e he => h.hashNotNil e (mem_of_mem_erase he)

theorem get_moved (h : t.Sound) (hv : find (arrayKey (t.array.length + 1)) t.hash = some v)
    (key : LuaKey) : (t.moved v).get key = t.get key := by
  have hbound := bound_of_find h hv
  have hlen : (t.moved v).array.length = t.array.length + 1 := by simp [moved]
  cases key with
  | string s => simp [get, moved, find_erase h.sorted, arrayKey]
  | boolean b => simp [get, moved, find_erase h.sorted, arrayKey]
  | integer i =>
    by_cases hin : 1 ≤ i.toInt ∧ i.toInt ≤ t.array.length
    · have hin' : 1 ≤ i.toInt ∧ i.toInt ≤ (t.moved v).array.length := by
        rw [hlen]; push_cast; omega
      rw [get_integer_of_mem hin, get_integer_of_mem hin']
      exact List.getElem?_append_left (by omega)
    · by_cases hlast : i.toInt = t.array.length + 1
      · have hin' : 1 ≤ i.toInt ∧ i.toInt ≤ (t.moved v).array.length := by
          rw [hlen]; push_cast; omega
        have hkey := integer_eq_arrayKey hbound (i := i) (by push_cast; omega)
        rw [get_integer_of_mem hin', get_integer_of_not_mem hin, hkey, hv]
        have hidx : (i.toInt - 1).toNat = t.array.length := by omega
        simp [moved, hidx]
      · have hout : ¬(1 ≤ i.toInt ∧ i.toInt ≤ (t.moved v).array.length) := by
          rw [hlen]; push_cast; omega
        rw [get_integer_of_not_mem hin, get_integer_of_not_mem hout, moved, find_erase h.sorted,
          if_neg]
        intro heq
        have hi : i = Int64.ofNat (t.array.length + 1) := LuaKey.integer.inj heq
        rw [hi, toInt_arrayKey hbound] at hlast
        push_cast at hlast
        exact hlast rfl

theorem sound_consolidate (fuel : Nat) (h : t.Sound) : (consolidate fuel t).Sound := by
  induction fuel generalizing t with
  | zero => exact h
  | succ fuel ih =>
    rw [consolidate]
    cases hv : find (arrayKey (t.array.length + 1)) t.hash with
    | none => exact h
    | some v => exact ih (sound_moved h hv)

theorem get_consolidate (fuel : Nat) (h : t.Sound) (key : LuaKey) :
    (consolidate fuel t).get key = t.get key := by
  induction fuel generalizing t with
  | zero => rfl
  | succ fuel ih =>
    rw [consolidate]
    cases hv : find (arrayKey (t.array.length + 1)) t.hash with
    | none => rfl
    | some v => exact (ih (sound_moved h hv)).trans (get_moved h hv key)

/-- Each round takes one entry out of the hash part, so `hash.length` rounds
reach a gap. -/
theorem wf_consolidate {fuel : Nat} (hfuel : t.hash.length ≤ fuel) (h : t.Sound) :
    (consolidate fuel t).Wf := by
  induction fuel generalizing t with
  | zero =>
    have hnil : t.hash = [] := List.length_eq_zero_iff.mp (by omega)
    exact ⟨h, by simp [consolidate, hnil]⟩
  | succ fuel ih =>
    rw [consolidate]
    cases hv : find (arrayKey (t.array.length + 1)) t.hash with
    | none => exact ⟨h, hv⟩
    | some v =>
      have hpos : 0 < t.hash.length := List.length_pos_of_mem (mem_of_find hv)
      refine ih ?_ (sound_moved h hv)
      simp only [length_erase, hv, Option.isSome_some, if_true]
      omega

end Consolidate

section Write

variable {t : LuaTable V}

theorem sound_pushed (h : t.Wf) {value : V} (hbound : t.array.length + 1 < 2 ^ 63)
    (hvalue : HasNil.isNil value = false) : (t.pushed value).Sound := by
  constructor
  case sorted => exact h.sorted
  case bound => simpa [pushed] using hbound
  case disjoint =>
    intro i h1 hi
    simp only [pushed, List.length_append, List.length_singleton] at hi
    exact not_find_frontier h h1 (by push_cast at hi; exact hi)
  case noMin => exact h.noMin
  case count =>
    have hcount := h.count
    simp only [pushed, List.length_append, List.length_singleton]
    omega
  case arrayNotNil =>
    intro w hw
    simp only [pushed, List.mem_append, List.mem_singleton] at hw
    rcases hw with hw | rfl
    · exact h.arrayNotNil w hw
    · exact hvalue
  case hashNotNil => exact h.hashNotNil

theorem wf_storeHash (h : t.Wf) {key : LuaKey} {value : V} (hkey : t.HashKey key)
    (hvalue : HasNil.isNil value = false) : (t.storeHash key value).2.Wf := by
  have hother : ∀ i : Int64, 1 ≤ i.toInt → i.toInt ≤ t.array.length + 1 →
      find (.integer i) (insert key value t.hash) = none := by
    intro i h1 hi
    rw [find_insert, if_neg]
    · exact not_find_frontier h h1 hi
    · rintro rfl
      exact hkey.2 ⟨h1, hi⟩
  have hmin : find (.integer Int64.minValue) (insert key value t.hash) = none := by
    rw [find_insert, if_neg]
    · exact h.noMin
    · rintro rfl
      exact hkey.1 rfl
  refine ⟨⟨?_, ?_, ?_, ?_, ?_, ?_, ?_⟩, ?_⟩
  · simpa using h.sorted.insert key value
  · simpa using h.bound
  · intro i h1 hi
    rw [array_storeHash] at hi
    rw [hash_storeHash]
    exact hother i h1 (by omega)
  · rw [hash_storeHash]
    exact hmin
  · have hcount := h.count
    rw [entryCount_storeHash, array_storeHash, hash_storeHash, length_insert h.sorted]
    split <;> omega
  · simpa using h.arrayNotNil
  · intro e he
    rw [hash_storeHash] at he
    rcases mem_insert he with rfl | he
    · exact hvalue
    · exact h.hashNotNil e he
  · rw [hash_storeHash, array_storeHash]
    by_cases hb : t.array.length + 1 < 2 ^ 63
    · refine hother _ ?_ ?_ <;> rw [toInt_arrayKey hb] <;> push_cast <;> omega
    · have hbound := h.bound
      have hlen : t.array.length + 1 = 2 ^ 63 := by omega
      have hkeymin : (arrayKey (t.array.length + 1) : LuaKey) = .integer Int64.minValue := by
        rw [hlen]
        decide
      rw [hkeymin]
      exact hmin

theorem wf_set (h : t.Wf) (n : Nat) {value : V} (hvalue : HasNil.isNil value = false) :
    ({ t with array := t.array.set n value } : LuaTable V).Wf where
  sorted := h.sorted
  bound := by simpa using h.bound
  disjoint := by simpa using h.disjoint
  noMin := h.noMin
  count := by simpa using h.count
  arrayNotNil := by
    intro w hw
    rcases List.mem_or_eq_of_mem_set hw with hw | rfl
    · exact h.arrayNotNil w hw
    · exact hvalue
  hashNotNil := h.hashNotNil
  frontier := by simpa using h.frontier

theorem wf_store (h : t.Wf) {key : LuaKey} {value : V} (hmin : key ≠ .integer Int64.minValue)
    (hvalue : HasNil.isNil value = false) : (t.store key value).2.Wf := by
  rcases store_cases t key value hmin with ⟨i, -, -, heq⟩ | ⟨-, hb, heq⟩ | ⟨hkey, heq⟩
  · rw [heq]
    exact wf_set h _ hvalue
  · rw [heq]
    exact wf_consolidate le_rfl (sound_pushed h hb hvalue)
  · rw [heq]
    exact wf_storeHash h hkey hvalue

theorem get_store (h : t.Wf) {key : LuaKey} {value : V} (hmin : key ≠ .integer Int64.minValue)
    (hvalue : HasNil.isNil value = false) (key' : LuaKey) :
    (t.store key value).2.get key' = if key' = key then some value else t.get key' := by
  rcases store_cases t key value hmin with ⟨i, rfl, hin, heq⟩ | ⟨rfl, hb, heq⟩ | ⟨hkey, heq⟩
  · rw [heq]
    exact get_set hin value key'
  · rw [heq, append_eq, get_consolidate _ (sound_pushed h hb hvalue)]
    exact get_pushed value hb key'
  · rw [heq]
    exact get_storeHash value hkey key'

end Write

section Remove

variable {t : LuaTable V}

theorem wf_removedFromHash (h : t.Wf) (key : LuaKey) : (t.removedFromHash key).Wf := by
  have hnone : ∀ key', find key' t.hash = none → find key' (t.removedFromHash key).hash = none := by
    intro key' hk
    rw [hash_removedFromHash, find_erase h.sorted]
    split_ifs
    · rfl
    · exact hk
  refine ⟨⟨?_, ?_, ?_, hnone _ h.noMin, ?_, ?_, ?_⟩, ?_⟩
  · rw [hash_removedFromHash]
    exact h.sorted.erase key
  · simpa using h.bound
  · intro i h1 hi
    exact hnone _ (h.disjoint i h1 (by simpa using hi))
  · have hcount := h.count
    unfold removedFromHash
    split_ifs with hsome
    · obtain ⟨v, hv⟩ := Option.isSome_iff_exists.mp hsome
      have hpos : 0 < t.hash.length := List.length_pos_of_mem (mem_of_find hv)
      simp only [length_erase, hsome, if_true]
      omega
    · exact hcount
  · simpa using h.arrayNotNil
  · intro e he
    rw [hash_removedFromHash] at he
    exact h.hashNotNil e (mem_of_mem_erase he)
  · rw [array_removedFromHash]
    exact hnone _ h.frontier

theorem wf_eraseIdx (h : t.Wf) {n : Nat} (hn : n < t.array.length) :
    ({ t with array := t.array.eraseIdx n, entryCount := t.entryCount - 1 } : LuaTable V).Wf := by
  have hlen : (t.array.eraseIdx n).length = t.array.length - 1 := List.length_eraseIdx_of_lt hn
  have hbound := h.bound
  refine ⟨⟨h.sorted, ?_, ?_, h.noMin, ?_, ?_, h.hashNotNil⟩, ?_⟩
  · simp only [hlen]
    omega
  · intro i h1 hi
    simp only [hlen] at hi
    exact h.disjoint i h1 (by omega)
  · have hcount := h.count
    simp only [hlen]
    omega
  · exact fun v hv => h.arrayNotNil v (List.mem_of_mem_eraseIdx hv)
  · have hpred : t.array.length - 1 + 1 = t.array.length := by omega
    simp only [hlen, hpred]
    exact h.disjoint _ (by rw [toInt_arrayKey hbound]; omega) (by rw [toInt_arrayKey hbound])

theorem wf_rawremove (h : t.Wf) (key : LuaKey) : (t.rawremove key).Wf := by
  rcases rawremove_cases t key with ⟨i, -, hin, heq⟩ | ⟨-, heq⟩
  · rw [heq]
    exact wf_eraseIdx h (by omega)
  · rw [heq]
    exact wf_removedFromHash h key

/-- Away from the interior of the array part a removal is the map operation. -/
theorem get_rawremove (h : t.Wf) {key : LuaKey} (hint : ¬t.Interior key) (key' : LuaKey) :
    (t.rawremove key).get key' = if key' = key then none else t.get key' := by
  rcases rawremove_cases t key with ⟨i, rfl, hin, heq⟩ | ⟨hout, heq⟩
  · have hlast : i.toInt = t.array.length := by
      simp only [Interior] at hint
      omega
    have hidx : (i.toInt - 1).toNat = t.array.length - 1 := by omega
    have hlen : (t.array.eraseIdx (t.array.length - 1)).length = t.array.length - 1 :=
      List.length_eraseIdx_of_lt (by omega)
    rw [heq, hidx]
    cases key' with
    | string s => simp [get]
    | boolean b => simp [get]
    | integer j =>
      by_cases hj : j = i
      · subst hj
        rw [if_pos rfl, get_integer_of_not_mem (by simp only [hlen]; omega)]
        exact h.disjoint j hin.1 hin.2
      · have hne : LuaKey.integer j ≠ .integer i := fun hk => hj (LuaKey.integer.inj hk)
        rw [if_neg hne]
        have hji : j.toInt ≠ i.toInt := fun hk => hj (Int64.toInt_inj.mp hk)
        by_cases hjin : 1 ≤ j.toInt ∧ j.toInt ≤ t.array.length
        · rw [get_integer_of_mem hjin, get_integer_of_mem (by simp only [hlen]; omega)]
          exact List.getElem?_eraseIdx_of_lt (by omega)
        · rw [get_integer_of_not_mem hjin, get_integer_of_not_mem (by simp only [hlen]; omega)]
  · rw [heq]
    cases key' with
    | string s => simp [get, hash_removedFromHash, find_erase h.sorted]
    | boolean b => simp [get, hash_removedFromHash, find_erase h.sorted]
    | integer j =>
      by_cases hj : 1 ≤ j.toInt ∧ j.toInt ≤ t.array.length
      · have hne : LuaKey.integer j ≠ key := fun hk => hout j hk.symm hj
        rw [if_neg hne, get_integer_of_mem hj, get_integer_of_mem (by simpa using hj),
          array_removedFromHash]
      · rw [get_integer_of_not_mem hj, get_integer_of_not_mem (by simpa using hj),
          hash_removedFromHash, find_erase h.sorted]

/-- Inside the array part a removal leaves its successor under the key. -/
theorem get_rawremove_interior (h : t.Wf) {key : LuaKey} (hint : t.Interior key) :
    ∃ v, (t.rawremove key).get key = some v ∧ HasNil.isNil v = false := by
  cases key with
  | string s => exact hint.elim
  | boolean b => exact hint.elim
  | integer i =>
    have hin : 1 ≤ i.toInt ∧ i.toInt ≤ t.array.length := ⟨hint.1, le_of_lt hint.2⟩
    have hlt : (i.toInt - 1).toNat < t.array.length := by omega
    have hnext : (i.toInt - 1).toNat + 1 < t.array.length := by
      have := hint.2
      omega
    have hlen : (t.array.eraseIdx (i.toInt - 1).toNat).length = t.array.length - 1 :=
      List.length_eraseIdx_of_lt hlt
    refine ⟨t.array[(i.toInt - 1).toNat + 1], ?_, h.arrayNotNil _ (List.getElem_mem hnext)⟩
    have heq : t.rawremove (.integer i) =
        { t with
          array := t.array.eraseIdx (i.toInt - 1).toNat
          entryCount := t.entryCount - 1 } := by
      simp [rawremove, hin]
    rw [heq, get_integer_of_mem (by simp only [hlen]; have := hint.2; omega),
      List.getElem?_eraseIdx_of_ge le_rfl, List.getElem?_eq_getElem hnext]

end Remove

theorem wf_rawsetTracked {t : LuaTable V} (h : t.Wf) (key : LuaKey) (value : V) :
    (t.rawsetTracked key value).2.Wf := by
  unfold rawsetTracked
  split_ifs with hmin hnil
  · exact h
  · exact wf_rawremove h key
  · have hwf := wf_store h hmin (by simpa using hnil)
    dsimp only
    split_ifs <;> exact hwf

theorem Reachable.wf {t : LuaTable V} (h : t.Reachable) : t.Wf := by
  induction h with
  | new => exact wf_new
  | rawset key value _ ih => exact wf_rawsetTracked ih key value
  | rawremove key _ ih => exact wf_rawremove ih key

end Proveno.LuaTable
