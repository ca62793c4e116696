import Proveno.Types.TableRebuild
import Proveno.Vm.Meter

/-! How many bytes the memory meter ought to know of when a table grows: so much for
each entry of the array part, and so much for each slot of the hash part. -/

namespace Proveno

namespace LuaTable

variable {V : Type}

def storage (t : LuaTable V) : Nat :=
  t.array.length * AllocSize.tableArraySlot + t.hashCapacity * AllocSize.tableHashSlot

/-- By how much a table has grown under a key. -/
def growth (t : LuaTable V) (key : LuaKey) (t' : LuaTable V) : Nat :=
  (if (t.get key).isNone ∧ t'.InArray key then AllocSize.tableArraySlot else 0) +
    (t'.hashCapacity - t.hashCapacity) * AllocSize.tableHashSlot

/-- A write that makes no table grow: of nil, under a key that is there, or into the hash
part where it has room. -/
def HasRoom [HasNil V] (t : LuaTable V) (key : LuaKey) (value : V) : Prop :=
  HasNil.isNil value = true ∨ (t.get key).isSome ∨
    t.HashKey key ∧
      nextPowerOfTwoCapacity (SortedAssoc.insert key value t.hash).length ≤ t.hashCapacity

instance (t : LuaTable V) (key : LuaKey) : Decidable (t.HashKey key) :=
  match key with
  | .integer i =>
    inferInstanceAs (Decidable
      (i ≠ Int64.minValue ∧ ¬(1 ≤ i.toInt ∧ i.toInt ≤ t.array.length + 1)))
  | .string _ | .boolean _ => inferInstanceAs (Decidable True)

instance [HasNil V] (t : LuaTable V) (key : LuaKey) (value : V) :
    Decidable (t.HasRoom key value) :=
  inferInstanceAs (Decidable (_ ∨ _ ∨ _ ∧ _))

/-- What a write charges for by its result. -/
def charged (result : RawsetResult) (oldCap : Nat) : Nat :=
  match result with
  | .updated => 0
  | .inserted grew newHashCapacity =>
    if grew then (newHashCapacity - oldCap) * AllocSize.tableHashSlot
    else AllocSize.tableArraySlot

theorem isSome_get_of_inArray {t : LuaTable V} {key : LuaKey} (h : t.InArray key) :
    (t.get key).isSome := by
  cases key with
  | integer i =>
    obtain ⟨hpos, hle⟩ := h
    have hidx : (i.toInt - 1).toNat < t.array.length := by omega
    rw [get, if_pos ⟨hpos, hle⟩, List.getElem?_eq_getElem hidx]
    rfl
  | _ => cases h

section Growth

variable {t t' : LuaTable V} {key : LuaKey}

/-- Where the key already is, or its place is not in the array part, only the hash part
can grow. -/
theorem growth_eq (h : (t.get key).isSome ∨ ¬t'.InArray key) :
    t.growth key t' = (t'.hashCapacity - t.hashCapacity) * AllocSize.tableHashSlot := by
  rw [growth, if_neg, Nat.zero_add]
  rintro ⟨hnone, harray⟩
  rcases h with hsome | hnot
  · simp [Option.isNone_iff_eq_none.mp hnone] at hsome
  · exact hnot harray

theorem growth_eq_zero (h : (t.get key).isSome ∨ ¬t'.InArray key)
    (hcapacity : t'.hashCapacity = t.hashCapacity) : t.growth key t' = 0 := by
  rw [growth_eq h, hcapacity, Nat.sub_self, Nat.zero_mul]

theorem growth_self (t : LuaTable V) (key : LuaKey) : t.growth key t = 0 :=
  growth_eq_zero ((em (t.InArray key)).imp_left isSome_get_of_inArray) rfl

theorem not_inArray_of_hashKey (h : t.HashKey key) (harray : t'.array = t.array) :
    ¬t'.InArray key := by
  cases key with
  | integer i => exact fun hin => h.2 ⟨hin.1, by
      have hle := hin.2
      rw [harray] at hle
      omega⟩
  | _ => exact id

theorem get_of_hashKey (h : t.HashKey key) : t.get key = SortedAssoc.find key t.hash := by
  cases key with
  | integer i => exact get_integer_of_not_mem fun hin => h.2 ⟨hin.1, by omega⟩
  | _ => rfl

theorem not_hashKey_append (h : t.array.length + 1 < 2 ^ 63) :
    ¬t.HashKey (arrayKey (t.array.length + 1)) := by
  have hint := toInt_arrayKey h
  exact fun hkey => hkey.2 (by omega)

theorem hashCapacity_append (t : LuaTable V) (value : V) :
    (t.append value).hashCapacity = t.hashCapacity :=
  (consolidate_counts ..).2

theorem growth_append (t : LuaTable V) (key : LuaKey) (value : V) :
    t.growth key (t.append value) ≤ AllocSize.tableArraySlot := by
  rw [growth, hashCapacity_append, Nat.sub_self, Nat.zero_mul]
  split_ifs <;> decide

theorem storeHash_array (t : LuaTable V) (key : LuaKey) (value : V) :
    (t.storeHash key value).2.array = t.array := by
  unfold storeHash
  dsimp only
  split_ifs <;> rfl

theorem growth_storeHash (h : t.HashKey key) (value : V) :
    t.growth key (t.storeHash key value).2 ≤
      charged (t.storeHash key value).1 t.hashCapacity := by
  rw [growth_eq (.inr (not_inArray_of_hashKey h (storeHash_array ..)))]
  unfold storeHash
  dsimp only
  split_ifs
  · rw [updateHashCapacity]
    dsimp only
    rw [charged]
    split_ifs with hgrew
    · exact le_rfl
    · rw [decide_eq_true_eq, Nat.not_lt] at hgrew
      rw [Nat.sub_eq_zero_of_le hgrew, Nat.zero_mul]
      exact Nat.zero_le _
  · rw [Nat.sub_self, Nat.zero_mul]
    exact Nat.zero_le _

theorem growth_store (t : LuaTable V) (hmin : key ≠ .integer Int64.minValue) (value : V) :
    t.growth key (t.store key value).2 ≤ charged (t.store key value).1 t.hashCapacity := by
  rcases store_cases t key value hmin with ⟨i, rfl, hin, hstore⟩ | ⟨rfl, -, hstore⟩ | ⟨hkey, hstore⟩
  · have hsome : (t.get (.integer i)).isSome := isSome_get_of_inArray hin
    rw [hstore]
    exact Nat.le_of_eq (growth_eq_zero (.inl hsome) rfl)
  · rw [hstore]
    exact growth_append ..
  · rw [hstore]
    exact growth_storeHash hkey value

theorem hashCapacity_removedFromHash (t : LuaTable V) (key : LuaKey) :
    (t.removedFromHash key).hashCapacity = t.hashCapacity := by
  unfold removedFromHash
  split_ifs <;> rfl

theorem growth_rawremove (t : LuaTable V) (key : LuaKey) : t.growth key (t.rawremove key) = 0 := by
  rcases rawremove_cases t key with ⟨i, rfl, hin, hremove⟩ | ⟨hnot, hremove⟩
  · have hsome : (t.get (.integer i)).isSome := isSome_get_of_inArray hin
    rw [hremove]
    exact growth_eq_zero (.inl hsome) rfl
  · have hnot' : ¬(t.removedFromHash key).InArray key := by
      cases key with
      | integer i =>
        have harray := t.array_removedFromHash (.integer i)
        rw [InArray, harray]
        exact hnot i rfl
      | _ => exact id
    rw [hremove]
    exact growth_eq_zero (.inr hnot') (hashCapacity_removedFromHash ..)

variable [HasNil V]

theorem rawsetTracked_cases (t : LuaTable V) (key : LuaKey) (value : V) :
    (t.rawsetTracked key value).2 = t ∧ key = .integer Int64.minValue ∨
    HasNil.isNil value = true ∧ (t.rawsetTracked key value).2 = t.rawremove key ∨
    HasNil.isNil value = false ∧ key ≠ .integer Int64.minValue ∧
      (t.rawsetTracked key value).2 = (t.store key value).2 := by
  unfold rawsetTracked
  split_ifs with hmin hnil
  · exact .inl ⟨rfl, hmin⟩
  · exact .inr (.inl ⟨hnil, rfl⟩)
  · refine .inr (.inr ⟨by simpa using hnil, hmin, ?_⟩)
    dsimp only
    split_ifs <;> rfl

/-- A write that fails, other than on the cap on entries, changes nothing. -/
theorem rawsetTracked_error {value : V} {e : LuaError}
    (h : (t.rawsetTracked key value).1 = .error e) :
    e = .memory ∨ (t.rawsetTracked key value).2 = t := by
  unfold rawsetTracked at h ⊢
  dsimp only at h ⊢
  split_ifs at h ⊢
  · exact .inr rfl
  · cases h
    exact .inl rfl

/-- A write that succeeds charges for as much as the table grows by. -/
theorem growth_rawsetTracked {value : V} {result : RawsetResult}
    (h : (t.rawsetTracked key value).1 = .ok result) :
    t.growth key (t.rawsetTracked key value).2 ≤ charged result t.hashCapacity := by
  unfold rawsetTracked at h ⊢
  dsimp only at h ⊢
  split_ifs at h ⊢ with hmin hnil hcap
  · cases h
    exact (growth_rawremove ..).le
  · cases h
    exact growth_store t hmin value

theorem growth_of_hasRoom {value : V} (h : t.HasRoom key value) :
    t.growth key (t.rawsetTracked key value).2 = 0 := by
  rcases rawsetTracked_cases t key value with ⟨heq, -⟩ | ⟨-, heq⟩ | ⟨hnil, hmin, heq⟩
  · rw [heq]
    exact growth_self ..
  · rw [heq]
    exact growth_rawremove ..
  rw [heq]
  rcases store_cases t key value hmin with ⟨i, rfl, hin, hstore⟩ | ⟨hkey, hlen, hstore⟩ | ⟨hkey, hstore⟩
  · have hsome : (t.get (.integer i)).isSome := isSome_get_of_inArray hin
    rw [hstore]
    exact growth_eq_zero (.inl hsome) rfl
  · rw [hstore]
    rcases h with hnil' | hsome | ⟨hhash, -⟩
    · exact absurd hnil' (by simp [hnil])
    · exact growth_eq_zero (.inl hsome) (hashCapacity_append ..)
    · exact absurd (hkey ▸ hhash) (not_hashKey_append hlen)
  · rw [hstore, growth_eq (.inr (not_inArray_of_hashKey hkey (storeHash_array ..)))]
    unfold storeHash
    dsimp only
    split_ifs with hfind
    · rcases h with hnil' | hsome | ⟨-, hroom⟩
      · exact absurd hnil' (by simp [hnil])
      · rw [get_of_hashKey hkey] at hsome
        simp [Option.isNone_iff_eq_none.mp hfind] at hsome
      · rw [updateHashCapacity]
        dsimp only
        rw [max_eq_left hroom, Nat.sub_self, Nat.zero_mul]
    · rw [Nat.sub_self, Nat.zero_mul]

end Growth

end LuaTable

/-- How much the meter ought to know of for all tables in a heap. -/
def Heap.storage (h : Heap) : Nat := (h.tables.map LuaTable.storage).sum

end Proveno
