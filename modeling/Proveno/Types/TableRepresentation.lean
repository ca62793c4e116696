import Proveno.Types.TableCap

/-! The whole representation of a table over any run of calls: where nil, the keys and the
counts stand, how the capacity of the hash part grows, and why the length is a border. -/

namespace Proveno.LuaTable

open SortedAssoc

variable {V : Type}

/-- The capacity of the hash part: nothing or a power of two from 4 on, at most three quarters
of it in use. -/
structure Provisioned (t : LuaTable V) : Prop where
  shape : t.hashCapacity = 0 ∨ ∃ k, 2 ≤ k ∧ t.hashCapacity = 2 ^ k
  load : 4 * t.hash.length ≤ 3 * t.hashCapacity

theorem load_nextPowerOfTwoCapacity (n : Nat) : 4 * n ≤ 3 * nextPowerOfTwoCapacity n := by
  unfold nextPowerOfTwoCapacity nextPowerOfTwo
  split_ifs with hn
  · omega
  · have hpow : (n * 4 + 2) / 3 ≤ 2 ^ Nat.clog 2 ((n * 4 + 2) / 3) :=
      Nat.le_pow_clog (by decide) _
    have hmax := le_max_left (2 ^ Nat.clog 2 ((n * 4 + 2) / 3)) 4
    omega

theorem shape_nextPowerOfTwoCapacity (n : Nat) :
    nextPowerOfTwoCapacity n = 0 ∨ ∃ k, 2 ≤ k ∧ nextPowerOfTwoCapacity n = 2 ^ k := by
  unfold nextPowerOfTwoCapacity nextPowerOfTwo
  split_ifs with hn
  · exact .inl rfl
  · right
    rcases le_total (Nat.clog 2 ((n * 4 + 2) / 3)) 2 with hle | hle
    · exact ⟨2, le_rfl, max_eq_right (Nat.pow_le_pow_right (by decide) hle)⟩
    · have hfour : 2 ^ 2 ≤ 2 ^ Nat.clog 2 ((n * 4 + 2) / 3) := Nat.pow_le_pow_right (by decide) hle
      exact ⟨_, hle, max_eq_left hfour⟩

theorem provisioned_new : (new : LuaTable V).Provisioned := ⟨.inl rfl, le_rfl⟩

/-- A call that takes entries out of the hash part, or leaves them. -/
theorem Provisioned.of_le {t t' : LuaTable V} (h : t.Provisioned)
    (hcap : t'.hashCapacity = t.hashCapacity) (hlen : t'.hash.length ≤ t.hash.length) :
    t'.Provisioned := by
  have hload := h.load
  constructor
  · rw [hcap]
    exact h.shape
  · rw [hcap]
    omega

theorem provisioned_updateHashCapacity {t : LuaTable V}
    (hshape : t.hashCapacity = 0 ∨ ∃ k, 2 ≤ k ∧ t.hashCapacity = 2 ^ k) :
    t.updateHashCapacity.Provisioned := by
  have hneeded := load_nextPowerOfTwoCapacity t.hash.length
  rcases le_total t.hashCapacity (nextPowerOfTwoCapacity t.hash.length) with hle | hle
  · have hcap : t.updateHashCapacity.hashCapacity = nextPowerOfTwoCapacity t.hash.length :=
      max_eq_right hle
    constructor
    · rw [hcap]
      exact shape_nextPowerOfTwoCapacity _
    · rw [hcap]
      exact hneeded
  · have hcap : t.updateHashCapacity.hashCapacity = t.hashCapacity := max_eq_left hle
    constructor
    · rw [hcap]
      exact hshape
    · rw [hcap]
      exact hneeded.trans (Nat.mul_le_mul_left 3 hle)

section Consolidate

variable {t : LuaTable V}

theorem consolidate_hashCapacity (fuel : Nat) :
    (consolidate fuel t).hashCapacity = t.hashCapacity := by
  induction fuel generalizing t with
  | zero => rfl
  | succ fuel ih =>
    rw [consolidate]
    split
    · exact ih
    · rfl

theorem consolidate_hash_length_le (fuel : Nat) :
    (consolidate fuel t).hash.length ≤ t.hash.length := by
  induction fuel generalizing t with
  | zero => exact le_rfl
  | succ fuel ih =>
    rw [consolidate]
    split
    · refine ih.trans ?_
      rw [length_erase]
      split_ifs <;> omega
    · exact le_rfl

end Consolidate

theorem provisioned_storeHash {t : LuaTable V} (h : t.Provisioned) (hs : Sorted t.hash)
    (key : LuaKey) (value : V) : (t.storeHash key value).2.Provisioned := by
  unfold storeHash
  cases hfind : find key t.hash with
  | none => exact provisioned_updateHashCapacity h.shape
  | some v =>
    refine h.of_le rfl ?_
    change (insert key value t.hash).length ≤ t.hash.length
    rw [length_insert hs, hfind]
    exact le_rfl

theorem provisioned_store {t : LuaTable V} (h : t.Provisioned) (hs : Sorted t.hash)
    {key : LuaKey} (value : V) (hmin : key ≠ .integer Int64.minValue) :
    (t.store key value).2.Provisioned := by
  rcases store_cases t key value hmin with ⟨i, -, -, heq⟩ | ⟨-, -, heq⟩ | ⟨-, heq⟩
  · rw [heq]
    exact h.of_le rfl le_rfl
  · rw [heq, append_eq]
    exact h.of_le (consolidate_hashCapacity _) (consolidate_hash_length_le _)
  · rw [heq]
    exact provisioned_storeHash h hs key value

theorem hashCapacity_le_store (t : LuaTable V) {key : LuaKey} (value : V)
    (hmin : key ≠ .integer Int64.minValue) :
    t.hashCapacity ≤ (t.store key value).2.hashCapacity := by
  rcases store_cases t key value hmin with ⟨i, -, -, heq⟩ | ⟨-, -, heq⟩ | ⟨-, heq⟩
  · rw [heq]
  · rw [heq, append_eq, consolidate_hashCapacity]
    exact le_rfl
  · rw [heq, storeHash]
    dsimp only
    split
    · exact le_max_left _ _
    · exact le_rfl

theorem rawremove_hashCapacity (t : LuaTable V) (key : LuaKey) :
    (t.rawremove key).hashCapacity = t.hashCapacity := by
  rcases rawremove_cases t key with ⟨i, -, -, heq⟩ | ⟨-, heq⟩
  · rw [heq]
  · rw [heq, removedFromHash]
    split_ifs <;> rfl

theorem rawremove_hash_length_le (t : LuaTable V) (key : LuaKey) :
    (t.rawremove key).hash.length ≤ t.hash.length := by
  rcases rawremove_cases t key with ⟨i, -, -, heq⟩ | ⟨-, heq⟩
  · rw [heq]
  · rw [heq, hash_removedFromHash, length_erase]
    split_ifs <;> omega

theorem provisioned_rawremove {t : LuaTable V} (h : t.Provisioned) (key : LuaKey) :
    (t.rawremove key).Provisioned :=
  h.of_le (rawremove_hashCapacity t key) (rawremove_hash_length_le t key)

variable [HasNil V]

theorem provisioned_rawsetTracked {t : LuaTable V} (h : t.Provisioned) (hs : Sorted t.hash)
    (key : LuaKey) (value : V) : (t.rawsetTracked key value).2.Provisioned := by
  unfold rawsetTracked
  split_ifs with hmin hnil
  · exact h
  · exact provisioned_rawremove h key
  · have hstore := provisioned_store h hs value hmin
    dsimp only
    split_ifs <;> exact hstore

theorem hashCapacity_le_rawsetTracked (t : LuaTable V) (key : LuaKey) (value : V) :
    t.hashCapacity ≤ (t.rawsetTracked key value).2.hashCapacity := by
  unfold rawsetTracked
  split_ifs with hmin hnil
  · exact le_rfl
  · exact (rawremove_hashCapacity t key).ge
  · have hstore := hashCapacity_le_store t value hmin
    dsimp only
    split_ifs <;> exact hstore

/-- The calls that change a table. -/
inductive Call (V : Type)
  | rawset (key : LuaKey) (value : V)
  | rawsetTracked (key : LuaKey) (value : V)
  | rawremove (key : LuaKey)

/-- The table after a call, which may have failed. -/
def perform (t : LuaTable V) : Call V → LuaTable V
  | .rawset key value => (t.rawset key value).2
  | .rawsetTracked key value => (t.rawsetTracked key value).2
  | .rawremove key => t.rawremove key

def performAll (t : LuaTable V) (calls : List (Call V)) : LuaTable V := calls.foldl perform t

/-- `n` is 0 or a key of the table, and `n + 1` is none. -/
def Border (t : LuaTable V) (n : Nat) : Prop :=
  (n = 0 ∨ ∃ v, t.get (arrayKey n) = some v ∧ HasNil.isNil v = false) ∧
    t.get (arrayKey (n + 1)) = none

structure Represents (t : LuaTable V) : Prop where
  arrayNotNil : ∀ v ∈ t.array, HasNil.isNil v = false
  hashNotNil : ∀ e ∈ t.hash, HasNil.isNil e.2 = false
  hashKeys : ∀ e ∈ t.hash, ∀ i : Int64, e.1 = .integer i →
    ¬(1 ≤ i.toInt ∧ i.toInt ≤ t.array.length + 1)
  count : t.entryCount = t.array.length + t.hash.length
  provisioned : t.Provisioned
  border : t.Border t.length

theorem border_length {t : LuaTable V} (h : t.Wf) : t.Border t.length := by
  refine ⟨?_, get_frontier h⟩
  rcases Nat.eq_zero_or_pos t.array.length with hzero | hpos
  · exact .inl hzero
  · right
    have hlt : t.array.length - 1 < t.array.length := by omega
    refine ⟨t.array[t.array.length - 1], ?_, h.arrayNotNil _ (List.getElem_mem hlt)⟩
    rw [length, get_arrayKey_eq h hpos le_rfl, List.getElem?_eq_getElem hlt]

theorem represents_of_wf {t : LuaTable V} (h : t.Wf) (hp : t.Provisioned) : t.Represents where
  arrayNotNil := h.arrayNotNil
  hashNotNil := h.hashNotNil
  hashKeys := by
    rintro ⟨key, v⟩ he i rfl ⟨h1, hn⟩
    have hnone := not_find_frontier h h1 hn
    rw [find_of_mem h.sorted he] at hnone
    cases hnone
  count := h.count
  provisioned := hp
  border := border_length h

theorem wf_perform {t : LuaTable V} (h : t.Wf) (call : Call V) : (t.perform call).Wf := by
  cases call with
  | rawset key value => exact wf_rawsetTracked h key value
  | rawsetTracked key value => exact wf_rawsetTracked h key value
  | rawremove key => exact wf_rawremove h key

theorem provisioned_perform {t : LuaTable V} (h : t.Provisioned) (hs : Sorted t.hash)
    (call : Call V) : (t.perform call).Provisioned := by
  cases call with
  | rawset key value => exact provisioned_rawsetTracked h hs key value
  | rawsetTracked key value => exact provisioned_rawsetTracked h hs key value
  | rawremove key => exact provisioned_rawremove h key

theorem hashCapacity_le_perform (t : LuaTable V) (call : Call V) :
    t.hashCapacity ≤ (t.perform call).hashCapacity := by
  cases call with
  | rawset key value => exact hashCapacity_le_rawsetTracked t key value
  | rawsetTracked key value => exact hashCapacity_le_rawsetTracked t key value
  | rawremove key => exact (rawremove_hashCapacity t key).ge

theorem performAll_invariant (calls : List (Call V)) {t : LuaTable V} (h : t.Wf)
    (hp : t.Provisioned) : (t.performAll calls).Wf ∧ (t.performAll calls).Provisioned := by
  induction calls generalizing t with
  | nil => exact ⟨h, hp⟩
  | cons call calls ih => exact ih (wf_perform h call) (provisioned_perform hp h.sorted call)

theorem hashCapacity_le_performAll (calls : List (Call V)) (t : LuaTable V) :
    t.hashCapacity ≤ (t.performAll calls).hashCapacity := by
  induction calls generalizing t with
  | nil => exact le_rfl
  | cons call calls ih => exact (hashCapacity_le_perform t call).trans (ih _)

/-- In every state that calls lead to the invariant holds, and no call after it takes any of the
capacity away. -/
theorem performAll_represents (calls : List (Call V)) :
    ((new : LuaTable V).performAll calls).Represents ∧
      ∀ more : List (Call V), (new.performAll calls).hashCapacity ≤
        (new.performAll (calls ++ more)).hashCapacity := by
  obtain ⟨hwf, hp⟩ := performAll_invariant calls wf_new (provisioned_new (V := V))
  refine ⟨represents_of_wf hwf hp, fun more => ?_⟩
  rw [performAll, performAll, List.foldl_append]
  exact hashCapacity_le_performAll more _

end Proveno.LuaTable
