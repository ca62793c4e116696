import Proveno.Types.TableInvariant

/-! What is stored in a table, in either part: the operations store nothing but what they are
given and what was there. -/

namespace Proveno

open SortedAssoc

/-- The keys of the hash part and all values are of one kind. -/
structure LuaTable.Holds {V : Type} (K : LuaKey → Prop) (P : V → Prop) (t : LuaTable V) : Prop where
  array : ∀ v ∈ t.array, P v
  keys : ∀ e ∈ t.hash, K e.1
  values : ∀ e ∈ t.hash, P e.2

namespace LuaTable.Holds

variable {V : Type} {K : LuaKey → Prop} {P : V → Prop} {t : LuaTable V} {key : LuaKey} {v value : V}

theorem new : (LuaTable.new : LuaTable V).Holds K P := ⟨nofun, nofun, nofun⟩

theorem imp {K' : LuaKey → Prop} {P' : V → Prop} (h : t.Holds K P) (hK : ∀ k, K k → K' k)
    (hP : ∀ v, P v → P' v) : t.Holds K' P' :=
  ⟨fun v hv => hP v (h.array v hv), fun e he => hK e.1 (h.keys e he),
    fun e he => hP e.2 (h.values e he)⟩

theorem of_find (h : t.Holds K P) (hv : find key t.hash = some v) : P v :=
  h.values _ (mem_of_find hv)

theorem get (h : t.Holds K P) (hv : t.get key = some v) : P v := by
  unfold LuaTable.get at hv
  split at hv
  · split_ifs at hv
    · exact h.array v (List.mem_of_getElem? hv)
    · exact h.of_find hv
  · exact h.of_find hv

theorem erase (h : t.Holds K P) (key : LuaKey) (entryCount hashCapacity : Nat) :
    LuaTable.Holds K P ⟨t.array, SortedAssoc.erase key t.hash, entryCount, hashCapacity⟩ :=
  ⟨h.array, fun e he => h.keys e (mem_of_mem_erase he), fun e he => h.values e (mem_of_mem_erase he)⟩

theorem concat (h : t.Holds K P) (hv : P v) (entryCount hashCapacity : Nat) :
    LuaTable.Holds K P ⟨t.array ++ [v], t.hash, entryCount, hashCapacity⟩ := by
  refine ⟨fun x hx => ?_, h.keys, h.values⟩
  rcases List.mem_append.mp hx with hx | hx
  · exact h.array x hx
  · rw [List.mem_singleton.mp hx]
    exact hv

theorem consolidate (h : t.Holds K P) (fuel : Nat) : (LuaTable.consolidate fuel t).Holds K P := by
  induction fuel generalizing t with
  | zero => exact h
  | succ fuel ih =>
    rw [LuaTable.consolidate]
    split
    · next v hv => exact ih ((h.concat (h.of_find hv) t.entryCount t.hashCapacity).erase _ _ _)
    · exact h

theorem storeHash (h : t.Holds K P) (hkey : K key) (hvalue : P value) :
    (t.storeHash key value).2.Holds K P := by
  refine ⟨fun x hx => ?_, fun e he => ?_, fun e he => ?_⟩
  · rw [array_storeHash] at hx
    exact h.array x hx
  · rw [hash_storeHash] at he
    rcases mem_insert he with rfl | he
    · exact hkey
    · exact h.keys e he
  · rw [hash_storeHash] at he
    rcases mem_insert he with rfl | he
    · exact hvalue
    · exact h.values e he

theorem store (h : t.Holds K P) (hkey : K key) (hvalue : P value)
    (hmin : key ≠ .integer Int64.minValue) : (t.store key value).2.Holds K P := by
  rcases store_cases t key value hmin with ⟨i, -, -, heq⟩ | ⟨-, -, heq⟩ | ⟨-, heq⟩
  · rw [heq]
    refine ⟨fun x hx => ?_, h.keys, h.values⟩
    rcases List.mem_or_eq_of_mem_set hx with hx | rfl
    · exact h.array x hx
    · exact hvalue
  · rw [heq]
    exact (h.concat hvalue _ _).consolidate _
  · rw [heq]
    exact h.storeHash hkey hvalue

theorem rawremove (h : t.Holds K P) (key : LuaKey) : (t.rawremove key).Holds K P := by
  rcases rawremove_cases t key with ⟨i, -, -, heq⟩ | ⟨-, heq⟩
  · rw [heq]
    exact ⟨fun x hx => h.array x (List.mem_of_mem_eraseIdx hx), h.keys, h.values⟩
  · rw [heq]
    unfold LuaTable.removedFromHash
    split_ifs
    · exact h.erase key _ _
    · exact h

theorem rawsetTracked [HasNil V] (h : t.Holds K P) (hkey : K key) (hvalue : P value) :
    (t.rawsetTracked key value).2.Holds K P := by
  unfold LuaTable.rawsetTracked
  split_ifs with hmin hnil
  · exact h
  · exact h.rawremove key
  · dsimp only
    split_ifs
    · exact h.store hkey hvalue hmin
    · exact h.store hkey hvalue hmin

end LuaTable.Holds

end Proveno
