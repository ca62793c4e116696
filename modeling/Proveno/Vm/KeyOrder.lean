import Proveno.Host.RoundTrip
import Proveno.Types.TableOrder
import Proveno.Vm.Dispatch

/-! The order of a table's keys as programs and hosts come to see it: in the list of the
keys, in iteration and in the text of an object. -/

namespace Proveno

namespace Engine

theorem run_popValue_value {s : Machine} {below : List OwnedSlot} {owner : Nat} {v : LuaValue}
    (h : s.stack = below ++ [⟨owner, .value v⟩]) :
    popValue.run s = (.ok v, { s with
      stack := below
      core := s.core.record (.pop s.frames below.length) }) := by
  have hpop := run_popSlot s
  rw [h, List.getLast?_concat, List.dropLast_concat] at hpop
  rw [popValue, Exec.run_bind_ok hpop, List.length_append, List.length_singleton,
    Nat.add_sub_cancel]
  rfl

theorem run_tableOf_table (s : Machine) (r : TableRef) :
    (tableOf (.table r)).run s = (.ok r, s) := rfl

theorem run_getTable (s : Machine) (r : TableRef) :
    (lift (Vm.getTable r)).run s = (.ok (s.core.heap.table r), s) := rfl

/-- Iteration over a table that has entries starts with the list of its keys. -/
theorem iterInitSorted_handle {s s' : Machine} {below : List OwnedSlot} {owner : Nat}
    {r : TableRef} {offset : Int16} (hstack : s.stack = below ++ [⟨owner, .value (.table r)⟩])
    (hkeys : (s.core.heap.table r).sortedKeys ≠ [])
    (h : (iterInitSorted offset).run s = (.ok (), s')) :
    s'.stack = below ++
      [⟨s.ghost.nextOwner, .iterHandle (.sorted (s.core.heap.table r).sortedKeys 0 r)⟩] := by
  unfold iterInitSorted at h
  rw [Exec.run_bind_ok (run_popValue_value hstack)] at h
  rw [Exec.run_bind_ok (run_tableOf_table _ r), Exec.run_bind_ok (run_getTable _ r)] at h
  obtain ⟨u, mid, hcharge, h⟩ := Exec.run_bind_eq_ok.mp h
  change (if (s.core.heap.table r).sortedKeys.length = 0 then jumpBy offset
    else pushSlot (.iterHandle (.sorted (s.core.heap.table r).sortedKeys 0 r))).run mid = _ at h
  rw [if_neg (mt List.length_eq_zero_iff.mp hkeys), run_pushSlot] at h
  obtain ⟨hstack', hghost⟩ : mid.stack = below ∧ mid.ghost = s.ghost := by
    rw [charge, run_lift] at hcharge
    exact ⟨by rw [← (Prod.mk.inj hcharge).2], by rw [← (Prod.mk.inj hcharge).2]⟩
  rw [← (Prod.mk.inj h).2, hstack', hghost]

end Engine

open Canonicalize

namespace LuaTable

/-- The keys of a table ascend and are complete in their list, in the list that iteration
goes through and in the text of an object. -/
structure KeysAscend (t : LuaTable LuaValue) : Prop where
  listed : t.ListsKeys t.sortedKeys
  iterated : ∀ (s s' : Machine) (below : List OwnedSlot) (owner : Nat) (r : TableRef)
    (offset : Int16), s.stack = below ++ [⟨owner, .value (.table r)⟩] →
    s.core.heap.table r = t → t.sortedKeys ≠ [] →
    (Engine.iterInitSorted offset).run s = (.ok (), s') →
    ∃ owner' keys, s'.stack = below ++ [⟨owner', .iterHandle (.sorted keys 0 r)⟩] ∧
      t.ListsKeys keys
  serialized : ∀ (encode : LuaValue → Except CanonError Bytes) (text : Bytes),
    serializeTable encode t = .ok (123 :: text) →
    ∃ keys parts, t.ListsKeys keys ∧ text = separated parts ++ [125] ∧
      List.Forall₂ (fun key part => ∃ v enc, t.get key = some v ∧ encode v = .ok enc ∧
        part = keyBytes key ++ 58 :: enc) keys parts

theorem keysAscend_iff {t : LuaTable LuaValue} (h : t.Reachable) :
    t.KeysAscend ↔ t.length = 0 ∨ ∀ i, (t.get (.integer i)).isSome → 1 ≤ i.toInt := by
  have hwf := h.wf
  constructor
  · intro hascend
    by_contra hnot
    obtain ⟨hlength, hlow⟩ := not_or.mp hnot
    push Not at hlow
    obtain ⟨i, hsome, hi⟩ := hlow
    exact not_listsKeys hwf hlength hsome hi hascend.listed
  · intro hcond
    have hlists := listsKeys hwf hcond
    refine ⟨hlists, ?_, ?_⟩
    · rintro s s' below owner r offset hstack rfl hkeys hrun
      exact ⟨_, _, Engine.iterInitSorted_handle hstack hkeys hrun, hlists⟩
    · intro encode text hser
      rcases serializeTable_cases hwf hser with ⟨-, parts, -, htext, -⟩ | ⟨-, parts, htext, hparts⟩
      · cases htext
      · refine ⟨t.sortedKeys, parts, hlists, List.cons_injective htext, ?_⟩
        rw [← entries_keys, List.forall₂_map_left_iff]
        have hvalues : ∀ e ∈ t.entries, t.get e.1 = some e.2 :=
          fun e he => get_of_mem_entries hwf he
        refine (List.forall₂_and_left _ _ |>.mpr ⟨hvalues, hparts⟩).imp ?_
        rintro e part ⟨hget, enc, henc, hpart⟩
        exact ⟨e.2, enc, hget, henc, hpart⟩

/-- A table whose keys are 1 and 0: the element is listed first. -/
def oneAndZero : LuaTable LuaValue :=
  ((new.rawsetTracked (.integer 0) (.integer 7)).2.rawsetTracked (arrayKey 1) (.integer 8)).2

theorem oneAndZero_not_keysAscend :
    ¬∀ t : LuaTable LuaValue, t.Reachable → t.KeysAscend := by
  intro hall
  have hreach : oneAndZero.Reachable := .rawset _ _ (.rawset _ _ .new)
  exact not_listsKeys hreach.wf (i := 0) (by decide) (by decide) (by decide)
    (hall _ hreach).listed

theorem keysAscend_iff_elementAndName : elementAndName.KeysAscend ↔
    elementAndName.length = 0 ∨
      ∀ i, (elementAndName.get (.integer i)).isSome → 1 ≤ i.toInt :=
  keysAscend_iff elementAndName_reachable

end LuaTable

end Proveno
