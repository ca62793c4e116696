import Proveno.Host.RoundTrip

/-! How long an encoding is at least: a table within the value adds two bytes for each of
its entries. -/

namespace Proveno.Canonicalize

open LuaTable

theorem length_separated {parts : List Bytes} (hne : parts ≠ []) :
    (separated parts).length + 1 = (parts.map fun part => part.length + 1).sum := by
  induction parts with
  | nil => exact absurd rfl hne
  | cons part parts ih =>
    cases parts with
    | nil => simp [separated, List.intercalate]
    | cons part' parts =>
      have htail := ih (by simp)
      rw [separated_cons_cons, List.map_cons, List.sum_cons, ← htail, List.length_append,
        List.length_cons]
      omega

theorem length_le_separated {parts : List Bytes} {part : Bytes} (hpart : part ∈ parts) :
    part.length ≤ (separated parts).length := by
  have hsum := length_separated (List.ne_nil_of_mem hpart)
  have hle : part.length + 1 ≤ (parts.map fun part => part.length + 1).sum :=
    List.single_le_sum (fun _ _ => Nat.zero_le _) _ (List.mem_map_of_mem hpart)
  omega

theorem two_mul_le_separated {parts : List Bytes} (hpos : ∀ part ∈ parts, part ≠ []) :
    2 * parts.length ≤ (separated parts).length + 1 := by
  by_cases hne : parts = []
  · simp [hne]
  · rw [length_separated hne]
    have hle : ∀ n ∈ parts.map fun part => part.length + 1, 2 ≤ n := by
      intro n hn
      obtain ⟨part, hpart, rfl⟩ := List.mem_map.mp hn
      have hlen := List.length_pos_iff.mpr (hpos part hpart)
      omega
    have hsum := List.card_nsmul_le_sum _ 2 hle
    rw [List.length_map, smul_eq_mul] at hsum
    omega

theorem serializeValue_ne_nil {h : Heap} {levels : Nat} {v : LuaValue} {enc : Bytes}
    (hser : serializeValue h levels v = .ok enc) (hwf : ∀ r, (h.table r).Wf) : enc ≠ [] := by
  cases levels with
  | zero => simp [serializeValue] at hser
  | succ levels =>
    cases v with
    | nil => cases hser; decide
    | boolean b => cases hser; cases b <;> decide
    | integer n => cases hser; exact intText_ne_nil n
    | string s => cases hser; exact List.cons_ne_nil _ _
    | function f => simp [serializeValue] at hser
    | builtin id => simp [serializeValue] at hser
    | table r =>
      rcases serializeTable_cases (hwf r) hser with ⟨-, parts, -, rfl, -⟩ | ⟨-, parts, rfl, -⟩
      · exact List.cons_ne_nil _ _
      · exact List.cons_ne_nil _ _

/-- The encoding is at least twice as long as any table within has entries. -/
theorem length_of_within {h : Heap} (hh : h.Reachable) {v : LuaValue} {r : TableRef}
    (hr : Within h v r) {levels : Nat} {enc : Bytes}
    (hser : serializeValue h levels v = .ok enc) : 2 * (h.table r).entryCount ≤ enc.length := by
  have hwf := fun r => (hh.table r).wf
  induction hr generalizing levels enc with
  | self r =>
    cases levels with
    | zero => simp [serializeValue] at hser
    | succ levels =>
      rw [(hwf r).count]
      rcases serializeTable_cases (hwf r) hser with
        ⟨hhash, parts, -, rfl, hforall⟩ | ⟨-, parts, rfl, hforall⟩
      · have hlen := hforall.length_eq
        have hle : 2 * parts.length ≤ _ := two_mul_le_separated fun part hpart => by
          obtain ⟨i, hi, rfl⟩ := List.getElem_of_mem hpart
          exact serializeValue_ne_nil (hforall.get (hlen ▸ hi) hi) hwf
        simp only [hhash, List.length_nil, List.length_cons, List.length_append]
        omega
      · have hlen := hforall.length_eq
        have hle : 2 * parts.length ≤ _ := two_mul_le_separated fun part hpart => by
          obtain ⟨i, hi, rfl⟩ := List.getElem_of_mem hpart
          obtain ⟨enc, -, hpart⟩ := hforall.get (hlen ▸ hi) hi
          simp only [List.get_eq_getElem] at hpart
          simp [hpart]
        rw [length_entries] at hlen
        simp only [List.length_nil, List.length_cons, List.length_append]
        omega
  | @child r r' key v hget _ ih =>
    cases levels with
    | zero => simp [serializeValue] at hser
    | succ levels =>
      have hmem := mem_entries_of_get (hwf r) hget
      rcases serializeTable_cases (hwf r) hser with
        ⟨hhash, parts, -, rfl, hforall⟩ | ⟨-, parts, rfl, hforall⟩
      · have hv := get_mem_values hget
        rw [values, hhash, List.map_nil, List.append_nil] at hv
        obtain ⟨i, hi, rfl⟩ := List.getElem_of_mem hv
        have hi' := hforall.length_eq ▸ hi
        have hsmall := ih (hforall.get hi hi')
        have hle := length_le_separated (List.getElem_mem hi')
        simp only [List.length_cons, List.length_append, List.get_eq_getElem] at hsmall ⊢
        omega
      · obtain ⟨i, hi, hei⟩ := List.getElem_of_mem hmem
        have hi' := hforall.length_eq ▸ hi
        obtain ⟨enc, henc, hpart⟩ := hforall.get hi hi'
        simp only [List.get_eq_getElem, hei] at henc hpart
        have hsmall := ih henc
        have hle := length_le_separated (List.getElem_mem hi')
        simp only [hpart, List.length_cons, List.length_append] at hle ⊢
        omega

end Proveno.Canonicalize
