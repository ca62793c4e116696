import Proveno.Types.TableInvariant

/-! Tables as finite maps. A write or removal is the map operation on its key
exactly when it does not take an element out of the middle of the array part,
and two tables with the same entries are the same table up to capacity. -/

namespace Proveno

open SortedAssoc

inductive TableOp (V : Type)
  | rawset (key : LuaKey) (value : V)
  | rawremove (key : LuaKey)

namespace TableOp

variable {V : Type} [HasNil V]

def key : TableOp V → LuaKey
  | rawset key _ => key
  | rawremove key => key

/-- What the key holds afterwards, were the table a map. -/
def written : TableOp V → Option V
  | rawset _ value => if HasNil.isNil value then none else some value
  | rawremove _ => none

end TableOp

namespace LuaTable

variable {V : Type} [HasNil V]

def apply (t : LuaTable V) : TableOp V → Except LuaError Unit × LuaTable V
  | .rawset key value => t.rawset key value
  | .rawremove key => (.ok (), t.rawremove key)

/-- The table after a sequence of calls, all of which succeed. -/
def runOps (t : LuaTable V) : List (TableOp V) → Option (LuaTable V)
  | [] => some t
  | op :: ops =>
    match t.apply op with
    | (.ok _, t') => t'.runOps ops
    | (.error _, _) => none

def ActsAsMap (t : LuaTable V) (op : TableOp V) (t' : LuaTable V) : Prop :=
  t'.get op.key = op.written ∧ ∀ key, key ≠ op.key → t'.get key = t.get key

/-- A removal, by `rawremove` or by writing nil, of a key `1 ≤ k < n`. -/
def ShiftsArray (t : LuaTable V) (op : TableOp V) : Prop :=
  op.written = none ∧ t.Interior op.key

theorem reachable_apply {t : LuaTable V} (h : t.Reachable) (op : TableOp V) :
    (t.apply op).2.Reachable := by
  cases op with
  | rawset key value => exact h.rawset key value
  | rawremove key => exact h.rawremove key

theorem wf_apply {t : LuaTable V} (h : t.Wf) (op : TableOp V) : (t.apply op).2.Wf := by
  cases op with
  | rawset key value => exact wf_rawsetTracked h key value
  | rawremove key => exact wf_rawremove h key

theorem wf_runOps {t t' : LuaTable V} {ops : List (TableOp V)} (h : t.Wf)
    (hrun : t.runOps ops = some t') : t'.Wf := by
  induction ops generalizing t with
  | nil => exact Option.some.inj hrun ▸ h
  | cons op ops ih =>
    have hwf := wf_apply h op
    rw [runOps] at hrun
    split at hrun
    · rename_i heq
      rw [heq] at hwf
      exact ih hwf hrun
    · simp at hrun

/-- A successful call is a removal or a store of its value under its key. -/
theorem apply_ok_cases {t t' : LuaTable V} {op : TableOp V} (h : t.apply op = (.ok (), t')) :
    (op.written = none ∧ t' = t.rawremove op.key) ∨
    (∃ value, op = .rawset op.key value ∧ HasNil.isNil value = false ∧
      op.written = some value ∧ op.key ≠ .integer Int64.minValue ∧
      t' = (t.store op.key value).2) := by
  cases op with
  | rawremove key => exact Or.inl ⟨rfl, (Prod.mk.inj h).2.symm⟩
  | rawset key value =>
    simp only [apply, rawset, rawsetTracked] at h
    split_ifs at h with hmin hnil hcap
    · simp [Except.map] at h
    · exact Or.inl ⟨by simp [TableOp.written, hnil], (Prod.mk.inj h).2.symm⟩
    · simp [Except.map] at h
    · have hnil' : HasNil.isNil value = false := by simpa using hnil
      exact Or.inr ⟨value, rfl, hnil', by simp [TableOp.written, hnil'], hmin,
        (Prod.mk.inj h).2.symm⟩

/-- The finite-map law holds of a call exactly when it does not shift the array part. -/
theorem apply_actsAsMap_iff {t t' : LuaTable V} (ht : t.Reachable) {op : TableOp V}
    (h : t.apply op = (.ok (), t')) : t.ActsAsMap op t' ↔ ¬t.ShiftsArray op := by
  rcases apply_ok_cases h with ⟨hnone, rfl⟩ | ⟨value, -, hnil, hsome, hmin, rfl⟩
  · constructor
    · rintro ⟨hself, -⟩ ⟨-, hint⟩
      obtain ⟨v, hv, -⟩ := get_rawremove_interior ht.wf hint
      rw [hself, hnone] at hv
      simp at hv
    · intro hshift
      have hint : ¬t.Interior op.key := fun hint => hshift ⟨hnone, hint⟩
      refine ⟨?_, fun key hkey => ?_⟩
      · rw [get_rawremove ht.wf hint, if_pos rfl, hnone]
      · rw [get_rawremove ht.wf hint, if_neg hkey]
  · constructor
    · rintro - ⟨hnone, -⟩
      rw [hsome] at hnone
      simp at hnone
    · intro _
      refine ⟨?_, fun key hkey => ?_⟩
      · rw [get_store ht.wf hmin hnil, if_pos rfl, hsome]
      · rw [get_store ht.wf hmin hnil, if_neg hkey]

/-- `{10, 20}` built by two appends. -/
def tenTwenty : LuaTable LuaValue :=
  ((new.rawset (.integer 1) (.integer 10)).2.rawset (.integer 2) (.integer 20)).2

theorem tenTwenty_reachable : tenTwenty.Reachable := by
  have hten := Reachable.rawset (.integer 1) (LuaValue.integer 10) Reachable.new
  exact hten.rawset (.integer 2) (.integer 20)

theorem apply_actsAsMap_iff_append :
    tenTwenty.ActsAsMap (.rawset (.integer 3) (.integer 30))
      (tenTwenty.apply (.rawset (.integer 3) (.integer 30))).2 ↔
    ¬tenTwenty.ShiftsArray (.rawset (.integer 3) (.integer 30)) :=
  apply_actsAsMap_iff tenTwenty_reachable (by rfl)

/-- Clearing `t[1]` of `{10, 20}` leaves 20 under key 1. -/
theorem clear_first_not_actsAsMap :
    tenTwenty.Reachable ∧ (tenTwenty.apply (.rawset (.integer 1) .nil)).1 = .ok () ∧
      (tenTwenty.apply (.rawset (.integer 1) .nil)).2.get (.integer 1) = some (.integer 20) ∧
      ¬tenTwenty.ActsAsMap (.rawset (.integer 1) .nil)
        (tenTwenty.apply (.rawset (.integer 1) .nil)).2 := by
  have hget : (tenTwenty.apply (.rawset (.integer 1) .nil)).2.get (.integer 1) =
      some (.integer 20) := by decide
  refine ⟨tenTwenty_reachable, rfl, hget, ?_⟩
  rintro ⟨hself, -⟩
  rw [TableOp.key, hget] at hself
  simp [TableOp.written, HasNil.isNil] at hself

theorem get_arrayKey_eq {t : LuaTable V} (h : t.Wf) {n : Nat} (h1 : 1 ≤ n)
    (hn : n ≤ t.array.length) : t.get (arrayKey n) = t.array[n - 1]? := by
  have hbound := h.bound
  have hint : (Int64.ofNat n).toInt = n := toInt_arrayKey (by omega)
  rw [arrayKey, get_integer_of_mem (by omega), hint]
  congr 1
  omega

theorem get_frontier {t : LuaTable V} (h : t.Wf) :
    t.get (arrayKey (t.array.length + 1)) = none := by
  have hbound := h.bound
  rw [arrayKey, get_integer_of_not_mem]
  · exact h.frontier
  · by_cases hb : t.array.length + 1 < 2 ^ 63
    · rw [toInt_arrayKey hb]
      push_cast
      omega
    · have hlen : t.array.length + 1 = 2 ^ 63 := by omega
      rw [hlen]
      have hneg : (Int64.ofNat (2 ^ 63)).toInt = -2 ^ 63 := by decide
      rw [hneg]
      exact fun hin => absurd hin.1 (by decide)

/-- The length of the array part is fixed by the entries. -/
theorem length_le_of_get {t t' : LuaTable V} (h : t.Wf) (h' : t'.Wf)
    (hget : ∀ key, t.get key = t'.get key) : t'.array.length ≤ t.array.length := by
  by_contra hlt
  have hmem := get_arrayKey_eq h' (n := t.array.length + 1) (by omega) (by omega)
  rw [← hget, get_frontier h] at hmem
  have hidx : t.array.length + 1 - 1 < t'.array.length := by omega
  rw [List.getElem?_eq_getElem hidx] at hmem
  simp at hmem

theorem array_eq_of_get {t t' : LuaTable V} (h : t.Wf) (h' : t'.Wf)
    (hget : ∀ key, t.get key = t'.get key) : t.array = t'.array := by
  have hlen : t.array.length = t'.array.length :=
    le_antisymm (length_le_of_get h' h fun key => (hget key).symm) (length_le_of_get h h' hget)
  refine List.ext_getElem? fun n => ?_
  by_cases hn : n < t.array.length
  · have hleft := get_arrayKey_eq h (n := n + 1) (by omega) (by omega)
    have hright := get_arrayKey_eq h' (n := n + 1) (by omega) (by omega)
    rw [Nat.add_sub_cancel] at hleft hright
    rw [← hleft, ← hright, hget]
  · rw [List.getElem?_eq_none (by omega), List.getElem?_eq_none (by omega)]

def InArray (t : LuaTable V) : LuaKey → Prop
  | .integer i => 1 ≤ i.toInt ∧ i.toInt ≤ t.array.length
  | _ => False

instance (t : LuaTable V) : (key : LuaKey) → Decidable (t.InArray key)
  | .integer i => inferInstanceAs (Decidable (1 ≤ i.toInt ∧ i.toInt ≤ t.array.length))
  | .string _ => inferInstanceAs (Decidable False)
  | .boolean _ => inferInstanceAs (Decidable False)

theorem find_hash_eq {t : LuaTable V} (h : t.Wf) (key : LuaKey) :
    find key t.hash = if t.InArray key then none else t.get key := by
  cases key with
  | string s => simp [get, InArray]
  | boolean b => simp [get, InArray]
  | integer i =>
    split_ifs with hin
    · exact h.disjoint i hin.1 hin.2
    · exact (get_integer_of_not_mem hin).symm

theorem hash_eq_of_get {t t' : LuaTable V} (h : t.Wf) (h' : t'.Wf)
    (hget : ∀ key, t.get key = t'.get key) : t.hash = t'.hash := by
  have harray := array_eq_of_get h h' hget
  refine ext_of_find h.sorted h'.sorted fun key => ?_
  rw [find_hash_eq h, find_hash_eq h', hget]
  congr 1
  cases key <;> simp [InArray, harray]

end LuaTable

end Proveno
