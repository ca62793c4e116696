import Proveno.Types.TableRebuild
import Proveno.Vm.Args

/-! Table writes on a host whose `usize` may be narrower than an integer key.
A narrow host keeps the behaviour of a 64-bit one exactly when the low bits of
every key written stay clear of the array part. -/

namespace Proveno.LuaTable

open SortedAssoc

variable {V : Type}

/-- `store` with the key cast to `usize` first; index 0 of the array panics. -/
def storeAt (tgt : Target) (t : LuaTable V) (key : LuaKey) (value : V) :
    Option (RawsetResult × LuaTable V) :=
  match key with
  | .integer i =>
    if 1 ≤ i.toInt then
      let idx := tgt.toUsize i
      if idx ≤ t.array.length + 1 then
        if idx ≤ t.array.length then
          if idx = 0 then none
          else some (.updated, { t with array := t.array.set (idx - 1) value })
        else some (.inserted false t.hashCapacity, t.append value)
      else some (t.storeHash key value)
    else some (t.storeHash key value)
  | _ => some (t.storeHash key value)

def capped (p : RawsetResult × LuaTable V) : Except LuaError RawsetResult × LuaTable V :=
  if p.2.entryCount > maxTableEntries then (.error .memory, p.2) else (.ok p.1, p.2)

theorem toUsize_of_lt {tgt : Target} {i : Int64} (h0 : 0 ≤ i.toInt)
    (hi : i.toInt < 2 ^ tgt.wordBits) : tgt.toUsize i = i.toInt.toNat := by
  rw [Target.toUsize, Int.emod_eq_of_lt h0 hi]

theorem toUsize_of_wide {tgt : Target} (hbits : 64 ≤ tgt.wordBits) {i : Int64}
    (h0 : 0 ≤ i.toInt) : tgt.toUsize i = i.toInt.toNat := by
  refine toUsize_of_lt h0 ?_
  calc i.toInt < 2 ^ 63 := i.toInt_lt
    _ ≤ 2 ^ tgt.wordBits := by exact_mod_cast Nat.pow_le_pow_right (by norm_num) (by omega)

theorem storeAt_of_toUsize (tgt : Target) (t : LuaTable V) (key : LuaKey) (value : V)
    (h : ∀ i, key = .integer i → 1 ≤ i.toInt → tgt.toUsize i = i.toInt.toNat) :
    t.storeAt tgt key value = some (t.store key value) := by
  cases key with
  | string s => rfl
  | boolean b => rfl
  | integer i =>
    by_cases h1 : 1 ≤ i.toInt
    · rw [storeAt, store, h i rfl h1, if_pos h1]
      have hcast : (i.toInt.toNat ≤ t.array.length + 1 ↔
          1 ≤ i.toInt ∧ i.toInt ≤ t.array.length + 1) ∧
          (i.toInt.toNat ≤ t.array.length ↔ i.toInt ≤ t.array.length) ∧ i.toInt.toNat ≠ 0 := by
        omega
      simp only [hcast.1, hcast.2.1, hcast.2.2, if_false]
      split_ifs <;> rfl
    · simp only [storeAt, store, if_neg h1, if_neg fun h : 1 ≤ i.toInt ∧ _ => h1 h.1]

theorem length_le_consolidate (fuel : Nat) (t : LuaTable V) :
    t.array.length ≤ (consolidate fuel t).array.length := by
  induction fuel generalizing t with
  | zero => exact le_rfl
  | succ fuel ih =>
    rw [consolidate]
    split
    · refine le_trans ?_ (ih _)
      simp
    · exact le_rfl

theorem length_lt_append (t : LuaTable V) (value : V) :
    t.array.length < (t.append value).array.length := by
  have hle := length_le_consolidate t.hash.length (t.pushed value)
  rw [append_eq]
  simp only [pushed, List.length_append, List.length_singleton] at hle
  exact hle

/-- The cap check does not hide where a value was put. -/
theorem capped_eq_iff {p q : RawsetResult × LuaTable V} (h : p.2 = q.2 → p.1 = q.1) :
    capped p = capped q ↔ p.2 = q.2 := by
  constructor
  · intro heq
    have htable := congrArg Prod.snd heq
    unfold capped at htable
    split_ifs at htable <;> exact htable
  · intro htable
    rw [Prod.ext (h htable) htable]

variable [HasNil V]

def rawsetTrackedAt (tgt : Target) (t : LuaTable V) (key : LuaKey) (value : V) :
    Option (Except LuaError RawsetResult × LuaTable V) :=
  if key = .integer Int64.minValue then some (.error .runtime, t)
  else if HasNil.isNil value then some (.ok .updated, t.rawremove key)
  else (t.storeAt tgt key value).map capped

def applyAt (tgt : Target) (t : LuaTable V) :
    TableOp V → Option (Except LuaError RawsetResult × LuaTable V)
  | .rawset key value => t.rawsetTrackedAt tgt key value
  | .rawremove key => some (.ok .updated, t.rawremove key)

/-- The outcome of every call and the table after it, up to the first panic. -/
def runAt (tgt : Target) (t : LuaTable V) :
    List (TableOp V) → List (Option (Except LuaError RawsetResult × LuaTable V))
  | [] => []
  | op :: ops =>
    match t.applyAt tgt op with
    | none => [none]
    | some (r, t') => some (r, t') :: t'.runAt tgt ops

def applyTracked (t : LuaTable V) : TableOp V → Except LuaError RawsetResult × LuaTable V
  | .rawset key value => t.rawsetTracked key value
  | .rawremove key => (.ok .updated, t.rawremove key)

theorem rawsetTracked_eq_capped {t : LuaTable V} {key : LuaKey} {value : V}
    (hmin : key ≠ .integer Int64.minValue) (hnil : HasNil.isNil value = false) :
    t.rawsetTracked key value = capped (t.store key value) := by
  simp [rawsetTracked, hmin, hnil, capped]

/-- On a 64-bit host the cast is exact. -/
theorem applyAt_of_wide {tgt : Target} (hbits : 64 ≤ tgt.wordBits) (t : LuaTable V)
    (op : TableOp V) : t.applyAt tgt op = some (t.applyTracked op) := by
  cases op with
  | rawremove key => rfl
  | rawset key value =>
    simp only [applyAt, applyTracked, rawsetTrackedAt]
    split_ifs with hmin hnil
    · simp [rawsetTracked, hmin]
    · simp [rawsetTracked, hmin, hnil]
    · rw [storeAt_of_toUsize _ _ _ _ fun i _ h1 => toUsize_of_wide hbits (by omega), Option.map_some,
        rawsetTracked_eq_capped hmin (by simpa using hnil)]

/-- The key as the narrow host sees it. -/
def lowIndex (i : Int64) : Nat := (i.toInt % 2 ^ 32).toNat

/-- A write whose key fits 32 bits, or whose key and low bits both lie beyond the
array part, or that stores what both places already hold. -/
def KeepsWord (t : LuaTable V) : TableOp V → Prop
  | .rawset (.integer i) value =>
    HasNil.isNil value = true ∨ i.toInt < 2 ^ 32 ∨
      (t.array.length + 1 < i.toInt ∧ t.array.length + 1 < lowIndex i) ∨
      (1 ≤ lowIndex i ∧ t.array[lowIndex i - 1]? = some value ∧ t.get (.integer i) = some value)
  | _ => True

def KeepsWordRun (t : LuaTable V) : List (TableOp V) → Prop
  | [] => True
  | op :: ops => t.KeepsWord op ∧ (t.applyTracked op).2.KeepsWordRun ops

section Narrow

variable {t : LuaTable V} {i : Int64} {value : V} {tgt : Target}

theorem set_eq_self_iff {α : Type} {xs : List α} {n : Nat} {x : α} (hn : n < xs.length) :
    xs.set n x = xs ↔ xs[n]? = some x := by
  constructor
  · intro h
    rw [← h, List.getElem?_set_self hn]
  · intro h
    refine List.ext_getElem? fun m => ?_
    rw [List.getElem?_set]
    split_ifs with hm
    · rw [← hm, h]
    · rfl

theorem storeHash_eq_self (h : t.Wf) {key : LuaKey} (hfind : find key t.hash = some value) :
    t.storeHash key value = (.updated, t) := by
  simp only [storeHash, hfind, Option.isNone_some, Bool.false_eq_true, if_false,
    insert_eq_self h.sorted hfind]

/-- The narrow write lands on an element of the array part. -/
theorem set_eq_store_iff (h : t.Wf) (hwide : 2 ^ 32 ≤ i.toInt) {idx : Nat} (hsmall : idx < 2 ^ 32)
    (h1 : 1 ≤ idx) (hidx : idx ≤ t.array.length) :
    ({ t with array := t.array.set (idx - 1) value } : LuaTable V) =
        (t.store (.integer i) value).2 ↔
      t.array[idx - 1]? = some value ∧ t.get (.integer i) = some value := by
  have hmin : LuaKey.integer i ≠ .integer Int64.minValue := by
    intro heq
    rw [LuaKey.integer.inj heq] at hwide
    exact absurd hwide (by decide)
  have hlt : idx - 1 < t.array.length := by omega
  rcases store_cases t (.integer i) value hmin with
    ⟨k, hk, hin, heq⟩ | ⟨hkey, hbound, heq⟩ | ⟨hkey, heq⟩
  · obtain rfl := LuaKey.integer.inj hk
    have hne : idx - 1 ≠ i.toInt.toNat - 1 := by omega
    have hk' : i.toInt.toNat - 1 < t.array.length := by omega
    have hget : t.get (.integer i) = t.array[i.toInt.toNat - 1]? := by
      rw [get_integer_of_mem hin]
      congr 1
      omega
    rw [heq, hget]
    constructor
    · intro hset
      have harray : t.array.set (idx - 1) value = t.array.set (i.toInt.toNat - 1) value :=
        congrArg LuaTable.array hset
      constructor
      · have hleft := congrArg (fun xs => xs[idx - 1]?) harray
        simp only [List.getElem?_set_self hlt, List.getElem?_set_ne hne.symm] at hleft
        exact hleft.symm
      · have hright := congrArg (fun xs => xs[i.toInt.toNat - 1]?) harray
        simp only [List.getElem?_set_self hk', List.getElem?_set_ne hne] at hright
        exact hright
    · rintro ⟨hleft, hright⟩
      rw [(set_eq_self_iff hlt).mpr hleft]
      simp only [(set_eq_self_iff hk').mpr hright]
  · rw [heq, hkey]
    constructor
    · intro hset
      have harray := congrArg (fun t => t.array.length) hset
      simp only [List.length_set] at harray
      exact absurd harray (length_lt_append t value).ne
    · rintro ⟨-, hget⟩
      rw [get_frontier h] at hget
      simp at hget
  · have hout : ¬(1 ≤ i.toInt ∧ i.toInt ≤ t.array.length) := fun hin => hkey.2 ⟨hin.1, by omega⟩
    rw [heq, get_integer_of_not_mem hout]
    constructor
    · intro hset
      have harray : t.array.set (idx - 1) value = t.array :=
        (congrArg LuaTable.array hset).trans (array_storeHash _ _)
      have hhash : t.hash = insert (.integer i) value t.hash :=
        (congrArg LuaTable.hash hset).trans (hash_storeHash _ _)
      refine ⟨(set_eq_self_iff hlt).mp harray, ?_⟩
      rw [hhash, find_insert_self]
    · rintro ⟨hleft, hright⟩
      rw [storeHash_eq_self h hright, (set_eq_self_iff hlt).mpr hleft]

theorem lowIndex_lt (i : Int64) : lowIndex i < 2 ^ 32 := by
  unfold lowIndex
  omega

theorem toUsize_eq_lowIndex (hbits : tgt.wordBits = 32) (i : Int64) :
    tgt.toUsize i = lowIndex i := by
  rw [Target.toUsize, hbits, lowIndex]

theorem storeAt_map_capped_iff (hbits : tgt.wordBits = 32) (h : t.Wf) {key : LuaKey}
    (hmin : key ≠ .integer Int64.minValue) (hnil : HasNil.isNil value = false) :
    (t.storeAt tgt key value).map capped = some (capped (t.store key value)) ↔
      t.KeepsWord (.rawset key value) := by
  cases key with
  | string s => simp [storeAt, store, KeepsWord]
  | boolean b => simp [storeAt, store, KeepsWord]
  | integer i =>
    by_cases hnarrow : i.toInt < 2 ^ 32
    · have hstore := storeAt_of_toUsize tgt t (.integer i) value
        fun j hj h1 => by
          rw [← LuaKey.integer.inj hj] at h1 ⊢
          exact toUsize_of_lt (by omega) (by rw [hbits]; exact hnarrow)
      have hkeeps : t.KeepsWord (.rawset (.integer i) value) := Or.inr (Or.inl hnarrow)
      simp [hstore, hkeeps]
    · have hwide : 2 ^ 32 ≤ i.toInt := not_lt.mp hnarrow
      have hlow := lowIndex_lt i
      have h1 : 1 ≤ i.toInt := by omega
      simp only [storeAt, if_pos h1, toUsize_eq_lowIndex hbits, KeepsWord, hnil, hnarrow,
        Bool.false_eq_true, false_or]
      by_cases hnear : lowIndex i ≤ t.array.length + 1
      · rw [if_pos hnear]
        have hfar : ¬((t.array.length : Int) + 1 < i.toInt ∧ t.array.length + 1 < lowIndex i) :=
          fun hfar => by omega
        simp only [hfar, false_or]
        by_cases hin : lowIndex i ≤ t.array.length
        · rw [if_pos hin]
          by_cases hzero : lowIndex i = 0
          · simp [hzero]
          · have hpos : 1 ≤ lowIndex i := by omega
            rw [if_neg hzero, Option.map_some, Option.some.injEq, capped_eq_iff,
              set_eq_store_iff h hwide hlow hpos hin]
            · exact ⟨fun hsame => ⟨hpos, hsame⟩, fun hsame => hsame.2⟩
            · intro htable
              have hsame := (set_eq_store_iff h hwide hlow hpos hin).mp htable
              rcases store_cases t (.integer i) value hmin with
                ⟨k, -, -, heq⟩ | ⟨hkey, -, -⟩ | ⟨hkey, heq⟩
              · rw [heq]
              · rw [hkey, get_frontier h] at hsame
                simp at hsame
              · rw [heq, storeHash_eq_self h]
                rw [← get_integer_of_not_mem fun hin => hkey.2 ⟨hin.1, by omega⟩]
                exact hsame.2
        · rw [if_neg hin, Option.map_some, Option.some.injEq]
          have hlen : (t.store (.integer i) value).2.array.length = t.array.length := by
            rcases store_cases t (.integer i) value hmin with
              ⟨k, hk, hmem, heq⟩ | ⟨hkey, hbound, -⟩ | ⟨-, heq⟩
            · rw [heq, List.length_set]
            · have hi := congrArg Int64.toInt (LuaKey.integer.inj hkey)
              rw [toInt_arrayKey hbound] at hi
              omega
            · rw [heq, array_storeHash]
          have hgrow := length_lt_append t value
          constructor
          · intro heq
            have htable := congrArg (fun p => p.2.array.length) heq
            simp only [capped] at htable
            split_ifs at htable <;> simp only [hlen] at htable <;> omega
          · rintro ⟨-, hget, -⟩
            rw [List.getElem?_eq_none (by omega)] at hget
            simp at hget
      · rw [if_neg hnear]
        have hfar : (t.array.length : Int) + 1 < i.toInt ∧ t.array.length + 1 < lowIndex i := by
          unfold lowIndex at hnear hlow ⊢
          omega
        have hstore : t.store (.integer i) value = t.storeHash (.integer i) value := by
          simp only [store, if_neg fun hin : 1 ≤ i.toInt ∧ i.toInt ≤ t.array.length + 1 => by omega]
        simp [hstore, hfar]

/-- One call agrees with the 64-bit host exactly when it keeps the word. -/
theorem applyAt_eq_iff (hbits : tgt.wordBits = 32) (h : t.Wf) (op : TableOp V) :
    t.applyAt tgt op = some (t.applyTracked op) ↔ t.KeepsWord op := by
  cases op with
  | rawremove key => simp [applyAt, applyTracked, KeepsWord]
  | rawset key value =>
    simp only [applyAt, applyTracked, rawsetTrackedAt]
    split_ifs with hmin hnil
    · simp [rawsetTracked, hmin, KeepsWord]
    · have hkeeps : t.KeepsWord (.rawset key value) := by
        cases key <;> simp [KeepsWord, hnil]
      simp [rawsetTracked, hmin, hnil, hkeeps]
    · have hnil' : HasNil.isNil value = false := by simpa using hnil
      rw [rawsetTracked_eq_capped hmin hnil', storeAt_map_capped_iff hbits h hmin hnil']

theorem wf_applyTracked (h : t.Wf) (op : TableOp V) : (t.applyTracked op).2.Wf := by
  cases op with
  | rawset key value => exact wf_rawsetTracked h key value
  | rawremove key => exact wf_rawremove h key

/-- A whole run, by induction on the calls: as long as every call agreed, both
hosts hold the same table. -/
theorem runAt_eq_iff {wide : Target} (hbits : tgt.wordBits = 32) (hwide : 64 ≤ wide.wordBits)
    (h : t.Wf) (ops : List (TableOp V)) :
    t.runAt tgt ops = t.runAt wide ops ↔ t.KeepsWordRun ops := by
  induction ops generalizing t with
  | nil => simp [runAt, KeepsWordRun]
  | cons op ops ih =>
    have hstep := applyAt_eq_iff hbits h op
    rw [KeepsWordRun, ← hstep, runAt, runAt, applyAt_of_wide hwide]
    cases happly : t.applyAt tgt op with
    | none => simp
    | some p =>
      simp only [List.cons.injEq, Option.some.injEq, Prod.mk.eta]
      constructor
      · rintro ⟨rfl, hrest⟩
        exact ⟨rfl, (ih (wf_applyTracked h op)).mp hrest⟩
      · rintro ⟨rfl, hrest⟩
        exact ⟨rfl, (ih (wf_applyTracked h op)).mpr hrest⟩

end Narrow

end Proveno.LuaTable
