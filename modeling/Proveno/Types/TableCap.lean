import Proveno.Types.TableRebuild

/-! The entry cap over sequences of calls that go on after failures. The cap is looked at
after the write, so a write under a new key of a full table fails and stays. -/

namespace Proveno.LuaTable

variable {V : Type}

/-- Nothing that can be asked of the table has changed. -/
structure Unchanged (t t' : LuaTable V) : Prop where
  get : ∀ key, t'.get key = t.get key
  length : t'.length = t.length
  entryCount : t'.entryCount = t.entryCount
  capacity : t'.capacity = t.capacity

theorem Unchanged.refl (t : LuaTable V) : t.Unchanged t := ⟨fun _ => rfl, rfl, rfl, rfl⟩

theorem entryCount_rawremove_le (t : LuaTable V) (key : LuaKey) :
    (t.rawremove key).entryCount ≤ t.entryCount := by
  rcases rawremove_cases t key with ⟨i, -, -, heq⟩ | ⟨-, heq⟩
  · rw [heq]
    exact Nat.sub_le _ _
  · rw [heq, removedFromHash]
    split_ifs
    · exact Nat.sub_le _ _
    · exact le_rfl

variable [HasNil V]

/-- The table after a sequence of calls, whether they succeed or fail. -/
def afterAll (t : LuaTable V) (ops : List (TableOp V)) : LuaTable V :=
  ops.foldl (fun t op => (t.apply op).2) t

def FailsAtomically (t : LuaTable V) : TableOp V → Prop
  | .rawset key value =>
    (∀ e, (t.rawset key value).1 = .error e → t.Unchanged (t.rawset key value).2) ∧
    ∀ e, (t.rawsetTracked key value).1 = .error e → t.Unchanged (t.rawsetTracked key value).2
  | .rawremove _ => True

/-- In every state that the calls go through there are no more entries than the cap, and
every call that fails leaves the table as it was. -/
structure KeepsCap (ops : List (TableOp V)) : Prop where
  capped : ∀ before, before <+: ops → (new.afterAll before).entryCount ≤ maxTableEntries
  atomic : ∀ before op, before ++ [op] <+: ops → (new.afterAll before).FailsAtomically op

/-- A value is stored under a new key of a table that is full. -/
def Overfills (t : LuaTable V) : TableOp V → Prop
  | .rawset key value =>
    HasNil.isNil value = false ∧ key ≠ .integer Int64.minValue ∧ t.get key = none ∧
      maxTableEntries ≤ t.entryCount
  | .rawremove _ => False

theorem afterAll_concat (t : LuaTable V) (ops : List (TableOp V)) (op : TableOp V) :
    t.afterAll (ops ++ [op]) = ((t.afterAll ops).apply op).2 := by
  rw [afterAll, List.foldl_append]
  rfl

theorem wf_afterAll {t : LuaTable V} (h : t.Wf) (ops : List (TableOp V)) : (t.afterAll ops).Wf := by
  induction ops using List.reverseRecOn with
  | nil => exact h
  | append_singleton ops op ih =>
    rw [afterAll_concat]
    exact wf_apply ih op

theorem reachable_afterAll {t : LuaTable V} (h : t.Reachable) (ops : List (TableOp V)) :
    (t.afterAll ops).Reachable := by
  induction ops using List.reverseRecOn with
  | nil => exact h
  | append_singleton ops op ih =>
    rw [afterAll_concat]
    exact reachable_apply ih op

theorem afterAll_of_runOps {t t' : LuaTable V} {ops : List (TableOp V)}
    (h : t.runOps ops = some t') : t.afterAll ops = t' := by
  induction ops generalizing t with
  | nil => exact Option.some.inj h
  | cons op ops ih =>
    rw [runOps] at h
    split at h
    · next mid heq =>
      rw [afterAll, List.foldl_cons, heq]
      exact ih h
    · cases h

/-- A new table whose array is filled with one value. -/
theorem afterAll_replicate {n : Nat} (hn : n ≤ maxTableEntries) {v : V}
    (hv : HasNil.isNil v = false) :
    new.afterAll (writes (arrayEntries 0 (List.replicate n v))) =
      ⟨List.replicate n v, [], n, 0⟩ := by
  have hrun := runOps_arrayEntries [] (List.replicate n v) (by simpa using hn)
    fun w hw => by rwa [List.eq_of_mem_replicate hw]
  simp only [List.length_nil, List.nil_append, List.length_replicate, Nat.zero_add] at hrun
  exact afterAll_of_runOps hrun

/-- A write under a key that the table has adds no entry. -/
theorem entryCount_store_of_get {t : LuaTable V} (h : t.Wf) {key : LuaKey} {v : V}
    (hmin : key ≠ .integer Int64.minValue) (hget : t.get key = some v) (value : V) :
    (t.store key value).2.entryCount = t.entryCount := by
  rcases store_cases t key value hmin with ⟨i, -, -, heq⟩ | ⟨rfl, -, -⟩ | ⟨hkey, heq⟩
  · rw [heq]
  · rw [get_frontier h] at hget
    cases hget
  · have hfind : SortedAssoc.find key t.hash = some v := by
      rw [← hget]
      cases key with
      | string s => rfl
      | boolean b => rfl
      | integer i =>
        rw [get_integer_of_not_mem]
        rintro ⟨h1, hn⟩
        exact hkey.2 ⟨h1, by omega⟩
    rw [heq, entryCount_storeHash, hfind]
    rfl

/-- Below the cap a write succeeds within the cap, or fails and changes nothing. -/
theorem rawsetTracked_withinCap {t : LuaTable V} (h : t.Wf) {key : LuaKey} {value : V}
    (hcap : t.entryCount ≤ maxTableEntries) (hover : ¬t.Overfills (.rawset key value)) :
    (t.rawsetTracked key value).2 = t ∨
      (∃ result, (t.rawsetTracked key value).1 = .ok result) ∧
        (t.rawsetTracked key value).2.entryCount ≤ maxTableEntries := by
  unfold rawsetTracked
  by_cases hmin : key = .integer Int64.minValue
  · exact .inl (by rw [if_pos hmin])
  right
  rw [if_neg hmin]
  cases hnil : HasNil.isNil value with
  | true => exact ⟨⟨_, rfl⟩, (entryCount_rawremove_le t key).trans hcap⟩
  | false =>
    have hstore : (t.store key value).2.entryCount ≤ maxTableEntries := by
      cases hget : t.get key with
      | some v => rwa [entryCount_store_of_get h hmin hget]
      | none =>
        rw [(store_absent h hmin hget value).1]
        exact not_le.mp fun hfull => hover ⟨hnil, hmin, hget, hfull⟩
    simp only [Bool.false_eq_true, if_false, if_neg (not_lt.mpr hstore)]
    exact ⟨⟨_, rfl⟩, hstore⟩

theorem apply_capped {t : LuaTable V} (h : t.Wf) {op : TableOp V}
    (hcap : t.entryCount ≤ maxTableEntries) (hover : ¬t.Overfills op) :
    (t.apply op).2.entryCount ≤ maxTableEntries := by
  cases op with
  | rawremove key => exact (entryCount_rawremove_le t key).trans hcap
  | rawset key value =>
    change (t.rawsetTracked key value).2.entryCount ≤ maxTableEntries
    rcases rawsetTracked_withinCap h hcap hover with hsame | ⟨-, hle⟩
    · rwa [hsame]
    · exact hle

theorem apply_failsAtomically {t : LuaTable V} (h : t.Wf) {op : TableOp V}
    (hcap : t.entryCount ≤ maxTableEntries) (hover : ¬t.Overfills op) : t.FailsAtomically op := by
  cases op with
  | rawremove key => exact trivial
  | rawset key value =>
    have hsame : t.rawset key value =
      ((t.rawsetTracked key value).1.map fun _ => (), (t.rawsetTracked key value).2) := rfl
    rw [FailsAtomically, hsame]
    rcases rawsetTracked_withinCap h hcap hover with hsame | ⟨⟨result, hok⟩, -⟩
    · rw [hsame]
      exact ⟨fun _ _ => .refl t, fun _ _ => .refl t⟩
    · rw [hok]
      exact ⟨nofun, nofun⟩

/-- The write is made whether it then fails or not. -/
theorem rawsetTracked_stored (t : LuaTable V) {key : LuaKey} {value : V}
    (hmin : key ≠ .integer Int64.minValue) (hnil : HasNil.isNil value = false) :
    (t.rawsetTracked key value).2 = (t.store key value).2 := by
  simp only [rawsetTracked, if_neg hmin, hnil, Bool.false_eq_true, if_false]
  split_ifs <;> rfl

/-- A store under a new key of a full table goes over the cap. -/
theorem not_keepsCap {ops before : List (TableOp V)} {op : TableOp V}
    (hbefore : before ++ [op] <+: ops) (hover : (new.afterAll before).Overfills op) :
    ¬KeepsCap ops := by
  intro hkeeps
  have hwf : (new.afterAll before).Wf := wf_afterAll wf_new before
  have hle := hkeeps.capped _ hbefore
  rw [afterAll_concat] at hle
  cases op with
  | rawremove key => exact hover
  | rawset key value =>
    obtain ⟨hnil, hmin, hget, hfull⟩ := hover
    have hcount := (store_absent hwf hmin hget value).1
    change ((new.afterAll before).rawsetTracked key value).2.entryCount ≤ _ at hle
    rw [rawsetTracked_stored _ hmin hnil, hcount] at hle
    omega

/-- The cap holds, and failures are atomic, exactly in the runs that never store under a
new key of a full table. -/
theorem keepsCap_iff (ops : List (TableOp V)) :
    KeepsCap ops ↔ ∀ before op, before ++ [op] <+: ops → ¬(new.afterAll before).Overfills op := by
  constructor
  · intro hkeeps before op hprefix hover
    exact not_keepsCap hprefix hover hkeeps
  · intro hnever
    have hcapped : ∀ before, before <+: ops →
        (new.afterAll before).entryCount ≤ maxTableEntries := by
      intro before
      induction before using List.reverseRecOn with
      | nil => exact fun _ => Nat.zero_le _
      | append_singleton before op ih =>
        intro hprefix
        rw [afterAll_concat]
        exact apply_capped (wf_afterAll wf_new before)
          (ih ((List.prefix_append _ _).trans hprefix)) (hnever _ _ hprefix)
    exact ⟨hcapped, fun before op hprefix => apply_failsAtomically (wf_afterAll wf_new before)
      (hcapped before ((List.prefix_append _ _).trans hprefix)) (hnever _ _ hprefix)⟩

/-- As many elements as the cap allows. -/
def filling : List (TableOp LuaValue) :=
  writes (arrayEntries 0 (List.replicate maxTableEntries (.boolean true)))

theorem afterAll_filling :
    new.afterAll filling =
      ⟨List.replicate maxTableEntries (.boolean true), [], maxTableEntries, 0⟩ :=
  afterAll_replicate le_rfl rfl

/-- One element more than the cap allows is appended. -/
theorem filling_not_keepsCap : ¬∀ ops : List (TableOp LuaValue), KeepsCap ops := by
  intro hall
  have hwf : (new.afterAll filling).Wf := wf_afterAll wf_new filling
  have hover : (new.afterAll filling).Overfills
      (.rawset (arrayKey (maxTableEntries + 1)) (.boolean true)) := by
    refine ⟨rfl, by decide, ?_, ?_⟩
    · have hfrontier := get_frontier hwf
      rwa [show (new.afterAll filling).array.length = maxTableEntries by
        rw [afterAll_filling, List.length_replicate]] at hfrontier
    · rw [afterAll_filling]
  exact not_keepsCap (List.prefix_refl _) hover (hall _)

end Proveno.LuaTable
