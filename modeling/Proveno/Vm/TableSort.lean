import Proveno.Vm.EngineComposed
import Proveno.Vm.ListOperations
import Proveno.Vm.MergeSort

/-! What `table.sort` does to a table. The elements are sorted aside and written back at the
end, where every write can fail only in a table that is over the entry cap. -/

namespace Proveno

namespace LuaValue

/-- The order in which a sort leaves two values. -/
def NotAbove (a b : LuaValue) : Prop := ∃ ord, a.luaCmp b = .ok ord ∧ ord.isLE = true

def isBelow (a b : LuaValue) : Bool :=
  match a.luaCmp b with
  | .ok ord => ord.isLT
  | .error _ => false

def IsInteger (v : LuaValue) : Prop := ∃ n, v = .integer n

def IsString (v : LuaValue) : Prop := ∃ s, v = .string s

theorem luaCmp_ok_cases {a b : LuaValue} {ord : Ordering} (h : a.luaCmp b = .ok ord) :
    a.IsInteger ∧ b.IsInteger ∨ a.IsString ∧ b.IsString := by
  cases a with
  | integer m =>
    cases b with
    | integer n => exact .inl ⟨⟨m, rfl⟩, n, rfl⟩
    | _ => cases h
  | string s =>
    cases b with
    | string s' => exact .inr ⟨⟨s, rfl⟩, s', rfl⟩
    | _ => cases h
  | _ => cases h

theorem not_isInteger_and_isString {v : LuaValue} (h : v.IsInteger) : ¬v.IsString := by
  obtain ⟨n, rfl⟩ := h
  rintro ⟨s, hs⟩
  cases hs

end LuaValue

open LuaValue

/-- The values are all integers or all strings. -/
def Sortable (vs : List LuaValue) : Prop := (∀ v ∈ vs, IsInteger v) ∨ ∀ v ∈ vs, IsString v

section Default

theorem decides_of_compare {β : Type} [Ord β] [Std.TransOrd β] {p : LuaValue → Prop}
    (key : LuaValue → β) (h : ∀ a b, p a → p b → a.luaCmp b = .ok (compare (key a) (key b))) :
    Decides isBelow p NotAbove where
  less a b ha hb hlt := by
    rw [isBelow, h a b ha hb] at hlt
    refine ⟨_, h a b ha hb, ?_⟩
    dsimp only at hlt
    cases hcmp : compare (key a) (key b) <;> simp_all
  notLess a b ha hb hlt := by
    rw [isBelow, h a b ha hb] at hlt
    refine ⟨_, h b a hb ha, ?_⟩
    dsimp only at hlt
    rw [Std.OrientedOrd.eq_swap]
    cases hcmp : compare (key a) (key b) <;> simp_all
  trans a b c ha hb hc hab hbc := by
    obtain ⟨ord, hab, hle⟩ := hab
    obtain ⟨ord', hbc, hle'⟩ := hbc
    rw [h a b ha hb] at hab
    rw [h b c hb hc] at hbc
    cases hab
    cases hbc
    exact ⟨_, h a c ha hc, Std.TransCmp.isLE_trans hle hle'⟩

def integerKey : LuaValue → Int
  | .integer n => n.toInt
  | _ => 0

def stringKey : LuaValue → List Nat
  | .string s => s.map UInt8.toNat
  | _ => []

theorem decides_integers : Decides isBelow IsInteger NotAbove :=
  decides_of_compare integerKey <| by
    rintro _ _ ⟨m, rfl⟩ ⟨n, rfl⟩
    rfl

theorem decides_strings : Decides isBelow IsString NotAbove :=
  decides_of_compare stringKey <| by
    rintro _ _ ⟨s, rfl⟩ ⟨s', rfl⟩
    rfl

theorem answers_defaultLess {p : LuaValue → Prop}
    (hp : ∀ a b, p a → p b → ∃ ord, a.luaCmp b = .ok ord) (c : Core) :
    Answers Vm.defaultLess isBelow p fun _ c' => c' = c := by
  rintro n a b _ ha hb rfl
  obtain ⟨ord, hord⟩ := hp a b ha hb
  refine ⟨_, ?_, rfl⟩
  rw [Vm.defaultLess, isBelow, hord]
  rfl

/-- Values of one of the two types are sorted. -/
theorem mergeSort_sortable {arr : List LuaValue} (h : Sortable arr) (c : Core) :
    ∃ out, (mergeSort Vm.defaultLess arr.length arr).run c = (.ok out, c) ∧
      out.Pairwise NotAbove := by
  rcases h with hint | hstr
  · have hcmp : ∀ a b, IsInteger a → IsInteger b → ∃ ord, a.luaCmp b = .ok ord := by
      rintro _ _ ⟨m, rfl⟩ ⟨n, rfl⟩
      exact ⟨_, rfl⟩
    obtain ⟨_, hrun, rfl⟩ := mergeSort_run (answers_defaultLess hcmp c) (fun _ _ h => h)
      arr.length hint (n := 0) rfl
    exact ⟨_, hrun, sortBy_sorted decides_integers _ le_rfl hint⟩
  · have hcmp : ∀ a b, IsString a → IsString b → ∃ ord, a.luaCmp b = .ok ord := by
      rintro _ _ ⟨s, rfl⟩ ⟨s', rfl⟩
      exact ⟨_, rfl⟩
    obtain ⟨_, hrun, rfl⟩ := mergeSort_run (answers_defaultLess hcmp c) (fun _ _ h => h)
      arr.length hstr (n := 0) rfl
    exact ⟨_, hrun, sortBy_sorted decides_strings _ le_rfl hstr⟩

theorem Sortable.of_perm {vs vs' : List LuaValue} (h : Sortable vs) (hperm : vs'.Perm vs) :
    Sortable vs' :=
  h.imp (fun h v hv => h v (hperm.mem_iff.mp hv)) fun h v hv => h v (hperm.mem_iff.mp hv)

/-- The heads of two halves that are merged are compared. -/
theorem merge_heads {fuel : Nat} {a b : LuaValue} {left right out : List LuaValue} {c c' : Core}
    (h : (merge Vm.defaultLess (fuel + 1) (a :: left) (b :: right)).run c = (.ok out, c')) :
    IsInteger a ∧ IsInteger b ∨ IsString a ∧ IsString b := by
  rw [merge] at h
  obtain ⟨isLess, mid, hless, -⟩ := Exec.run_bind_eq_ok.mp h
  cases hcmp : a.luaCmp b with
  | ok ord => exact luaCmp_ok_cases hcmp
  | error e =>
    rw [Vm.defaultLess, hcmp] at hless
    cases hless

theorem eq_of_short {v : LuaValue} {vs half : List LuaValue} (hperm : (v :: vs).Perm half)
    (h : half.length ≤ 1) : half = [v] := by
  have hlength := hperm.length_eq
  rw [List.length_cons] at hlength
  obtain rfl : vs = [] := List.length_eq_zero_iff.mp (by omega)
  exact List.perm_singleton.mp hperm.symm

theorem integers_of_head {v : LuaValue} {vs half : List LuaValue} (hperm : (v :: vs).Perm half)
    (h : half.length ≤ 1 ∨ Sortable half) (hv : IsInteger v) : ∀ w ∈ half, IsInteger w := by
  rcases h with hshort | hint | hstr
  · rw [eq_of_short hperm hshort]
    exact fun w hw => List.mem_singleton.mp hw ▸ hv
  · exact hint
  · exact absurd (hstr v (hperm.mem_iff.mp List.mem_cons_self)) (not_isInteger_and_isString hv)

theorem strings_of_head {v : LuaValue} {vs half : List LuaValue} (hperm : (v :: vs).Perm half)
    (h : half.length ≤ 1 ∨ Sortable half) (hv : IsString v) : ∀ w ∈ half, IsString w := by
  rcases h with hshort | hint | hstr
  · rw [eq_of_short hperm hshort]
    exact fun w hw => List.mem_singleton.mp hw ▸ hv
  · exact absurd hv (not_isInteger_and_isString (hint v (hperm.mem_iff.mp List.mem_cons_self)))
  · exact hstr

/-- A half that is sorted has one value, or values of one type. -/
theorem sortable_of_mergeSort (fuel : Nat) {arr out : List LuaValue} {c c' : Core}
    (hfuel : arr.length ≤ fuel)
    (h : (mergeSort Vm.defaultLess fuel arr).run c = (.ok out, c')) :
    arr.length ≤ 1 ∨ Sortable arr := by
  induction fuel generalizing arr out c c' with
  | zero => exact .inl (by omega)
  | succ fuel ih =>
    rw [mergeSort] at h
    by_cases hshort : arr.length ≤ 1
    · exact .inl hshort
    rw [if_neg hshort] at h
    obtain ⟨left, mid, hleft, h⟩ := Exec.run_bind_eq_ok.mp h
    obtain ⟨right, mid', hright, h⟩ := Exec.run_bind_eq_ok.mp h
    have hpl := mergeSort_perm fuel hleft
    have hpr := mergeSort_perm fuel hright
    have hll := hpl.length_eq
    have hlr := hpr.length_eq
    rw [List.length_take] at hll
    rw [List.length_drop] at hlr
    have ihl := ih (by rw [List.length_take]; omega) hleft
    have ihr := ih (by rw [List.length_drop]; omega) hright
    obtain ⟨a, left, rfl⟩ := List.exists_cons_of_length_pos (show 0 < left.length by omega)
    obtain ⟨b, right, rfl⟩ := List.exists_cons_of_length_pos (show 0 < right.length by omega)
    obtain ⟨n, hn⟩ : ∃ n, arr.length = n + 1 := ⟨arr.length - 1, by omega⟩
    rw [hn] at h
    right
    rw [← List.take_append_drop (arr.length / 2) arr]
    rcases merge_heads h with ⟨ha, hb⟩ | ⟨ha, hb⟩
    · exact .inl (List.forall_mem_append.mpr
        ⟨integers_of_head hpl ihl ha, integers_of_head hpr ihr hb⟩)
    · exact .inr (List.forall_mem_append.mpr
        ⟨strings_of_head hpl ihl ha, strings_of_head hpr ihr hb⟩)

theorem heap_mergeSort (fuel : Nat) (arr : List LuaValue) (c : Core) :
    ((mergeSort Vm.defaultLess fuel arr).run c).2.heap = c.heap := by
  refine mergeSort_closed (Q := fun {β} (m : Vm β) => ∀ c : Core, (m.run c).2.heap = c.heap)
    (fun _ _ => rfl) ?_ ?_
    fuel arr c
  · intro _ _ m f hm hf c
    rw [Exec.run_bind]
    have hrun := hm c
    rcases hcase : m.run c with ⟨e | a, c'⟩
    · rwa [hcase] at hrun
    · rw [hcase] at hrun
      exact (hf a c').trans hrun
  · intro a b c
    unfold Vm.defaultLess
    cases a.luaCmp b with
    | ok ord => rfl
    | error e => exact Vm.heap_noteRaise c _

end Default

section WriteBack

open LuaTable

variable {c : Core} {r : TableRef}

theorem valuesFrom_length {t : LuaTable LuaValue} (h : t.Wf) :
    Vm.valuesFrom t 1 t.length = t.array := by
  refine List.ext_getElem? fun k => ?_
  have hbound := h.bound
  by_cases hk : k < t.array.length
  · have hget := get_arrayKey_eq h (n := k + 1) (by omega) (by omega)
    have hint : (1 : Int64).toInt + (k : Int) = (k + 1 : Nat) := by
      have hone : (1 : Int64).toInt = 1 := by decide
      rw [hone]
      omega
    have hkey : LuaKey.integer (Int64.ofInt ((1 : Int64).toInt + k)) = arrayKey (k + 1) := by
      refine integer_eq_arrayKey (by omega) ?_
      rw [hint, Int64.toInt_ofInt_of_le (by omega) (by omega)]
    rw [Vm.getElem?_valuesFrom t 1 (show k < t.length from hk), hkey, hget, Nat.add_sub_cancel,
      List.getElem?_eq_getElem hk, Option.getD_some]
  · rw [List.getElem?_eq_none (by rw [Vm.length_valuesFrom]; exact not_lt.mp hk),
      List.getElem?_eq_none (not_lt.mp hk)]

theorem set_stretch {α : Type} (xs : List α) {k : Nat} (hk : k < xs.length) (v : α)
    (rest : List α) :
    (xs.set k v).take (k + 1) ++ rest ++ (xs.set k v).drop (k + 1 + rest.length) =
      xs.take k ++ v :: rest ++ xs.drop (k + (rest.length + 1)) := by
  rw [List.set_eq_take_append_cons_drop, if_pos hk]
  have hlength : (xs.take k).length = k := List.length_take_of_le hk.le
  have htake : (xs.take k ++ v :: xs.drop (k + 1)).take (k + 1) = xs.take k ++ [v] := by
    rw [List.take_append, hlength, List.take_of_length_le (by omega), Nat.add_sub_cancel_left]
    rfl
  have hdrop : (xs.take k ++ v :: xs.drop (k + 1)).drop (k + 1 + rest.length) =
      xs.drop (k + (rest.length + 1)) := by
    rw [List.drop_append, hlength, List.drop_of_length_le (by omega), List.nil_append,
      show k + 1 + rest.length - k = rest.length + 1 by omega, List.drop_succ_cons, List.drop_drop]
    congr 1
    omega
  rw [htake, hdrop, List.append_assoc (xs.take k), List.singleton_append]

/-- Writing back within the cap replaces a stretch of the array part. -/
theorem writeBack_run (vs : List LuaValue) (hvs : ∀ v ∈ vs, HasNil.isNil v = false) (k : Nat)
    {c : Core} (hr : r < c.heap.tables.length) (h : (c.heap.table r).Wf)
    (hcap : (c.heap.table r).entryCount ≤ maxTableEntries)
    (hk : k + vs.length ≤ (c.heap.table r).length) :
    ∃ c', (Vm.writeBack r (k + 1) vs).run c = (.ok (), c') ∧
      c'.heap = c.heap.setTable r { c.heap.table r with
        array := (c.heap.table r).array.take k ++ vs ++
          (c.heap.table r).array.drop (k + vs.length) } := by
  induction vs generalizing c k with
  | nil =>
    refine ⟨c, rfl, ?_⟩
    rw [List.length_nil, Nat.add_zero, List.append_nil, List.take_append_drop,
      Heap.setTable_table hr]
  | cons v rest ih =>
    have hnil := hvs v List.mem_cons_self
    rw [List.length_cons] at hk
    have hset := rawsetTracked_set h (n := k + 1) (by omega) (by omega) hnil
    rw [if_neg (not_lt.mpr hcap), Nat.add_sub_cancel] at hset
    obtain ⟨t', c', happly, hrun, hheap, -⟩ | ⟨e, t', c', happly, -⟩ :=
      Vm.rawset_cases r (arrayKey (k + 1)) v c
    · have ht' : t' = { c.heap.table r with array := (c.heap.table r).array.set k v } := by
        simp only [LuaTable.apply, LuaTable.rawset, hset] at happly
        exact (Prod.mk.inj happly).2.symm
      subst ht'
      have hr' : r < c'.heap.tables.length := by rwa [hheap, Heap.length_tables_setTable]
      have htable := Heap.table_setTable_self hr
        { c.heap.table r with array := (c.heap.table r).array.set k v }
      rw [← hheap] at htable
      obtain ⟨c'', hrun', hheap'⟩ := ih (fun w hw => hvs w (List.mem_cons_of_mem _ hw)) (k + 1) hr'
        (by rw [htable]; exact wf_set h k hnil) (by rw [htable]; exact hcap) (by
          rw [htable]
          simp only [length, List.length_set]
          change _ ≤ (c.heap.table r).array.length at hk
          omega)
      refine ⟨c'', by rw [Vm.writeBack, Exec.run_bind_ok hrun, hrun'], ?_⟩
      have hk' : k < (c.heap.table r).array.length := by
        change _ ≤ (c.heap.table r).array.length at hk
        omega
      rw [hheap', htable, hheap, Heap.setTable_setTable]
      simp only [set_stretch _ hk', List.length_cons]
    · simp only [LuaTable.apply, LuaTable.rawset, hset] at happly
      cases happly

/-- In a table over the cap the first write fails, and has been made. -/
theorem writeBack_over {v : LuaValue} (rest : List LuaValue) (hv : HasNil.isNil v = false)
    (h : (c.heap.table r).Wf) (hover : maxTableEntries < (c.heap.table r).entryCount)
    (hlength : 1 ≤ (c.heap.table r).length) :
    ∃ c', (Vm.writeBack r 1 (v :: rest)).run c =
        (.error (.raised (.ofLuaError .memory)), c') ∧
      c'.heap = c.heap.setTable r { c.heap.table r with
        array := (c.heap.table r).array.set 0 v } := by
  have hset := rawsetTracked_set h le_rfl hlength hv
  rw [if_pos hover] at hset
  obtain ⟨t', c', happly, -⟩ | ⟨e, t', c', happly, hrun, hheap⟩ :=
    Vm.rawset_cases r (arrayKey 1) v c
  · simp only [LuaTable.apply, LuaTable.rawset, hset] at happly
    cases happly
  · simp only [LuaTable.apply, LuaTable.rawset, hset] at happly
    cases happly
    exact ⟨c', by rw [Vm.writeBack, Exec.run_bind_error hrun], hheap⟩

end WriteBack

namespace Run

variable {H : Type}

/-- The heap that the values of a run live in. -/
def heapOf (s : System H) : Heap := s.machine.core.heap

theorem run_embed_lift {α : Type} (m : Vm α) (s : System H) :
    (embed (Engine.lift m)).run s = ((m.run s.machine.core).1,
      { s with machine := { s.machine with core := (m.run s.machine.core).2 } }) := rfl

/-- The gas that a sort of so many values charges. -/
def sortGas (n : Nat) : Nat := n * Vm.ceilLog2 (n + 1)

/-- The state once the gas for the sort of so many values is charged. -/
def charged (s : System H) (n : Nat) : System H :=
  { s with machine := { s.machine with core := { s.machine.core with
    gas := { s.machine.core.gas with remaining := s.machine.core.gas.remaining - sortGas n } } } }

section Sorting

variable {program : CompiledProgram} {inner : Run H LuaValue} {s : System H} {r : TableRef}
  {args : List LuaValue}

/-- A sort of two elements at least: the charge, the comparisons, and the writes. -/
theorem run_doTableSort (hargs : args.head? = some (.table r))
    (h : ((heapOf s).table r).Wf) (hlength : 2 ≤ ((heapOf s).table r).length)
    (hgas : sortGas ((heapOf s).table r).length ≤ s.machine.core.gas.remaining) :
    (doTableSort program inner args).run s =
      (sortValues program inner args ((heapOf s).table r).array >>= fun sorted =>
        embed (Engine.lift (Vm.writeBack r 1 sorted))).run
          (charged s ((heapOf s).table r).length) := by
  have htable : sortTable args = .ok r := by rw [sortTable, hargs]
  have hread : (embed (Engine.lift (Vm.getTable r)) : Run H _).run s =
    (.ok ((heapOf s).table r), s) := rfl
  have hcharge : (embed (Engine.charge (sortGas ((heapOf s).table r).length)) : Run H _).run s =
      (.ok (), charged s ((heapOf s).table r).length) := by
    rw [Engine.charge, run_embed_lift, Vm.run_charge_ok hgas]
    rfl
  have hvalues : (embed (Engine.lift (Vm.arrayValues r ((heapOf s).table r).length)) :
      Run H _).run (charged s ((heapOf s).table r).length) =
        (.ok ((heapOf s).table r).array, charged s ((heapOf s).table r).length) := by
    have hrun : (Vm.arrayValues r ((heapOf s).table r).length).run
        (charged s ((heapOf s).table r).length).machine.core =
      (.ok (Vm.valuesFrom ((heapOf s).table r) 1 ((heapOf s).table r).length),
        (charged s ((heapOf s).table r).length).machine.core) := rfl
    rw [run_embed_lift, hrun, valuesFrom_length h]
  have hfound : (embed (Engine.lift (Vm.liftError (sortTable args))) : Run H _).run s =
    (.ok r, s) := by
    rw [htable]
    rfl
  rw [doTableSort, Exec.run_bind_ok hfound, Exec.run_bind_ok hread]
  dsimp only
  rw [if_neg (by omega)]
  exact (Exec.run_bind_ok hcharge).trans (Exec.run_bind_ok hvalues)

/-- A sort that cannot be paid for leaves everything as it is. -/
theorem run_doTableSort_unpaid (hargs : args.head? = some (.table r))
    (hlength : 2 ≤ ((heapOf s).table r).length)
    (hgas : ¬sortGas ((heapOf s).table r).length ≤ s.machine.core.gas.remaining) :
    ∃ s', (doTableSort program inner args).run s = (.error (.raised .gasExhausted), s') ∧
      heapOf s' = heapOf s := by
  have htable : sortTable args = .ok r := by rw [sortTable, hargs]
  have hread : (embed (Engine.lift (Vm.getTable r)) : Run H _).run s =
    (.ok ((heapOf s).table r), s) := rfl
  have hfound : (embed (Engine.lift (Vm.liftError (sortTable args))) : Run H _).run s =
    (.ok r, s) := by
    rw [htable]
    rfl
  have hcharge : ∃ s', (embed (Engine.charge (sortGas ((heapOf s).table r).length)) :
      Run H _).run s = (.error (.raised .gasExhausted), s') ∧ heapOf s' = heapOf s := by
    rw [Engine.charge, run_embed_lift, Vm.run_charge, if_pos (not_le.mp hgas)]
    exact ⟨_, rfl, rfl⟩
  obtain ⟨s', hrun, hheap⟩ := hcharge
  refine ⟨s', ?_, hheap⟩
  rw [doTableSort, Exec.run_bind_ok hfound, Exec.run_bind_ok hread]
  dsimp only
  rw [if_neg (by omega)]
  exact Exec.run_bind_error hrun

end Sorting

end Run

end Proveno
