import Proveno.Vm.TableSort
import Proveno.Vm.Engine

/-! When `table.sort` keeps its promises for a table: what it leaves of the table when it
succeeds and when it fails. -/

namespace Proveno

open LuaValue Run

/-- Computations that lead from states with a property to such states. -/
def Exec.Keeps {ε S α : Type} (I : S → Prop) (m : Exec ε S α) : Prop := ∀ s, I s → I (m.run s).2

theorem mergeSort_keeps {ε S α : Type} {less : α → α → Exec ε S Bool} {I : S → Prop}
    (h : ∀ a b, Exec.Keeps I (less a b)) (fuel : Nat) (arr : List α) :
    Exec.Keeps I (mergeSort less fuel arr) := by
  refine mergeSort_closed (Q := fun {β} (m : Exec ε S β) => Exec.Keeps I m) (fun _ _ hs => hs) ?_
    (fun a b => h a b) fuel arr
  intro _ _ m f hm hf s hs
  have hmid := hm s hs
  rw [Exec.run_bind]
  rcases hrun : m.run s with ⟨e | a, s'⟩
  · rwa [hrun] at hmid
  · rw [hrun] at hmid
    exact hf a s' hmid

/-- A sort by the order of the values: it succeeds for integers and for strings, and leaves them
in order; else nothing changes. -/
def SortsByDefault (t : LuaTable LuaValue) : Prop :=
  ∀ {H : Type} [HostInterface H] (program : CompiledProgram) (fuel : Nat) (args : List LuaValue)
    (s : System H) (r : TableRef), r < (heapOf s).tables.length → (heapOf s).table r = t →
    args.head? = some (.table r) → (args[1]? = none ∨ args[1]? = some .nil) →
    sortGas t.length ≤ s.machine.core.gas.remaining →
    match (doTableSort program (runFrame (runInner program fuel)) args).run s with
    | (.ok (), s') => Sortable t.array ∧ ∃ vs : List LuaValue, vs.Perm t.array ∧
        vs.Pairwise NotAbove ∧ heapOf s' = (heapOf s).setTable r { t with array := vs }
    | (.error _, s') => ¬Sortable t.array ∧ heapOf s' = heapOf s

/-- A sort by a comparator that does not modify the table: when it succeeds it leaves a
permutation, and else the table as it was. -/
def SortsByComparator (t : LuaTable LuaValue) : Prop :=
  ∀ {H : Type} [HostInterface H] (program : CompiledProgram) (fuel : Nat) (args : List LuaValue)
    (comp : LuaValue) (s : System H) (r : TableRef) (I : System H → Prop),
    r < (heapOf s).tables.length → (∀ s, I s → (heapOf s).table r = t) →
    args.head? = some (.table r) → args[1]? = some comp → comp ≠ .nil →
    (∀ a b, Exec.Keeps I (callComparator program (runFrame (runInner program fuel)) comp a b)) →
    (heapOf s).table r = t → I (charged s t.length) →
    match (doTableSort program (runFrame (runInner program fuel)) args).run s with
    | (.ok (), s') => ∃ vs : List LuaValue, vs.Perm t.array ∧
        (heapOf s').table r = { t with array := vs }
    | (.error _, s') => (heapOf s').table r = t

def Sorts (t : LuaTable LuaValue) : Prop := SortsByDefault t ∧ SortsByComparator t

section Outcomes

variable {t : LuaTable LuaValue} {r : TableRef}

/-- Within the cap all values are written back. -/
theorem writeBack_all (h : t.Wf) (hcap : t.entryCount ≤ maxTableEntries)
    {vs : List LuaValue} (hperm : vs.Perm t.array) {c : Core} (hr : r < c.heap.tables.length)
    (ht : c.heap.table r = t) :
    ∃ c', (Vm.writeBack r 1 vs).run c = (.ok (), c') ∧
      c'.heap = c.heap.setTable r { t with array := vs } := by
  subst ht
  have hlength : vs.length = (c.heap.table r).length := hperm.length_eq
  obtain ⟨c', hrun, hheap⟩ := writeBack_run vs
    (fun v hv => h.arrayNotNil v (hperm.mem_iff.mp hv)) 0 hr h hcap (by omega)
  refine ⟨c', hrun, ?_⟩
  rw [hheap, List.take_zero, List.nil_append, Nat.zero_add, List.drop_of_length_le hlength.ge,
    List.append_nil]

/-- A write-back over the cap changes the first element at most. -/
theorem writeBack_first (h : t.Wf) (hover : maxTableEntries < t.entryCount)
    (hlength : 2 ≤ t.length) {vs : List LuaValue} (hperm : vs.Perm t.array) {c : Core}
    (ht : c.heap.table r = t) :
    ∃ v ∈ t.array, vs.head? = some v ∧ ∃ e c', (Vm.writeBack r 1 vs).run c = (.error e, c') ∧
      c'.heap = c.heap.setTable r { t with array := t.array.set 0 v } := by
  subst ht
  cases vs with
  | nil =>
    have hzero : (c.heap.table r).array = [] := hperm.nil_eq.symm
    rw [LuaTable.length, hzero] at hlength
    cases hlength
  | cons v rest =>
    have hmem := hperm.mem_iff.mp (List.mem_cons_self (a := v))
    obtain ⟨c', hrun, hheap⟩ := writeBack_over rest (h.arrayNotNil v hmem) h hover
      (by omega)
    exact ⟨v, hmem, rfl, _, c', hrun, hheap⟩

end Outcomes

section Default

variable {t : LuaTable LuaValue}

/-- The values of a sort by their own order, aside. -/
theorem run_sortValues_default {H : Type} {program : CompiledProgram} {inner : Run H LuaValue}
    {args : List LuaValue} (hargs : args[1]? = none ∨ args[1]? = some .nil) (arr : List LuaValue) :
    sortValues program inner args arr =
      embed (Engine.lift (mergeSort Vm.defaultLess arr.length arr)) := by
  unfold sortValues
  rcases hargs with hargs | hargs
  · rw [hargs]
  · rw [hargs]

theorem sortsByDefault (h : t.Wf) (hlength : 2 ≤ t.length)
    (hcond : t.entryCount ≤ maxTableEntries ∨ ¬Sortable t.array) : SortsByDefault t := by
  intro H _ program fuel args s r hr ht hargs hnone hgas
  subst ht
  rw [run_doTableSort hargs h hlength hgas, run_sortValues_default hnone]
  let c := (charged s ((heapOf s).table r).length).machine.core
  have hheap := heap_mergeSort ((heapOf s).table r).array.length ((heapOf s).table r).array c
  rcases hrun : (mergeSort Vm.defaultLess ((heapOf s).table r).array.length
      ((heapOf s).table r).array).run c with ⟨e | sorted, c'⟩
  · rw [hrun] at hheap
    rw [Exec.run_bind, run_embed_lift, hrun]
    refine ⟨fun hsortable => ?_, hheap⟩
    obtain ⟨out, hok, -⟩ := mergeSort_sortable hsortable c
    rw [hrun] at hok
    cases hok
  · rw [hrun] at hheap
    have hsortable := (sortable_of_mergeSort _ le_rfl hrun).resolve_left (by
      rw [← LuaTable.length]
      omega)
    have hcap := hcond.resolve_right (not_not.mpr hsortable)
    obtain ⟨out, hok, hsorted⟩ := mergeSort_sortable hsortable c
    rw [hrun] at hok
    obtain rfl : sorted = out := Except.ok.inj (Prod.mk.inj hok).1
    have hperm := mergeSort_perm _ hrun
    have htable : c'.heap.table r = (heapOf s).table r := congrArg (Heap.table · r) hheap
    have hr' : r < c'.heap.tables.length := by
      rw [hheap]
      exact hr
    obtain ⟨c'', hwrite, hheap'⟩ := writeBack_all h hcap hperm hr' htable
    rw [Exec.run_bind, run_embed_lift, hrun]
    dsimp only
    rw [run_embed_lift, hwrite]
    exact ⟨hsortable, sorted, hperm, hsorted, hheap'.trans (congrArg (Heap.setTable · r _) hheap)⟩

end Default

section Comparator

variable {t : LuaTable LuaValue}

theorem lt_of_length {h : Heap} {r : TableRef} (hlength : 0 < (h.table r).length) :
    r < h.tables.length := by
  by_contra hr
  rw [Heap.table, List.getD_eq_getElem?_getD, List.getElem?_eq_none (not_lt.mp hr)] at hlength
  cases hlength

theorem run_sortValues_comparator {H : Type} {program : CompiledProgram} {inner : Run H LuaValue}
    {args : List LuaValue} {comp : LuaValue} (hargs : args[1]? = some comp) (hcomp : comp ≠ .nil)
    (arr : List LuaValue) :
    sortValues program inner args arr =
      mergeSort (callComparator program inner comp) arr.length arr := by
  unfold sortValues
  rw [hargs]
  cases comp with
  | nil => exact absurd rfl hcomp
  | _ => rfl

theorem set_head_eq {v : LuaValue} {vs : List LuaValue} (h : ∀ w ∈ vs, w = v) : vs.set 0 v = vs := by
  cases vs with
  | nil => rfl
  | cons w rest => rw [List.set_cons_zero, h w List.mem_cons_self]

theorem sortsByComparator (h : t.Wf) (hlength : 2 ≤ t.length)
    (hcond : t.entryCount ≤ maxTableEntries ∨ ∃ v, ∀ w ∈ t.array, w = v) :
    SortsByComparator t := by
  intro H _ program fuel args comp s r I hr hI hargs hcomp hne hkeeps ht hs
  subst ht
  by_cases hgas : sortGas ((heapOf s).table r).length ≤ s.machine.core.gas.remaining
  · rw [run_doTableSort hargs h hlength hgas, run_sortValues_comparator hcomp hne]
    have hsort := mergeSort_keeps hkeeps ((heapOf s).table r).array.length
      ((heapOf s).table r).array (charged s ((heapOf s).table r).length) hs
    rcases hrun : (mergeSort
        (callComparator program (runFrame (runInner program fuel)) comp)
        ((heapOf s).table r).array.length ((heapOf s).table r).array).run
          (charged s ((heapOf s).table r).length) with ⟨e | sorted, s'⟩
    · rw [hrun] at hsort
      rw [Exec.run_bind, hrun]
      exact hI s' hsort
    · rw [hrun] at hsort
      rw [Exec.run_bind, hrun]
      dsimp only
      have htable : s'.machine.core.heap.table r = (heapOf s).table r := hI s' hsort
      have hperm := mergeSort_perm _ hrun
      have hr' : r < s'.machine.core.heap.tables.length :=
        lt_of_length (by rw [htable]; omega)
      by_cases hcap : ((heapOf s).table r).entryCount ≤ maxTableEntries
      · obtain ⟨c', hwrite, hheap⟩ := writeBack_all h hcap hperm hr' htable
        rw [run_embed_lift, hwrite]
        refine ⟨sorted, hperm, ?_⟩
        have hself := Heap.table_setTable_self hr' { (heapOf s).table r with array := sorted }
        exact (congrArg (Heap.table · r) hheap).trans hself
      · obtain ⟨v, hv⟩ := hcond.resolve_left hcap
        obtain ⟨w, hw, -, e, c', hwrite, hheap⟩ :=
          writeBack_first h (not_le.mp hcap) hlength hperm htable
        rw [run_embed_lift, hwrite]
        have hself := Heap.table_setTable_self hr'
          { (heapOf s).table r with array := ((heapOf s).table r).array.set 0 w }
        refine ((congrArg (Heap.table · r) hheap).trans hself).trans ?_
        rw [hv w hw, set_head_eq hv]
  · obtain ⟨s', hrun, hheap⟩ := run_doTableSort_unpaid hargs hlength hgas
    rw [hrun]
    exact congrArg (Heap.table · r) hheap

end Comparator

end Proveno
