import Proveno.Types.TableCap
import Proveno.Vm.ComparatorRun

/-! `table.sort` keeps its promises for the tables within the entry cap, and for those over it
whose sort never gets to write, or writes what is there already. -/

namespace Proveno

open LuaValue Run

variable {t : LuaTable LuaValue}

/-- A machine whose first table and first captured variable are these. -/
def comparing (t : LuaTable LuaValue) (u : LuaValue) (gas : Nat) : System NoopHost :=
  { System.plain .default with
    machine := { (System.plain .default).machine with
      core := .fresh ⟨64, true, 2 ^ 32⟩ gas MemoryMeter.u64Max ⟨[t], [u]⟩
      frames := [⟨0, 0, 0, [], 1⟩] } }

section Default

theorem sortsByDefault_cond (h : t.Wf) (hlength : 2 ≤ t.length) (hsorts : SortsByDefault t) :
    t.entryCount ≤ maxTableEntries ∨ ¬Sortable t.array := by
  by_contra hnot
  obtain ⟨hover, hsortable⟩ := not_or.mp hnot
  rw [not_not] at hsortable
  rw [not_le] at hover
  let s := comparing t .nil (sortGas t.length)
  have htable : (heapOf s).table 0 = t := rfl
  have hout := hsorts apartProgram 0 [.table 0] s 0 Nat.one_pos rfl rfl (.inl rfl) le_rfl
  obtain ⟨out, hok, -⟩ := mergeSort_sortable hsortable (charged s t.length).machine.core
  have hcharged : (charged s t.length).machine.core.heap.table 0 = t := rfl
  obtain ⟨v, -, -, e, c', hwrite, -⟩ := writeBack_first (r := 0) h hover hlength
    (mergeSort_perm _ hok) hcharged
  have hrun : (doTableSort apartProgram (runFrame (runInner apartProgram 0)) [.table 0]).run s =
      _ := run_doTableSort (r := 0) rfl h hlength le_rfl
  rw [run_sortValues_default (.inl rfl), htable, Exec.run_bind, run_embed_lift, hok] at hrun
  dsimp only at hrun
  rw [run_embed_lift, hwrite] at hrun
  rw [hrun] at hout
  exact hout.1 hsortable

end Default

section Comparator

/-- The comparator leaves all as it is, whether it answers or fails. -/
theorem keeps_apart (fuel : Nat) (heap : Heap) (a b : LuaValue) :
    Exec.Keeps (fun s : System NoopHost => heapOf s = heap ∧ s.machine.frames ≠ [])
      (callComparator apartProgram (runFrame (runInner apartProgram (fuel + 5))) apartComparator
        a b) := by
  rintro s ⟨hheap, hrunning⟩
  obtain ⟨f, rest, hframes⟩ := List.exists_cons_of_ne_nil hrunning
  have hs : System.Sits ⟨False, heap⟩ (f :: rest) (s.machine.stack.map OwnedSlot.slot) (0 + 9) s :=
    ⟨hheap, hframes, hrunning, rfl, False.elim, False.elim⟩
  have hmeets := attains_apart fuel a b s hs
  rcases hrun : (callComparator apartProgram (runFrame (runInner apartProgram (fuel + 5)))
    apartComparator a b).run s with ⟨e | out, s'⟩
  · rw [hrun] at hmeets
    exact ⟨hmeets.heap, hmeets.running⟩
  · rw [hrun] at hmeets
    exact ⟨hmeets.2.heap, hmeets.2.running⟩

/-- With ample gas the comparator answers as often as the sort asks. -/
theorem answers_apart (fuel : Nat) (heap : Heap) (f : CallFrame) :
    Answers (S := System NoopHost)
      (callComparator apartProgram (runFrame (runInner apartProgram (fuel + 5))) apartComparator)
      (fun a _ => heap.cell 0 != a) (fun _ => True)
      fun n => System.Sits ⟨True, heap⟩ [f] [] (9 * n) := by
  intro n a b s _ _ hs
  exact (attains_apart fuel a b).run (fun _ h => h.short trivial) hs

theorem sortsByComparator_cond (h : t.Wf) (hlength : 2 ≤ t.length) (hsorts : SortsByComparator t) :
    t.entryCount ≤ maxTableEntries ∨ ∃ v, ∀ w ∈ t.array, w = v := by
  by_contra hnot
  obtain ⟨hover, hdiffer⟩ := not_or.mp hnot
  rw [not_le] at hover
  obtain ⟨x, rest, hx⟩ := List.exists_cons_of_length_pos (show 0 < t.array.length from
    Nat.zero_lt_two.trans_le hlength)
  obtain ⟨w, hw, hwx⟩ : ∃ w ∈ t.array, w ≠ x := by
    by_contra hall
    exact hdiffer ⟨x, fun w hw => by_contra fun hwx => hall ⟨w, hw, hwx⟩⟩
  let comparisons := 9 * (t.array.length * t.array.length)
  let s := comparing t x (sortGas t.length + comparisons)
  have htable : (heapOf s).table 0 = t := rfl
  have hout := hsorts apartProgram 5 [.table 0, apartComparator] apartComparator s 0
    (fun s => heapOf s = ⟨[t], [x]⟩ ∧ s.machine.frames ≠ []) Nat.one_pos
    (fun s hs => by rw [hs.1]; rfl) rfl rfl nofun (keeps_apart 0 _) rfl
    ⟨rfl, List.cons_ne_nil _ _⟩
  have hmono : ∀ n (s : System NoopHost), System.Sits ⟨True, ⟨[t], [x]⟩⟩ [⟨0, 0, 0, [], 1⟩] []
      (9 * (n + 1)) s → System.Sits ⟨True, ⟨[t], [x]⟩⟩ [⟨0, 0, 0, [], 1⟩] [] (9 * n) s :=
    fun n s hs => ⟨hs.heap, hs.frames, hs.running, hs.slots,
      fun hample => (Nat.mul_le_mul_left 9 n.le_succ).trans (hs.gas hample), hs.mem⟩
  have hstart : System.Sits ⟨True, ⟨[t], [x]⟩⟩ [⟨0, 0, 0, [], 1⟩] []
      (9 * (t.array.length * t.array.length + 0)) (charged s t.length) :=
    ⟨rfl, rfl, List.cons_ne_nil _ _, rfl, fun _ => by
      change comparisons ≤ sortGas t.length + comparisons - sortGas t.length
      omega, fun _ => rfl⟩
  obtain ⟨s', hok, hs'⟩ := mergeSort_run (answers_apart 0 ⟨[t], [x]⟩ ⟨0, 0, 0, [], 1⟩) hmono
    t.array.length (fun _ _ => trivial) hstart
  have hless : ∀ a b : LuaValue, ((⟨[t], [x]⟩ : Heap).cell 0 != a) = true ↔ a ≠ x :=
    fun a _ => bne_iff_ne.trans ne_comm
  obtain ⟨a, others, hsorted, hax⟩ := head_sortBy_ne hless t.array.length le_rfl ⟨w, hw, hwx⟩
  have hsortedTable : s'.machine.core.heap.table 0 = t := by
    rw [hs'.heap]
    rfl
  obtain ⟨v, -, hv, e, c', hwrite, hheap⟩ := writeBack_first (r := 0) h hover hlength
    (mergeSort_perm _ hok) hsortedTable
  rw [hsorted, List.head?_cons] at hv
  obtain rfl : a = v := Option.some.inj hv
  have hrun : (doTableSort apartProgram (runFrame (runInner apartProgram 5))
      [.table 0, apartComparator]).run s = _ :=
    run_doTableSort (r := 0) rfl h hlength (Nat.le_add_right _ _)
  have hcomp : ([.table 0, apartComparator] : List LuaValue)[1]? = some apartComparator := rfl
  rw [run_sortValues_comparator hcomp nofun, htable, Exec.run_bind_ok hok, run_embed_lift,
    hwrite] at hrun
  rw [hrun] at hout
  have hkept : (c'.heap.table 0).array = t.array := congrArg LuaTable.array hout
  have hone : 0 < s'.machine.core.heap.tables.length := by
    rw [hs'.heap]
    exact Nat.one_pos
  rw [hheap, Heap.table_setTable_self hone, hx, List.set_cons_zero] at hkept
  exact hax (List.cons.inj hkept).1

end Comparator

/-- Both forms of `table.sort` keep their promises exactly for the tables that are within the
cap, and for those that are over it and have equal elements that are not to be sorted. -/
theorem sorts_iff (ht : t.Reachable) (hlength : 2 ≤ t.length) :
    Sorts t ↔ t.entryCount ≤ maxTableEntries ∨
      ¬Sortable t.array ∧ ∃ v, ∀ w ∈ t.array, w = v := by
  have h := ht.wf
  constructor
  · rintro ⟨hdefault, hcomparator⟩
    exact (or_and_left).mpr ⟨sortsByDefault_cond h hlength hdefault,
      sortsByComparator_cond h hlength hcomparator⟩
  · intro hcond
    exact ⟨sortsByDefault h hlength (hcond.imp_right And.left),
      sortsByComparator h hlength (hcond.imp_right And.right)⟩

theorem sorts_iff_tenTwenty : Sorts LuaTable.tenTwenty ↔
    LuaTable.tenTwenty.entryCount ≤ maxTableEntries ∨
      ¬Sortable LuaTable.tenTwenty.array ∧ ∃ v, ∀ w ∈ LuaTable.tenTwenty.array, w = v :=
  sorts_iff LuaTable.tenTwenty_reachable (by decide)

section Overfull

open LuaTable

/-- Zeros, as many as the cap allows. -/
def zeros : LuaTable LuaValue :=
  new.afterAll (writes (arrayEntries 0 (List.replicate maxTableEntries (.integer 0))))

theorem zeros_eq :
    zeros = ⟨List.replicate maxTableEntries (.integer 0), [], maxTableEntries, 0⟩ :=
  afterAll_replicate le_rfl rfl

/-- The write of one entry more fails, and stays. -/
theorem exists_overfull (ht : t.Reachable) (hfull : t.entryCount = maxTableEntries)
    (hhash : t.hash = []) :
    ∃ t' : LuaTable LuaValue, t'.Reachable ∧ t'.array = t.array ∧
      maxTableEntries < t'.entryCount := by
  have hstored : (t.rawsetTracked (.string (ascii "x")) (.boolean true)).2 =
      (t.storeHash (.string (ascii "x")) (.boolean true)).2 := rawsetTracked_stored t nofun rfl
  refine ⟨_, ht.rawset (.string (ascii "x")) (.boolean true), ?_, ?_⟩
  · rw [hstored, array_storeHash]
  · rw [hstored, entryCount_storeHash, hhash, hfull]
    exact Nat.lt_succ_self _

theorem zeros_not_sort : ¬∀ t : LuaTable LuaValue, t.Reachable → 2 ≤ t.length → Sorts t := by
  intro hall
  have hzeros : zeros.Reachable := reachable_afterAll .new _
  obtain ⟨t, ht, harray, hover⟩ := exists_overfull hzeros (by rw [zeros_eq]) (by rw [zeros_eq])
  rw [zeros_eq] at harray
  have hlength : 2 ≤ t.length := by
    rw [LuaTable.length, harray, List.length_replicate, maxTableEntries]
    omega
  rcases sortsByDefault_cond ht.wf hlength (hall t ht hlength).1 with hcap | hnot
  · omega
  · refine hnot (.inl fun v hv => ?_)
    rw [harray] at hv
    exact ⟨0, List.eq_of_mem_replicate hv⟩

end Overfull

end Proveno
