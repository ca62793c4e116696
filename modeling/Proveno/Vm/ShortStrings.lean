import Proveno.Lib.Triple
import Proveno.Types.TableContents
import Proveno.Vm.Builtins

/-! A region of the heap all of whose strings are short, and the computations that keep it so. -/

namespace Proveno

/-- A string is a value, or is stored in a table within it, as a key or in a value. -/
inductive Occurs (h : Heap) : LuaValue → Bytes → Prop
  | here (s : Bytes) : Occurs h (.string s) s
  | key {r : TableRef} {s : Bytes} {v : LuaValue} (he : (.string s, v) ∈ (h.table r).hash) :
      Occurs h (.table r) s
  | element {r : TableRef} {v : LuaValue} {s : Bytes} (hv : v ∈ (h.table r).array)
      (hs : Occurs h v s) : Occurs h (.table r) s
  | entry {r : TableRef} {e : LuaKey × LuaValue} {s : Bytes} (he : e ∈ (h.table r).hash)
      (hs : Occurs h e.2 s) : Occurs h (.table r) s

namespace Vm

/-- No string in the value is longer than a string may be. -/
def Capped (h : Heap) (v : LuaValue) : Prop := ∀ s, Occurs h v s → s.length ≤ maxStringLen

def ShortKey : LuaKey → Prop
  | .string s => s.length ≤ maxStringLen
  | _ => True

/-- A short string, or a table of the region. -/
def Short (R : TableRef → Prop) : LuaValue → Prop
  | .string s => s.length ≤ maxStringLen
  | .table r => R r
  | _ => True

/-- The tables of the region hold short strings and tables of the region; tables yet to come
belong to it. -/
structure Region (R : TableRef → Prop) (h : Heap) : Prop where
  closed : ∀ r, R r → (h.table r).Holds ShortKey (Short R)
  fresh : ∀ r, h.tables.length ≤ r → R r

variable {R : TableRef → Prop} {h : Heap} {v : LuaValue} {vs ws : List LuaValue}

theorem Region.capped (hregion : Region R h) (hv : Short R v) : Capped h v := by
  intro s hs
  induction hs with
  | here s => exact hv
  | key he => exact (hregion.closed _ hv).keys _ he
  | element hmem _ ih => exact ih ((hregion.closed _ hv).array _ hmem)
  | entry he _ ih => exact ih ((hregion.closed _ hv).values _ he)

/-- The tables all of whose strings are short. -/
theorem region_capped (h : Heap) : Region (fun r => Capped h (.table r)) h := by
  have hshort {v : LuaValue} (hv : Capped h v) : Short (fun r => Capped h (.table r)) v := by
    cases v with
    | string s => exact hv s (.here s)
    | table r => exact hv
    | _ => trivial
  refine ⟨fun r hr => ⟨fun v hv => ?_, fun e he => ?_, fun e he => ?_⟩, fun r hr s hs => ?_⟩
  · exact hshort fun s hs => hr s (.element hv hs)
  · obtain ⟨k, v⟩ := e
    cases k with
    | string s => exact hr s (.key he)
    | _ => trivial
  · exact hshort fun s hs => hr s (.entry he hs)
  · have hnew : h.table r = LuaTable.new := by
      rw [Heap.table, List.getD_eq_getElem?_getD, List.getElem?_eq_none hr]
      rfl
    cases hs with
    | key he => rw [hnew] at he; cases he
    | element hv => rw [hnew] at hv; cases hv
    | entry he => rw [hnew] at he; cases he

theorem Short.of_capped (hv : Capped h v) : Short (fun r => Capped h (.table r)) v := by
  cases v with
  | string s => exact hv s (.here s)
  | table r => exact hv
  | _ => trivial

theorem Region.setTable (hregion : Region R h) (r : TableRef) {t : LuaTable LuaValue}
    (ht : R r → t.Holds ShortKey (Short R)) : Region R (h.setTable r t) := by
  refine ⟨fun r' hr' => ?_, fun r' hr' => hregion.fresh r' ?_⟩
  · rw [Heap.table_setTable]
    split_ifs with heq
    · exact ht (heq.1 ▸ hr')
    · exact hregion.closed r' hr'
  · rwa [Heap.setTable, List.length_set] at hr'

theorem Region.allocTable (hregion : Region R h) : Region R (h.allocTable LuaTable.new).2 := by
  have htable (r : TableRef) : (h.allocTable LuaTable.new).2.table r = h.table r := by
    rw [Heap.allocTable, Heap.table, Heap.table, List.getD_eq_getElem?_getD,
      List.getD_eq_getElem?_getD, List.getElem?_append]
    split_ifs with hlt
    · rfl
    · rw [List.getElem?_eq_none (Nat.le_of_not_lt hlt), List.getElem?_singleton]
      split_ifs <;> rfl
  refine ⟨fun r hr => ?_, fun r hr => hregion.fresh r ?_⟩
  · rw [htable]
    exact hregion.closed r hr
  · rw [Heap.allocTable, List.length_append] at hr
    exact (Nat.le_add_right _ _).trans hr

/-- All of them are short. -/
def AllShort (R : TableRef → Prop) (vs : List LuaValue) : Prop := ∀ v ∈ vs, Short R v

structure Within (R : TableRef → Prop) (c : Core) : Prop where
  bits : 32 ≤ c.target.wordBits
  region : Region R c.heap

/-- What is computed from a region keeps it. -/
def Keeps {α : Type} (R : TableRef → Prop) (m : Vm α) (post : α → Prop) : Prop :=
  Exec.Meets (Within R) m (fun a c => Within R c ∧ post a) fun _ _ => True

namespace Keeps

variable {α β : Type} {m : Vm α} {a : α} {post post' : α → Prop} {post₂ : β → Prop}

theorem mono (hm : Keeps R m post) (hpost : ∀ a, post a → post' a) : Keeps R m post' :=
  Exec.Meets.mono hm (fun _ h => h) (fun a _ h => ⟨h.1, hpost a h.2⟩) fun _ _ h => h

theorem pure (ha : post a) : Keeps R (Pure.pure a) post := fun _ hc => ⟨hc, ha⟩

theorem bind {f : α → Vm β} (hm : Keeps R m post) (hf : ∀ a, post a → Keeps R (f a) post₂) :
    Keeps R (m >>= f) post₂ :=
  Exec.Meets.bind hm fun a c hc => hf a hc.2 c hc.1

theorem ite {p : Prop} [Decidable p] {f g : Vm α} (hf : p → Keeps R f post)
    (hg : ¬p → Keeps R g post) : Keeps R (if p then f else g) post := by
  split_ifs with hp
  · exact hf hp
  · exact hg hp

theorem of_error (hm : ∀ c, ∃ e c', m.run c = (.error e, c')) : Keeps R m post := by
  intro c _
  obtain ⟨e, c', hrun⟩ := hm c
  rw [hrun]
  trivial

theorem raise (e : VmError) : Keeps R (Vm.raise e : Vm α) post := .of_error fun _ => ⟨_, _, rfl⟩

theorem throw (e : Stop) : Keeps R (Exec.throw e : Vm α) post := .of_error fun _ => ⟨_, _, rfl⟩

theorem liftError (e : Except VmError α) : Keeps R (liftError e) fun a => e = .ok a := by
  cases e with
  | error e => exact .raise e
  | ok a => exact .pure rfl

theorem orPanic (o : Option α) : Keeps R (orPanic o) fun a => o = some a := by
  cases o with
  | none => exact .throw .panicked
  | some a => exact .pure rfl

theorem getTarget : Keeps R getTarget fun tgt => 32 ≤ tgt.wordBits := fun _ hc => ⟨hc, hc.bits⟩

theorem get : Keeps R (Exec.get : Vm Core) fun _ => True := fun _ hc => ⟨hc, trivial⟩

/-- A computation that leaves the heap and the target alone. -/
theorem of_heap (hm : ∀ c, (m.run c).2.heap = c.heap ∧ (m.run c).2.target = c.target) :
    Keeps R m fun _ => True := by
  intro c hc
  obtain ⟨hheap, htarget⟩ := hm c
  rcases hrun : m.run c with ⟨e | a, c'⟩
  · trivial
  · rw [hrun] at hheap htarget
    exact ⟨⟨htarget ▸ hc.bits, hheap ▸ hc.region⟩, trivial⟩

theorem charge (n : Nat) : Keeps R (charge n) fun _ => True :=
  of_heap fun c => by
    rw [run_charge]
    split_ifs <;> exact ⟨rfl, rfl⟩

theorem trackAlloc (n : Nat) : Keeps R (trackAlloc n) fun _ => True :=
  of_heap fun c => by
    rw [run_trackAlloc]
    dsimp only
    split_ifs <;> exact ⟨rfl, rfl⟩

theorem getTable (r : TableRef) :
    Keeps R (getTable r) fun t => R r → t.Holds ShortKey (Short R) :=
  fun _ hc => ⟨hc, hc.region.closed r⟩

theorem record (e : Event) : Keeps R (Vm.record e) fun _ => True := of_heap fun _ => ⟨rfl, rfl⟩

theorem getOrNil {r : TableRef} (hr : R r) (key : LuaKey) : Keeps R (getOrNil r key) (Short R) := by
  refine (Keeps.getTable r).bind fun t ht => .pure ?_
  cases hget : t.get key with
  | none => trivial
  | some v => exact (ht hr).get hget

theorem rawsetTracked {r : TableRef} {key : LuaKey} {v : LuaValue} (hkey : ShortKey key)
    (hv : Short R v) : Keeps R (rawsetTracked r key v) fun _ => True := by
  intro c hc
  have hregion : Region R (c.heap.setTable r ((c.heap.table r).rawsetTracked key v).2) :=
    hc.region.setTable r fun hr => (hc.region.closed r hr).rawsetTracked hkey hv
  have hrun : (Vm.rawsetTracked r key v).run c = (liftLua ((c.heap.table r).rawsetTracked key v).1).run
      { c with
        heap := c.heap.setTable r ((c.heap.table r).rawsetTracked key v).2
        grown := c.grown + (c.heap.table r).growth key ((c.heap.table r).rawsetTracked key v).2 } :=
    rfl
  rw [hrun]
  cases ((c.heap.table r).rawsetTracked key v).1 with
  | error e => trivial
  | ok result => exact ⟨⟨hc.bits, hregion⟩, trivial⟩

theorem rawset {r : TableRef} {key : LuaKey} {v : LuaValue} (hkey : ShortKey key)
    (hv : Short R v) : Keeps R (rawset r key v) fun _ => True :=
  (getTable r).bind fun _ _ => (record _).bind fun _ _ =>
    (rawsetTracked hkey hv).bind fun _ _ => .pure trivial

theorem rawsetCharged {r : TableRef} {key : LuaKey} {v : LuaValue} (hkey : ShortKey key)
    (hv : Short R v) : Keeps R (rawsetCharged r key v) fun _ => True := by
  refine (getTable r).bind fun _ _ => (rawsetTracked hkey hv).bind fun result _ => ?_
  unfold chargeRawsetResult
  split
  · exact .pure trivial
  · split_ifs
    · exact trackAlloc _
    · exact trackAlloc _

theorem rawremove (r : TableRef) (key : LuaKey) : Keeps R (rawremove r key) fun _ => True :=
  fun _ hc => ⟨⟨hc.bits, hc.region.setTable r fun hr => (hc.region.closed r hr).rawremove key⟩,
    trivial⟩

theorem newTable : Keeps R Json.newTable R := by
  have halloc : Keeps R (allocTable LuaTable.new) R := fun c hc =>
    ⟨⟨hc.bits, hc.region.allocTable⟩, hc.region.fresh _ le_rfl⟩
  exact halloc.bind fun r hr => (trackAlloc _).bind fun _ _ => .pure hr

end Keeps

end Vm

end Proveno
